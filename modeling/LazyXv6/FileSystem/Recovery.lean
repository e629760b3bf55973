import LazyXv6.FileSystem.Admission

/-!
# Recovery of the log

`recovered sb d` is what recovery makes of a disk `d`: the blocks that the header lists, installed.
Writing a log block, installing a block in its home location and clearing the header of an installed
transaction do not change it. The one write that does is the first `write_head` of a commit, which
adds the transaction as a whole. So the disk stands for a prefix of the transactions at any time
(`LogInv`).
-/

namespace LazyXv6.FileSystem

open Function Lib Lib.SmallFin

variable {n : ℕ}

/-! ## Headers -/

theorem Block.header_setHeader (c : Block) (lh : List ℕ) : (c.setHeader lh).header = lh := by
  refine List.ext_getElem (by simp [header, setHeader]) fun i h1 h2 => ?_
  simp [header, setHeader, h2]

theorem Block.header_eq_nil {c : Block} (h : c 0 = 0) : c.header = [] := by simp [header, h]

/-- The blocks that a header on disk lists, with their contents in the log. -/
def logged (sb : Superblock) (d : ℕ → Block) : Txn :=
  (d sb.logstart).header.mapIdx fun i b => (b, d (sb.logstart + i + 1))

/-- The disk once recovery has run. -/
def recovered (sb : Superblock) (d : ℕ → Block) : ℕ → Block := updates (logged sb d) d

def contents (base : ℕ → Block) (txns : List Txn) : ℕ → Block :=
  txns.foldl (fun d t => updates t d) base

/-- Distinct home blocks that fit the log. -/
structure HeaderOk (sb : Superblock) (lh : List ℕ) : Prop where
  nodup : lh.Nodup
  home : ∀ b ∈ lh, sb.Home b
  fits : lh.length ≤ sb.nlog - 1

section Headers

variable {sb : Superblock} {d d' : ℕ → Block} {lh : List ℕ} {b i : ℕ} {c : Block}

theorem HeaderOk.nil (sb : Superblock) : HeaderOk sb [] :=
  ⟨List.nodup_nil, nofun, Nat.zero_le _⟩

theorem not_home_logstart (hn : 1 ≤ sb.nlog) : ¬ sb.Home sb.logstart := by
  unfold Superblock.Home
  omega

theorem HeaderOk.not_home (h : HeaderOk sb lh) (hi : i < lh.length) :
    ¬ sb.Home (sb.logstart + i + 1) := by
  have hfits := h.fits
  unfold Superblock.Home
  omega

theorem logged_keys (sb : Superblock) (d : ℕ → Block) :
    (logged sb d).map Prod.fst = (d sb.logstart).header := by
  unfold logged
  exact List.ext_getElem (by simp) fun i h1 h2 => by simp

theorem mem_logged {p : ℕ × Block} (h : p ∈ logged sb d) : ∃ i,
    (d sb.logstart).header[i]? = some p.1 ∧ p.2 = d (sb.logstart + i + 1) := by
  obtain ⟨i, hi, rfl⟩ := List.mem_mapIdx.mp h
  exact ⟨i, List.getElem?_eq_getElem hi, rfl⟩

theorem logged_congr (hhead : d' sb.logstart = d sb.logstart)
    (hlog : ∀ i < (d sb.logstart).header.length,
      d' (sb.logstart + i + 1) = d (sb.logstart + i + 1)) : logged sb d' = logged sb d := by
  unfold logged
  rw [hhead]
  refine List.ext_getElem (by simp) fun i h1 h2 => ?_
  simp only [List.getElem_mapIdx]
  rw [hlog i (by simpa using h1)]

theorem recovered_of_nil (h : (d sb.logstart).header = []) : recovered sb d = d := by
  unfold recovered logged
  rw [h]
  rfl

theorem logged_eq (hhead : (d sb.logstart).header = lh) {f : ℕ → Block}
    (hlog : ∀ i b, lh[i]? = some b → d (sb.logstart + i + 1) = f b) :
    logged sb d = lh.map fun b => (b, f b) := by
  unfold logged
  rw [hhead]
  refine List.ext_getElem (by simp) fun i h1 h2 => ?_
  simp only [List.getElem_mapIdx, List.getElem_map]
  rw [hlog i _ (List.getElem?_eq_getElem (by simpa using h1))]

theorem recovered_install (hok : HeaderOk sb (d sb.logstart).header) (hn : 1 ≤ sb.nlog)
    (hb : b ∈ (d sb.logstart).header) : recovered sb (update d b c) = recovered sb d := by
  have hhome := hok.home b hb
  have hne : ∀ x, ¬ sb.Home x → x ≠ b := by
    rintro x hx rfl
    exact hx hhome
  have hsame : logged sb (update d b c) = logged sb d :=
    logged_congr (update_of_ne (hne _ (not_home_logstart hn)) ..) fun i hi =>
      update_of_ne (hne _ (hok.not_home hi)) ..
  unfold recovered
  rw [hsame]
  exact updates_update_of_mem (by rw [logged_keys]; exact hb)

theorem recovered_of_installed (h : ∀ i b, (d sb.logstart).header[i]? = some b →
    d b = d (sb.logstart + i + 1)) : recovered sb d = d := by
  refine updates_eq_self fun p hp => ?_
  obtain ⟨i, hi, hc⟩ := mem_logged hp
  rw [h i p.1 hi, hc]

end Headers

/-! ## The invariant -/

/-- A disk write is under way in `commit`. -/
def Place.writing : Place → Bool
  | .writeLog _ | .writeHead | .install _ | .clear => true
  | _ => false

/-- Recovery would leave the first `k` transactions in the home blocks. -/
def Logical (sb : Superblock) (s : Store) (k : ℕ) : Prop :=
  ∀ b, sb.Home b → recovered sb s.disk b = contents s.base (s.txns.take k) b

/-- The blocks in `log.lh` are the last transaction, and its commit has not returned. -/
def Pending (s : Store) : Prop := ∃ pre, s.txns = pre ++ [s.txn] ∧ s.returned = pre.length

/-- The first `tail` blocks of `log.lh` are in the log. -/
def InLog (sb : Superblock) (s : Store) (tail : ℕ) : Prop :=
  ∀ i b, i < tail → s.lh[i]? = some b → s.disk (sb.logstart + i + 1) = s.cache b

/-- The first `tail` blocks of `log.lh` are installed. -/
def Installed (sb : Superblock) (s : Store) (tail : ℕ) : Prop :=
  ∀ i b, i < tail → s.lh[i]? = some b → s.disk b = s.disk (sb.logstart + i + 1)

/-- The log is empty, and all transactions are on disk. -/
structure Quiet (sb : Superblock) (s : Store) : Prop where
  header : (s.disk sb.logstart).header = []
  returned : s.returned = s.txns.length
  logical : Logical sb s s.txns.length

/-- A transaction is on its way to the log. -/
structure Logging (sb : Superblock) (s : Store) (tail : ℕ) : Prop where
  pending : Pending s
  header : (s.disk sb.logstart).header = []
  inLog : InLog sb s tail
  logical : Logical sb s s.returned

/-- A transaction is in the log, and on its way to the home blocks. -/
structure Installing (sb : Superblock) (s : Store) (tail : ℕ) : Prop where
  pending : Pending s
  header : (s.disk sb.logstart).header = s.lh
  inLog : InLog sb s s.lh.length
  installed : Installed sb s tail
  logical : Logical sb s s.txns.length

/-- Recovery is on its way to the home blocks. -/
structure Recovering (sb : Superblock) (s : Store) (tail : ℕ) : Prop where
  header : (s.disk sb.logstart).header = s.lh
  installed : Installed sb s tail

def CommitInv (sb : Superblock) (s : Store) : Place → Prop
  | .writeLog tail => Logging sb s tail
  | .writeHead => Logging sb s s.lh.length
  | .install tail => Installing sb s tail
  | .clear => Installing sb s s.lh.length
  | _ => True

def BootInv (sb : Superblock) (s : Store) : Boot → Prop
  | .readHead => True
  | .install tail => Recovering sb s tail
  | .clear => Recovering sb s s.lh.length

structure StoreInv (sb : Superblock) (s : Store) : Prop where
  area : ∀ b, ¬ sb.Home b → s.cache b = s.disk b
  header : HeaderOk sb (s.disk sb.logstart).header
  lh : HeaderOk sb s.lh

/-- The disk stands for a prefix of the transactions. -/
structure LogInv (sb : Superblock) (s : State n) : Prop where
  store : StoreInv sb s.toStore
  quiet : s.boot = none → (∀ p, (s.place p).writing = false) → Quiet sb s.toStore
  commit : ∀ p, CommitInv sb s.toStore (s.place p)
  boot : ∀ b, s.boot = some b → BootInv sb s.toStore b ∧
    ∃ k, s.returned ≤ k ∧ k ≤ s.txns.length ∧ Logical sb s.toStore k

section Steps

variable {sb : Superblock} {s s' : State n} {t : Store} {a : Act n} {p q : Fin n} {pl : Place}
  {b k tail : ℕ} {c : Block}

theorem Pending.returned_le (h : Pending t) : t.returned ≤ t.txns.length := by
  obtain ⟨pre, htxns, hret⟩ := h
  rw [htxns, hret, List.length_append]
  exact Nat.le_add_right _ _

/-- **A crash finds a prefix of the transactions on disk**, with all those that returned. -/
theorem LogInv.logical (h : LogInv sb s) :
    ∃ k, s.returned ≤ k ∧ k ≤ s.txns.length ∧ Logical sb s.toStore k := by
  rcases hb : s.boot with _ | b
  · by_cases hw : ∀ p, (s.place p).writing = false
    · have hq := h.quiet hb hw
      exact ⟨_, hq.returned.le, le_rfl, hq.logical⟩
    · obtain ⟨p, hp⟩ := not_forall.mp hw
      have hinv := h.commit p
      cases hpl : s.place p with
      | writeLog | writeHead =>
        rw [hpl] at hinv
        exact ⟨_, le_rfl, Pending.returned_le hinv.1, Logging.logical hinv⟩
      | install | clear =>
        rw [hpl] at hinv
        exact ⟨_, Pending.returned_le hinv.1, le_rfl, Installing.logical hinv⟩
      | idle | inOp | commit | committed =>
        rw [hpl] at hp
        exact absurd rfl hp
  · exact (h.boot b hb).2

/-- A write outside of the header and the log blocks that it lists, and outside of the home blocks,
does not show. -/
theorem Logical.bwrite (h : Logical sb t k) (hb : ¬ sb.Home b)
    (hhead : (t.disk sb.logstart).header = []) (hne : b ≠ sb.logstart) :
    Logical sb (t.bwrite b c) k := by
  intro x hx
  have hxb : x ≠ b := by
    rintro rfl
    exact hb hx
  have hsame : (t.bwrite b c).disk sb.logstart = t.disk sb.logstart :=
    update_of_ne hne.symm ..
  rw [recovered_of_nil (by rw [hsame]; exact hhead)]
  refine (update_of_ne hxb ..).trans ?_
  show t.disk x = contents t.base (t.txns.take k) x
  rw [← h x hx, recovered_of_nil hhead]

theorem Store.txn_congr {t' : Store} (hlh : t'.lh = t.lh)
    (hcache : ∀ x ∈ t.lh, t'.cache x = t.cache x) : t'.txn = t.txn := by
  unfold txn
  rw [hlh]
  exact List.map_congr_left fun x hx => by rw [hcache x hx]

theorem Pending.congr {t' : Store} (h : Pending t) (htxns : t'.txns = t.txns)
    (hret : t'.returned = t.returned) (htxn : t'.txn = t.txn) : Pending t' := by
  obtain ⟨pre, hpre, hlen⟩ := h
  exact ⟨pre, by rw [htxns, htxn, hpre], hret.trans hlen⟩

theorem StoreInv.bwrite (h : StoreInv sb t) (b : ℕ) (c : Block) :
    ∀ x, ¬ sb.Home x → (t.bwrite b c).cache x = (t.bwrite b c).disk x := by
  intro x hx
  unfold Store.bwrite
  rcases eq_or_ne x b with rfl | hne
  · simp only [update_self]
  · simp only [update_of_ne hne]
    exact h.area x hx

theorem Logging.writeLogOne (h : Logging sb t tail) (hi : StoreInv sb t)
    (htail : t.lh[tail]? = some b) : Logging sb (t.writeLogOne sb tail b) (tail + 1) ∧
    StoreInv sb (t.writeLogOne sb tail b) := by
  obtain ⟨hlt, -⟩ := List.getElem?_eq_some_iff.mp htail
  have hnot := hi.lh.not_home hlt
  have hcache : ∀ x ∈ t.lh, (t.writeLogOne sb tail b).cache x = t.cache x := by
    intro x hx
    refine update_of_ne ?_ ..
    rintro rfl
    exact hnot (hi.lh.home _ hx)
  have hhead : (t.writeLogOne sb tail b).disk sb.logstart = t.disk sb.logstart :=
    update_of_ne (by omega) ..
  refine ⟨⟨?_, ?_, fun i x hi' hx => ?_, h.logical.bwrite hnot h.header (by omega)⟩, ?_⟩
  · exact h.pending.congr rfl rfl (Store.txn_congr rfl hcache)
  · rw [hhead]
    exact h.header
  · rw [hcache x (List.mem_of_getElem? hx)]
    rcases Nat.lt_succ_iff_lt_or_eq.mp hi' with hlt' | rfl
    · exact (update_of_ne (by omega) ..).trans (h.inLog i x hlt' hx)
    · have hbx : b = x := Option.some.inj (htail.symm.trans hx)
      rw [← hbx]
      exact update_self ..
  · exact ⟨hi.bwrite _ _, by rw [hhead]; exact hi.header, hi.lh⟩

theorem contents_append (base : ℕ → Block) (pre : List Txn) (x : Txn) :
    contents base (pre ++ [x]) = updates x (contents base pre) := List.foldl_concat ..

/-- **The first `write_head`** adds the transaction to what recovery leaves. -/
theorem Logging.writeHead (h : Logging sb t t.lh.length) (hi : StoreInv sb t) (hn : 1 ≤ sb.nlog) :
    Installing sb (t.writeHead sb) 0 ∧ StoreInv sb (t.writeHead sb) := by
  have hnot := not_home_logstart hn
  have hhead : ((t.writeHead sb).disk sb.logstart).header = t.lh := by
    unfold Store.writeHead Store.bwrite
    simp only [update_self]
    exact Block.header_setHeader ..
  have hcache : ∀ x ∈ t.lh, (t.writeHead sb).cache x = t.cache x := by
    intro x hx
    refine update_of_ne ?_ ..
    rintro rfl
    exact hnot (hi.lh.home _ hx)
  have hlog : ∀ i x, t.lh[i]? = some x →
    (t.writeHead sb).disk (sb.logstart + i + 1) = t.cache x := by
    intro i x hx
    obtain ⟨hlt, -⟩ := List.getElem?_eq_some_iff.mp hx
    exact (update_of_ne (by omega) ..).trans (h.inLog i x hlt hx)
  refine ⟨⟨?_, hhead, fun i x _ hx => ?_, nofun, fun x hx => ?_⟩, ?_⟩
  · exact h.pending.congr rfl rfl (Store.txn_congr rfl hcache)
  · rw [hlog i x hx, hcache x (List.mem_of_getElem? hx)]
  · -- the log blocks hold the transaction, the home blocks the ones before
    obtain ⟨pre, htxns, hret⟩ := h.pending
    have hold := h.logical x hx
    rw [recovered_of_nil h.header, hret, htxns, List.take_left] at hold
    have hne : x ≠ sb.logstart := by
      rintro rfl
      exact hnot hx
    have hdisk : (t.writeHead sb).disk x = t.disk x := update_of_ne hne ..
    show _ = contents t.base (t.txns.take t.txns.length) x
    unfold recovered
    rw [logged_eq hhead hlog, List.take_length, htxns, contents_append]
    exact updates_congr (.inr (hdisk.trans hold))
  · exact ⟨hi.bwrite _ _, by rw [hhead]; exact hi.lh, hi.lh⟩

theorem Recovering.installOne (h : Recovering sb t tail) (hi : StoreInv sb t) (hn : 1 ≤ sb.nlog)
    (htail : t.lh[tail]? = some b) :
    Recovering sb (t.installOne sb tail b) (tail + 1) ∧ StoreInv sb (t.installOne sb tail b) ∧
      (∀ x, ¬ sb.Home x → (t.installOne sb tail b).disk x = t.disk x) ∧
      recovered sb (t.installOne sb tail b).disk = recovered sb t.disk := by
  obtain ⟨hlt, -⟩ := List.getElem?_eq_some_iff.mp htail
  have hmem := List.mem_of_getElem? htail
  have hhome := hi.lh.home b hmem
  have hother : ∀ x, ¬ sb.Home x → (t.installOne sb tail b).disk x = t.disk x := by
    intro x hx
    refine update_of_ne ?_ ..
    rintro rfl
    exact hx hhome
  have hhead := hother _ (not_home_logstart hn)
  refine ⟨⟨?_, fun i x hi' hx => ?_⟩, ⟨hi.bwrite _ _, ?_, hi.lh⟩, hother, ?_⟩
  · rw [hhead]
    exact h.header
  · obtain ⟨hlt', hxi⟩ := List.getElem?_eq_some_iff.mp hx
    rw [hother _ (hi.lh.not_home hlt')]
    rcases Nat.lt_succ_iff_lt_or_eq.mp hi' with hlt'' | rfl
    · have hne : x ≠ b := by
        rintro rfl
        exact absurd (hi.lh.nodup.getElem_inj_iff.mp
          ((List.getElem?_eq_some_iff.mp hx).2.trans (List.getElem?_eq_some_iff.mp htail).2.symm))
          hlt''.ne
      exact (update_of_ne hne ..).trans (h.installed i x hlt'' hx)
    · have hbx : b = x := Option.some.inj (htail.symm.trans hx)
      rw [← hbx, ← hi.area _ (hi.lh.not_home hlt)]
      exact update_self ..
  · rw [hhead]
    exact hi.header
  · exact recovered_install hi.header hn (by rw [h.header]; exact hmem)

theorem Installing.recovering (h : Installing sb t tail) : Recovering sb t tail :=
  ⟨h.header, h.installed⟩

theorem Installing.installOne (h : Installing sb t tail) (hi : StoreInv sb t) (hn : 1 ≤ sb.nlog)
    (htail : t.lh[tail]? = some b) : Installing sb (t.installOne sb tail b) (tail + 1) ∧
      StoreInv sb (t.installOne sb tail b) := by
  obtain ⟨hrec, hinv, hother, hsame⟩ := h.recovering.installOne hi hn htail
  obtain ⟨hlt, -⟩ := List.getElem?_eq_some_iff.mp htail
  -- the block in the cache is the one in the log
  have hcache : (t.installOne sb tail b).cache = t.cache := by
    show update t.cache b (t.cache (sb.logstart + tail + 1)) = t.cache
    rw [hi.area _ (hi.lh.not_home hlt), h.inLog tail b hlt htail, update_eq_self]
  refine ⟨⟨?_, hrec.header, fun i x hi' hx => ?_, hrec.installed, fun x hx => ?_⟩, hinv⟩
  · exact h.pending.congr rfl rfl (Store.txn_congr rfl fun x _ => by rw [hcache])
  · rw [hother _ (hi.lh.not_home (List.getElem?_eq_some_iff.mp hx).1), hcache]
    exact h.inLog i x hi' hx
  · rw [hsame]
    exact h.logical x hx

theorem Recovering.clear (h : Recovering sb t t.lh.length) (hi : StoreInv sb t)
    (hn : 1 ≤ sb.nlog) (t' : Store) (hdisk : t'.disk = ({ t with lh := [] }.writeHead sb).disk)
    (hcache : t'.cache = ({ t with lh := [] }.writeHead sb).cache) (hlh : t'.lh = []) :
    StoreInv sb t' ∧ t'.disk sb.logstart 0 = 0 ∧
      ∀ x, sb.Home x → t'.disk x = recovered sb t.disk x := by
  have hn0 : t'.disk sb.logstart 0 = 0 := by
    rw [hdisk]
    unfold Store.writeHead Store.bwrite
    simp only [update_self]
    rfl
  have hhead := Block.header_eq_nil hn0
  refine ⟨⟨?_, by rw [hhead]; exact .nil sb, by rw [hlh]; exact .nil sb⟩, hn0, fun x hx => ?_⟩
  · rw [hdisk, hcache]
    exact StoreInv.bwrite (t := { t with lh := [] }) ⟨hi.area, hi.header, .nil sb⟩ _ _
  · have hne : x ≠ sb.logstart := by
      rintro rfl
      exact not_home_logstart hn hx
    rw [hdisk, recovered_of_installed fun i y hy => ?_]
    · exact update_of_ne hne ..
    · rw [h.header] at hy
      exact h.installed i y (List.getElem?_eq_some_iff.mp hy).1 hy

theorem commitInv_of_not_writing (h : pl.writing = false) : CommitInv sb t pl := by
  cases pl with
  | writeLog | writeHead | install | clear => exact nomatch h
  | idle | inOp | commit | committed => exact trivial

theorem Place.isCommit_of_writing (h : pl.writing = true) : pl.isCommit = true := by
  cases pl with
  | writeLog | writeHead | install | clear => rfl
  | idle | inOp | commit | committed => exact nomatch h

theorem LogInv.move (h : LogInv sb s) (hstore : s'.toStore = s.toStore) (hboot : s'.boot = s.boot)
    (hplace : s'.place = update s.place p pl) (hp : (s.place p).writing = false)
    (hpl : pl.writing = false) : LogInv sb s' := by
  refine ⟨by rw [hstore]; exact h.store, fun hb hw => ?_, ?_, fun b hb => ?_⟩
  · rw [hstore]
    refine h.quiet (hboot ▸ hb) fun q => ?_
    rcases eq_or_ne q p with rfl | hne
    · exact hp
    · have hq := hw q
      rwa [hplace, update_of_ne hne] at hq
  · rw [hstore, hplace, forall_update_iff s.place fun _ pl => CommitInv sb s.toStore pl]
    exact ⟨commitInv_of_not_writing hpl, fun q _ => h.commit q⟩
  · rw [hstore]
    exact h.boot b (hboot ▸ hb)

theorem Brackets.writing_eq_false (hb : Brackets s) (hp : (s.place p).isCommit = true)
    (hne : q ≠ p) : (s.place q).writing = false :=
  Bool.eq_false_iff.mpr fun hw => hne (hb.sole hp (Place.isCommit_of_writing hw))

theorem logInv_of_commit (hb : Brackets s) (hp : (s.place p).isCommit = true)
    (hplace : s'.place = update s.place p pl) (hboot : s'.boot = none)
    (hstore : StoreInv sb s'.toStore) (hcommit : CommitInv sb s'.toStore pl)
    (hquiet : pl.writing = false → Quiet sb s'.toStore) : LogInv sb s' := by
  refine ⟨hstore, fun _ hw => hquiet ?_, ?_, fun b hb' => ?_⟩
  · have hpw := hw p
    rwa [hplace, update_self] at hpw
  · rw [hplace, forall_update_iff s.place fun _ pl => CommitInv sb s'.toStore pl]
    exact ⟨hcommit, fun q hne => commitInv_of_not_writing (hb.writing_eq_false hp hne)⟩
  · rw [hboot] at hb'
    exact nomatch hb'

theorem Quiet.begin (h : Quiet sb t) {x : Txn} {t' : Store} (hdisk : t'.disk = t.disk)
    (hbase : t'.base = t.base) (htxns : t'.txns = t.txns ++ [x]) :
    Logical sb t' t.txns.length := by
  intro b hb
  rw [hdisk, hbase, htxns, List.take_left]
  have hold := h.logical b hb
  rwa [List.take_length] at hold

theorem LogInv.commitStep (h : LogInv sb s) (hb : Brackets s) (hn : 1 ≤ sb.nlog)
    (hs : commitStep sb s p (s.place p) = some s') : LogInv sb s' := by
  obtain ⟨hp, -, -, -⟩ := commitStep_place hs
  have hboot : s.boot = none := by
    refine hb.boot_eq_none (p := p) fun hidle => ?_
    rw [hidle] at hp
    cases hp
  have hinv := h.commit p
  have hquiet : (s.place p).writing = false → Quiet sb s.toStore := by
    intro hw
    refine h.quiet hboot fun q => ?_
    rcases eq_or_ne q p with rfl | hne
    · exact hw
    · exact hb.writing_eq_false hp hne
  cases hpl : s.place p with
  | idle | inOp =>
    rw [hpl] at hp
    cases hp
  | commit =>
    rw [hpl] at hs hquiet
    have hq := hquiet rfl
    simp only [FileSystem.commitStep] at hs
    split at hs <;> cases hs
    · refine logInv_of_commit hb hp rfl hboot ⟨h.store.area, h.store.header, h.store.lh⟩ trivial
        fun _ => ⟨hq.header, (@List.length_append _ s.txns [[]]).symm, fun b hb' => ?_⟩
      have hold := hq.logical b hb'
      rw [List.take_length] at hold
      show recovered sb s.disk b = contents s.base ((s.txns ++ [[]]).take (s.txns ++ [[]]).length) b
      rw [List.take_length, contents_append, updates_nil, hold]
    · refine logInv_of_commit hb hp rfl hboot ⟨h.store.area, h.store.header, h.store.lh⟩ ?_
        (by rintro ⟨⟩)
      refine ⟨⟨s.txns, rfl, hq.returned⟩, hq.header, by rintro _ _ ⟨⟩, ?_⟩
      show Logical sb _ s.returned
      rw [hq.returned]
      exact hq.begin rfl rfl rfl
  | writeLog tail =>
    rw [hpl] at hs hinv
    simp only [FileSystem.commitStep] at hs
    split at hs <;> cases hs
    · obtain ⟨hlog, hstore⟩ := Logging.writeLogOne hinv h.store ‹_›
      exact logInv_of_commit hb hp rfl hboot hstore hlog (by rintro ⟨⟩)
    · rename_i hnone
      have hge := List.getElem?_eq_none_iff.mp hnone
      refine logInv_of_commit hb hp rfl hboot h.store ?_ (by rintro ⟨⟩)
      exact ⟨hinv.1, hinv.2, fun i x hi => hinv.3 i x (hi.trans_le hge), hinv.4⟩
  | writeHead =>
    rw [hpl] at hs hinv
    cases hs
    obtain ⟨hinst, hstore⟩ := Logging.writeHead hinv h.store hn
    exact logInv_of_commit hb hp rfl hboot hstore hinst (by rintro ⟨⟩)
  | install tail =>
    rw [hpl] at hs hinv
    simp only [FileSystem.commitStep] at hs
    split at hs <;> cases hs
    · obtain ⟨hinst, hstore⟩ := Installing.installOne hinv h.store hn ‹_›
      exact logInv_of_commit hb hp rfl hboot hstore hinst (by rintro ⟨⟩)
    · rename_i hnone
      have hge := List.getElem?_eq_none_iff.mp hnone
      refine logInv_of_commit hb hp rfl hboot h.store ?_ (by rintro ⟨⟩)
      exact ⟨hinv.1, hinv.2, hinv.3, fun i x hi => hinv.4 i x (hi.trans_le hge), hinv.5⟩
  | clear =>
    rw [hpl] at hs hinv
    cases hs
    have hinv : Installing sb s.toStore s.lh.length := hinv
    obtain ⟨hstore, hn0, hdisk⟩ := hinv.recovering.clear h.store hn
      ({ s.toStore with lh := [], returned := s.txns.length }.writeHead sb) rfl rfl rfl
    have hhead := Block.header_eq_nil hn0
    refine logInv_of_commit hb hp rfl hboot hstore trivial fun _ => ⟨hhead, rfl, fun b hb' => ?_⟩
    refine (congrFun (recovered_of_nil hhead) b).trans ((hdisk b hb').trans ?_)
    exact hinv.logical b hb'
  | committed =>
    rw [hpl] at hs hquiet
    cases hs
    exact logInv_of_commit hb hp rfl hboot h.store trivial fun _ => hquiet rfl

theorem LogInv.recoverStep (h : LogInv sb s) (hb : Brackets s) (hn : 1 ≤ sb.nlog) {b' : Boot}
    (hboot : s.boot = some b') : LogInv sb (recoverStep sb s b') := by
  have hidle := hb.booting (by simp [hboot])
  obtain ⟨hinv, k, hk, hk', hlog⟩ := h.boot b' hboot
  have hcommit : ∀ (t : Store) q, CommitInv sb t (s.place q) := by
    intro t q
    rw [hidle q]
    exact trivial
  cases b' with
  | readHead =>
    have hhead : (s.cache sb.logstart).header = (s.disk sb.logstart).header := by
      rw [h.store.area _ (not_home_logstart hn)]
    refine ⟨⟨h.store.area, h.store.header, ?_⟩, by rintro ⟨⟩, hcommit _, fun b hb' => ?_⟩
    · show HeaderOk sb (s.cache sb.logstart).header
      rw [hhead]
      exact h.store.header
    · cases hb'
      exact ⟨⟨hhead.symm, by rintro _ _ ⟨⟩⟩, k, hk, hk', hlog⟩
  | install tail =>
    simp only [FileSystem.recoverStep]
    split
    · obtain ⟨hrec, hstore, -, hsame⟩ := Recovering.installOne hinv h.store hn ‹_›
      refine ⟨hstore, by rintro ⟨⟩, hcommit _, fun b hb' => ?_⟩
      cases hb'
      refine ⟨hrec, k, hk, hk', fun x hx => ?_⟩
      exact (congrFun hsame x).trans (hlog x hx)
    · rename_i hnone
      have hge := List.getElem?_eq_none_iff.mp hnone
      refine ⟨h.store, by rintro ⟨⟩, h.commit, fun b hb' => ?_⟩
      cases hb'
      exact ⟨⟨hinv.1, fun i x hi => hinv.2 i x (hi.trans_le hge)⟩, k, hk, hk', hlog⟩
  | clear =>
    have hinv : Recovering sb s.toStore s.lh.length := hinv
    obtain ⟨hstore, hn0, -⟩ :=
      hinv.clear h.store hn (FileSystem.recoverStep sb s .clear).toStore rfl rfl rfl
    have hhead := Block.header_eq_nil hn0
    refine ⟨hstore, fun _ _ => ⟨hhead, rfl, fun b _ => ?_⟩, hcommit _, by rintro _ ⟨⟩⟩
    rw [recovered_of_nil hhead]
    rfl

def HomeWrites (sb : Superblock) (_ : State n) : Act n → Prop
  | .logWrite _ b _ => sb.Home b
  | _ => True

instance (sb : Superblock) (s : State n) : ∀ a, Decidable (HomeWrites sb s a)
  | .logWrite .. => inferInstanceAs (Decidable (Superblock.Home ..))
  | .beginOp _ | .endOp _ | .commit _ | .crash | .recover => .isTrue trivial

theorem LogInv.step (h : LogInv sb s) (hb : Brackets s) (hn : 1 ≤ sb.nlog)
    (hhome : HomeWrites sb s a) (hs : LogStep sb s a s') : LogInv sb s' := by
  cases hs with
  | @beginOp p s' hboot hp hc hroom hs' | @endOp p logged s' hp hc hout hs'
  | @lastOp p logged s' hp hc hout hs' =>
    subst hs'
    exact h.move (p := p) rfl rfl rfl (by rw [hp]; rfl) rfl
  | @logWrite p b c logged s' hp hroom hsize hs' =>
    subst hs'
    have hboot := hb.boot_eq_none (p := p) (by rw [hp]; nofun)
    have hwriting : ∀ q, (s.place q).writing = false := fun q => Bool.eq_false_iff.mpr fun hw =>
      Bool.eq_false_iff.mp (hb.isCommit_eq_false (hb.not_committing hp) q)
        (Place.isCommit_of_writing hw)
    have hq := h.quiet hboot hwriting
    have hplaces : ∀ q, (update s.place p (.inOp (absorb b logged)) q).writing = false := by
      rw [forall_update_iff s.place fun _ pl => pl.writing = false]
      exact ⟨rfl, fun q _ => hwriting q⟩
    refine ⟨⟨fun x hx => ?_, h.store.header, nodup_absorb h.store.lh.nodup, fun x hx => ?_, ?_⟩,
      fun _ _ => ⟨hq.header, hq.returned, hq.logical⟩,
      fun q => commitInv_of_not_writing (hplaces q), fun b' hb' => ?_⟩
    · have hne : x ≠ b := by
        rintro rfl
        exact hx hhome
      exact (update_of_ne hne ..).trans (h.store.area x hx)
    · exact (mem_absorb.mp hx).elim (h.store.lh.home x) fun he => he ▸ hhome
    · show (absorb b s.lh).length ≤ _
      rw [length_absorb]
      split <;> omega
    · exact nomatch hboot.symm.trans hb'
  | commit hs' => exact h.commitStep hb hn hs'
  | crash =>
    refine ⟨⟨fun _ _ => rfl, h.store.header, .nil sb⟩, nofun, fun _ => trivial, fun b hb' => ?_⟩
    cases hb'
    exact ⟨trivial, h.logical⟩
  | recover hboot => exact h.recoverStep hb hn hboot

theorem logInv_boot {disk : ℕ → Block} (h : (disk sb.logstart).header = []) :
    LogInv sb (FileSystem.boot disk : State n) := by
  refine ⟨⟨fun _ _ => rfl, ?_, .nil sb⟩, nofun, fun _ => trivial, fun b hb => ?_⟩
  · show HeaderOk sb (disk sb.logstart).header
    rw [h]
    exact .nil sb
  · cases hb
    refine ⟨trivial, 0, le_rfl, le_rfl, fun x _ => ?_⟩
    show recovered sb disk x = disk x
    rw [recovered_of_nil h]

/-! ## Whole recoveries -/

/-- A restart: recovery and further crashes, until a recovery is complete. -/
def Restart (s : State n) : Act n → Prop
  | .crash | .recover => s.boot ≠ none
  | _ => False

instance (s : State n) : ∀ a, Decidable (Restart s a)
  | .crash | .recover => inferInstanceAs (Decidable (_ ≠ _))
  | .beginOp _ | .logWrite .. | .endOp _ | .commit _ => .isFalse nofun

/-- The header on the disk of `s'` has `n = 0`, and in the home blocks is what the first `k`
transactions of `s` left, among them all that returned. -/
def RecoveredTo (sb : Superblock) (s s' : State n) : Prop :=
  s'.disk sb.logstart 0 = 0 ∧ ∃ k, s.returned ≤ k ∧ k ≤ s.txns.length ∧
      ∀ b, sb.Home b → s'.disk b = contents s.base (s.txns.take k) b

theorem LogInv.recoveredTo (h : LogInv sb s) (hn : 1 ≤ sb.nlog) (hboot : s.boot = some .clear) :
    RecoveredTo sb s (FileSystem.recoverStep sb s .clear) := by
  obtain ⟨hinv, k, hk, hk', hlog⟩ := h.boot _ hboot
  have hinv : Recovering sb s.toStore s.lh.length := hinv
  obtain ⟨-, hn0, hhome⟩ :=
    hinv.clear h.store hn (FileSystem.recoverStep sb s .clear).toStore rfl rfl rfl
  exact ⟨hn0, k, hk, hk', fun x hx => (hhome x hx).trans (hlog x hx)⟩

structure SameTxns (s s' : State n) : Prop where
  base : s'.base = s.base
  txns : s'.txns = s.txns
  returned : s'.returned = s.returned

theorem RecoveredTo.of_same {s'' : State n} (h : RecoveredTo sb s' s'') (hsame : SameTxns s s') :
    RecoveredTo sb s s'' := by
  unfold RecoveredTo at h ⊢
  rwa [hsame.base, hsame.txns, hsame.returned] at h

theorem sameTxns_recoverStep (sb : Superblock) (s : State n) {b' : Boot} (h : b' ≠ .clear) :
    SameTxns s (FileSystem.recoverStep sb s b') ∧ (FileSystem.recoverStep sb s b').boot ≠ none := by
  cases b' with
  | readHead => exact ⟨⟨rfl, rfl, rfl⟩, by rintro ⟨⟩⟩
  | install tail =>
    simp only [FileSystem.recoverStep]
    split <;> exact ⟨⟨rfl, rfl, rfl⟩, by rintro ⟨⟩⟩
  | clear => exact absurd rfl h

/-- A restart either goes on, with the same transactions behind it, or is complete. -/
def RestartInv (sb : Superblock) (s s' : State n) : Prop :=
  (s'.boot ≠ none ∧ Brackets s' ∧ LogInv sb s' ∧ SameTxns s s') ∨
    (s'.boot = none ∧ RecoveredTo sb s s')

theorem RestartInv.step {s'' : State n} (h : RestartInv sb s s') (hn : 1 ≤ sb.nlog)
    (ha : Restart s' a) (hs : next sb s' a = some s'') : RestartInv sb s s'' := by
  obtain ⟨-, hb, hinv, hsame⟩ | ⟨hnone, -⟩ := h
  swap
  · cases a with
    | crash | recover => exact absurd hnone ha
    | beginOp | logWrite | endOp | commit => exact nomatch ha
  have hhome : HomeWrites sb s' a := by
    cases a with
    | logWrite => exact nomatch ha
    | beginOp | endOp | commit | crash | recover => exact trivial
  have hstep := next_cases hs
  have hinv' := hinv.step hb hn hhome hstep
  have hb' := hb.step hstep
  cases hstep with
  | crash => exact .inl ⟨nofun, hb', hinv', hsame.base, hsame.txns, hsame.returned⟩
  | @recover b' hboot' =>
    by_cases hclear : b' = .clear
    · subst hclear
      exact .inr ⟨rfl, (hinv.recoveredTo hn hboot').of_same hsame⟩
    · obtain ⟨hsame', hne⟩ := sameTxns_recoverStep sb s' hclear
      exact .inl ⟨hne, hb', hinv', hsame'.base.trans hsame.base, hsame'.txns.trans hsame.txns,
        hsame'.returned.trans hsame.returned⟩
  | beginOp | logWrite | endOp | lastOp | commit => exact nomatch ha

theorem next_recover (sb : Superblock) {b' : Boot} (h : s.boot = some b') :
    next sb s .recover = some (FileSystem.recoverStep sb s b') := by
  simp only [next, FileSystem.step, h]
  rfl

theorem install_ends (sb : Superblock) : ∀ (m : ℕ) {s : State n} {tail : ℕ},
    s.boot = some (.install tail) → s.lh.length - tail = m →
      ∃ s', ReachIf (next sb) (fun _ a => a = .recover) s s' ∧ s'.boot = none := by
  intro m
  induction m with
  | zero =>
    intro s tail hboot hm
    have hnone : s.lh[tail]? = none := List.getElem?_eq_none (by omega)
    have hstep := next_recover sb hboot
    simp only [FileSystem.recoverStep, hnone] at hstep
    exact ⟨_, Relation.ReflTransGen.head ⟨.recover, rfl, hstep⟩
      (.single ⟨.recover, rfl, next_recover sb rfl⟩), rfl⟩
  | succ m ih =>
    intro s tail hboot hm
    obtain ⟨b, hb⟩ : ∃ b, s.lh[tail]? = some b := ⟨_, List.getElem?_eq_getElem (by omega)⟩
    have hstep := next_recover sb hboot
    simp only [FileSystem.recoverStep, hb] at hstep
    obtain ⟨s', hs', hdone⟩ := ih (s := { s.set (s.installOne sb tail b) with
      boot := some (.install (tail + 1)) }) rfl (by
        show s.lh.length - (tail + 1) = m
        omega)
    exact ⟨s', Relation.ReflTransGen.head ⟨.recover, rfl, hstep⟩ hs', hdone⟩

theorem crash_recovers (sb : Superblock) (s : State n) :
    ∃ s', ReachIf (next sb) (fun _ a => a = .recover) s.crash s' ∧ s'.boot = none := by
  have hstep := next_recover sb (s := s.crash) rfl
  obtain ⟨s', hs', hdone⟩ :=
    install_ends sb _ (s := FileSystem.recoverStep sb s.crash .readHead) rfl rfl
  exact ⟨s', Relation.ReflTransGen.head ⟨.recover, rfl, hstep⟩ hs', hdone⟩

end Steps

/-- **Recovery is atomic.** Wherever the machine crashes, in the middle of a commit or of an earlier
recovery, a recovery can run to its end. However often the machine crashes again before one does, it
leaves a header with `n = 0`, and in the home blocks the contents after a prefix of the
transactions: all those whose commit had returned, and perhaps the one whose commit had begun. -/
theorem recovery_atomic (sb : Superblock) (hn : 1 ≤ sb.nlog) (disk : ℕ → Block)
    (hdisk : (disk sb.logstart).header = []) {s : State n}
    (hs : ReachIf (next sb) (HomeWrites sb) (boot disk) s) :
    (∃ s', ReachIf (next sb) (fun _ a => a = .recover) s.crash s' ∧ s'.boot = none) ∧
    ∀ s', ReachIf (next sb) Restart s.crash s' → s'.boot = none →
      s'.disk sb.logstart 0 = 0 ∧
      ∃ k, s.returned ≤ k ∧ k ≤ s.txns.length ∧ ∀ b, sb.Home b →
        s'.disk b = contents s.base (s.txns.take k) b := by
  have hinv := hs.invariant (I := fun t => Brackets t ∧ LogInv sb t)
    (fun t a t' ht hhome hstep => ⟨ht.1.step (next_cases hstep),
      ht.2.step ht.1 hn hhome (next_cases hstep)⟩) ⟨brackets_boot disk, logInv_boot hdisk⟩
  refine ⟨crash_recovers sb s, fun s' hs' hdone => ?_⟩
  have hcrash : LogStep sb s .crash s.crash := .crash
  have hhome : HomeWrites sb s .crash := trivial
  have hstart : RestartInv sb s s.crash :=
    .inl ⟨nofun, hinv.1.step hcrash, hinv.2.step hinv.1 hn hhome hcrash, rfl, rfl, rfl⟩
  obtain ⟨hne, -⟩ | ⟨-, hrec⟩ :=
    hs'.invariant (fun t a t' ht ha hstep => ht.step hn ha hstep) hstart
  · exact absurd hdone hne
  · exact hrec

/-- One process logs block 50, and the machine crashes right after the first `write_head`. -/
def oneBlockActs : List (Act 1) :=
  [.recover, .recover, .recover, .beginOp 0, .logWrite 0 50 (fun _ => 7), .endOp 0, .commit 0,
    .commit 0, .commit 0, .commit 0]

/-- The transaction is there after recovery, though its commit had not returned. -/
theorem recovery_atomic_oneBlock : ∃ s s' : State 1,
    ReachIf (next mkfs) (HomeWrites mkfs) (boot fun _ _ => 0) s ∧ s.returned = 0 ∧
    ReachIf (next mkfs) Restart s.crash s' ∧ s'.disk 50 0 = 7 ∧
    s'.disk mkfs.logstart 0 = 0 ∧ ∃ k, s.returned ≤ k ∧ k ≤ s.txns.length ∧
        ∀ b, mkfs.Home b → s'.disk b = contents s.base (s.txns.take k) b := by
  obtain ⟨s, hs, hret, s', hs', hdone, h7⟩ : ∃ s ∈ runActsIf (next mkfs) (HomeWrites mkfs)
      (boot fun _ _ => 0) oneBlockActs, s.returned = 0 ∧
      ∃ s' ∈ runActsIf (next mkfs) Restart s.crash (List.replicate 4 .recover),
        s'.boot = none ∧ s'.disk 50 0 = 7 := by decide +kernel
  have hreach := reachIf_of_runActsIf hs
  have hreach' := reachIf_of_runActsIf hs'
  exact ⟨s, s', hreach, hret, hreach', h7,
    (recovery_atomic mkfs (by decide) (fun _ _ => 0) (by decide) hreach).2 s' hreach' hdone⟩

end LazyXv6.FileSystem
