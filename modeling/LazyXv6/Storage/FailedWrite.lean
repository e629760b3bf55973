import LazyXv6.Storage.LogBudget
import LazyXv6.Kernel.Copyinstr

/-!
# A write that fails in the middle

`writei` copies from user memory straight into the buffer of a block. Where the source runs into a
page that is not mapped, `copyin` has copied what stands before that page and fails; the bytes are
not counted, but they stay in the buffer, and `log_write` is not called.
-/

namespace LazyXv6.Storage

open Lib Function

/-! ## Copies from user memory -/

/-- Bytes from `j` on, `m` at most, up to one that cannot be read. -/
def reads (rd : ℕ → Option UInt8) (j : ℕ) : ℕ → List UInt8
  | 0 => []
  | m + 1 =>
    match rd j with
    | none => []
    | some c => c :: reads rd (j + 1) m

/-- A source of which some bytes cannot be read. -/
def fromUser (rd : ℕ → Option UInt8) : State.Source :=
  fun j m => (reads rd j m, (reads rd j m).length = m)

/-- The bytes of user memory from `src` on. -/
def userRange (k : Kernel.Kmem) (pt : Kernel.PageTable) (src : ℕ) : ℕ → Option UInt8 :=
  fun j => if Kernel.UserReadable pt (src + j) then some (Kernel.userBytes k pt (src + j)) else none

section

variable {rd : ℕ → Option UInt8} {j m i u : ℕ}

theorem length_reads_le (rd : ℕ → Option UInt8) (j m : ℕ) : (reads rd j m).length ≤ m := by
  induction m generalizing j with
  | zero => exact Nat.le_refl _
  | succ m ih =>
    unfold reads
    cases rd j with
    | none => exact Nat.zero_le _
    | some c => exact Nat.succ_le_succ (ih _)

theorem getElem?_reads (h : i < (reads rd j m).length) : (reads rd j m)[i]? = rd (j + i) := by
  induction m generalizing i j with
  | zero => exact nomatch h
  | succ m ih =>
    unfold reads at h ⊢
    cases hj : rd j with
    | none =>
      rw [hj] at h
      exact nomatch h
    | some c =>
      rw [hj] at h
      cases i with
      | zero => exact hj.symm
      | succ i =>
        have hi := ih (Nat.lt_of_succ_lt_succ h)
        rw [Nat.add_right_comm, Nat.add_assoc] at hi
        exact hi

theorem reads_append (hall : ∀ i, i < u → rd (j + i) ≠ none) (hum : u ≤ m) :
    reads rd j m = reads rd j u ++ reads rd (j + u) (m - u) := by
  induction u generalizing j m with
  | zero => rfl
  | succ u ih =>
    cases m with
    | zero => exact nomatch hum
    | succ m =>
      cases hj : rd j with
      | none => exact absurd hj (hall 0 (Nat.zero_lt_succ u))
      | some c =>
        have htail : ∀ i, i < u → rd (j + 1 + i) ≠ none := fun i hi => by
          rw [Nat.add_right_comm, Nat.add_assoc]
          exact hall (i + 1) (by omega)
        have hrest := ih htail (Nat.le_of_succ_le_succ hum)
        rw [Nat.add_right_comm, Nat.add_assoc] at hrest
        simp only [reads, hj, List.cons_append, Nat.succ_sub_succ]
        rw [hrest]

theorem length_reads_all (hall : ∀ i, i < m → rd (j + i) ≠ none) : (reads rd j m).length = m := by
  induction m generalizing j with
  | zero => rfl
  | succ m ih =>
    cases hj : rd j with
    | none => exact absurd hj (hall 0 (Nat.zero_lt_succ m))
    | some c =>
      simp only [reads, hj, List.length_cons]
      refine congrArg Nat.succ (ih fun i hi => ?_)
      rw [Nat.add_right_comm, Nat.add_assoc]
      exact hall (i + 1) (by omega)

theorem length_reads (hu : rd (j + u) = none) (hall : ∀ i, i < u → rd (j + i) ≠ none)
    (hum : u ≤ m) : (reads rd j m).length = u := by
  have hend : reads rd (j + u) (m - u) = [] := by
    cases m - u with
    | zero => rfl
    | succ _ => simp only [reads, hu]
  rw [reads_append hall hum, hend, List.append_nil, length_reads_all hall]

theorem fromUser_ok : (fromUser rd j m).2 = true ↔ ∀ i, i < m → rd (j + i) ≠ none := by
  refine decide_eq_true_iff.trans ⟨fun hlen i hi hnone => ?_, length_reads_all⟩
  have hget : (reads rd j m)[i]? = rd (j + i) := getElem?_reads (by omega)
  rw [hnone, List.getElem?_eq_none_iff] at hget
  omega

theorem fromUser_failed (h : (fromUser rd j m).2 = false) :
    ∃ u, u < m ∧ rd (j + u) = none ∧ (∀ i, i < u → rd (j + i) ≠ none) ∧
    (fromUser rd j m).1.length = u := by
  have hex : ∃ u, u < m ∧ rd (j + u) = none := by
    by_contra hnot
    refine absurd (fromUser_ok.mpr fun i hi hnone => hnot ⟨i, hi, hnone⟩) ?_
    rw [h]
    exact Bool.false_ne_true
  obtain ⟨hlt, hnone⟩ := Nat.find_spec hex
  have hfirst : ∀ i, i < Nat.find hex → rd (j + i) ≠ none := fun i hi hn =>
    Nat.find_min hex hi ⟨by omega, hn⟩
  exact ⟨Nat.find hex, hlt, hnone, hfirst, length_reads hnone hfirst hlt.le⟩

end

section

open Kernel

variable {k : Kmem} {pt : PageTable} {src j m len fuel : ℕ}

theorem userRange_page (h : UserReadable pt (src + j))
    (hm : m ≤ pgSize - (src + j) % pgSize) (i : ℕ) (hi : i < m) :
    userRange k pt src (j + i) = some (userBytes k pt (src + j + i)) := by
  have hdiv : (src + j + i) / pgSize = (src + j) / pgSize := by
    unfold pgSize at *
    omega
  unfold userRange
  rw [← Nat.add_assoc, if_pos]
  unfold UserReadable at h ⊢
  rwa [hdiv]

theorem reads_page (h : UserReadable pt (src + j)) (hm : m ≤ pgSize - (src + j) % pgSize) :
    reads (userRange k pt src) j m = bytesAt k pt (src + j) m := by
  have hpage : ∀ i, i < m → userRange k pt src (j + i) = some (userBytes k pt (src + j + i)) :=
    userRange_page h hm
  have hlen : (reads (userRange k pt src) j m).length = m :=
    length_reads_all fun i hi => by
      rw [hpage i hi]
      nofun
  refine List.ext_getElem (hlen.trans (length_bytesAt ..).symm) fun i h1 h2 => ?_
  have hget := getElem?_reads h1
  rw [hpage i (by omega), List.getElem?_eq_getElem h1] at hget
  rw [Option.some.inj hget]
  simp [bytesAt]

/-- **`copyin`** copies bytes of user memory up to a page that is not mapped. -/
theorem copyin_eq (k : Kmem) (pt : PageTable) (src j m : ℕ) :
    copyin k pt (src + j) m = .ok (fromUser (userRange k pt src) j m) := by
  have hloop : ∀ (fuel j len : ℕ), len ≤ fuel → copyinLoop k pt fuel (src + j) len =
      .ok (fromUser (userRange k pt src) j len) := by
    intro fuel
    induction fuel with
    | zero =>
      intro j len hfuel
      obtain rfl := Nat.le_zero.mp hfuel
      rfl
    | succ fuel ih =>
      intro j len hfuel
      rw [copyinLoop]
      by_cases hlen : len = 0
      · rw [if_pos hlen, hlen]
        rfl
      rw [if_neg hlen]
      by_cases hread : UserReadable pt (src + j)
      · have hmod : (src + j) % pgSize < pgSize := Nat.mod_lt _ (by decide)
        rw [walkaddr_readable hread, ok_bind]
        simp only
        generalize hn : min (pgSize - (src + j) % pgSize) len = n
        have hpage := userRange_page (k := k) hread (show n ≤ pgSize - (src + j) % pgSize by omega)
        have hsplit : reads (userRange k pt src) j len = reads (userRange k pt src) j n ++
            reads (userRange k pt src) (j + n) (len - n) :=
          reads_append (fun i hi => by simp [hpage i hi]) (by omega)
        have hbytes := reads_page (k := k) hread (show n ≤ pgSize - (src + j) % pgSize by omega)
        have hrest : copyinLoop k pt fuel (((src + j) / pgSize + 1) * pgSize) (len - n) =
            .ok (fromUser (userRange k pt src) (j + n) (len - n)) := by
          by_cases hlast : len - n = 0
          · rw [hlast]
            cases fuel <;> rfl
          · have hnext : ((src + j) / pgSize + 1) * pgSize = src + (j + n) := by
              unfold pgSize at *
              omega
            rw [hnext]
            exact ih _ _ (by omega)
        rw [hrest, ok_bind, bytesAt_page (by omega) (by omega), ← hbytes]
        unfold fromUser
        simp only
        rw [hsplit, List.length_append, hbytes, length_bytesAt]
        congr 2
        exact decide_eq_decide.mpr (by omega)
      · rw [walkaddr_not_readable hread, ok_bind]
        have hnone : userRange k pt src j = none := if_neg hread
        obtain ⟨m, rfl⟩ := Nat.exists_eq_succ_of_ne_zero hlen
        simp only [fromUser, reads, hnone]
        rfl
  exact hloop m j m le_rfl

end

/-! ## Turns of the loop -/

variable {sb : Superblock} {s s' s₁ : State} {a c k tot off n t o : ℕ} {copyin : State.Source}
    {rd : ℕ → Option UInt8}

namespace Copied

theorem readable (h : Copied sb (fromUser rd) n tot off s t o s₁) {j : ℕ} (hj : tot ≤ j)
    (hj' : j < t) : rd j ≠ none := by
  induction h with
  | refl => omega
  | @turn tot off _ t _ _ _ _ _ _ _ hc _ ih =>
    rcases Nat.lt_or_ge j (tot + State.chunk n tot off) with hlt | hge
    · have hread := fromUser_ok.mp hc (j - tot) (by omega)
      rwa [Nat.add_sub_cancel' hj] at hread
    · exact ih hge hj'

theorem boundary (h : Copied sb copyin n tot off s t o s₁) :
    (t = tot ∧ o = off ∧ s₁ = s) ∨ o % 1024 = 0 ∨ n ≤ t := by
  induction h with
  | refl => exact .inl ⟨rfl, rfl, rfl⟩
  | @turn tot off _ t o _ _ _ hlt _ _ _ _ ih =>
    have hchunk : State.chunk n tot off = min (n - tot) (1024 - off % 1024) := rfl
    rcases ih with ⟨ht, ho, -⟩ | ho | ht
    · right
      omega
    · exact .inr (.inl ho)
    · exact .inr (.inr ht)

theorem log_mono (h : Copied sb copyin n tot off s t o s₁) (hc : c ∈ s.disk.log) :
    c ∈ s₁.disk.log := by
  induction h with
  | refl => exact hc
  | turn _ hb _ _ _ ih => exact ih (Disk.mem_log_logWrite.mpr (.inl (hb.log_mono hc)))

theorem logged (h : Copied sb copyin n tot off s t o s₁) (c : ℕ) :
    c ∈ s₁.disk.log ∨ s₁.disk.cache c = s.disk.cache c := by
  induction h with
  | refl => exact .inr rfl
  | @turn tot off a _ _ s s' _ _ hb _ _ rest ih =>
    have hturn : c ∈ ((s'.copied a off (copyin tot (State.chunk n tot off)).1).logWrite a).log ∨
        ((s'.copied a off (copyin tot (State.chunk n tot off)).1).logWrite a).cache c =
          s.disk.cache c := by
      by_cases hca : c = a
      · exact .inl (Disk.mem_log_logWrite.mpr (.inr hca))
      · rw [Disk.mem_log_logWrite, Disk.cache_logWrite]
        rcases hb.logged c with hc | hc
        · exact .inl (.inl hc)
        · exact .inr ((update_of_ne hca ..).trans hc)
    rcases ih with hc | hc
    · exact .inl hc
    · rcases hturn with hc' | hc'
      · exact .inl (rest.log_mono hc')
      · exact .inr (hc.trans hc')

theorem slot_of_ge (h : Copied sb copyin n tot off s t o s₁) (hwf : Wf sb s)
    (hoff : off + (n - tot) ≤ 268 * 1024) (htot : tot ≤ n) (hk : k < 268) (ho : o ≤ k * 1024) :
    s₁.slot k = s.slot k := by
  induction h with
  | refl => rfl
  | @turn tot off a _ _ s s' _ hlt hb ha _ rest ih =>
    have hpos : 0 < State.chunk n tot off := chunk_pos hlt
    have hle := chunk_le n tot off
    have hwrites := hb.copied_logged (by omega) ha (copyin tot (State.chunk n tot off)).1
    obtain ⟨h1, h2, h3⟩ := rest.progress (by omega)
    rw [ih (hwrites.wf (hb.wf hwf)) (by omega) (by omega) ho, hwrites.slot (hb.wf hwf) hk.le,
      hb.slot_of_ne hk (by omega)]

theorem content_outside (h : Copied sb copyin n tot off s t o s₁) (hwf : Wf sb s)
    (hoff : off + (n - tot) ≤ 268 * 1024) (htot : tot ≤ n) (hlen : ∀ j m, (copyin j m).1.length ≤ m)
    {p : ℕ} (hp : p / 1024 < 268) (hout : ¬ (off ≤ p ∧ p < o)) : s₁.content p = s.content p := by
  induction h with
  | refl => rfl
  | @turn tot off a _ _ s s' _ hlt hb ha _ rest ih =>
    have hpos : 0 < State.chunk n tot off := chunk_pos hlt
    have hle := chunk_le n tot off
    have hblock := chunk_block n tot off
    have hbytes := hlen tot (State.chunk n tot off)
    have hwrites := hb.copied_logged (by omega) ha (copyin tot (State.chunk n tot off)).1
    obtain ⟨h1, h2, h3⟩ := rest.progress (by omega)
    rw [ih (hwrites.wf (hb.wf hwf)) (by omega) (by omega) (by omega),
      hb.content_copied hwf ha (by omega) hwrites hp]
    by_cases hle' : off ≤ p
    · exact overwrite_of_ge (by omega)
    · exact overwrite_of_lt (by omega)

/-- What is in the log: blocks before the data, the indirect block, and blocks that were written. -/
theorem log_cases (h : Copied sb copyin n tot off s t o s₁) (hwf : Wf sb s)
    (hoff : off + (n - tot) ≤ 268 * 1024) (htot : tot ≤ n) (hc : c ∈ s₁.disk.log) :
    c ∈ s.disk.log ∨ c < sb.nmeta ∨ (s₁.slot 268 ≠ 0 ∧ c = s₁.slot 268) ∨
      ∃ p, off ≤ p ∧ p < o ∧ c = s₁.slot (p / 1024) := by
  induction h with
  | refl => exact .inl hc
  | @turn tot off a t o s s' s₁ hlt hb ha _ rest ih =>
    have hpos : 0 < State.chunk n tot off := chunk_pos hlt
    have hle := chunk_le n tot off
    have hbn : off / 1024 < 268 := by omega
    have hwrites := hb.copied_logged hbn ha (copyin tot (State.chunk n tot off)).1
    have hwf' := hwrites.wf (hb.wf hwf)
    obtain ⟨h1, h2, h3⟩ := rest.progress (by omega)
    have hrest := rest.after hwf' (by omega)
    have hslot := (hwrites.slot (hb.wf hwf) hbn.le).trans (hb.slot_self ha)
    have hself : s₁.slot (off / 1024) = a := by
      rw [hrest.kept _ hbn.le (hslot.trans_ne ha), hslot]
    have hdata := (hb.wf hwf).data _ hbn.le ((hb.slot_self ha).trans_ne ha)
    rw [hb.slot_self ha] at hdata
    have hwritten : c = a → ∃ p, off ≤ p ∧ p < o ∧ c = s₁.slot (p / 1024) := fun hca =>
      ⟨off, le_rfl, by omega, hca.trans hself.symm⟩
    rcases ih hwf' (by omega) (by omega) hc with hc | hc | hc | ⟨p, hp, hp', hc⟩
    · rcases Disk.mem_log_logWrite.mp hc with hc | hc
      · rcases hb.log hbn hc with hc | ⟨-, -, hc | hc⟩ | ⟨hne, hc | hc⟩
        · exact .inl hc
        · exact .inr (.inr (.inr (hwritten hc)))
        · exact .inr (.inl (hc ▸ sb.bblock_lt hdata.2.1))
        · have hkept := (hwrites.slot (hb.wf hwf) le_rfl).symm
          have hlast := hrest.kept 268 le_rfl (hkept ▸ hne)
          refine .inr (.inr (.inl ⟨?_, ?_⟩))
          · rw [hlast, ← hkept]
            exact hne
          · rw [hlast, ← hkept]
            exact hc
        · exact .inr (.inl (hc ▸ sb.bblock_lt ((hb.wf hwf).data 268 le_rfl hne).2.1))
      · exact .inr (.inr (.inr (hwritten hc)))
    · exact .inr (.inl hc)
    · exact .inr (.inr (.inl hc))
    · exact .inr (.inr (.inr ⟨p, by omega, hp', hc⟩))

end Copied

/-! ## What a failed write leaves -/

/-- The buffers are those of the disk, or in the log. -/
def Coherent (s : State) : Prop := ∀ c, c ∈ s.disk.log ∨ s.disk.cache c = s.disk.home c

/-- The call has changed what it reports, `tot` bytes at `off`, and no other byte of the file. -/
structure OnlyReported (s : State) (off tot : ℕ) (s' : State) : Prop where
  bytes : ∀ p, p < s.ip.size.toNat → ¬ (off ≤ p ∧ p < off + tot) → s'.content p = s.content p
  coherent : Coherent s'

/-- Where the copy starts that has to read byte `u` of the source. -/
def copyStart (off u : ℕ) : ℕ := u - (off + u) % 1024

/-- If the first byte that cannot be read is reached, the bytes that are copied before it are those
that the file has. They may be different where the file ends before them, in a block that is in the
log or will be. -/
def Harmless (sb : Superblock) (s : State) (rd : ℕ → Option UInt8) (off n : ℕ) : Prop :=
  ∀ u, u < n → rd u = none → (∀ j, j < u → rd j ≠ none) →
    s.needed (off / 1024) (span off (copyStart off u + 1)) ≤ s.free sb →
    ∀ j, copyStart off u ≤ j → j < u → off + j < s.ip.size.toNat ∨
        (s.slot ((off + j) / 1024) ≠ 0 ∧ s.slot ((off + j) / 1024) ∉ s.disk.log) →
      rd j = some (s.content (off + j))

/-! ## The block of the copy that fails -/

theorem Coherent.of_logged (h : Coherent s)
    (hlogged : ∀ c, c ∈ s'.disk.log ∨ s'.disk.cache c = s.disk.cache c)
    (hmono : ∀ c, c ∈ s.disk.log → c ∈ s'.disk.log) (hhome : s'.disk.home = s.disk.home) :
    Coherent s' := by
  intro c
  rcases hlogged c with hc | hc
  · exact .inl hc
  · rcases h c with hc' | hc'
    · exact .inl (hmono c hc')
    · right
      rw [hc, hc', hhome]

theorem finish_of_ne (s : State) (o : ℕ) (hc : c ≠ sb.iblock s.inum) :
    (c ∈ ((s.setSize o).iupdate sb).disk.log ↔ c ∈ s.disk.log) ∧
      ((s.setSize o).iupdate sb).disk.cache c = s.disk.cache c := by
  obtain ⟨-, hdisk, hinum⟩ := rest_setSize s o
  show (c ∈ ((s.setSize o).disk.iupdate sb _ _).log ↔ _) ∧
    ((s.setSize o).disk.iupdate sb _ _).cache c = _
  unfold Disk.iupdate
  rw [hdisk, hinum, Disk.mem_log_store, Disk.cache_store_of_ne hc]
  exact ⟨or_iff_left hc, rfl⟩

theorem finish_home (s : State) (o : ℕ) : ((s.setSize o).iupdate sb).disk.home = s.disk.home := by
  show ((s.setSize o).disk.iupdate sb _ _).home = _
  unfold Disk.iupdate
  rw [Disk.home_store, (rest_setSize s o).2.1]

theorem coherent_finish_at (o : ℕ) (h : c ∈ s.disk.log ∨ s.disk.cache c = s.disk.home c) :
    c ∈ ((s.setSize o).iupdate sb).disk.log ∨
      ((s.setSize o).iupdate sb).disk.cache c = ((s.setSize o).iupdate sb).disk.home c := by
  by_cases hc : c = sb.iblock s.inum
  · left
    show c ∈ ((s.setSize o).disk.iupdate sb _ _).log
    unfold Disk.iupdate
    rw [(rest_setSize s o).2.2, Disk.mem_log_store]
    exact .inr hc
  · obtain ⟨hlog, hcache⟩ := finish_of_ne s o hc
    rwa [hlog, hcache, finish_home]

theorem Bmap.found_or_logged {bn : ℕ} (h : Bmap sb s bn a s') (hbn : bn < 268) (ha : a ≠ 0) :
    (s.slot bn = a ∧ s' = s) ∨ (s.slot bn = 0 ∧ a ∈ s'.disk.log) := by
  cases h with
  | found => exact .inl ⟨rfl, rfl⟩
  | full | indirect => exact absurd rfl ha
  | filled _ h => exact .inr ⟨h.empty, (h.log _).mpr (.inr (.inr (.inl rfl)))⟩
  | both hge h h' =>
    exact .inr ⟨slot_of_no_indirect h.empty hge hbn, (h'.log _).mpr (.inr (.inr (.inl rfl)))⟩

section Failed

variable (hwf : Wf sb s) (hmax : off + n ≤ 268 * 1024) (hcopied : Copied sb copyin n 0 off s t o s₁)
    (hlt : t < n)

include hwf hmax hcopied hlt

theorem slot_next : s₁.slot (o / 1024) = s.slot (o / 1024) := by
  have ho := end_offset hcopied
  rcases hcopied.boundary with ⟨-, -, hs⟩ | hmod | hge
  · rw [hs]
  · exact hcopied.slot_of_ge hwf (by omega) (Nat.zero_le _) (by omega) (by omega)
  · omega

theorem log_next (hne : s.slot (o / 1024) ≠ 0) :
    s.slot (o / 1024) ∈ s₁.disk.log ↔ s.slot (o / 1024) ∈ s.disk.log := by
  have ho := end_offset hcopied
  have hwf₁ := (after_copied hwf hmax hcopied).wf
  have hslot := slot_next hwf hmax hcopied hlt
  refine ⟨fun hc => ?_, hcopied.log_mono⟩
  rw [← hslot] at hc hne ⊢
  have hdata := (hwf₁.data _ (by omega) hne).1
  rcases hcopied.log_cases hwf (by omega) (Nat.zero_le _) hc with
    hc | hc | ⟨-, hc⟩ | ⟨p, hp, hp', hc⟩
  · exact hc
  · omega
  · have hk := hwf₁.inj _ 268 (by omega) le_rfl hne hc
    omega
  · have hk := hwf₁.inj _ _ (by omega) (by omega) hne hc
    rcases hcopied.boundary with ⟨-, hoff, -⟩ | hmod | hge <;> omega

end Failed

section FailedCopy

variable (hwf : Wf sb s) (hmax : off + n ≤ 268 * 1024)
  (hcopied : Copied sb (fromUser rd) n 0 off s t o s₁) (hlt : t < n)
  (hb : Bmap sb s₁ (o / 1024) a s') (ha : a ≠ 0)

/-- What `writei` leaves if a copy into block `a` fails. -/
def State.afterFailed (sb : Superblock) (s' : State) (a o : ℕ) (bytes : List UInt8) : State :=
  (({ s' with disk := s'.copied a o bytes } : State).setSize o).iupdate sb

include hwf hmax hcopied hlt hb ha

theorem failed_ne_iblock : a ≠ sb.iblock s'.inum := by
  have ho := end_offset hcopied
  have hwf' := hb.wf (after_copied hwf hmax hcopied).wf
  have hdata := (hwf'.data (o / 1024) (by omega) ((hb.slot_self ha).trans_ne ha)).1
  rw [hb.slot_self ha] at hdata
  have h1 := sb.iblock_lt hwf'.inum_lt
  have h2 := sb.bmapstart_lt
  omega

theorem slot_failed (bytes : List UInt8) : (s'.afterFailed sb a o bytes).slot (o / 1024) = a := by
  have ho := end_offset hcopied
  have hwf' := hb.wf (after_copied hwf hmax hcopied).wf
  have hwrites := hb.copied (by omega) ha bytes
  unfold State.afterFailed
  rw [(sameData_finish (hwrites.wf hwf') o).slot (hwrites.wf hwf'), hwrites.slot hwf' (by omega),
    hb.slot_self ha]

theorem content_failed {bytes : List UInt8} (hlen : o % 1024 + bytes.length ≤ 1024) {p : ℕ}
    (hp : p / 1024 < 268) : (s'.afterFailed sb a o bytes).content p =
    overwrite s₁.content o bytes p := by
  have ho := end_offset hcopied
  have hwf₁ := (after_copied hwf hmax hcopied).wf
  have hwrites := hb.copied (by omega) ha bytes
  have hwf' := hwrites.wf (hb.wf hwf₁)
  unfold State.afterFailed
  rw [(sameData_finish hwf' o).content hwf' hp, hb.content_copied hwf₁ ha hlen hwrites hp]

theorem buffer_failed (bytes : List UInt8) :
    (a ∈ (s'.afterFailed sb a o bytes).disk.log ↔ a ∈ s'.disk.log) ∧
      (s'.afterFailed sb a o bytes).disk.cache a = overwrite (s'.disk.cache a) (o % 1024) bytes := by
  have hne := failed_ne_iblock hwf hmax hcopied hlt hb ha
  obtain ⟨hlog, hcache⟩ := finish_of_ne ({ s' with disk := s'.copied a o bytes } : State) o hne
  exact ⟨hlog, hcache.trans (update_self ..)⟩

omit hlt ha in
theorem coherent_failed (hcoh : Coherent s) (bytes : List UInt8) (hc : c ≠ a) :
    c ∈ (s'.afterFailed sb a o bytes).disk.log ∨
      (s'.afterFailed sb a o bytes).disk.cache c = (s'.afterFailed sb a o bytes).disk.home c := by
  have hafter := after_copied hwf hmax hcopied
  have hcoh₁ := hcoh.of_logged hcopied.logged hafter.log_mono hafter.home
  have hcoh' := hcoh₁.of_logged hb.logged (fun _ => hb.log_mono) hb.home
  refine coherent_finish_at o ?_
  show c ∈ s'.disk.log ∨ update s'.disk.cache a _ c = s'.disk.home c
  rw [update_of_ne hc]
  exact hcoh' c

/-- Either the block is new, and then it is in the log, or it is a block of the file and has not
been touched before. -/
theorem block_failed (bytes : List UInt8) :
    (s.slot (o / 1024) = 0 ∧ a ∈ (s'.afterFailed sb a o bytes).disk.log) ∨
      (s.slot (o / 1024) = a ∧ (a ∈ (s'.afterFailed sb a o bytes).disk.log ↔ a ∈ s.disk.log) ∧
        (a ∉ s.disk.log → s'.disk.cache a = s.disk.cache a)) := by
  have ho := end_offset hcopied
  have hslot := slot_next hwf hmax hcopied hlt
  rw [(buffer_failed hwf hmax hcopied hlt hb ha bytes).1]
  rcases hb.found_or_logged (by omega) ha with ⟨heq, hs⟩ | ⟨hempty, hlog⟩
  · have hself := hslot.symm.trans heq
    have hnext := log_next hwf hmax hcopied hlt (hself.trans_ne ha)
    rw [hself] at hnext
    subst hs
    refine .inr ⟨hself, hnext, fun hnot => ?_⟩
    exact (hcopied.logged a).resolve_left fun hc => hnot (hnext.mp hc)
  · exact .inl ⟨hslot.symm.trans hempty, hlog⟩

/-- Only what was reported has changed, if the bytes that the failed copy brought are those that
were there. -/
theorem onlyReported_failed_iff (hcoh : Coherent s) {bytes : List UInt8}
    (hbytes : bytes = (fromUser rd t (State.chunk n t o)).1) :
    OnlyReported s off t (s'.afterFailed sb a o bytes) ↔ ∀ j, t ≤ j → j < t + bytes.length →
        off + j < s.ip.size.toNat ∨
        (s.slot ((off + j) / 1024) ≠ 0 ∧ s.slot ((off + j) / 1024) ∉ s.disk.log) →
        rd j = some (s.content (off + j)) := by
  have hwf₁ := (after_copied hwf hmax hcopied).wf
  have hsize := hwf.size_le
  obtain ⟨-, ho⟩ := end_offset hcopied
  have hchunk := chunk_block n t o
  have hle := chunk_le n t o
  have hlen : bytes.length ≤ State.chunk n t o := hbytes ▸ length_reads_le ..
  have hself := slot_failed hwf hmax hcopied hlt hb ha bytes
  have hhome : (s'.afterFailed sb a o bytes).disk.home = s.disk.home :=
    (finish_home ..).trans (hb.home.trans (after_copied hwf hmax hcopied).home)
  -- the bytes that were copied are in the file
  have hspilled : ∀ j, t ≤ j → j < t + bytes.length →
      rd j = some ((s'.afterFailed sb a o bytes).content (off + j)) := fun j hj hj' => by
    have hget : bytes[j - t]? = rd j := by
      rw [hbytes] at hj' ⊢
      have hget : (reads rd t (State.chunk n t o))[j - t]? = rd (t + (j - t)) :=
        getElem?_reads (Nat.sub_lt_left_of_lt_add hj hj')
      rwa [Nat.add_sub_cancel' hj] at hget
    rw [content_failed hwf hmax hcopied hlt hb ha (by omega) (by omega), ← hget]
    unfold overwrite
    rw [if_pos (by omega), show off + j - o = j - t by omega,
      List.getElem?_eq_getElem (by omega), Option.getD_some]
  have houtside : ∀ p, p / 1024 < 268 → ¬ (off ≤ p ∧ p < o + bytes.length) →
      (s'.afterFailed sb a o bytes).content p = s.content p := fun p hp hout => by
    rw [content_failed hwf hmax hcopied hlt hb ha (by omega) hp]
    have hsame := hcopied.content_outside hwf (by omega) (Nat.zero_le _)
      (fun j m => length_reads_le rd j m) hp (by omega)
    by_cases hpo : p < o
    · rw [overwrite_of_lt hpo, hsame]
    · rw [overwrite_of_ge (by omega), hsame]
  constructor
  · intro hrep j hj hj' hor
    rw [hspilled j hj hj']
    congr 1
    rcases hor with hin | ⟨hne, hnot⟩
    · exact hrep.bytes _ hin (by omega)
    · have hdiv : (off + j) / 1024 = o / 1024 := by omega
      rw [hdiv] at hne hnot
      rcases block_failed hwf hmax hcopied hlt hb ha bytes with ⟨hempty, -⟩ | ⟨heq, hlog, -⟩
      · exact absurd hempty hne
      · rw [heq] at hnot
        have hcache := (hrep.coherent a).resolve_left fun hc => hnot (hlog.mp hc)
        have hcache' := (hcoh a).resolve_left hnot
        unfold State.content
        rw [hdiv, hself, heq, if_neg ha, if_neg ha, hcache, hcache', hhome]
  · intro h
    refine ⟨fun p hp hout => ?_, fun c => ?_⟩
    · by_cases hin : off ≤ p ∧ p < o + bytes.length
      · have hp' : off + (p - off) = p := by omega
        have hsame := h (p - off) (by omega) (by omega) (.inl (by omega))
        rw [hspilled _ (by omega) (by omega), hp'] at hsame
        exact Option.some.inj hsame
      · exact houtside p (by omega) hin
    · by_cases hca : c = a
      · subst hca
        rcases block_failed hwf hmax hcopied hlt hb ha bytes with ⟨-, hlog⟩ | ⟨heq, hlog, hcache⟩
        · exact .inl hlog
        · by_cases hmem : c ∈ s.disk.log
          · exact .inl (hlog.mpr hmem)
          right
          rw [hhome, ← (hcoh c).resolve_left hmem]
          -- byte by byte: those that were copied are in the file
          funext x
          by_cases hx : o % 1024 ≤ x ∧ x < o % 1024 + bytes.length
          · have hdiv : (off + (t + (x - o % 1024))) / 1024 = o / 1024 := by omega
            have hmod : (off + (t + (x - o % 1024))) % 1024 = x := by omega
            have hsame := h (t + (x - o % 1024)) (by omega) (by omega)
              (.inr (by rw [hdiv, heq]; exact ⟨ha, hmem⟩))
            rw [hspilled _ (by omega) (by omega)] at hsame
            have hbyte := Option.some.inj hsame
            unfold State.content at hbyte
            rwa [hdiv, hmod, hself, heq, if_neg ha, if_neg ha] at hbyte
          · rw [(buffer_failed hwf hmax hcopied hlt hb ha bytes).2, ← hcache hmem]
            by_cases hx' : x < o % 1024
            · rw [overwrite_of_lt hx']
            · rw [overwrite_of_ge (by omega)]
      · exact coherent_failed hwf hmax hcopied hb hcoh bytes hca

end FailedCopy

/-! ## Failing writes -/

theorem onlyReported_finish (hwf : Wf sb s) (hmax : off + n ≤ 268 * 1024)
    (hcopied : Copied sb (fromUser rd) n 0 off s t o s₁) (hcoh : Coherent s) (hwf' : Wf sb s')
    (hcontent : ∀ p, p / 1024 < 268 → s'.content p = s₁.content p)
    (hlogged : ∀ c, c ∈ s'.disk.log ∨ s'.disk.cache c = s₁.disk.cache c)
    (hmono : ∀ c, c ∈ s₁.disk.log → c ∈ s'.disk.log) (hhome : s'.disk.home = s₁.disk.home) :
    OnlyReported s off t ((s'.setSize o).iupdate sb) := by
  have hafter := after_copied hwf hmax hcopied
  have hsize := hwf.size_le
  obtain ⟨-, ho⟩ := end_offset hcopied
  refine ⟨fun p hp hout => ?_, fun c => coherent_finish_at o ?_⟩
  · rw [(sameData_finish hwf' o).content hwf' (by omega), hcontent p (by omega)]
    exact hcopied.content_outside hwf (by omega) (Nat.zero_le _) (fun j m => length_reads_le rd j m)
      (by omega) (by omega)
  · exact (hcoh.of_logged hcopied.logged hafter.log_mono hafter.home).of_logged hlogged hmono hhome c

theorem copyStart_eq {u : ℕ} (hcopied : Copied sb copyin n 0 off s t o s₁) (hlt : t < n)
    (hu : u < State.chunk n t o) : copyStart off (t + u) = t := by
  have ho := end_offset hcopied
  have hblock := chunk_block n t o
  unfold copyStart
  rcases hcopied.boundary with ⟨ht, hoff, -⟩ | hmod | hge <;> omega

theorem le_copyStart {u : ℕ} (hcopied : Copied sb copyin n 0 off s t o s₁) (hlt : t < n)
    (hu : t ≤ u) : t ≤ copyStart off u := by
  have ho := end_offset hcopied
  unfold copyStart
  rcases hcopied.boundary with ⟨ht, hoff, -⟩ | hmod | hge <;> omega

theorem needed_le_of_bmap (hwf : Wf sb s) (hmax : off + n ≤ 268 * 1024)
    (hcopied : Copied sb copyin n 0 off s t o s₁) (hlt : t < n) (hb : Bmap sb s₁ (o / 1024) a s')
    (ha : a ≠ 0) : s.needed (off / 1024) (span off (t + 1)) ≤ s.free sb := by
  have ho := end_offset hcopied
  have hneeded := hcopied.needed hwf (by omega) (Nat.zero_le _) (show t + 1 ≤ n by omega)
  have hspan : span o 1 = 1 := by
    unfold span
    rw [if_neg (by decide)]
    omega
  have hone : s₁.needed (o / 1024) 1 = s₁.cost (o / 1024) + s'.needed (o / 1024 + 1) 0 :=
    hb.needed ha (by omega)
  have hcost := (hb.cost (by omega)).1 ha
  rw [State.needed_zero] at hone
  rw [hspan, Nat.sub_zero] at hneeded
  omega

theorem harmless_failed_iff (hwf : Wf sb s) (hmax : off + n ≤ 268 * 1024)
    (hcopied : Copied sb (fromUser rd) n 0 off s t o s₁) (hlt : t < n)
    (hb : Bmap sb s₁ (o / 1024) a s') (ha : a ≠ 0) {u : ℕ} (hu : u < State.chunk n t o)
    (hnone : rd (t + u) = none) (hall : ∀ i, i < u → rd (t + i) ≠ none) :
    Harmless sb s rd off n ↔ ∀ j, t ≤ j → j < t + u → off + j < s.ip.size.toNat ∨
        (s.slot ((off + j) / 1024) ≠ 0 ∧ s.slot ((off + j) / 1024) ∉ s.disk.log) →
      rd j = some (s.content (off + j)) := by
  have hle := chunk_le n t o
  have hstart := copyStart_eq hcopied hlt hu
  have hfirst : ∀ j, j < t + u → rd j ≠ none := fun j hj => by
    rcases Nat.lt_or_ge j t with hjt | hjt
    · exact hcopied.readable (Nat.zero_le j) hjt
    · have hread := hall (j - t) (by omega)
      rwa [Nat.add_sub_cancel' hjt] at hread
  have hneeded := needed_le_of_bmap hwf hmax hcopied hlt hb ha
  constructor
  · intro h
    have hrest := h (t + u) (by omega) hnone hfirst
    rw [hstart] at hrest
    exact hrest hneeded
  · intro h u' _ hnone' hall' _
    -- the first byte that cannot be read is that one
    obtain rfl : u' = t + u := by
      rcases Nat.lt_trichotomy u' (t + u) with hlt' | heq | hgt
      · exact absurd hnone' (hfirst u' hlt')
      · exact heq
      · exact absurd hnone (hall' _ hgt)
    rw [hstart]
    exact h

/-- Where `writei` copies from, with `user_src`. -/
def userSource (k : Kernel.Kmem) (pt : Kernel.PageTable) (src : ℕ) : State.Source :=
  fun tot m =>
    match Kernel.copyin k pt (src + tot) m with
    | .ok r => r
    | .error _ => ([], false)

theorem userSource_eq (k : Kernel.Kmem) (pt : Kernel.PageTable) (src : ℕ) :
    userSource k pt src = fromUser (userRange k pt src) := by
  funext j m
  unfold userSource
  rw [copyin_eq]

section

variable {off n : UInt32}

theorem writei_only_reported_iff (hwf : Wf sb s) (hcoh : Coherent s) (h : ¬ s.Refuses off n) :
    ∃ (t : ℕ) (s' : State), s.writei sb (fromUser rd) off n = .ok (t, s') ∧ Wf sb s' ∧
      s.ip.size.toNat ≤ s'.ip.size.toNat ∧ (NoHoles s → NoHoles s') ∧
      (OnlyReported s off.toNat t s' ↔ Harmless sb s rd off.toNat n.toNat) := by
  obtain ⟨hoff, hmax⟩ := State.Refuses.bounds h
  obtain ⟨t, o, s₁, s', heq, hcopied, hlast⟩ := writei_turns hwf h (fromUser rd)
  have hsize := size_finish hwf hmax hcopied hlast
  have hwf₁ := (after_copied hwf hmax hcopied).wf
  refine ⟨t, _, heq, wf_finish hwf hmax hcopied hlast, by omega,
    noHoles_finish hwf hoff hmax hcopied hlast, ?_⟩
  cases hlast with
  | done hn =>
    refine iff_of_true ?_ fun u hu hnone => ?_
    · exact onlyReported_finish hwf hmax hcopied hcoh hwf₁ (fun _ _ => rfl) (fun _ => .inr rfl)
        (fun _ hc => hc) rfl
    · exact absurd hnone (hcopied.readable (Nat.zero_le u) (by omega))
  | full hlt hb =>
    refine iff_of_true ?_ fun u hu hnone hall hfree => ?_
    · exact onlyReported_finish hwf hmax hcopied hcoh (hb.wf hwf₁) (fun _ hp => hb.content hwf₁ hp)
        hb.logged (fun _ => hb.log_mono) hb.home
    · -- there were not enough blocks to get to the copy that would fail
      have htu : t ≤ u := by
        by_contra hnot
        exact hcopied.readable (Nat.zero_le u) (by omega) hnone
      have hstart := le_copyStart hcopied hlt htu
      have hsub : copyStart off.toNat u ≤ u := Nat.sub_le ..
      have hnot := lt_needed_of_full hwf hmax hcopied hb
        (show t < copyStart off.toNat u + 1 by omega) (by omega)
      omega
  | failed hlt hb ha hc =>
    obtain ⟨u, hu, hnone, hall, hlen⟩ := fromUser_failed hc
    have hiff := onlyReported_failed_iff hwf hmax hcopied hlt hb ha hcoh rfl
    rw [hlen] at hiff
    exact hiff.trans (harmless_failed_iff hwf hmax hcopied hlt hb ha hu hnone hall).symm

theorem readi_byte (hwf : Wf sb s) (hholes : NoHoles s) {p : UInt32}
    (hp : p.toNat < s.ip.size.toNat) :
    s.readi sb (fun _ => true) p 1 = .ok (1, [s.content p.toNat], s) := by
  have hsize := hwf.size_le
  have hone : (1 : UInt32).toNat = 1 := rfl
  have hadd : (p + 1).toNat = p.toNat + 1 := by
    rw [UInt32.toNat_add, hone]
    omega
  rw [readi_eq hwf hholes, hone, Nat.min_eq_left (by omega)]
  · rfl
  · rw [UInt32.lt_iff_toNat_lt, UInt32.lt_iff_toNat_lt]
    omega

end

/-- **A failing write** changes bytes of the file that it does not report, or leaves a buffer that
is neither in the log nor as on the disk, unless the bytes that the last copy brought were there
before. -/
theorem failing_write_iff (hwf : Wf sb s) (hcoh : Coherent s) (k : Kernel.Kmem)
    (pt : Kernel.PageTable) (src : ℕ) (off n : UInt32) :
    ∃ (r : ℤ) (s' : State), s.writei sb (userSource k pt src) off n = .ok (r, s') ∧
      (NoHoles s → ∀ p : UInt32, p.toNat < s.ip.size.toNat →
        s.readi sb (fun _ => true) p 1 = .ok (1, [s.content p.toNat], s) ∧
          s'.readi sb (fun _ => true) p 1 = .ok (1, [s'.content p.toNat], s')) ∧
      (OnlyReported s off.toNat r.toNat s' ↔
        s.Refuses off n ∨ Harmless sb s (userRange k pt src) off.toNat n.toNat) := by
  rw [userSource_eq]
  by_cases h : s.Refuses off n
  · refine ⟨-1, s, writei_refused h _, fun hholes p hp => ?_, ?_⟩
    · exact ⟨readi_byte hwf hholes hp, readi_byte hwf hholes hp⟩
    · exact iff_of_true ⟨fun _ _ _ => rfl, hcoh⟩ (.inl h)
  · obtain ⟨t, s', heq, hwf', hsize, hnoHoles, hiff⟩ := writei_only_reported_iff hwf hcoh h
    refine ⟨t, s', heq, fun hholes p hp => ?_, hiff.trans (or_iff_right h).symm⟩
    exact ⟨readi_byte hwf hholes hp, readi_byte hwf' (hnoHoles hholes) (by omega)⟩

/-- The file of five bytes, when all is on the disk. -/
def helloSynced : State := { hello with disk := { hello.disk with home := hello.disk.cache } }

/-- One page of user memory, of ones; the next one is not mapped. -/
def onePage : Kernel.PageTable :=
  .node 2 fun i => .node 3 fun j => .leaf 4 fun k =>
    if i = 0 ∧ j = 0 ∧ k = 0 then { v := true, u := true, r := true, ppn := 1 } else {}

def ones : Kernel.Kmem := ⟨[], fun _ => 0, fun _ _ => 1, 0⟩

theorem wf_helloSynced : Wf smallSb helloSynced :=
  ⟨wf_hello.inum_lt, wf_hello.size_le, wf_hello.marked, wf_hello.data, wf_hello.inj⟩

theorem coherent_helloSynced : Coherent helloSynced := fun _ => .inr rfl

/-- Two bytes can be read, at the end of the page. -/
theorem failing_write_iff_hello :
    ∃ (r : ℤ) (s' : State), helloSynced.writei smallSb (userSource ones onePage 4094) 0 4 =
        .ok (r, s') ∧
      (NoHoles helloSynced → ∀ p : UInt32, p.toNat < helloSynced.ip.size.toNat →
        helloSynced.readi smallSb (fun _ => true) p 1 =
          .ok (1, [helloSynced.content p.toNat], helloSynced) ∧
          s'.readi smallSb (fun _ => true) p 1 = .ok (1, [s'.content p.toNat], s')) ∧
      (OnlyReported helloSynced 0 r.toNat s' ↔
        helloSynced.Refuses 0 4 ∨ Harmless smallSb helloSynced (userRange ones onePage 4094) 0 4) :=
  failing_write_iff wf_helloSynced coherent_helloSynced ones onePage 4094 0 4

/-- The call returns 0, but the first two bytes of the file are others, and their block is not in
the log. -/
theorem failing_write_hello :
    ∃ s', helloSynced.writei smallSb (userSource ones onePage 4094) 0 4 = .ok (0, s') ∧
      ¬ OnlyReported helloSynced 0 0 s' ∧
      ((helloSynced.readi smallSb (fun _ => true) 0 5).toOption.map fun r => r.2.1) =
        some [104, 101, 108, 108, 111] ∧
      ((s'.readi smallSb (fun _ => true) 0 5).toOption.map fun r => r.2.1) =
        some [1, 1, 108, 108, 111] ∧
      4 ∉ s'.disk.log ∧ s'.disk.cache 4 0 ≠ s'.disk.home 4 0 :=
  ⟨_, rfl, fun h => absurd (h.bytes 0 (by decide) (by decide)) (by decide +kernel), by
    decide +kernel, by decide +kernel, by decide +kernel, by decide +kernel⟩

end LazyXv6.Storage
