import LazyXv6.FileSystem.Log

/-!
# Admission to the log

`begin_op` reserves `MAXOPBLOCKS` blocks of `LOGSIZE` for each outstanding operation, while
`log_write` panics once `log.size - 1` blocks are in the log, and tests that before it looks for the
block among them. With the `LOGSIZE` blocks that `mkfs` gives the log, the last reserved block is
not there.

`Brackets` ties `log.outstanding` and `log.committing` to the places of the processes, and
`Reserved` bounds what is in the log plus what the outstanding operations may still add.
-/

namespace LazyXv6.FileSystem

open Function Lib Lib.SmallFin

variable {n : ℕ}

/-! ## Places -/

def Place.isInOp : Place → Bool
  | .inOp _ => true
  | _ => false

/-- In `end_op`, with `do_commit` set. -/
def Place.isCommit : Place → Bool
  | .idle | .inOp _ => false
  | _ => true

def Place.logged : Place → List ℕ
  | .inOp logged => logged
  | _ => []

/-- The blocks that an operation of `B` blocks may still log. -/
def Place.reserve (B : ℕ) : Place → ℤ
  | .inOp logged => B - logged.length
  | _ => 0

/-- Operations log `B` distinct blocks at most. -/
def OpBound (B : ℕ) (s : State n) : Act n → Prop
  | .logWrite p b _ => (absorb b (s.place p).logged).length ≤ B
  | _ => True

instance (B : ℕ) (s : State n) : ∀ a, Decidable (OpBound B s a)
  | .logWrite .. => inferInstanceAs (Decidable (_ ≤ _))
  | .beginOp _ | .endOp _ | .commit _ | .crash | .recover => .isTrue trivial

/-! ## What one step does -/

/-- The effect of a step on `log.lh`, the counts and the places. -/
inductive LogStep (sb : Superblock) (s : State n) : Act n → State n → Prop where
  | beginOp {p : Fin n} {s' : State n} (hboot : s.boot = none) (hp : s.place p = .idle)
      (hc : s.committing = false)
      (hroom : s.lh.length + (s.outstanding + 1) * maxOpBlocks ≤ logSize)
      (h : s' = { s with outstanding := s.outstanding + 1 }.goto p (.inOp [])) :
      LogStep sb s (.beginOp p) s'
  | logWrite {p : Fin n} {b : ℕ} {c : Block} {logged : List ℕ} {s' : State n}
      (hp : s.place p = .inOp logged) (hroom : s.lh.length < logSize)
      (hsize : (s.lh.length : ℤ) < sb.nlog - 1)
      (h : s' = { s with cache := update s.cache b c, lh := absorb b s.lh }.goto p
        (.inOp (absorb b logged))) : LogStep sb s (.logWrite p b c) s'
  | endOp {p : Fin n} {logged : List ℕ} {s' : State n} (hp : s.place p = .inOp logged)
      (hc : s.committing = false) (hout : s.outstanding ≠ 1)
      (h : s' = { s with outstanding := s.outstanding - 1 }.goto p .idle) :
      LogStep sb s (.endOp p) s'
  | lastOp {p : Fin n} {logged : List ℕ} {s' : State n} (hp : s.place p = .inOp logged)
      (hc : s.committing = false) (hout : s.outstanding = 1)
      (h : s' = { s with outstanding := s.outstanding - 1, committing := true }.goto p .commit) :
      LogStep sb s (.endOp p) s'
  | commit {p : Fin n} {s' : State n} (h : commitStep sb s p (s.place p) = some s') :
      LogStep sb s (.commit p) s'
  | crash : LogStep sb s .crash s.crash
  | recover {b : Boot} (hboot : s.boot = some b) : LogStep sb s .recover (recoverStep sb s b)

theorem next_cases {sb : Superblock} {s s' : State n} {a : Act n} (h : next sb s a = some s') :
    LogStep sb s a s' := by
  unfold next at h
  obtain ⟨r, hr, hok⟩ := Option.bind_eq_some_iff.mp h
  obtain ⟨t, rfl⟩ | ⟨e, rfl⟩ : (∃ t, r = .ok t) ∨ ∃ e, r = .error e := by
    cases r with
    | ok t => exact .inl ⟨t, rfl⟩
    | error e => exact .inr ⟨e, rfl⟩
  swap
  · cases hok
  obtain rfl : t = s' := Option.some.inj hok
  cases a with
  | beginOp p =>
    simp only [step] at hr
    split at hr
    · rename_i hidle
      obtain ⟨u, hu, heq⟩ := Option.map_eq_some_iff.mp hr
      unfold beginOp at hu
      split at hu
      · cases hu
      · rename_i hc
        split at hu
        · cases hu
        · rename_i hroom
          cases hu
          cases heq
          exact .beginOp hidle.1 hidle.2 (by simpa using hc) (by omega) rfl
    · cases hr
  | logWrite p b c =>
    simp only [step] at hr
    split at hr
    · rename_i logged hp
      unfold logWrite at hr
      split at hr
      · cases hr
      · rename_i hroom
        split at hr
        · cases hr
        · cases hr
          exact .logWrite hp (by omega) (by omega) rfl
    · cases hr
  | endOp p =>
    simp only [step] at hr
    split at hr
    · rename_i logged hp
      unfold endOp at hr
      split at hr
      · cases hr
      · rename_i hc
        split at hr
        · rename_i hout
          cases hr
          exact .lastOp hp (by simpa using hc) (by omega) rfl
        · rename_i hout
          cases hr
          exact .endOp hp (by simpa using hc) (by omega) rfl
    · cases hr
  | commit p =>
    obtain ⟨u, hu, heq⟩ := Option.map_eq_some_iff.mp hr
    cases heq
    exact .commit hu
  | crash =>
    cases hr
    exact .crash
  | recover =>
    obtain ⟨b, hb, heq⟩ := Option.map_eq_some_iff.mp hr
    cases heq
    exact .recover hb

section Steps

variable {sb : Superblock} {s s' : State n} {a : Act n} {p q : Fin n} {pl : Place} {b : ℕ}
    {l : List ℕ} {B : ℕ}

theorem commitStep_place (h : commitStep sb s p pl = some s') :
    pl.isCommit = true ∧ s'.outstanding = s.outstanding ∧ s'.boot = s.boot ∧
      ((∃ pl', pl'.isCommit = true ∧ s'.place = update s.place p pl' ∧
          s'.committing = s.committing ∧ (s'.lh = s.lh ∧ pl' ≠ .committed ∨ s'.lh = [])) ∨
        pl = .committed ∧ s'.place = update s.place p .idle ∧ s'.committing = false ∧
          s'.lh = s.lh) := by
  cases pl with
  | idle | inOp => cases h
  | commit =>
    simp only [commitStep] at h
    split at h
    · rename_i hl
      cases h
      exact ⟨rfl, rfl, rfl, .inl ⟨.committed, rfl, rfl, rfl, .inr hl⟩⟩
    · cases h
      exact ⟨rfl, rfl, rfl, .inl ⟨.writeLog 0, rfl, rfl, rfl, .inl ⟨rfl, nofun⟩⟩⟩
  | writeLog tail =>
    simp only [commitStep] at h
    split at h
    · cases h
      exact ⟨rfl, rfl, rfl, .inl ⟨.writeLog (tail + 1), rfl, rfl, rfl, .inl ⟨rfl, nofun⟩⟩⟩
    · cases h
      exact ⟨rfl, rfl, rfl, .inl ⟨.writeHead, rfl, rfl, rfl, .inl ⟨rfl, nofun⟩⟩⟩
  | writeHead =>
    cases h
    exact ⟨rfl, rfl, rfl, .inl ⟨.install 0, rfl, rfl, rfl, .inl ⟨rfl, nofun⟩⟩⟩
  | install tail =>
    simp only [commitStep] at h
    split at h
    · cases h
      exact ⟨rfl, rfl, rfl, .inl ⟨.install (tail + 1), rfl, rfl, rfl, .inl ⟨rfl, nofun⟩⟩⟩
    · cases h
      exact ⟨rfl, rfl, rfl, .inl ⟨.clear, rfl, rfl, rfl, .inl ⟨rfl, nofun⟩⟩⟩
  | clear =>
    cases h
    exact ⟨rfl, rfl, rfl, .inl ⟨.committed, rfl, rfl, rfl, .inr rfl⟩⟩
  | committed =>
    cases h
    exact ⟨rfl, rfl, rfl, .inr ⟨rfl, rfl, rfl, rfl⟩⟩

theorem recoverStep_place (sb : Superblock) (s : State n) (b : Boot) :
    (recoverStep sb s b).outstanding = s.outstanding ∧
      (recoverStep sb s b).committing = s.committing ∧ (recoverStep sb s b).place = s.place ∧
      ((recoverStep sb s b).boot = none → (recoverStep sb s b).lh = []) := by
  cases b with
  | readHead => exact ⟨rfl, rfl, rfl, nofun⟩
  | install tail =>
    simp only [recoverStep]
    split <;> exact ⟨rfl, rfl, rfl, nofun⟩
  | clear => exact ⟨rfl, rfl, rfl, fun _ => rfl⟩

theorem mem_absorb {x : ℕ} : x ∈ absorb b l ↔ x ∈ l ∨ x = b := by
  unfold absorb
  split
  · rename_i hb
    exact ⟨.inl, fun h => h.elim id fun he => he ▸ hb⟩
  · rw [List.mem_append, List.mem_singleton]

theorem nodup_absorb (h : l.Nodup) : (absorb b l).Nodup := by
  unfold absorb
  split
  · exact h
  · rename_i hb
    exact List.nodup_append.mpr ⟨h, List.nodup_singleton b, fun x hx y hy => by
      rw [List.mem_singleton.mp hy]
      rintro rfl
      exact hb hx⟩

/-- `log.outstanding` and `log.committing` say where the processes are. -/
structure Brackets (s : State n) : Prop where
  outstanding : s.outstanding = tally (fun _ pl => pl.isInOp) s.place
  committing : unit s.committing = tally (fun _ pl => pl.isCommit) s.place
  apart : s.committing = true → s.outstanding = 0
  empty : s.boot = none → s.committing = false → s.outstanding = 0 → s.lh = []
  booting : s.boot ≠ none → ∀ p, s.place p = .idle
  logged : ∀ p l, s.place p = .inOp l → l.Nodup ∧ ∀ b ∈ l, b ∈ s.lh
  done : ∀ p, s.place p = .committed → s.lh = []

theorem Brackets.outstanding_pos (h : Brackets s) (hp : s.place p = .inOp l) :
    1 ≤ s.outstanding := by
  rw [h.outstanding]
  exact one_le_tally (i := p) (by rw [hp]; rfl)

theorem Brackets.not_committing (h : Brackets s) (hp : s.place p = .inOp l) :
    s.committing = false := by
  have hpos := h.outstanding_pos hp
  refine Bool.eq_false_iff.mpr fun hc => ?_
  have hzero := h.apart hc
  omega

theorem Brackets.isCommit_eq_false (h : Brackets s) (hc : s.committing = false) (q : Fin n) :
    (s.place q).isCommit = false := by
  refine Bool.eq_false_iff.mpr fun hq => ?_
  have hone : 1 ≤ tally (fun _ pl => pl.isCommit) s.place := one_le_tally (i := q) hq
  rw [← h.committing, hc] at hone
  exact absurd hone (by decide)

theorem Brackets.ne_committed (h : Brackets s) (hc : s.committing = false) (q : Fin n) :
    s.place q ≠ .committed := by
  intro hq
  have hcommit := h.isCommit_eq_false hc q
  rw [hq] at hcommit
  exact nomatch hcommit

theorem Brackets.committing_of_isCommit (h : Brackets s) (hp : (s.place p).isCommit = true) :
    s.committing = true := by
  by_contra hc
  have hno := h.isCommit_eq_false (Bool.eq_false_iff.mpr hc) p
  rw [hp] at hno
  exact nomatch hno

theorem Brackets.boot_eq_none (h : Brackets s) (hp : s.place p ≠ .idle) : s.boot = none := by
  by_contra hb
  exact hp (h.booting hb p)

theorem Brackets.sole (h : Brackets s) (hp : (s.place p).isCommit = true)
    (hq : (s.place q).isCommit = true) : q = p := by
  refine eq_of_tally_le_one (P := fun _ pl => Place.isCommit pl) ?_ hp hq
  rw [← h.committing]
  exact unit_le_one _

theorem Brackets.move (h : Brackets s) {t : State n} (hplace : t.place = update s.place p pl)
    (hboot : t.boot = none) (hout : t.outstanding = s.outstanding - unit (s.place p).isInOp +
      unit pl.isInOp) (hcomm : unit t.committing = unit s.committing - unit (s.place p).isCommit +
    unit pl.isCommit) (hapart : t.committing = true → t.outstanding = 0)
    (hempty : t.committing = false → t.outstanding = 0 → t.lh = [])
    (hkeep : ∀ q l, s.place q = .inOp l → ∀ b ∈ s.lh, b ∈ t.lh)
    (hlogged : ∀ l, pl = .inOp l → l.Nodup ∧ ∀ b ∈ l, b ∈ t.lh)
    (hdone : pl = .committed → t.lh = []) (hothers : ∀ q, q ≠ p → s.place q ≠ .committed) :
    Brackets t := by
  refine ⟨?_, ?_, hapart, fun _ => hempty, fun hb => absurd hboot hb, ?_, ?_⟩
  · rw [hplace, tally_update, hout, h.outstanding]
  · rw [hplace, tally_update, hcomm, h.committing]
  · rw [hplace, forall_update_iff s.place fun _ pl => ∀ l, pl = .inOp l → l.Nodup ∧ ∀ b ∈ l, b ∈ t.lh]
    refine ⟨hlogged, fun q _ l hq => ?_⟩
    obtain ⟨hnd, hsub⟩ := h.logged q l hq
    exact ⟨hnd, fun b hb => hkeep q l hq b (hsub b hb)⟩
  · rw [hplace, forall_update_iff s.place fun _ pl => pl = .committed → t.lh = []]
    exact ⟨hdone, fun q hne hq => absurd hq (hothers q hne)⟩

theorem Brackets.step (h : Brackets s) (hs : LogStep sb s a s') : Brackets s' := by
  cases hs with
  | @beginOp p s' hboot hp hc hroom hs' =>
    subst hs'
    have hpos : 0 ≤ s.outstanding := h.outstanding ▸ tally_nonneg _ _
    refine h.move rfl hboot ?_ ?_ (fun hc' => ?_) (fun _ hzero => ?_) (fun _ _ _ _ hb => hb)
      (fun l hl => ?_) nofun fun q _ => h.ne_committed hc q
    · rw [hp]
      simp [Place.isInOp, State.goto]
    · rw [hp]
      simp [Place.isCommit, State.goto]
    · exact absurd (hc.symm.trans hc') (by decide)
    · have hzero : s.outstanding + 1 = 0 := hzero
      omega
    · cases hl
      exact ⟨List.nodup_nil, nofun⟩
  | @logWrite p b c logged s' hp hroom hsize hs' =>
    subst hs'
    have hpos := h.outstanding_pos hp
    have hc := h.not_committing hp
    have hboot := h.boot_eq_none (p := p) (by rw [hp]; nofun)
    refine h.move rfl hboot ?_ ?_ (fun hc' => ?_) (fun _ hzero => ?_)
      (fun _ _ _ x hx => mem_absorb.mpr (.inl hx)) (fun l hl => ?_) nofun
      fun q _ => h.ne_committed hc q
    · rw [hp]
      simp [Place.isInOp, State.goto]
    · rw [hp]
      simp [Place.isCommit, State.goto]
    · exact absurd (hc.symm.trans hc') (by decide)
    · have hzero : s.outstanding = 0 := hzero
      omega
    · cases hl
      obtain ⟨hnd, hsub⟩ := h.logged p logged hp
      exact ⟨nodup_absorb hnd, fun x hx => mem_absorb.mpr ((mem_absorb.mp hx).imp_left (hsub x))⟩
  | @endOp p logged s' hp hc hout hs' =>
    subst hs'
    have hboot := h.boot_eq_none (p := p) (by rw [hp]; nofun)
    refine h.move rfl hboot ?_ ?_ (fun hc' => ?_) (fun _ hzero => ?_) (fun _ _ _ _ hb => hb)
      nofun nofun fun q _ => h.ne_committed hc q
    · rw [hp]
      simp [Place.isInOp, State.goto]
    · rw [hp]
      simp [Place.isCommit, State.goto]
    · exact absurd (hc.symm.trans hc') (by decide)
    · have hzero : s.outstanding - 1 = 0 := hzero
      omega
  | @lastOp p logged s' hp hc hout hs' =>
    subst hs'
    have hboot := h.boot_eq_none (p := p) (by rw [hp]; nofun)
    refine h.move rfl hboot ?_ ?_ (fun _ => ?_) nofun (fun _ _ _ _ hb => hb) nofun nofun
      fun q _ => h.ne_committed hc q
    · rw [hp]
      simp [Place.isInOp, State.goto]
    · rw [hp, hc]
      simp [Place.isCommit, State.goto]
    · show s.outstanding - 1 = 0
      omega
  | @commit p s' hs' =>
    obtain ⟨hp, hout, hboot, hcases⟩ := commitStep_place hs'
    have hc := h.committing_of_isCommit hp
    have hzero := h.apart hc
    have hboot' : s'.boot = none := by
      rw [hboot]
      refine h.boot_eq_none (p := p) fun hidle => ?_
      rw [hidle] at hp
      exact nomatch hp
    have hinop : (s.place p).isInOp = false := by
      cases hpl : s.place p <;> rw [hpl] at hp <;> first | rfl | exact nomatch hp
    have hothers : ∀ q, q ≠ p → s.place q ≠ .committed := by
      intro q hne hq
      exact hne (h.sole hp (by rw [hq]; rfl))
    have hnone : ∀ q l, s.place q ≠ .inOp l := by
      intro q l hq
      have hpos := h.outstanding_pos hq
      omega
    rcases hcases with ⟨pl', hpl', hplace, hcomm, hlh⟩ | ⟨hpl, hplace, hcomm, hlh⟩
    · refine h.move hplace hboot' ?_ ?_ (fun _ => hout.trans hzero) (fun hf => ?_)
        (fun q l hq => absurd hq (hnone q l)) (fun l hl => ?_) (fun hd => ?_) hothers
      · have hinop' : pl'.isInOp = false := by
          cases pl' <;> first | rfl | exact nomatch hpl'
        rw [hout, hinop, hinop']
        simp
      · rw [hcomm, hp, hpl']
        simp
      · rw [hcomm, hc] at hf
        exact nomatch hf
      · rw [hl] at hpl'
        exact nomatch hpl'
      · exact hlh.elim (fun hlh => absurd hd hlh.2) id
    · refine h.move hplace hboot' ?_ ?_ (fun hf => ?_) (fun _ _ => ?_)
        (fun q l hq => absurd hq (hnone q l)) nofun nofun hothers
      · rw [hout, hinop]
        simp [Place.isInOp]
      · rw [hcomm, hp, hc]
        simp [Place.isCommit]
      · rw [hcomm] at hf
        exact nomatch hf
      · rw [hlh]
        exact h.done p hpl
  | crash =>
    have hidle : ∀ (P : Place → Bool), P .idle = false →
        tally (fun _ pl => P pl) s.crash.place = 0 := fun P hP => tally_eq_zero fun _ => hP
    exact ⟨(hidle _ rfl).symm, (hidle _ rfl).symm, nofun, nofun, fun _ _ => rfl, nofun, nofun⟩
  | @recover b hb =>
    obtain ⟨hout, hcomm, hplace, hlh⟩ := recoverStep_place sb s b
    have hidle := h.booting (by rw [hb]; nofun)
    refine ⟨?_, ?_, ?_, fun hn _ _ => hlh hn, fun _ => ?_, fun p l hp => ?_, fun p hp => ?_⟩
    · rw [hout, hplace]
      exact h.outstanding
    · rw [hcomm, hplace]
      exact h.committing
    · rw [hcomm, hout]
      exact h.apart
    · rw [hplace]
      exact hidle
    · rw [hplace, hidle p] at hp
      exact nomatch hp
    · rw [hplace, hidle p] at hp
      exact nomatch hp

theorem brackets_boot (disk : ℕ → Block) : Brackets (boot disk : State n) := by
  have hidle : ∀ (P : Place → Bool), P .idle = false →
      tally (fun _ pl => P pl) (boot disk : State n).place = 0 := fun P hP =>
    tally_eq_zero fun _ => hP
  exact ⟨(hidle _ rfl).symm, (hidle _ rfl).symm, nofun, nofun, fun _ _ => rfl, nofun, nofun⟩

/-! ## Reservations -/

/-- What is in the log and what the outstanding operations may still add leave two of `LOGSIZE`
blocks. -/
structure Reserved (B : ℕ) (s : State n) : Prop where
  bound : ∀ p, (s.place p).logged.length ≤ B
  room : s.boot = none → (s.lh.length : ℤ) + ∑ p, (s.place p).reserve B ≤ logSize - 2

theorem Place.reserve_nonneg (h : pl.logged.length ≤ B) : 0 ≤ pl.reserve B := by
  cases pl with
  | inOp l =>
    have hl : l.length ≤ B := h
    show (0 : ℤ) ≤ B - l.length
    omega
  | _ => exact le_rfl

theorem Place.reserve_le (B : ℕ) (pl : Place) : pl.reserve B ≤ B * unit pl.isInOp := by
  cases pl with
  | inOp l =>
    show (B : ℤ) - l.length ≤ B * 1
    omega
  | _ => exact (mul_zero _).ge

theorem Place.reserve_of_isCommit (h : pl.isCommit = true) : pl.reserve B = 0 ∧ pl.logged = [] := by
  cases pl with
  | inOp l => exact nomatch h
  | _ => exact ⟨rfl, rfl⟩

theorem Reserved.move (h : Reserved B s) {t : State n}
    (hplace : t.place = update s.place p pl) (hboot : s.boot = none)
    (hbound : pl.logged.length ≤ B)
    (hroom : (t.lh.length : ℤ) + pl.reserve B ≤ s.lh.length + (s.place p).reserve B) :
    Reserved B t := by
  refine ⟨?_, fun _ => ?_⟩
  · rw [hplace, forall_update_iff s.place fun _ pl => pl.logged.length ≤ B]
    exact ⟨hbound, fun q _ => h.bound q⟩
  · have hold := h.room hboot
    rw [hplace, sum_update]
    omega

theorem length_absorb (b : ℕ) (l : List ℕ) :
    (absorb b l).length = if b ∈ l then l.length else l.length + 1 := by
  unfold absorb
  split
  · rfl
  · exact List.length_append

theorem Reserved.beginOp (h : Reserved B s) (hb : Brackets s) (hB : B < maxOpBlocks)
    (hboot : s.boot = none) (hp : s.place p = .idle) (hc : s.committing = false)
    (hroom : s.lh.length + (s.outstanding + 1) * maxOpBlocks ≤ logSize) :
    Reserved B ({ s with outstanding := s.outstanding + 1 }.goto p (.inOp [])) := by
  have hmax : (maxOpBlocks : ℤ) = 10 := rfl
  have hlog : (logSize : ℤ) = 30 := rfl
  have hB' : (B : ℤ) ≤ 9 := by
    unfold maxOpBlocks at hB
    omega
  rw [hmax] at hroom
  have hpos : 0 ≤ s.outstanding := hb.outstanding ▸ tally_nonneg _ _
  have hsum : ∑ q, (s.place q).reserve B ≤ B * s.outstanding := by
    rw [hb.outstanding]
    unfold tally
    rw [Finset.mul_sum]
    exact Finset.sum_le_sum fun q _ => Place.reserve_le B _
  have hmul : (B : ℤ) * s.outstanding ≤ 9 * s.outstanding := Int.mul_le_mul_of_nonneg_right hB' hpos
  refine ⟨?_, fun _ => ?_⟩
  · show ∀ q, (update s.place p (.inOp []) q).logged.length ≤ B
    rw [forall_update_iff s.place fun _ pl => pl.logged.length ≤ B]
    exact ⟨Nat.zero_le B, fun q _ => h.bound q⟩
  · show (s.lh.length : ℤ) + ∑ q, (update s.place p (.inOp []) q).reserve B ≤ _
    have hidle : Place.idle.reserve B = 0 := rfl
    have hnew : (Place.inOp []).reserve B = B := sub_zero _
    rw [sum_update, hp, hidle, hnew]
    rcases hpos.eq_or_lt with hzero | hlt
    · -- the first operation of a transaction finds the log empty
      rw [hb.empty hboot hc hzero.symm, List.length_nil]
      omega
    · omega

theorem Reserved.logWrite (h : Reserved B s) (hb : Brackets s) {logged : List ℕ} {c : Block}
    (hp : s.place p = .inOp logged) (hbound : (absorb b logged).length ≤ B) :
    Reserved B ({ s with cache := update s.cache b c, lh := absorb b s.lh }.goto p
      (.inOp (absorb b logged))) := by
  have hboot := hb.boot_eq_none (p := p) (by rw [hp]; nofun)
  refine h.move rfl hboot hbound ?_
  show ((absorb b s.lh).length : ℤ) + (B - (absorb b logged).length) ≤ _
  rw [hp]
  show _ ≤ (s.lh.length : ℤ) + (B - logged.length)
  rw [length_absorb, length_absorb]
  by_cases hin : b ∈ s.lh
  · rw [if_pos hin]
    split <;> omega
  · have hnot : b ∉ logged := fun hm => hin ((hb.logged p logged hp).2 b hm)
    rw [if_neg hin, if_neg hnot]
    omega

/-- **Operations of fewer than `MAXOPBLOCKS` blocks keep the reservations.** -/
theorem Reserved.step (h : Reserved B s) (hb : Brackets s) (hB : B < maxOpBlocks)
    (hbound : OpBound B s a) (hs : LogStep sb s a s') : Reserved B s' := by
  have hleave : ∀ p l, s.place p = .inOp l → 0 ≤ (s.place p).reserve B := fun p _ _ =>
    Place.reserve_nonneg (h.bound p)
  cases hs with
  | beginOp hboot hp hc hroom hs' =>
    subst hs'
    exact h.beginOp hb hB hboot hp hc hroom
  | @logWrite p b c logged s' hp hroom hsize hs' =>
    subst hs'
    have hbound : (absorb b (s.place p).logged).length ≤ B := hbound
    rw [hp] at hbound
    exact h.logWrite hb hp hbound
  | @endOp p logged s' hp hc hout hs' | @lastOp p logged s' hp hc hout hs' =>
    subst hs'
    have hboot := hb.boot_eq_none (p := p) (by rw [hp]; nofun)
    exact h.move rfl hboot (Nat.zero_le B) (by simpa [State.goto, Place.reserve] using hleave p _ hp)
  | @commit p s' hs' =>
    obtain ⟨hp, -, hboot, hcases⟩ := commitStep_place hs'
    have hboot : s.boot = none := by
      refine hb.boot_eq_none (p := p) fun hidle => ?_
      rw [hidle] at hp
      exact nomatch hp
    rcases hcases with ⟨pl', hpl', hplace, -, hlh⟩ | ⟨-, hplace, -, hlh⟩
    · refine h.move hplace hboot ?_ ?_
      · rw [(Place.reserve_of_isCommit (B := B) hpl').2]
        exact Nat.zero_le B
      · rw [(Place.reserve_of_isCommit hpl').1, (Place.reserve_of_isCommit hp).1]
        rcases hlh with ⟨hlh, -⟩ | hlh <;> rw [hlh]
        rw [List.length_nil]
        omega
    · refine h.move hplace hboot (Nat.zero_le B) ?_
      rw [hlh, (Place.reserve_of_isCommit hp).1]
      exact le_rfl
  | crash => exact ⟨fun _ => Nat.zero_le B, nofun⟩
  | @recover b' hb' =>
    obtain ⟨-, -, hplace, hlh⟩ := recoverStep_place sb s b'
    have hidle := hb.booting (by rw [hb']; nofun)
    refine ⟨fun p => ?_, fun hn => ?_⟩
    · rw [hplace]
      exact h.bound p
    · have hzero : ∀ p, (s.place p).reserve B = 0 := by
        intro p
        rw [hidle p]
        rfl
      rw [hplace, hlh hn]
      simp [hzero, logSize, maxOpBlocks]

theorem reserved_boot (B : ℕ) (disk : ℕ → Block) : Reserved B (boot disk : State n) :=
  ⟨fun _ => Nat.zero_le B, nofun⟩

/-! ## Panics -/

theorem panic_cases {e : LogPanic} (h : panic sb s a = some e) :
    (∃ p b c l, a = .logWrite p b c ∧ s.place p = .inOp l ∧ (e = .tooBigATransaction ∧
          (logSize ≤ s.lh.length ∨ (sb.nlog : Int) - 1 ≤ s.lh.length) ∨
        e = .logWriteOutsideOfTrans ∧ s.outstanding < 1)) ∨
      ∃ p l, s.place p = .inOp l ∧ e = .logCommitting ∧ s.committing = true := by
  unfold panic at h
  split at h
  · rename_i e' hstep
    cases h
    cases a with
    | beginOp p =>
      simp only [step] at hstep
      split at hstep
      · obtain ⟨t, -, heq⟩ := Option.map_eq_some_iff.mp hstep
        cases heq
      · cases hstep
    | logWrite p b c =>
      simp only [step] at hstep
      split at hstep
      · rename_i l hp
        unfold logWrite at hstep
        split at hstep
        · cases hstep
          exact .inl ⟨p, b, c, l, rfl, hp, .inl ⟨rfl, ‹_›⟩⟩
        · split at hstep
          · cases hstep
            exact .inl ⟨p, b, c, l, rfl, hp, .inr ⟨rfl, ‹_›⟩⟩
          · cases hstep
      · cases hstep
    | endOp p =>
      simp only [step] at hstep
      split at hstep
      · rename_i l hp
        unfold endOp at hstep
        split at hstep
        · cases hstep
          exact .inr ⟨p, l, hp, rfl, ‹_›⟩
        · split at hstep <;> cases hstep
      · cases hstep
    | commit | recover =>
      obtain ⟨t, -, heq⟩ := Option.map_eq_some_iff.mp hstep
      cases heq
    | crash => cases hstep
  · cases h

theorem Brackets.panic_eq (hb : Brackets s) {e : LogPanic} (h : panic sb s a = some e) :
    e = .tooBigATransaction ∧ ∃ p l, s.place p = .inOp l ∧
      (logSize ≤ s.lh.length ∨ (sb.nlog : Int) - 1 ≤ s.lh.length) := by
  rcases panic_cases h with ⟨p, b, c, l, -, hp, ⟨he, hfull⟩ | ⟨-, hout⟩⟩ | ⟨p, l, hp, -, hc⟩
  · exact ⟨he, p, l, hp, hfull⟩
  · have hpos := hb.outstanding_pos hp
    omega
  · have hno := hb.not_committing hp
    rw [hc] at hno
    exact nomatch hno

theorem Reserved.panic_eq_none (h : Reserved B s) (hb : Brackets s) : panic mkfs s a = none := by
  rcases hpanic : panic mkfs s a with _ | e
  · rfl
  · obtain ⟨-, p, l, hp, hfull⟩ := hb.panic_eq hpanic
    have hroom := h.room (hb.boot_eq_none (p := p) (by rw [hp]; nofun))
    have hsum : 0 ≤ ∑ q, (s.place q).reserve B :=
      Finset.sum_nonneg fun q _ => Place.reserve_nonneg (h.bound q)
    have hlog : (logSize : ℤ) = 30 := rfl
    have hlog' : logSize = 30 := rfl
    have hn : (mkfs.nlog : ℤ) = 30 := rfl
    omega

theorem brackets_of_reach {disk : ℕ → Block} (h : Reach (next sb) (boot disk) s) : Brackets s :=
  h.invariant (fun _ _ _ hb hs => hb.step (next_cases hs)) (brackets_boot disk)

theorem reserved_of_reachIf {disk : ℕ → Block} (hB : B < maxOpBlocks)
    (h : ReachIf (next sb) (OpBound B) (boot disk) s) : Reserved B s := by
  have hboth := h.invariant (I := fun t => Brackets t ∧ Reserved B t)
    (fun t a t' ht hbound hs => ⟨ht.1.step (next_cases hs),
      ht.2.step ht.1 hB hbound (next_cases hs)⟩) ⟨brackets_boot disk, reserved_boot B disk⟩
  exact hboth.2

end Steps

/-! ## The result -/

/-- Three operations, one after the other, log ten blocks each, up to the last. -/
def threeOps : List (Act 3) :=
  List.replicate 3 .recover ++ [.beginOp 0, .beginOp 1, .beginOp 2] ++
    (List.range 29).map fun i => .logWrite (Fin.ofNat 3 (i / 10)) (100 + i) fun _ => 0

theorem threeOps_panics :
    ∃ s : State 3, ReachIf (next mkfs) (OpBound maxOpBlocks) (boot fun _ _ => 0) s ∧
      OpBound maxOpBlocks s (.logWrite 2 129 fun _ => 0) ∧
      panic mkfs s (.logWrite 2 129 fun _ => 0) = some .tooBigATransaction := by
  obtain ⟨s, hs, h⟩ : ∃ s ∈
    runActsIf (next mkfs) (OpBound maxOpBlocks) (boot fun _ _ => 0) threeOps,
      OpBound maxOpBlocks s (.logWrite 2 129 fun _ => 0) ∧
        panic mkfs s (.logWrite 2 129 fun _ => 0) = some .tooBigATransaction := by
    decide +kernel
  exact ⟨s, reachIf_of_runActsIf hs, h⟩

theorem OpBound.mono {B B' : ℕ} (h : B ≤ B') {s : State n} {a : Act n} (hb : OpBound B s a) :
    OpBound B' s a := by
  cases a with
  | logWrite p b c => exact le_trans hb h
  | _ => trivial

/-- **Admission to the log.** With the log that `mkfs` lays out, no interleaving of operations of
`B` distinct blocks at most panics if and only if `B` is less than `MAXOPBLOCKS`. Whatever the
operations log, `log_write` is never outside of a transaction and `end_op` never finds a commit
under way. -/
theorem log_admission_iff (B : ℕ) : ((∀ (n : ℕ) (disk : ℕ → Block) (s : State n),
      ReachIf (next mkfs) (OpBound B) (boot disk) s → ∀ a, OpBound B s a → panic mkfs s a = none) ↔
      B < maxOpBlocks) ∧
    ∀ (n : ℕ) (disk : ℕ → Block) (s : State n), Reach (next mkfs) (boot disk) s → ∀ a,
      panic mkfs s a ≠ some .logWriteOutsideOfTrans ∧ panic mkfs s a ≠ some .logCommitting := by
  refine ⟨⟨fun h => ?_, fun hB n disk s hs a _ => ?_⟩, fun n disk s hs a => ?_⟩
  · by_contra hB
    obtain ⟨s, hs, hbound, hpanic⟩ := threeOps_panics
    have hle := not_lt.mp hB
    rw [h 3 _ s (hs.mono fun _ _ => OpBound.mono hle) _ (hbound.mono hle)] at hpanic
    exact nomatch hpanic
  · exact (reserved_of_reachIf hB hs).panic_eq_none (brackets_of_reach hs.reach)
  · have hb := brackets_of_reach hs
    exact ⟨fun h => absurd (hb.panic_eq h).1 nofun, fun h => absurd (hb.panic_eq h).1 nofun⟩

/-- **The log overflows** although every operation keeps to `MAXOPBLOCKS` blocks. -/
theorem log_overflows : ¬ ∀ (s : State 3),
    ReachIf (next mkfs) (OpBound maxOpBlocks) (boot fun _ _ => 0) s →
      ∀ a, OpBound maxOpBlocks s a → panic mkfs s a = none := by
  intro h
  obtain ⟨s, hs, hbound, hpanic⟩ := threeOps_panics
  rw [h s hs _ hbound] at hpanic
  exact nomatch hpanic

end LazyXv6.FileSystem
