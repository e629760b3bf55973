import LazyXv6.ExitWait.Steps

/-!
# `kill` (`proc.c`)

`kill(pid)` goes through the process table, one slot per step, and marks the first slot whose `pid`
is the one it was given, in whatever state the slot is. The pid of an unused slot is 0, and
`allocproc` does not reset `killed`: a `kill(0)` marks an unused slot, and with it the process that
is created there next (`kill_zero_reaches_child`).

`marked` is not in the source: since the process in the slot was created, a `kill` with its pid has
reached it, or its own trap handling has marked it.
-/

namespace LazyXv6.ExitWait

open Lib Lib.SmallFin Function

variable {n : ℕ}

structure KillState (n : ℕ) where
  base : State n
  /-- The processes in `kill`, with the pid and the slots to visit. -/
  killing : Slot n → Option (ℤ × List (Slot n))
  marked : Slot n → Bool

inductive KillAct (n : ℕ) where
  /-- A step of `fork`, `exit` or `wait`. -/
  | base (a : Act n)
  | kill (p : Slot n) (pid : ℤ)
  | visit (p : Slot n)
  /-- `setkilled(p)` in `usertrap`. -/
  | trap (p : Slot n)

/-- The process that takes the step; a `kill` is no step of this kind. -/
def Act.actor : Act n → Option (Slot n)
  | .go p _ | .fork p _ | .exit p _ | .wait p _ => some p
  | .kill _ => none

/-- A process that is created has no marks. -/
def Act.unmark (marked : Slot n → Bool) : Act n → Slot n → Bool
  | .fork _ np => update marked np false
  | _ => marked

namespace KillState

def stepBase (s : KillState n) (a : Act n) : Option (KillState n) :=
  match a.actor with
  | none => none
  | some p =>
    if s.killing p = none then
      (next s.base a).map fun base => { s with base := base, marked := a.unmark s.marked }
    else none

def visit (s : KillState n) (p : Slot n) : Option (KillState n) :=
  match s.killing p with
  | none => none
  | some (_, []) => some { s with killing := update s.killing p none }
  | some (pid, q :: rest) =>
    if (s.base.pc q).locked then none
    else if s.base.pid q = pid then
      (s.base.kill q).map fun base =>
        { base := base
          killing := update s.killing p none
          marked := if s.base.pc q = .unused then s.marked else update s.marked q true }
    else some { s with killing := update s.killing p (some (pid, rest)) }

def next (s : KillState n) : KillAct n → Option (KillState n)
  | .base a => s.stepBase a
  | .kill p pid =>
    if s.base.pc p = .user ∧ s.killing p = none then
      some { s with killing := update s.killing p (some (pid, List.finRange (n + 1))) }
    else none
  | .visit p => s.visit p
  | .trap p =>
    if s.base.pc p = .user ∧ s.killing p = none then
      some { s with
        base := { s.base with killed := update s.base.killed p true }
        marked := update s.marked p true }
    else none

def boot : KillState n := ⟨ExitWait.boot, fun _ => none, fun _ => false⟩

end KillState

/-! ## What steps do to a slot -/

/-- Pids and marks stay, and so do the unused slots. -/
structure SlotsKept (s s' : State n) : Prop where
  killed : s'.killed = s.killed
  pid : s'.pid = s.pid
  unused : ∀ q, s'.pc q = .unused ↔ s.pc q = .unused

/-- Every slot keeps its pid and its mark, or has been freed. -/
def SlotsFreed (s s' : State n) : Prop :=
  ∀ q, (s'.killed q = s.killed q ∧ s'.pid q = s.pid q ∧ (s'.pc q = .unused ↔ s.pc q = .unused)) ∨
    (s'.pc q = .unused ∧ s'.pid q = 0 ∧ s'.killed q = false)

section

variable {s s' s'' : State n} {p q np : Slot n} {c : Pc n}

theorem SlotsKept.refl (s : State n) : SlotsKept s s := ⟨rfl, rfl, fun _ => Iff.rfl⟩

theorem SlotsKept.trans (h : SlotsKept s s') (h' : SlotsKept s' s'') : SlotsKept s s'' :=
  ⟨h'.killed.trans h.killed, h'.pid.trans h.pid, fun q => (h'.unused q).trans (h.unused q)⟩

theorem SlotsKept.setPc (hp : s.pc p ≠ .unused) (hc : c ≠ .unused) : SlotsKept s (s.setPc p c) := by
  refine ⟨rfl, rfl, fun q => ?_⟩
  show update s.pc p c q = .unused ↔ _
  rcases eq_or_ne q p with rfl | hne
  · rw [update_self]
    exact ⟨fun h => absurd h hc, fun h => absurd h hp⟩
  · rw [update_of_ne hne]

theorem SlotsKept.freed (h : SlotsKept s s') : SlotsFreed s s' :=
  fun q => .inl ⟨congrFun h.killed q, congrFun h.pid q, h.unused q⟩

theorem SlotsFreed.release (hp : s.pc p ≠ .unused) (hc : c ≠ .unused) :
    SlotsFreed s (s.release.setPc p c) := by
  have hset : SlotsKept s.release (s.release.setPc p c) := .setPc hp hc
  exact SlotsKept.freed ⟨hset.killed, hset.pid, hset.unused⟩

theorem SlotsFreed.freeproc (hp : s.pc p ≠ .unused) (hpq : p ≠ q) (hc : c ≠ .unused) :
    SlotsFreed s ((s.freeproc q).setPc p c) := by
  have hpc : (s.freeproc q).pc p ≠ .unused := by
    show update s.pc q .unused p ≠ .unused
    rw [update_of_ne hpq]
    exact hp
  have hkept : SlotsKept (s.freeproc q) ((s.freeproc q).setPc p c) := .setPc hpc hc
  intro r
  rw [hkept.killed, hkept.pid, hkept.unused]
  unfold State.freeproc
  rcases eq_or_ne r q with rfl | hne
  · right
    simp
  · left
    simp [hne]

theorem visit_kept {chan : Option (Slot n)} (h : s.visit p q chan = some s') : SlotsKept s s' := by
  unfold State.visit at h
  split at h
  · cases h
    exact .refl s
  · obtain ⟨-, h⟩ := Option.ite_none_left_eq_some.mp h
    split at h
    · rename_i addr hq
      have hpc : s.pc q ≠ .unused := by
        rw [hq]
        exact nofun
      cases h
      split
      · exact .setPc hpc nofun
      · exact .refl s
    · cases h
      exact .refl s

theorem acquire_kept (hp : s.pc p ≠ .unused) (h : s.acquire p c = some s') (hc : c ≠ .unused) :
    SlotsKept s s' := by
  obtain ⟨-, h⟩ := Option.ite_none_right_eq_some.mp h
  cases h
  have hset : SlotsKept { s with waitLock := some p } ({ s with waitLock := some p }.setPc p c) :=
    .setPc hp hc
  exact ⟨hset.killed, hset.pid, hset.unused⟩

theorem visit_setPc {chan : Option (Slot n)} (hp : s.pc p ≠ .unused)
    (h : ((s.visit p q chan).map fun s => s.setPc p c) = some s') (hc : c ≠ .unused) :
    SlotsKept s s' := by
  obtain ⟨t, ht, rfl⟩ := Option.map_eq_some_iff.mp h
  have hkept := visit_kept ht
  exact hkept.trans (.setPc (fun hu => hp ((hkept.unused p).mp hu)) hc)

theorem go_slots (h : Inv s) {ok : Bool} (hs : s.go p ok = some s') : SlotsFreed s s' := by
  have hpc : s.pc p ≠ .unused := by
    intro hu
    simp [State.go, hu] at hs
  unfold State.go at hs
  have hok := h.ok p
  cases hp : s.pc p with
  | unused | used | user | zombie | asleep =>
    rw [hp] at hs
    exact nomatch hs
  | forkCopy np =>
    rw [hp] at hs hok
    replace hok : s.pc np = .used p true := hok
    have hne : p ≠ np := by
      rintro rfl
      rw [hp] at hok
      exact nomatch hok
    have hnp : s.pc np ≠ .unused := by simp [hok]
    cases ok with
    | true =>
      cases hs
      have hfirst : SlotsKept s (s.setPc np (.used p false)) := .setPc hnp nofun
      exact SlotsKept.freed (hfirst.trans (.setPc (fun hu => hpc ((hfirst.unused p).mp hu)) nofun))
    | false =>
      cases hs
      exact .freeproc hpc hne nofun
  | forkParent np =>
    rw [hp] at hs
    obtain ⟨-, hs⟩ := Option.ite_none_right_eq_some.mp hs
    cases hs
    have hset : SlotsKept s (s.setPc p (.forkRun np)) := .setPc hpc nofun
    exact SlotsKept.freed ⟨hset.killed, hset.pid, hset.unused⟩
  | forkRun np =>
    rw [hp] at hs hok
    replace hok : s.pc np = .used p false ∧ s.parent np = some p := hok
    have hnp : s.pc np ≠ .unused := by simp [hok.1]
    cases hs
    have hfirst : SlotsKept s (s.setPc np .user) := .setPc hnp nofun
    exact SlotsKept.freed (hfirst.trans (.setPc (fun hu => hpc ((hfirst.unused p).mp hu)) nofun))
  | exitLock | waitLock =>
    rw [hp] at hs
    exact SlotsKept.freed (acquire_kept hpc hs nofun)
  | reparent status rest =>
    rw [hp] at hs
    cases rest with
    | nil =>
      cases hs
      exact SlotsKept.freed (.setPc hpc nofun)
    | cons q rest =>
      simp only at hs
      split at hs
      · cases hs
        have hset : SlotsKept s (s.setPc p (.reparentWake status rest (List.finRange (n + 1)))) :=
          .setPc hpc nofun
        exact SlotsKept.freed ⟨hset.killed, hset.pid, hset.unused⟩
      · cases hs
        exact SlotsKept.freed (.setPc hpc nofun)
  | reparentWake status rest visit | exitWake status visit =>
    rw [hp] at hs
    cases visit with
    | nil =>
      cases hs
      exact SlotsKept.freed (.setPc hpc nofun)
    | cons q qs => exact SlotsKept.freed (visit_setPc hpc hs nofun)
  | exitSelf status =>
    rw [hp] at hs
    cases hs
    have hset : SlotsKept s (s.setPc p .exitRelease) := .setPc hpc nofun
    exact SlotsKept.freed ⟨hset.killed, hset.pid, hset.unused⟩
  | exitRelease | waitSleep _ | waitRelease _ =>
    rw [hp] at hs
    cases hs
    exact .release hpc nofun
  | exitSched | falling _ =>
    rw [hp] at hs
    cases hs
    exact SlotsKept.freed (.setPc hpc nofun)
  | waitScan addr rest havekids =>
    rw [hp] at hs
    cases rest with
    | nil =>
      simp only at hs
      split at hs
      · cases hs
        exact .release hpc nofun
      · cases hs
        exact SlotsKept.freed (.setPc hpc nofun)
    | cons q rest =>
      unfold State.scan at hs
      simp only at hs
      split at hs
      · obtain ⟨-, hs⟩ := Option.ite_none_left_eq_some.mp hs
        split at hs
        · rename_i hz
          split at hs
          · cases hs
            exact SlotsKept.freed (.setPc hpc nofun)
          · cases hs
            have hpq : p ≠ q := by
              rintro rfl
              rw [hp] at hz
              exact nomatch hz
            exact SlotsFreed.freeproc (s := { s with log := _ }) hpc hpq nofun
        · cases hs
          exact SlotsKept.freed (.setPc hpc nofun)
      · cases hs
        exact SlotsKept.freed (.setPc hpc nofun)

theorem base_slots {a : Act n} (h : Inv s) (ha : a.actor = some p) (hs : next s a = some s') :
    ((∀ marked, a.unmark marked = marked) ∧ SlotsFreed s s') ∨
    ∃ np, a = .fork p np ∧ s.pc np = .unused ∧ s'.killed = s.killed ∧ s'.pc np ≠ .unused ∧
      ∀ q, q ≠ np → s'.pid q = s.pid q ∧ (s'.pc q = .unused ↔ s.pc q = .unused) := by
  cases a with
  | go q ok => exact .inl ⟨fun _ => rfl, go_slots h hs⟩
  | fork q np =>
    cases ha
    obtain ⟨⟨hp, hnp⟩, hs⟩ := Option.ite_none_right_eq_some.mp hs
    cases hs
    have hpc : s.pc p ≠ .unused := by simp [hp]
    have hne : np ≠ p := by
      rintro rfl
      exact hpc hnp
    refine .inr ⟨np, rfl, hnp, rfl, ?_, fun q hq => ⟨update_of_ne hq .., ?_⟩⟩
    · simp [State.setPc, hne]
    show update (update s.pc np (.used p true)) p (.forkCopy np) q = .unused ↔ _
    rcases eq_or_ne q p with rfl | hqp
    · simp [hpc]
    · rw [update_of_ne hqp, update_of_ne hq]
  | exit q status =>
    obtain ⟨⟨hp, -⟩, hs⟩ := Option.ite_none_right_eq_some.mp hs
    cases hs
    exact .inl ⟨fun _ => rfl, SlotsKept.freed (.setPc (by simp [hp]) nofun)⟩
  | wait q addr =>
    obtain ⟨hp, hs⟩ := Option.ite_none_right_eq_some.mp hs
    cases hs
    exact .inl ⟨fun _ => rfl, SlotsKept.freed (.setPc (by simp [hp]) nofun)⟩
  | kill q => exact nomatch ha

theorem kill_slots (hs : s.kill q = some s') : s'.killed = update s.killed q true ∧ s'.pid = s.pid ∧
    ∀ r, s'.pc r = .unused ↔ s.pc r = .unused := by
  obtain ⟨-, hs⟩ := Option.ite_none_left_eq_some.mp hs
  split at hs
  case h_1 addr hq =>
    cases hs
    have hset : SlotsKept { s with killed := update s.killed q true } _ :=
      .setPc (p := q) (c := .waitLock addr) (by simp [hq]) nofun
    exact ⟨hset.killed, hset.pid, hset.unused⟩
  case h_2 =>
    cases hs
    exact ⟨rfl, rfl, fun _ => Iff.rfl⟩

end

/-! ## Marks and their causes -/

/-- A `kill` is for a pid that a process can have. -/
def KillAct.Targeted (_ : KillState n) : KillAct n → Prop
  | .kill _ pid => pid ≠ 0
  | _ => True

instance (s : KillState n) (a : KillAct n) : Decidable (a.Targeted s) := by
  unfold KillAct.Targeted
  cases a <;> infer_instance

/-- An unused slot has no pid and no mark, and a process with a mark has been given it. -/
structure KillInv (s : KillState n) : Prop where
  base : Inv s.base
  unused : ∀ q, s.base.pc q = .unused → s.base.pid q = 0 ∧ s.base.killed q = false
  marked : ∀ q, s.base.pc q ≠ .unused → s.base.killed q = true → s.marked q = true
  target : ∀ p, ∀ call ∈ s.killing p, call.1 ≠ 0

section

variable {s s' : KillState n} {p : Slot n}

theorem killInv_boot : KillInv (KillState.boot : KillState n) where
  base := inv_boot
  unused q hq := by
    have hne : q ≠ 0 := by
      rintro rfl
      exact nomatch hq
    have hpid : (boot : State n).pid q = 0 := update_of_ne hne 1 fun _ => (0 : ℤ)
    exact ⟨hpid, rfl⟩
  marked _ _ h := nomatch h
  target _ _ h := nomatch h

theorem KillInv.stepBase {a : Act n} (h : KillInv s) (hs : s.stepBase a = some s') :
    KillInv s' := by
  unfold KillState.stepBase at hs
  split at hs
  · exact nomatch hs
  rename_i p ha
  obtain ⟨-, hs⟩ := Option.ite_none_right_eq_some.mp hs
  obtain ⟨b, hb, rfl⟩ := Option.map_eq_some_iff.mp hs
  have hinv : Inv b := h.base.next hb
  rcases base_slots h.base ha hb with ⟨hunmark, hfreed⟩ | ⟨np, rfl, hnp, hkilled, hused, hother⟩
  · refine ⟨hinv, fun q hq => ?_, fun q hq hk => ?_, h.target⟩
    · rcases hfreed q with ⟨hk, hpid, hiff⟩ | ⟨-, hpid, hk⟩
      · rw [hk, hpid]
        exact h.unused q (hiff.mp hq)
      · exact ⟨hpid, hk⟩
    · rcases hfreed q with ⟨hk', -, hiff⟩ | ⟨hq', -, -⟩
      · show a.unmark s.marked q = true
        rw [hunmark]
        exact h.marked q (fun hu => hq (hiff.mpr hu)) (hk' ▸ hk)
      · exact absurd hq' hq
  · have hclear := (h.unused np hnp).2
    refine ⟨hinv, fun q hq => ?_, fun q hq hk => ?_, h.target⟩
    · have hne : q ≠ np := by
        rintro rfl
        exact hused hq
      obtain ⟨hpid, hiff⟩ := hother q hne
      show b.pid q = 0 ∧ b.killed q = false
      rw [hpid, hkilled]
      exact h.unused q (hiff.mp hq)
    · replace hk : b.killed q = true := hk
      rw [hkilled] at hk
      -- the child's slot is not marked: `freeproc` has cleared it
      have hne : q ≠ np := by
        rintro rfl
        rw [hclear] at hk
        exact nomatch hk
      show update s.marked np false q = true
      rw [update_of_ne hne]
      exact h.marked q (fun hu => hq ((hother q hne).2.mpr hu)) hk

theorem KillInv.killing (h : KillInv s) {o : Option (ℤ × List (Slot n))}
    (ho : ∀ call ∈ o, call.1 ≠ 0) : KillInv { s with killing := update s.killing p o } where
  base := h.base
  unused := h.unused
  marked := h.marked
  target := (forall_update_iff s.killing fun _ o => ∀ call ∈ o, call.1 ≠ 0).mpr
    ⟨ho, fun q _ => h.target q⟩

theorem KillInv.visit (h : KillInv s) (hs : s.visit p = some s') : KillInv s' := by
  unfold KillState.visit at hs
  split at hs
  case h_1 => exact nomatch hs
  case h_2 =>
    cases hs
    exact h.killing nofun
  case h_3 pid q rest hp =>
    have hpid : pid ≠ 0 := h.target p (pid, q :: rest) hp
    obtain ⟨-, hs⟩ := Option.ite_none_left_eq_some.mp hs
    split at hs
    case isFalse =>
      cases hs
      refine h.killing fun call hc => ?_
      cases hc
      exact hpid
    case isTrue hq =>
      obtain ⟨b, hb, rfl⟩ := Option.map_eq_some_iff.mp hs
      obtain ⟨hkilled, hbpid, hiff⟩ := kill_slots hb
      -- the slot has a pid, so there is a process in it
      have hused : s.base.pc q ≠ .unused := fun hu => hpid (hq ▸ (h.unused q hu).1)
      refine ⟨h.base.kill hb, fun r hr => ?_, fun r hr hk => ?_, (h.killing (o := none) nofun).target⟩
      · have hr' := (hiff r).mp hr
        have hne : r ≠ q := by
          rintro rfl
          exact hused hr'
        show b.pid r = 0 ∧ b.killed r = false
        rw [hbpid, hkilled, update_of_ne hne]
        exact h.unused r hr'
      · show (if s.base.pc q = .unused then s.marked else update s.marked q true) r = true
        rw [if_neg hused]
        replace hk : b.killed r = true := hk
        rw [hkilled] at hk
        rcases eq_or_ne r q with rfl | hne
        · exact update_self ..
        · rw [update_of_ne hne] at hk ⊢
          exact h.marked r (fun hu => hr ((hiff r).mpr hu)) hk

theorem KillInv.trap (h : KillInv s) (hp : s.base.pc p = .user) :
    KillInv { s with
      base := { s.base with killed := update s.base.killed p true }
      marked := update s.marked p true } where
  base := ⟨fun q => (h.base.ok q).congr rfl rfl, h.base.lock, h.base.init, h.base.forker,
    h.base.parent⟩
  unused q hq := by
    have hne : q ≠ p := by
      rintro rfl
      simp [hp] at hq
    show s.base.pid q = 0 ∧ update s.base.killed p true q = false
    rw [update_of_ne hne]
    exact h.unused q hq
  marked q hq hk := by
    show update s.marked p true q = true
    rcases eq_or_ne q p with rfl | hne
    · exact update_self ..
    · rw [update_of_ne hne]
      exact h.marked q hq ((update_of_ne hne true s.base.killed).symm.trans hk)
  target := h.target

theorem KillInv.step {a : KillAct n} (h : KillInv s) (ha : a.Targeted s) (hs : s.next a = some s') :
    KillInv s' := by
  cases a with
  | base a => exact h.stepBase hs
  | kill p pid =>
    obtain ⟨-, hs⟩ := Option.ite_none_right_eq_some.mp hs
    cases hs
    refine h.killing fun call hc => ?_
    cases hc
    exact ha
  | visit p => exact h.visit hs
  | trap p =>
    obtain ⟨⟨hp, -⟩, hs⟩ := Option.ite_none_right_eq_some.mp hs
    cases hs
    exact h.trap hp

/-- **`kill` reaches only its target** when no `kill` is for pid 0: a process with a mark has been
given it since it was created, and a child starts without one. -/
theorem kill_reaches_target (n : ℕ) (s : KillState n)
    (hs : ReachIf KillState.next KillAct.Targeted KillState.boot s) :
    (∀ q, s.base.pc q ≠ .unused → s.base.killed q = true → s.marked q = true) ∧
    ∀ p np s', s.next (.base (.fork p np)) = some s' →
      s'.base.pc np ≠ .unused ∧ s'.base.killed np = false := by
  have h : KillInv s := hs.invariant (fun _ _ _ ht hc hstep => ht.step hc hstep) killInv_boot
  refine ⟨h.marked, fun p np s' hstep => ?_⟩
  obtain ⟨-, hfork⟩ := Option.ite_none_right_eq_some.mp hstep
  obtain ⟨b, hb, rfl⟩ := Option.map_eq_some_iff.mp hfork
  rcases base_slots h.base rfl hb with ⟨hunmark, -⟩ | ⟨np', he, hnp, hkilled, hused, -⟩
  · have habs : update (fun _ => true) np false np = true := congrFun (hunmark fun _ => true) np
    rw [update_self] at habs
    exact nomatch habs
  · cases he
    refine ⟨hused, ?_⟩
    show b.killed np = false
    rw [hkilled]
    exact (h.unused np hnp).2

end

/-- `init` forks a child, which is killed by its pid while it runs. -/
def targetedActs : List (KillAct 1) :=
  [.base (.fork 0 1), .base (.go 0 true), .base (.go 0 true), .base (.go 0 true), .kill 0 2,
    .visit 0, .visit 0]

theorem kill_reaches_target_child :
    ∃ s : KillState 1, ReachIf KillState.next KillAct.Targeted KillState.boot s ∧
    s.base.pc 1 = .user ∧ s.base.killed 1 = true ∧ s.marked 1 = true := by
  obtain ⟨s, hs, hpc, hk⟩ :
    ∃ s ∈ runActsIf KillState.next KillAct.Targeted KillState.boot targetedActs,
      s.base.pc 1 = .user ∧ s.base.killed 1 = true := by decide +kernel
  have hreach := reachIf_of_runActsIf hs
  exact ⟨s, hreach, hpc, hk, (kill_reaches_target 1 s hreach).1 1 (by simp [hpc]) hk⟩

/-- `init` calls `kill(0)`, and forks. -/
def strayActs : List (KillAct 1) := [.kill 0 0, .visit 0, .visit 0, .base (.fork 0 1)]

/-- **A `kill(0)` reaches the next child**: slot 1, which was unused, is marked, and so is the
process that is created there, which nobody has killed. -/
theorem kill_zero_reaches_child :
    ∃ s : KillState 1, runActs KillState.next KillState.boot strayActs = some s ∧
    s.base.pc 1 ≠ .unused ∧ s.base.pid 1 = 2 ∧ s.base.killed 1 = true ∧ s.marked 1 = false := by
  show ∃ s ∈ runActs KillState.next KillState.boot strayActs, _
  decide +kernel

end LazyXv6.ExitWait
