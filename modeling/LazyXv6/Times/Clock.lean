import LazyXv6.Lib.Runs

/-!
# Run times and the clock (`proc.c`, `trap.c`)

What `allocproc`, the scheduler, `yield`, `sleep`, `exit`, `waitx` and the clock interrupt do to the
times of a process, in any order of steps and on any number of CPUs. A step runs from one
acquisition or release of a lock to the next; a `p->lock` that is held between two steps is
`locked`.

* `clockintr` increments `ticks`, and then `update_time` visits the slots one by one, under their
  locks.
* `allocproc` and `exit` read `ticks` without `tickslock`.
* Times are `uint`, so their differences are modulo `2^32`.
-/

namespace LazyXv6.Times

open Lib Lib.SmallFin Function

/-- `enum procstate`; in `embryo` the state is `USED`, and `allocproc` has not set the times yet. -/
inductive ProcState where
  | unused
  | embryo
  | used
  | sleeping
  | runnable
  | running
  | zombie
  deriving DecidableEq

structure Proc where
  state : ProcState
  locked : Bool
  ctime : UInt32
  etime : UInt32
  rtime : UInt32

structure State (n : ℕ) where
  ticks : UInt32
  /-- In `clockintr`: the slots that `update_time` has still to visit. -/
  clock : Option (List (Fin n))
  proc : Fin n → Proc

variable {n : ℕ}

def State.set (s : State n) (q : Fin n) (pr : Proc) : State n :=
  { s with proc := update s.proc q pr }

/-- `update_time` at one slot. -/
def Proc.charge (pr : Proc) : Proc :=
  if pr.state = .running then { pr with rtime := pr.rtime + 1 } else pr

inductive Act (n : ℕ) where
  /-- `clockintr`: `ticks++`, the visit of a slot, and the end. -/
  | tick
  | visit
  | ticked
  /-- `allocproc` takes a slot, sets its times, or gives the slot back. -/
  | alloc (q : Fin n)
  | create (q : Fin n)
  | allocFails (q : Fin n)
  /-- `fork` frees the child after a failed `uvmcopy`, or makes it `RUNNABLE`. -/
  | forkFails (q : Fin n)
  | start (q : Fin n)
  | schedule (q : Fin n)
  | yield (q : Fin n)
  | sleep (q : Fin n)
  /-- `wakeup` or `kill`. -/
  | wake (q : Fin n)
  | exit (q : Fin n)
  /-- `release(&p->lock)`, where the step before has left it held. -/
  | release (q : Fin n)
  /-- `freeproc`, in `waitx`. -/
  | reap (q : Fin n)

/-- A critical section of `p->lock`: it is free, and the slot in the given state changes. -/
def State.locking (s : State n) (q : Fin n) (state : ProcState) (f : Proc → Proc) :
    Option (State n) :=
  if (s.proc q).locked = false ∧
    (s.proc q).state = state then some (s.set q (f (s.proc q))) else none

/-- The next turn of the loop of `update_time`. -/
def State.updateTime (s : State n) : Option (State n) :=
  match s.clock with
  | some (q :: qs) =>
    if (s.proc q).locked then none
    else some ({ s with clock := some qs }.set q (s.proc q).charge)
  | _ => none

def next (s : State n) : Act n → Option (State n)
  | .tick =>
    if s.clock = none then some { s with ticks := s.ticks + 1, clock := some (List.finRange n) }
    else none
  | .visit => s.updateTime
  | .ticked => if s.clock = some [] then some { s with clock := none } else none
  | .alloc q => s.locking q .unused fun pr => { pr with state := .embryo, locked := true }
  | .create q =>
    if (s.proc q).state = .embryo then
      some (s.set q { s.proc q with state := .used, rtime := 0, etime := 0, ctime := s.ticks })
    else none
  | .allocFails q =>
    if (s.proc q).state = .embryo then
      some (s.set q { s.proc q with state := .unused, locked := false })
    else none
  | .forkFails q =>
    if (s.proc q).locked = true ∧ (s.proc q).state = .used then
      some (s.set q { s.proc q with state := .unused, locked := false })
    else none
  | .start q => s.locking q .used fun pr => { pr with state := .runnable }
  | .schedule q => s.locking q .runnable fun pr => { pr with state := .running, locked := true }
  | .yield q => s.locking q .running fun pr => { pr with state := .runnable, locked := true }
  | .sleep q => s.locking q .running fun pr => { pr with state := .sleeping, locked := true }
  | .wake q => s.locking q .sleeping fun pr => { pr with state := .runnable }
  | .exit q =>
    s.locking q .running fun pr => { pr with state := .zombie, etime := s.ticks, locked := true }
  | .release q =>
    if (s.proc q).locked = true ∧ (s.proc q).state ≠ .embryo then
      some (s.set q { s.proc q with locked := false })
    else none
  | .reap q => s.locking q .zombie fun pr => { pr with state := .unused }

/-- After `userinit`, with the first process in slot `p`. -/
def boot (p : Fin n) : State n where
  ticks := 0
  clock := none
  proc := update (fun _ => ⟨.unused, false, 0, 0, 0⟩) p ⟨.runnable, false, 0, 0, 0⟩

def Proc.wtime (pr : Proc) : UInt32 := pr.etime - pr.ctime - pr.rtime

/-! ## When the times are right -/

/-- The times of the process are set, and it has not exited. -/
def Proc.Alive (pr : Proc) : Prop :=
  pr.state = .used ∨ pr.state = .sleeping ∨ pr.state = .runnable ∨ pr.state = .running

instance (pr : Proc) : Decidable pr.Alive :=
  inferInstanceAs (Decidable (_ ∨ _ ∨ _ ∨ _))

/-- The clock has a slot still to charge for this tick. -/
def State.Pending (s : State n) (q : Fin n) : Prop := q ∈ s.clock.getD []

instance (s : State n) (q : Fin n) : Decidable (s.Pending q) :=
  inferInstanceAs (Decidable (q ∈ s.clock.getD []))

/-- No process is created in a slot that `update_time` has still to visit for a tick that is over,
and none is `2^32` ticks old. -/
def Settled (s : State n) : Act n → Prop
  | .create q => ¬ s.Pending q
  | .tick => ∀ q, (s.proc q).Alive → s.ticks - (s.proc q).ctime ≠ 0xffffffff
  | _ => True

instance (s : State n) : (a : Act n) → Decidable (Settled s a)
  | .create q => inferInstanceAs (Decidable ¬ s.Pending q)
  | .tick =>
    inferInstanceAs (Decidable (∀ q, (s.proc q).Alive → s.ticks - (s.proc q).ctime ≠ 0xffffffff))
  | .visit | .ticked | .alloc _ | .allocFails _ | .forkFails _ | .start _ | .schedule _ | .yield _
  | .sleep _ | .wake _ | .exit _ | .release _ | .reap _ => .isTrue trivial

/-- A process has run for no more ticks than it is old, and for fewer if it may yet be charged for
the last one. -/
structure Inv (s : State n) : Prop where
  alive : ∀ q, (s.proc q).Alive →
    (s.proc q).rtime.toNat + (if s.Pending q then 1 else 0) ≤ (s.ticks - (s.proc q).ctime).toNat
  zombie : ∀ q, (s.proc q).state = .zombie → (s.proc q).rtime ≤ (s.proc q).etime - (s.proc q).ctime
  nodup : (s.clock.getD []).Nodup

section

variable {s s' : State n} {q : Fin n} {pr : Proc}

theorem Inv.boot (p : Fin n) : Inv (boot p) := by
  refine ⟨fun q _ => ?_, fun q _ => ?_, List.nodup_nil⟩
  · have hzero : ((Times.boot p).proc q).rtime = 0 ∧ ((Times.boot p).proc q).ctime = 0 := by
      unfold Times.boot
      rcases eq_or_ne q p with rfl | hne
      · simp
      · simp [hne]
    have hnot : ¬ (Times.boot p).Pending q := List.not_mem_nil
    rw [hzero.1, hzero.2, if_neg hnot]
    exact Nat.zero_le _
  · have hzero : ((Times.boot p).proc q).rtime = 0 ∧ ((Times.boot p).proc q).ctime = 0 ∧
        ((Times.boot p).proc q).etime = 0 := by
      unfold Times.boot
      rcases eq_or_ne q p with rfl | hne
      · simp
      · simp [hne]
    rw [hzero.1, hzero.2.1, hzero.2.2]
    decide

theorem proc_set_self : (s.set q pr).proc q = pr := update_self ..

theorem proc_set_of_ne {r : Fin n} (h : r ≠ q) : (s.set q pr).proc r = s.proc r :=
  update_of_ne h ..

theorem Inv.set (h : Inv s) (halive : pr.Alive →
      pr.rtime.toNat + (if s.Pending q then 1 else 0) ≤ (s.ticks - pr.ctime).toNat)
    (hzombie : pr.state = .zombie → pr.rtime ≤ pr.etime - pr.ctime) : Inv (s.set q pr) := by
  refine ⟨fun r hr => ?_, fun r hr => ?_, h.nodup⟩
  · rcases eq_or_ne r q with rfl | hne
    · rw [proc_set_self] at hr ⊢
      exact halive hr
    · rw [proc_set_of_ne hne] at hr ⊢
      exact h.alive r hr
  · rcases eq_or_ne r q with rfl | hne
    · rw [proc_set_self] at hr ⊢
      exact hzombie hr
    · rw [proc_set_of_ne hne] at hr ⊢
      exact h.zombie r hr

theorem Inv.setState (h : Inv s) (hrtime : pr.rtime = (s.proc q).rtime)
    (hctime : pr.ctime = (s.proc q).ctime) (hetime : pr.etime = (s.proc q).etime)
    (halive : pr.Alive → (s.proc q).Alive)
    (hzombie : pr.state = .zombie → (s.proc q).state = .zombie) : Inv (s.set q pr) := by
  refine h.set (fun ha => ?_) fun hz => ?_
  · rw [hrtime, hctime]
    exact h.alive q (halive ha)
  · rw [hrtime, hctime, hetime]
    exact h.zombie q (hzombie hz)

theorem locking_eq {state : ProcState} {f : Proc → Proc} (h : s.locking q state f = some s') :
    (s.proc q).state = state ∧ s' = s.set q (f (s.proc q)) := by
  obtain ⟨hc, h⟩ := Option.ite_none_right_eq_some.mp h
  exact ⟨hc.2, (Option.some.inj h).symm⟩

theorem Inv.tick (h : Inv s) (hidle : s.clock = none)
    (hage : ∀ q, (s.proc q).Alive → s.ticks - (s.proc q).ctime ≠ 0xffffffff) :
    Inv { s with ticks := s.ticks + 1, clock := some (List.finRange n) } := by
  refine ⟨fun q hq => ?_, h.zombie, List.nodup_finRange n⟩
  have hold := h.alive q hq
  have hnot : ¬ s.Pending q := by
    unfold State.Pending
    rw [hidle]
    exact List.not_mem_nil
  have hnext : s.ticks + 1 - (s.proc q).ctime = s.ticks - (s.proc q).ctime + 1 := by
    rw [UInt32.sub_eq_add_neg, UInt32.sub_eq_add_neg, UInt32.add_assoc, UInt32.add_comm 1,
      ← UInt32.add_assoc]
  have hlt : (s.ticks - (s.proc q).ctime).toNat ≠ 2 ^ 32 - 1 := by
    intro he
    exact hage q hq (UInt32.toNat_inj.mp he)
  rw [if_neg hnot] at hold
  show (s.proc q).rtime.toNat + _ ≤ (s.ticks + 1 - (s.proc q).ctime).toNat
  have hbound := (s.ticks - (s.proc q).ctime).toNat_lt
  have hsucc : (s.ticks - (s.proc q).ctime + 1).toNat = (s.ticks - (s.proc q).ctime).toNat + 1 := by
    rw [UInt32.toNat_add, UInt32.toNat_one]
    omega
  rw [hnext, hsucc]
  split <;> omega

/-- `update_time` charges a process for the last tick, which it is old enough for. -/
theorem Inv.visit {qs : List (Fin n)} (h : Inv s) (hclock : s.clock = some (q :: qs)) :
    Inv ({ s with clock := some qs }.set q (s.proc q).charge) := by
  have hnodup : (q :: qs).Nodup := by
    have hn := h.nodup
    rwa [hclock] at hn
  obtain ⟨hq, hqs⟩ := List.nodup_cons.mp hnodup
  have hpending : ∀ r, s.Pending r ↔ r = q ∨ r ∈ qs := by
    intro r
    unfold State.Pending
    rw [hclock]
    exact List.mem_cons
  -- the other slots wait for their visit as before
  have hrest : Inv { s with clock := some qs } := by
    refine ⟨fun r hr => ?_, h.zombie, hqs⟩
    have hold := h.alive r hr
    have hle : (if State.Pending { s with clock := some qs } r then 1 else 0) ≤
        if s.Pending r then 1 else 0 := by
      by_cases hr' : r ∈ qs
      · rw [if_pos ((hpending r).mpr (.inr hr'))]
        split <;> omega
      · have hnot : ¬ State.Pending { s with clock := some qs } r := hr'
        rw [if_neg hnot]
        exact Nat.zero_le _
    show (s.proc r).rtime.toNat + _ ≤ (s.ticks - (s.proc r).ctime).toNat
    omega
  unfold Proc.charge
  split
  · rename_i hrun
    have hold := h.alive q (.inr (.inr (.inr hrun)))
    rw [if_pos ((hpending q).mpr (.inl rfl))] at hold
    have hnot : ¬ State.Pending { s with clock := some qs } q := hq
    have hbound := (s.ticks - (s.proc q).ctime).toNat_lt
    refine hrest.set (fun _ => ?_) fun hz => ?_
    · rw [if_neg hnot]
      show ((s.proc q).rtime + 1).toNat + 0 ≤ (s.ticks - (s.proc q).ctime).toNat
      rw [UInt32.toNat_add, UInt32.toNat_one]
      omega
    · have hz' : (s.proc q).state = .zombie := hz
      rw [hrun] at hz'
      exact nomatch hz'
  · exact hrest.setState rfl rfl rfl id id

/-- **Every step keeps the times in order**, if it meets the condition. -/
theorem Inv.step (h : Inv s) {a : Act n} (hc : Settled s a) (hs : next s a = some s') : Inv s' := by
  have halive : ∀ {q : Fin n}, (s.proc q).state = .running → (s.proc q).Alive :=
    fun hr => .inr (.inr (.inr hr))
  cases a with
  | tick =>
    obtain ⟨hidle, hs⟩ := Option.ite_none_right_eq_some.mp hs
    cases hs
    exact h.tick hidle hc
  | visit =>
    have hs : s.updateTime = some s' := hs
    unfold State.updateTime at hs
    split at hs
    · rename_i q qs hclock
      obtain ⟨-, hs⟩ := Option.ite_none_left_eq_some.mp hs
      cases hs
      exact h.visit hclock
    · exact nomatch hs
  | ticked =>
    obtain ⟨hdone, hs⟩ := Option.ite_none_right_eq_some.mp hs
    cases hs
    refine ⟨fun q hq => ?_, h.zombie, List.nodup_nil⟩
    have hold := h.alive q hq
    have hsame : State.Pending { s with clock := none } q ↔ s.Pending q := by
      unfold State.Pending
      rw [hdone]
      exact Iff.rfl
    rw [if_congr hsame rfl rfl]
    exact hold
  | alloc | reap =>
    rw [next] at hs
    obtain ⟨-, rfl⟩ := locking_eq hs
    exact h.setState rfl rfl rfl (fun ha => absurd ha (by simp [Proc.Alive])) nofun
  | create q =>
    obtain ⟨-, hs⟩ := Option.ite_none_right_eq_some.mp hs
    cases hs
    refine h.set (fun _ => ?_) nofun
    have hnot : ¬ s.Pending q := hc
    rw [if_neg hnot]
    exact Nat.zero_le _
  | allocFails q | forkFails q =>
    obtain ⟨-, hs⟩ := Option.ite_none_right_eq_some.mp hs
    cases hs
    exact h.setState rfl rfl rfl (fun ha => absurd ha (by simp [Proc.Alive])) nofun
  | start q =>
    rw [next] at hs
    obtain ⟨hused, rfl⟩ := locking_eq hs
    exact h.setState rfl rfl rfl (fun _ => .inl hused) nofun
  | schedule q =>
    rw [next] at hs
    obtain ⟨hrunnable, rfl⟩ := locking_eq hs
    exact h.setState rfl rfl rfl (fun _ => .inr (.inr (.inl hrunnable))) nofun
  | yield | sleep =>
    rw [next] at hs
    obtain ⟨hrunning, rfl⟩ := locking_eq hs
    exact h.setState rfl rfl rfl (fun _ => halive hrunning) nofun
  | wake q =>
    rw [next] at hs
    obtain ⟨hsleeping, rfl⟩ := locking_eq hs
    exact h.setState rfl rfl rfl (fun _ => .inr (.inl hsleeping)) nofun
  | exit q =>
    rw [next] at hs
    obtain ⟨hrunning, rfl⟩ := locking_eq hs
    refine h.set (fun ha => absurd ha (by simp [Proc.Alive])) fun _ => ?_
    -- the process is as old as `etime` says
    have hold := h.alive q (halive hrunning)
    show (s.proc q).rtime ≤ s.ticks - (s.proc q).ctime
    rw [UInt32.le_iff_toNat_le]
    omega
  | release q =>
    obtain ⟨-, hs⟩ := Option.ite_none_right_eq_some.mp hs
    cases hs
    exact h.setState rfl rfl rfl id id

/-- **Run and wait times do not underflow** as long as no process is created in a slot that
`update_time` has still to visit, and none gets `2^32` ticks old. -/
theorem times_never_underflow (n : ℕ) (p : Fin n) (s : State n)
    (hs : ReachIf next Settled (boot p) s) (q : Fin n) (hz : (s.proc q).state = .zombie) :
    (s.proc q).rtime ≤ (s.proc q).etime - (s.proc q).ctime ∧
    (s.proc q).wtime.toNat =
      ((s.proc q).etime - (s.proc q).ctime).toNat - (s.proc q).rtime.toNat := by
  have h : Inv s := hs.invariant (fun _ _ _ ht hc hstep => ht.step hc hstep) (Inv.boot p)
  have hle := h.zombie q hz
  exact ⟨hle, UInt32.toNat_sub_of_le _ _ hle⟩

end

/-- A child is created, runs for a tick and exits. -/
def childActs : List (Act 2) :=
  [.alloc 1, .create 1, .release 1, .start 1, .schedule 1, .release 1, .tick, .visit,
    .visit, .ticked, .exit 1, .release 1]

theorem times_never_underflow_child : ∃ s : State 2, ReachIf next Settled (boot 0) s ∧
    (s.proc 1).state = .zombie ∧ (s.proc 1).rtime = 1 ∧
    (s.proc 1).rtime ≤ (s.proc 1).etime - (s.proc 1).ctime ∧
    (s.proc 1).wtime.toNat =
      ((s.proc 1).etime - (s.proc 1).ctime).toNat - (s.proc 1).rtime.toNat := by
  obtain ⟨s, hs, hz, hr⟩ : ∃ s ∈ runActsIf next Settled (boot 0) childActs,
      (s.proc 1).state = .zombie ∧ (s.proc 1).rtime = 1 := by decide +kernel
  have hreach := reachIf_of_runActsIf hs
  exact ⟨s, hreach, hz, hr, times_never_underflow 2 0 s hreach 1 hz⟩

/-- The child is created and scheduled after `ticks++`, before `update_time` gets to its slot, and
exits in the same tick. -/
def racingActs : List (Act 2) :=
  [.tick, .visit, .alloc 1, .create 1, .release 1, .start 1, .schedule 1, .release 1,
    .visit, .ticked, .exit 1, .release 1]

/-- **The wait time underflows**: the child has run for one tick and is zero ticks old. -/
theorem wtime_underflows : ∃ s : State 2, runActs next (boot 0) racingActs = some s ∧
    (s.proc 1).state = .zombie ∧ (s.proc 1).rtime = 1 ∧
    (s.proc 1).etime - (s.proc 1).ctime = 0 ∧ (s.proc 1).wtime = 0xffffffff := by
  show ∃ s ∈ runActs next (boot 0) racingActs, _
  decide +kernel

end LazyXv6.Times
