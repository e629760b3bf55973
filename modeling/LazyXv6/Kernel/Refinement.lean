import LazyXv6.Kernel.Invariant

/-!
# Copy-on-write refines copying

As long as memory does not run out, user programs see what they see in the reference system.
-/

namespace LazyXv6.Kernel

variable {N : ℕ}

/-- A run of the reference system, with what the operations return. -/
def EagerState.run (t : EagerState N) : List (UserOp N) → EagerState N × List (Out N)
  | [] => (t, [])
  | u :: us => (((t.step u).1.run us).1, (t.step u).2 :: ((t.step u).1.run us).2)

namespace State

variable [Layout] {s : State N}

/-- A run of the machine, with what the operations return. -/
def run (s : State N) : List (UserOp N) → Except Panic (State N × List (Out N))
  | [] => .ok (s, [])
  | u :: us => do
    let r ← s.stepUser u
    let q ← r.1.run us
    .ok (q.1, r.2 :: q.2)

def AllowsRun (s : State N) : List (UserOp N) → Prop
  | [] => True
  | u :: us => s.Allows u ∧
    match s.stepUser u with
    | .ok r => r.1.AllowsRun us
    | .error _ => True

instance instDecidableAllowsRun :
    (us : List (UserOp N)) → (s : State N) → Decidable (s.AllowsRun us)
  | [], _ => isTrue trivial
  | u :: us, s =>
    have : Decidable (match s.stepUser u with
        | .ok r => r.1.AllowsRun us
        | .error _ => True) :=
      match s.stepUser u with
      | .ok r => instDecidableAllowsRun us r.1
      | .error _ => isTrue trivial
    inferInstanceAs (Decidable (s.Allows u ∧ _))

theorem Inv.run (h : s.Inv) {us : List (UserOp N)} (ha : s.AllowsRun us) :
    ∃ (s' : State N) (outs : List (Out N)), s.run us = .ok (s', outs) ∧
      s.kmem.failures ≤ s'.kmem.failures ∧
      (s'.kmem.failures = s.kmem.failures → s.eager.run us = (s'.eager, outs)) := by
  induction us generalizing s with
  | nil => exact ⟨s, [], rfl, le_rfl, fun _ => rfl⟩
  | cons u us ih =>
    obtain ⟨hu, hrest⟩ := ha
    obtain ⟨s₁, out, he, h₁, hle, hsim⟩ := h.stepUser u
    rw [he] at hrest
    obtain ⟨s', outs, he', hle', hsim'⟩ := ih h₁ hrest
    refine ⟨s', out :: outs, ?_, hle.trans hle', fun hfail => ?_⟩
    · rw [State.run, he, ok_bind, he', ok_bind]
    · -- memory does not run out on the way either
      rw [EagerState.run, hsim hu (by omega), hsim' (by omega)]

/-- **Copy-on-write refines copying.** From every reachable state, a run of user programs in which
`kalloc` never returns 0 returns what the run in the reference system returns, and ends with the
same pages in view. -/
theorem cow_refines_eager (h : s.Reachable) (us : List (UserOp N)) (ha : s.AllowsRun us) :
    ∃ (s' : State N) (outs : List (Out N)), s.run us = .ok (s', outs) ∧
      (s'.kmem.failures = s.kmem.failures → s.eager.run us = (s'.eager, outs)) := by
  obtain ⟨s', outs, he, _, hsim⟩ := h.inv.run ha
  exact ⟨s', outs, he, hsim⟩

omit [Layout] in
/-- The child of the first process stores to the page they share, and the parent does not see it. -/
theorem cow_refines_eager_childStores :
    letI := smallLayout
    ∃ s : State 2, s.Reachable ∧
        ∃ s' : State 2, s.run [.fork 0, .store 1 0 7, .load 0 0, .load 1 0] =
        .ok (s', [.child 1, .idle, .value 0x73, .value 7]) ∧
      s.eager.run [.fork 0, .store 1 0 7, .load 0 0, .load 1 0] =
        (s'.eager, [.child 1, .idle, .value 0x73, .value 7]) := by
  obtain ⟨s, hs, hallows, r, hr, hfail, hout⟩ : letI :=
    smallLayout; ∃ s ∈ smallRun [.userinit [0x73]],
      s.AllowsRun [.fork 0, .store 1 0 7, .load 0 0, .load 1 0] ∧
      ∃ r ∈ (s.run [.fork 0, .store 1 0 7, .load 0 0, .load 1 0]).toOption,
        r.1.kmem.failures = s.kmem.failures ∧ r.2 = [.child 1, .idle, .value 0x73, .value 7] := by
    decide +kernel
  let _ := smallLayout
  have hreach : s.Reachable := Reachable.of_runActs hs
  obtain ⟨s', outs, he, hsim⟩ := cow_refines_eager hreach _ hallows
  obtain rfl : (s', outs) = r := Except.ok.inj (he.symm.trans (eq_ok_of_toOption hr))
  obtain rfl : outs = [.child 1, .idle, .value 0x73, .value 7] := hout
  exact ⟨s, hreach, s', he, hsim hfail⟩

end State

end LazyXv6.Kernel
