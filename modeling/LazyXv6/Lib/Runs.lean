import Mathlib

/-!
# Runs of labelled transition functions

`next : σ → α → Option σ` is one step of a system under an action. `Reach next s s'`: some sequence
of actions leads from `s` to `s'`. `ReachIf next C s s'`: the same, with every step meeting the
condition `C` in the state it is taken from. `AlwaysEnds next P s`: whatever the actions, the run
from `s` ends, and it ends in a state with `P`.
-/

namespace Lib

variable {σ α : Type}

/-- `s'` is reached from `s` by actions that each meet `C` where they are taken. -/
def ReachIf (next : σ → α → Option σ) (C : σ → α → Prop) : σ → σ → Prop :=
  Relation.ReflTransGen fun s s' => ∃ a, C s a ∧ next s a = some s'

def Reach (next : σ → α → Option σ) : σ → σ → Prop := ReachIf next fun _ _ => True

variable {next : σ → α → Option σ} {C : σ → α → Prop} {s s' s'' : σ} {a : α}

theorem Reach.refl (s : σ) : Reach next s s := Relation.ReflTransGen.refl

theorem Reach.step (h : Reach next s s') (hs : next s' a = some s'') : Reach next s s'' :=
  Relation.ReflTransGen.tail h ⟨a, trivial, hs⟩

theorem Reach.trans (h : Reach next s s') (h' : Reach next s' s'') : Reach next s s'' :=
  Relation.ReflTransGen.trans h h'

theorem ReachIf.invariant {I : σ → Prop} (hstep : ∀ s a s', I s → C s a → next s a = some s' → I s')
    (h : ReachIf next C s s') (hi : I s) : I s' := by
  induction h with
  | refl => exact hi
  | tail _ hs ih =>
    obtain ⟨a, hc, ha⟩ := hs
    exact hstep _ a _ ih hc ha

theorem Reach.invariant {I : σ → Prop} (hstep : ∀ s a s', I s → next s a = some s' → I s')
    (h : Reach next s s') (hi : I s) : I s' :=
  ReachIf.invariant (fun s a s' hs _ => hstep s a s' hs) h hi

theorem ReachIf.mono {C' : σ → α → Prop} (hC : ∀ s a, C s a → C' s a) (h : ReachIf next C s s') :
    ReachIf next C' s s' := by
  induction h with
  | refl => exact Relation.ReflTransGen.refl
  | tail _ hs ih =>
    obtain ⟨a, hc, ha⟩ := hs
    exact Relation.ReflTransGen.tail ih ⟨a, hC _ a hc, ha⟩

theorem ReachIf.reach (h : ReachIf next C s s') : Reach next s s' := h.mono fun _ _ _ => trivial

/-- The state after a sequence of actions, each of which meets `C` where it is taken. -/
def runActsIf (next : σ → α → Option σ) (C : σ → α → Prop) [∀ s a, Decidable (C s a)] :
    σ → List α → Option σ
  | s, [] => some s
  | s, a :: as => if C s a then (next s a).bind fun s' => runActsIf next C s' as else none

theorem reachIf_of_runActsIf [∀ s a, Decidable (C s a)] :
    ∀ {as : List α} {s s' : σ}, runActsIf next C s as = some s' → ReachIf next C s s'
  | [], s, s', h => by
    cases h
    exact Relation.ReflTransGen.refl
  | a :: as, s, s', h => by
    obtain ⟨hc, h⟩ := Option.ite_none_right_eq_some.mp h
    obtain ⟨t, ht, h'⟩ := Option.bind_eq_some_iff.mp h
    exact Relation.ReflTransGen.head ⟨a, hc, ht⟩ (reachIf_of_runActsIf h')

def runActs (next : σ → α → Option σ) : σ → List α → Option σ :=
  runActsIf next fun _ _ => True

theorem reach_of_runActs {as : List α} (h : runActs next s as = some s') : Reach next s s' :=
  reachIf_of_runActsIf h

/-! ## Runs that end -/

/-- Every run from the state ends, and one that cannot go on has reached `P`. -/
inductive AlwaysEnds (next : σ → α → Option σ) (P : σ → Prop) : σ → Prop where
  | intro {s : σ} (stuck : (∀ a, next s a = none) → P s)
      (step : ∀ a s', next s a = some s' → AlwaysEnds next P s') : AlwaysEnds next P s

/-- A measured invariant `M s n`, `n` steps left at most, makes runs end. -/
theorem alwaysEnds_of_measure {M : σ → ℕ → Prop} {P : σ → Prop} {n : ℕ}
    (hstep : ∀ s n a s', M s n → next s a = some s' → ∃ k, k < n ∧ M s' k)
    (hend : ∀ s n, M s n → (∀ a, next s a = none) → P s) (h : M s n) :
    AlwaysEnds next P s := by
  induction n using Nat.strongRecOn generalizing s with
  | _ n ih =>
    refine .intro (hend s n h) fun a s' ha => ?_
    obtain ⟨k, hk, hM⟩ := hstep s n a s' h ha
    exact ih k hk hM

theorem AlwaysEnds.mono {P Q : σ → Prop} (h : AlwaysEnds next P s) (hPQ : ∀ s', P s' → Q s') :
    AlwaysEnds next Q s := by
  induction h with
  | intro stuck _ ih => exact .intro (fun hs => hPQ _ (stuck hs)) ih

theorem AlwaysEnds.and {P Q : σ → Prop} (h : AlwaysEnds next P s) (h' : AlwaysEnds next Q s) :
    AlwaysEnds next (fun s' => P s' ∧ Q s') s := by
  induction h with
  | intro stuck _ ih =>
    obtain ⟨stuck', step'⟩ := h'
    exact .intro (fun hs => ⟨stuck hs, stuck' hs⟩) fun a s' ha => ih a s' ha (step' a s' ha)

theorem AlwaysEnds.of_reach {P : σ → Prop} (h : AlwaysEnds next P s) (hr : Reach next s s') :
    AlwaysEnds next P s' := by
  refine Reach.invariant (fun t a t' ht ha => ?_) hr h
  cases ht with
  | intro _ step => exact step a t' ha

theorem AlwaysEnds.exists_end {P : σ → Prop} (h : AlwaysEnds next P s) :
    ∃ s', Reach next s s' ∧ (∀ a, next s' a = none) ∧ P s' := by
  induction h with
  | @intro s stuck _ ih =>
    by_cases hs : ∀ a, next s a = none
    · exact ⟨s, .refl s, hs, stuck hs⟩
    · obtain ⟨a, ha⟩ := not_forall.mp hs
      obtain ⟨t, ht⟩ := Option.ne_none_iff_exists'.mp ha
      obtain ⟨s', hs', hend⟩ := ih a t ht
      exact ⟨s', ((Reach.refl s).step ht).trans hs', hend⟩

/-! ## Numerals

The threads of a concrete run are numerals of a small `Fin`, and these instances give every run the
same ones. -/

namespace SmallFin

scoped instance (priority := 1100) succ (n : ℕ) : NeZero (n + 1) := ⟨n.succ_ne_zero⟩

scoped instance (priority := 1200) one : NeZero 1 := succ 0

scoped instance (priority := 1200) two : NeZero 2 := succ 1

scoped instance (priority := 1200) three : NeZero 3 := succ 2

scoped instance (priority := 1200) four : NeZero 4 := succ 3

scoped instance (priority := 1200) thirteen : NeZero 13 := succ 12

end SmallFin

end Lib
