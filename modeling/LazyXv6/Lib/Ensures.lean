import Mathlib

/-!
# Programs with a state and errors

`Ensures P m Q E`: run from a state with `P`, the program `m` returns a value and a state with `Q`,
or stops with an error in `E`.
-/

namespace Lib

variable {σ ε α β : Type}

/-- From `P` the program ends in `Q`, or with an error in `E`. -/
def Ensures (P : σ → Prop) (m : StateT σ (Except ε) α) (Q : α → σ → Prop) (E : ε → Prop) : Prop :=
  ∀ s, P s → match m s with
    | .ok (a, s') => Q a s'
    | .error e => E e

namespace Ensures

variable {P P' : σ → Prop} {Q Q' : α → σ → Prop} {R : β → σ → Prop} {E E' : ε → Prop}
  {m : StateT σ (Except ε) α} {f : α → StateT σ (Except ε) β} {a : α} {e : ε} {s s' : σ}

theorem pure (h : ∀ s, P s → Q a s) : Ensures P (Pure.pure a) Q E := fun s hs => h s hs

theorem bind (hm : Ensures P m Q E) (hf : ∀ a, Ensures (Q a) (f a) R E) :
    Ensures P (m >>= f) R E := by
  intro s hs
  have hs' := hm s hs
  show match (m s >>= fun r => f r.1 r.2) with | .ok (b, s') => R b s' | .error e => E e
  cases hr : m s with
  | error e =>
    rw [hr] at hs'
    exact hs'
  | ok r =>
    rw [hr] at hs'
    exact hf r.1 r.2 hs'

theorem seq {m : StateT σ (Except ε) Unit} {Q : Unit → σ → Prop} {k : StateT σ (Except ε) β}
    (hm : Ensures P m Q E) (hk : Ensures (Q ()) k R E) :
    Ensures P (m >>= fun _ => k) R E := bind hm fun _ => hk

theorem conseq (h : Ensures P m Q E) (hP : ∀ s, P' s → P s) (hQ : ∀ a s, Q a s → Q' a s)
    (hE : ∀ e, E e → E' e) : Ensures P' m Q' E' := by
  intro s hs
  have hs' := h s (hP s hs)
  cases hr : m s with
  | error e =>
    rw [hr] at hs'
    exact hE e hs'
  | ok r =>
    rw [hr] at hs'
    exact hQ r.1 r.2 hs'

theorem pre (h : Ensures P m Q E) (hP : ∀ s, P' s → P s) : Ensures P' m Q E :=
  h.conseq hP (fun _ _ hq => hq) fun _ he => he

theorem post (h : Ensures P m Q E) (hQ : ∀ a s, Q a s → Q' a s) : Ensures P m Q' E :=
  h.conseq (fun _ hp => hp) hQ fun _ he => he

theorem of_forall (h : ∀ s, P s → Ensures (· = s) m Q E) : Ensures P m Q E :=
  fun s hs => h s hs s rfl

theorem get {k : σ → StateT σ (Except ε) β} (h : ∀ s, P s → Ensures (· = s) (k s) R E) :
    Ensures P (MonadState.get >>= k) R E := fun s hs => h s hs s rfl

theorem set {g : σ → σ} {k : StateT σ (Except ε) β} (h : Ensures (· = g s) k R E) :
    Ensures (· = s) (modify g >>= fun _ => k) R E := by
  rintro _ rfl
  exact h _ rfl

theorem modify {g : σ → σ} {Q : Unit → σ → Prop} (h : ∀ s, P s → Q () (g s)) :
    Ensures P (modify g : StateT σ (Except ε) Unit) Q E := fun s hs => h s hs

theorem ret (h : Q a s) : Ensures (· = s) (Pure.pure a) Q E := by
  rintro _ rfl
  exact h

theorem throw (h : ∀ s, P s → E e) : Ensures P (MonadExcept.throw e : StateT σ (Except ε) α) Q E :=
    fun s hs => h s hs

theorem ite {c : Prop} [Decidable c] {k : StateT σ (Except ε) α} (ht : c → Ensures P m Q E)
    (hf : ¬ c → Ensures P k Q E) : Ensures P (if c then m else k) Q E := by
  split
  · exact ht ‹_›
  · exact hf ‹_›

theorem ok (h : Ensures P m Q E) (hs : P s) (hm : m s = .ok (a, s')) : Q a s' := by
  have h' := h s hs
  rwa [hm] at h'

theorem error (h : Ensures P m Q E) (hs : P s) (hm : m s = .error e) : E e := by
  have h' := h s hs
  rwa [hm] at h'

end Ensures

end Lib
