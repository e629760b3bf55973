import Mathlib

/-!
# Parsers with a follow set

A parser takes a prefix of its input, seen as a list of tokens by `view`, and returns a value with
the remaining input. `Reads view size fine G F s r`: the outcome `r` on `s` is right for the grammar
`G`, in a place where the tokens after the prefix satisfy `F`. A value comes with a prefix that
derives it, and no other prefix before `F` derives another; an error is a `fine` one, and no prefix
before `F` derives anything.
-/

namespace Lib

variable {σ τ ε β γ : Type} (view : σ → List τ) (size : σ → ℕ) (fine : ε → Prop)

structure Value (G : List τ → β → Prop) (F : List τ → Prop) (s : σ) (b : β) (s' : σ) : Prop where
  size_le : size s' ≤ size s
  derived : ∃ ts, view s = ts ++ view s' ∧ G ts b
  only : ∀ ts c us, G ts c → F us → view s = ts ++ us → c = b ∧ us = view s'

def Reads (G : List τ → β → Prop) (F : List τ → Prop) (s : σ) : Except ε (β × σ) → Prop
  | .ok (b, s') => Value view size G F s b s'
  | .error e => fine e ∧ ∀ ts c us, G ts c → F us → view s ≠ ts ++ us

namespace Reads

variable {view size fine} {G : List τ → β → Prop} {G₂ : β → List τ → γ → Prop}
    {G' : List τ → γ → Prop}
  {F F' : List τ → Prop} {s s' : σ} {r : Except ε (β × σ)} {k : β × σ → Except ε (γ × σ)}

/-- Two parsers, one after the other: what the second one may read, may follow the first. -/
theorem bind (h : Reads view size fine G F s r)
    (hk : ∀ b s', size s' ≤ size s → Reads view size fine (G₂ b) F' s' (k (b, s')))
    (hF : ∀ b ts c us, G₂ b ts c → F' us → F (ts ++ us))
    (hG : ∀ ts c, G' ts c ↔ ∃ ts₁ b ts₂, ts = ts₁ ++ ts₂ ∧ G ts₁ b ∧ G₂ b ts₂ c) :
    Reads view size fine G' F' s (r >>= k) := by
  match r, h with
  | .error e, ⟨hfine, hnone⟩ =>
    refine ⟨hfine, fun ts c us hd hus heq => ?_⟩
    obtain ⟨ts₁, b, ts₂, rfl, h₁, h₂⟩ := (hG ts c).mp hd
    exact hnone ts₁ b (ts₂ ++ us) h₁ (hF b ts₂ c us h₂ hus) (by rw [heq, List.append_assoc])
  | .ok (b, s'), h =>
    -- a derivation of the whole starts with the prefix that the first parser read
    have hfirst : ∀ ts c us, G' ts c → F' us → view s = ts ++ us → ∃ ts₂, G₂ b ts₂ c ∧
      view s' = ts₂ ++ us := by
      intro ts c us hd hus heq
      obtain ⟨ts₁, b', ts₂, rfl, h₁, h₂⟩ := (hG ts c).mp hd
      obtain ⟨rfl, hs'⟩ := h.only ts₁ b' (ts₂ ++ us) h₁ (hF b' ts₂ c us h₂ hus)
        (by rw [heq, List.append_assoc])
      exact ⟨ts₂, h₂, hs'.symm⟩
    have h₂ := hk b s' h.size_le
    change Reads view size fine G' F' s (k (b, s'))
    generalize k (b, s') = r₂ at h₂ ⊢
    match r₂, h₂ with
    | .error e, ⟨hfine, hnone⟩ =>
      refine ⟨hfine, fun ts c us hd hus heq => ?_⟩
      obtain ⟨ts₂, hd₂, heq₂⟩ := hfirst ts c us hd hus heq
      exact hnone ts₂ c us hd₂ hus heq₂
    | .ok (c, s''), h₂ =>
      obtain ⟨ts₁, heq₁, hd₁⟩ := h.derived
      obtain ⟨ts₂, heq₂, hd₂⟩ := h₂.derived
      refine ⟨Nat.le_trans h₂.size_le h.size_le,
        ⟨ts₁ ++ ts₂, ?_, (hG _ c).mpr ⟨ts₁, b, ts₂, rfl, hd₁, hd₂⟩⟩, ?_⟩
      · rw [heq₁, heq₂, List.append_assoc]
      · intro ts c' us hd hus heq
        obtain ⟨ts₂, hd₂, heq₂⟩ := hfirst ts c' us hd hus heq
        exact h₂.only ts₂ c' us hd₂ hus heq₂

/-- Tokens are read that decide what follows. -/
theorem tokens {p : List τ} (hs : view s = p ++ view s') (hsize : size s' ≤ size s)
    {r : Except ε (γ × σ)} (h : Reads view size fine G' F s' r) {G : List τ → γ → Prop}
    (hG : ∀ ts c, G' ts c → G (p ++ ts) c)
    (hG' : ∀ ts c us, G ts c → F us → ts ++ us = p ++ view s' → ∃ ts', ts = p ++ ts' ∧ G' ts' c) :
    Reads view size fine G F s r := by
  have hrest : ∀ ts c us, G ts c → F us → view s = ts ++ us → ∃ ts', G' ts' c ∧
    view s' = ts' ++ us := by
    intro ts c us hd hus heq
    obtain ⟨ts', rfl, hd'⟩ := hG' ts c us hd hus (heq ▸ hs)
    rw [hs, List.append_assoc] at heq
    exact ⟨ts', hd', List.append_cancel_left heq⟩
  match r, h with
  | .error e, ⟨hfine, hnone⟩ =>
    refine ⟨hfine, fun ts c us hd hus heq => ?_⟩
    obtain ⟨ts', hd', heq'⟩ := hrest ts c us hd hus heq
    exact hnone ts' c us hd' hus heq'
  | .ok (c, s''), h =>
    obtain ⟨ts', heq', hd'⟩ := h.derived
    refine ⟨Nat.le_trans h.size_le hsize,
      ⟨p ++ ts', by rw [hs, heq', List.append_assoc], hG ts' c hd'⟩, ?_⟩
    intro ts c' us hd hus heq
    obtain ⟨ts', hd', heq'⟩ := hrest ts c' us hd hus heq
    exact h.only ts' c' us hd' hus heq'

theorem pure {b : β} (hd : G [] b) (hview : view s' = view s) (hsize : size s' ≤ size s)
    (hG : ∀ ts c us, G ts c → F us → view s = ts ++ us → c = b ∧ ts = []) :
    Reads view size fine G F s (.ok (b, s')) := by
  refine ⟨hsize, ⟨[], hview.symm, hd⟩, fun ts c us hd' hus heq => ?_⟩
  obtain ⟨hc, rfl⟩ := hG ts c us hd' hus heq
  exact ⟨hc, by rw [hview, heq]; rfl⟩

/-- The value is put into another one. -/
theorem map {f : β → γ} (h : Reads view size fine G F s r) :
    Reads view size fine (fun ts c => ∃ b, G ts b ∧ c = f b) F s
    (r >>= fun x => .ok (f x.1, x.2)) := by
  have hpure : ∀ b s', Reads view size fine (fun ts c => ts = [] ∧ c = f b) F s'
    (.ok (f b, s') : Except ε (γ × σ)) :=
    fun b s' => .pure ⟨rfl, rfl⟩ rfl Nat.le.refl fun ts c us hd _ _ => ⟨hd.2, hd.1⟩
  refine h.bind (fun b s' _ => hpure b s') ?_ ?_
  · rintro b _ c us ⟨rfl, -⟩ hus
    exact hus
  · simp

theorem weaken (h : Reads view size fine G F s r) (hF : ∀ us, F' us → F us) :
    Reads view size fine G F' s r := by
  match r, h with
  | .error e, ⟨hfine, hnone⟩ => exact ⟨hfine, fun ts c us hd hus => hnone ts c us hd (hF us hus)⟩
  | .ok (b, s'), h =>
    exact ⟨h.size_le, h.derived, fun ts c us hd hus => h.only ts c us hd (hF us hus)⟩

theorem error {e : ε} (he : fine e) (hG : ∀ ts c us, G ts c → F us → view s ≠ ts ++ us) :
    Reads view size fine G F s (.error e) := ⟨he, hG⟩

end Reads

end Lib
