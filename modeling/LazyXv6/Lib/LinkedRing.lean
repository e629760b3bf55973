import Mathlib

/-!
# Doubly linked rings

`k.Ring head l`: the links `k` lead from `head` through the nodes of `l` back to `head`, and back
again. A node can be taken out of the ring (`remove`) and put in right after its head
(`insertFront`).
-/

namespace Lib

open Function

structure Links (α : Type) where
  next : α → α
  prev : α → α

namespace Links

variable {α : Type}

def Joined (k : Links α) (a b : α) : Prop := k.next a = b ∧ k.prev b = a

structure Ring (k : Links α) (head : α) (l : List α) : Prop where
  nodup : (head :: l).Nodup
  chain : List.IsChain k.Joined (head :: (l ++ [head]))

def swap (k : Links α) : Links α := ⟨k.prev, k.next⟩

section

variable [DecidableEq α]

/-- Put `b` in after `head`: `b->next = head->next; b->prev = head; head->next->prev = b; head->next
= b`. -/
def insertFront (k : Links α) (head b : α) : Links α :=
  let k := { k with next := update k.next b (k.next head) }
  let k := { k with prev := update k.prev b head }
  let k := { k with prev := update k.prev (k.next head) b }
  { k with next := update k.next head b }

/-- Take `b` out: `b->next->prev = b->prev; b->prev->next = b->next`. -/
def remove (k : Links α) (b : α) : Links α :=
  let k := { k with prev := update k.prev (k.next b) (k.prev b) }
  { k with next := update k.next (k.prev b) (k.next b) }

end

variable {k k' : Links α} {head b : α} {l l₁ l₂ : List α}

/-- A chain only depends on the links out of all nodes but the last, and on those back from all but
the first. -/
theorem isChain_congr {v : List α} (hn : ∀ y ∈ v.dropLast, k'.next y = k.next y)
    (hp : ∀ y ∈ v.tail, k'.prev y = k.prev y) (h : v.IsChain k.Joined) : v.IsChain k'.Joined := by
  induction v with
  | nil => exact .nil
  | cons a v ih =>
    cases v with
    | nil => exact .singleton a
    | cons c v =>
      obtain ⟨⟨hac, hca⟩, hrest⟩ := List.isChain_cons_cons.mp h
      have hn' : ∀ y ∈ (c :: v).dropLast, k'.next y = k.next y := fun y hy =>
        hn y (by simp [List.dropLast, hy])
      have hp' : ∀ y ∈ v, k'.prev y = k.prev y := fun y hy => hp y (by simp [hy])
      refine List.isChain_cons_cons.mpr ⟨⟨?_, ?_⟩, ih hn' hp' hrest⟩
      · rw [hn a (by simp [List.dropLast])]
        exact hac
      · rw [hp c (by simp)]
        exact hca

theorem nodup_concat (hl : l.Nodup) (hh : head ∉ l) : (l ++ [head]).Nodup := by
  refine List.nodup_append.mpr ⟨hl, by simp, fun x hx y hy => ?_⟩
  rw [List.mem_singleton.mp hy]
  rintro rfl
  exact hh hx

theorem Ring.swap (h : k.Ring head l) : k.swap.Ring head l.reverse where
  nodup := by
    obtain ⟨hh, hl⟩ := List.nodup_cons.mp h.nodup
    exact List.nodup_cons.mpr ⟨by simp [hh], (List.reverse_perm l).nodup_iff.mpr hl⟩
  chain := by
    have hrev : head :: (l.reverse ++ [head]) = (head :: (l ++ [head])).reverse := by simp
    rw [hrev, List.isChain_reverse]
    refine h.chain.imp fun a c hac => ?_
    exact ⟨hac.2, hac.1⟩

theorem ring_nil (hn : k.next head = head) (hp : k.prev head = head) : k.Ring head [] where
  nodup := by simp
  chain := List.isChain_cons_cons.mpr ⟨⟨hn, hp⟩, .singleton head⟩

section

variable [DecidableEq α]

theorem Ring.insertFront (h : k.Ring head l) (hb : b ∉ head :: l) :
    (k.insertFront head b).Ring head (b :: l) := by
  obtain ⟨hbh, hbl⟩ : b ≠ head ∧ b ∉ l := by simpa using hb
  obtain ⟨hhl, hl⟩ := List.nodup_cons.mp h.nodup
  -- The node after the head, which may be the head itself.
  obtain ⟨c, m, hcm⟩ : ∃ c m, l ++ [head] = c :: m := by
    cases l with
    | nil => exact ⟨head, [], rfl⟩
    | cons c l => exact ⟨c, l ++ [head], rfl⟩
  have hchain := h.chain
  rw [hcm] at hchain
  obtain ⟨⟨hnext, -⟩, hrest⟩ := List.isChain_cons_cons.mp hchain
  have hnd : (c :: m).Nodup := by
    rw [← hcm]
    exact nodup_concat hl hhl
  have hmem : ∀ y ∈ c :: m, y ≠ b := by
    rw [← hcm]
    rintro y hy rfl
    rcases List.mem_append.mp hy with hy | hy
    · exact hbl hy
    · exact hbh (List.mem_singleton.mp hy)
  have hc : update k.next b (k.next head) head = c := by rw [update_of_ne hbh.symm, hnext]
  have hnext' : (k.insertFront head b).next = update (update k.next b c) head b := by
    show update (update k.next b (k.next head)) head b = _
    rw [hnext]
  have hprev' : (k.insertFront head b).prev = update (update k.prev b head) c b := by
    show update (update k.prev b head) (update k.next b (k.next head) head) b = _
    rw [hc]
  refine ⟨?_, ?_⟩
  · rw [List.nodup_cons, List.nodup_cons]
    exact ⟨by simp [hbh.symm, hhl], hbl, hl⟩
  · show List.IsChain _ (head :: b :: (l ++ [head]))
    rw [hcm]
    refine List.isChain_cons_cons.mpr ⟨⟨?_, ?_⟩, List.isChain_cons_cons.mpr ⟨⟨?_, ?_⟩, ?_⟩⟩
    · rw [hnext', update_self]
    · rw [hprev', update_of_ne (hmem c List.mem_cons_self).symm, update_self]
    · rw [hnext', update_of_ne hbh, update_self]
    · rw [hprev', update_self]
    · apply isChain_congr _ _ hrest
      · rw [← hcm, List.dropLast_concat]
        intro y hy
        have hyh : y ≠ head := by
          rintro rfl
          exact hhl hy
        have hyb : y ≠ b := by
          rintro rfl
          exact hbl hy
        rw [hnext', update_of_ne hyh, update_of_ne hyb]
      · intro y hy
        have hyc : y ≠ c := by
          rintro rfl
          exact (List.nodup_cons.mp hnd).1 hy
        rw [hprev', update_of_ne hyc, update_of_ne (hmem y (List.mem_cons_of_mem _ hy))]

theorem Ring.remove (h : k.Ring head (l₁ ++ b :: l₂)) : (k.remove b).Ring head (l₁ ++ l₂) := by
  obtain ⟨hh, hl⟩ := List.nodup_cons.mp h.nodup
  obtain ⟨hl₁, hbl₂, hdis⟩ := List.nodup_append.mp hl
  obtain ⟨hb₂, hl₂⟩ := List.nodup_cons.mp hbl₂
  have hh₁ : head ∉ l₁ := fun hm => hh (by simp [hm])
  have hh₂ : head ∉ l₂ := fun hm => hh (by simp [hm])
  have hbh : b ≠ head := by
    rintro rfl
    exact hh (by simp)
  have hb₁ : b ∉ l₁ := fun hm => hdis b hm b List.mem_cons_self rfl
  -- `a` is before `b` and `c` after it.
  obtain ⟨a, m, ham⟩ : ∃ a m, head :: l₁ = m ++ [a] := by
    rcases List.eq_nil_or_concat l₁ with rfl | ⟨m, a, rfl⟩
    · exact ⟨head, [], rfl⟩
    · exact ⟨a, head :: m, by simp⟩
  obtain ⟨c, m', hcm⟩ : ∃ c m', l₂ ++ [head] = c :: m' := by
    cases l₂ with
    | nil => exact ⟨head, [], rfl⟩
    | cons c l => exact ⟨c, l ++ [head], rfl⟩
  have hold : head :: (l₁ ++ b :: l₂ ++ [head]) = m ++ a :: b :: (c :: m') := by
    rw [← hcm, List.append_assoc, ← List.cons_append, ham]
    simp
  have hnew : head :: (l₁ ++ l₂ ++ [head]) = m ++ a :: c :: m' := by
    rw [← hcm, List.append_assoc, ← List.cons_append, ham]
    simp
  have hchain := h.chain
  rw [hold, List.isChain_append_cons_cons, List.isChain_cons_cons] at hchain
  obtain ⟨hfst, ⟨-, hprev⟩, ⟨hnext, -⟩, hsnd⟩ := hchain
  have hcb : b ≠ c := by
    rintro rfl
    have : b ∈ l₂ ++ [head] := by simp [hcm]
    rcases List.mem_append.mp this with hm | hm
    · exact hb₂ hm
    · exact hbh (List.mem_singleton.mp hm)
  have hnext' : (k.remove b).next = update k.next a c := by
    show update k.next (update k.prev (k.next b) (k.prev b) b) (k.next b) = _
    rw [hnext, update_of_ne hcb, hprev]
  have hprev' : (k.remove b).prev = update k.prev c a := by
    show update k.prev (k.next b) (k.prev b) = _
    rw [hnext, hprev]
  have hma : a ∉ m ∧ m.Nodup := by
    have hnd : (head :: l₁).Nodup := List.nodup_cons.mpr ⟨hh₁, hl₁⟩
    rw [ham] at hnd
    have := List.nodup_append.mp hnd
    exact ⟨fun hm => this.2.2 a hm a List.mem_cons_self rfl, this.1⟩
  refine ⟨?_, ?_⟩
  · refine List.nodup_cons.mpr
      ⟨by simp [hh₁, hh₂], List.nodup_append.mpr ⟨hl₁, hl₂, fun x hx y hy => ?_⟩⟩
    exact hdis x hx y (List.mem_cons_of_mem _ hy)
  · rw [hnew, List.isChain_append_cons_cons]
    refine ⟨isChain_congr (fun y hy => ?_) (fun y hy => ?_) hfst, ⟨?_, ?_⟩,
      isChain_congr (fun y hy => ?_) (fun y hy => ?_) hsnd⟩
    · rw [List.dropLast_concat] at hy
      have hya : y ≠ a := by
        rintro rfl
        exact hma.1 hy
      rw [hnext', update_of_ne hya]
    · rw [← ham] at hy
      have hyc : y ≠ c := by
        rintro rfl
        have hm : y ∈ l₂ ++ [head] := by simp [hcm]
        rcases List.mem_append.mp hm with hm | hm
        · exact hdis y hy y (List.mem_cons_of_mem _ hm) rfl
        · exact hh₁ (List.mem_singleton.mp hm ▸ hy)
      rw [hprev', update_of_ne hyc]
    · rw [hnext', update_self]
    · rw [hprev', update_self]
    · rw [← hcm, List.dropLast_concat] at hy
      have hya : y ≠ a := by
        rintro rfl
        have hm : y ∈ head :: l₁ := by simp [ham]
        rcases List.mem_cons.mp hm with rfl | hm
        · exact hh₂ hy
        · exact hdis y hm y (List.mem_cons_of_mem _ hy) rfl
      rw [hnext', update_of_ne hya]
    · have hnd : (c :: m').Nodup := by
        rw [← hcm]
        exact nodup_concat hl₂ hh₂
      have hyc : y ≠ c := by
        rintro rfl
        exact (List.nodup_cons.mp hnd).1 hy
      rw [hprev', update_of_ne hyc]

end

end Links

end Lib
