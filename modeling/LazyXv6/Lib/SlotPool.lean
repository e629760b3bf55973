import LazyXv6.Lib.Tally

/-!
# References in slots

A pool counts the references to its items, and several parties hand them around, one move at a time
in any order. Every reference sits in a slot. A `sole` one is known to be the only reference to its
item. What is in `transit` was taken from the free list and is not counted yet, or is not counted
any more and not yet back. The references that are `kept` outside the slots are sole, too.

`Move` is what a party can do in one step, and every move keeps `Ok`: the counts are exact, and an
item is on the free list, in one transit or referred to. The log lists what was taken from the free
list and pushed on it, the newest first; no item is pushed twice without being taken in between.
-/

namespace Lib

open Function

variable {ι α : Type}

inductive Slot (α : Type) where
  | empty
  | shared (a : α)
  | sole (a : α)
  | transit (a : α)
  deriving DecidableEq

namespace Slot

variable [DecidableEq α]

def refs (a : α) : Slot α → Bool
  | shared b | sole b => decide (b = a)
  | empty | transit _ => false

def moves (a : α) : Slot α → Bool
  | transit b => decide (b = a)
  | empty | shared _ | sole _ => false

def About (a : α) (x : Slot α) : Prop := ∀ b, b ≠ a → x.refs b = false ∧ x.moves b = false

theorem about_empty (a : α) : About a empty := fun _ _ => ⟨rfl, rfl⟩

theorem about_shared (a : α) : About a (shared a) := fun _ hb => ⟨decide_eq_false hb.symm, rfl⟩

theorem about_sole (a : α) : About a (sole a) := fun _ hb => ⟨decide_eq_false hb.symm, rfl⟩

theorem about_transit (a : α) : About a (transit a) := fun _ hb => ⟨rfl, decide_eq_false hb.symm⟩

theorem about_of_refs {a : α} {x : Slot α} (h : x.refs a = true) : About a x := by
  cases x with
  | empty | transit => exact nomatch h
  | shared b =>
    obtain rfl : b = a := of_decide_eq_true h
    exact about_shared b
  | sole b =>
    obtain rfl : b = a := of_decide_eq_true h
    exact about_sole b

theorem moves_of_refs {a : α} {x : Slot α} (h : x.refs a = true) : x.moves a = false := by
  cases x with
  | empty | shared | sole => rfl
  | transit b => exact nomatch h

@[simp] theorem refs_empty (a : α) : (empty : Slot α).refs a = false := rfl
@[simp] theorem refs_transit (a b : α) : (transit b).refs a = false := rfl
@[simp] theorem refs_shared_self (a : α) : (shared a).refs a = true := decide_eq_true rfl
@[simp] theorem refs_sole_self (a : α) : (sole a).refs a = true := decide_eq_true rfl
@[simp] theorem moves_empty (a : α) : (empty : Slot α).moves a = false := rfl
@[simp] theorem moves_shared (a b : α) : (shared b).moves a = false := rfl
@[simp] theorem moves_sole (a b : α) : (sole b).moves a = false := rfl
@[simp] theorem moves_transit_self (a : α) : (transit a).moves a = true := decide_eq_true rfl

end Slot

/-- What happens to the free list. -/
inductive PoolEvent (α : Type) where
  | taken (a : α)
  | pushed (a : α)
  deriving DecidableEq

/-- Between two times that an item is pushed it is taken. -/
def PushedOnce (log : List (PoolEvent α)) : Prop :=
  ∀ a l₁ l₂ l₃, log = l₁ ++ .pushed a :: (l₂ ++ .pushed a :: l₃) → .taken a ∈ l₂

theorem PushedOnce.taken {log : List (PoolEvent α)} (h : PushedOnce log) (f : α) :
    PushedOnce (.taken f :: log) := by
  intro a l₁ l₂ l₃ hlog
  cases l₁ with
  | nil => exact nomatch hlog
  | cons e l => exact h a l l₂ l₃ (List.cons.inj hlog).2

theorem PushedOnce.pushed {log : List (PoolEvent α)} {f : α} (h : PushedOnce log)
    (hf : ∀ l₁ l₂, log = l₁ ++ .pushed f :: l₂ → .taken f ∈ l₁) :
    PushedOnce (.pushed f :: log) := by
  intro a l₁ l₂ l₃ hlog
  cases l₁ with
  | nil =>
    obtain ⟨he, hlog⟩ := List.cons.inj hlog
    cases he
    exact hf l₂ l₃ hlog
  | cons e l => exact h a l l₂ l₃ (List.cons.inj hlog).2

structure SlotPool (ι α : Type) where
  slot : ι → Slot α
  kept : α → Bool
  count : α → ℤ
  free : List α
  log : List (PoolEvent α)

namespace SlotPool

variable [Fintype ι] [DecidableEq α] {c c' : SlotPool ι α} {i j : ι} {a f : α}

/-- The counts are exact, sole references are sole, and every item has one place. -/
structure Ok (valid : α → Prop) (c : SlotPool ι α) : Prop where
  count_eq : ∀ a, valid a → c.count a = tally (fun _ x => x.refs a) c.slot + unit (c.kept a)
  place : ∀ a, valid a →
    (c.free.count a : ℤ) + tally (fun _ x => x.moves a) c.slot + unit (decide (0 < c.count a)) = 1
  slot_valid : ∀ i a, ((c.slot i).refs a = true ∨ (c.slot i).moves a = true) → valid a
  kept_valid : ∀ a, c.kept a = true → valid a
  free_valid : ∀ a ∈ c.free, valid a
  sole : ∀ i a, c.slot i = .sole a → c.count a = 1
  kept_sole : ∀ a, c.kept a = true → c.count a = 1
  logged : ∀ a l₁ l₂, c.log = l₁ ++ .pushed a :: l₂ → .taken a ∉ l₁ → a ∈ c.free
  once : PushedOnce c.log

variable {valid : α → Prop}

theorem Ok.count_pos (h : c.Ok valid) (hi : (c.slot i).refs a = true) : 0 < c.count a := by
  have h1 := one_le_tally (P := fun _ x => Slot.refs a x) hi
  have h2 := unit_nonneg (c.kept a)
  have h3 := h.count_eq a (h.slot_valid i a (.inl hi))
  omega

theorem Ok.not_mem_free (h : c.Ok valid) (ha : valid a) (hpos : 0 < c.count a) : a ∉ c.free := by
  intro hmem
  have h1 : 0 < c.free.count a := List.count_pos_iff.mpr hmem
  have h2 := tally_nonneg (fun _ x => Slot.moves a x) c.slot
  have h3 := h.place a ha
  rw [decide_eq_true hpos, unit_true] at h3
  omega

theorem Ok.eq_of_count [DecidableEq ι] (h : c.Ok valid) (ha : c.count a = 1)
    (hi : (c.slot i).refs a = true) (hj : (c.slot j).refs a = true) : j = i := by
  have h2 := unit_nonneg (c.kept a)
  have h3 := h.count_eq a (h.slot_valid i a (.inl hi))
  exact eq_of_tally_le_one (P := fun _ x => Slot.refs a x) (by omega) hi hj

theorem Ok.eq_of_sole [DecidableEq ι] (h : c.Ok valid) (hi : c.slot i = .sole a)
    (hj : (c.slot j).refs a = true) : j = i := by
  refine h.eq_of_count (h.sole i a hi) ?_ hj
  rw [hi]
  exact Slot.refs_sole_self a

theorem Ok.refs_of_kept (h : c.Ok valid) (ha : c.kept a = true) (i : ι) :
    (c.slot i).refs a = false := by
  cases hi : (c.slot i).refs a with
  | false => rfl
  | true =>
    have h1 := one_le_tally (P := fun _ x => Slot.refs a x) hi
    have h2 := h.count_eq a (h.kept_valid a ha)
    have h3 := h.kept_sole a ha
    rw [ha, unit_true] at h2
    omega

theorem Ok.count_of_transit (h : c.Ok valid) (hi : c.slot i = .transit a) : c.count a = 0 := by
  have hm : (c.slot i).moves a = true := by
    rw [hi]
    exact Slot.moves_transit_self a
  have ha := h.slot_valid i a (.inr hm)
  have h1 := one_le_tally (P := fun _ x => Slot.moves a x) hm
  have h2 := h.place a ha
  have h3 := tally_nonneg (fun _ x => Slot.refs a x) c.slot
  have h4 := unit_nonneg (c.kept a)
  have h5 := h.count_eq a ha
  by_contra hne
  rw [decide_eq_true (show 0 < c.count a by omega), unit_true] at h2
  omega

theorem Ok.refs_of_transit (h : c.Ok valid) (hi : c.slot i = .transit a) (j : ι) :
    (c.slot j).refs a = false := by
  cases hj : (c.slot j).refs a with
  | false => rfl
  | true => exact absurd (h.count_of_transit hi) (h.count_pos hj).ne'

theorem Ok.kept_of_transit (h : c.Ok valid) (hi : c.slot i = .transit a) : c.kept a = false := by
  cases ha : c.kept a with
  | false => rfl
  | true => exact absurd ((h.kept_sole a ha).symm.trans (h.count_of_transit hi)) (by decide)

theorem Ok.not_mem_free_of_transit (h : c.Ok valid) (hi : c.slot i = .transit a) : a ∉ c.free := by
  intro hmem
  have hm : (c.slot i).moves a = true := by
    rw [hi]
    exact Slot.moves_transit_self a
  have h1 := one_le_tally (P := fun _ x => Slot.moves a x) hm
  have h2 := h.place a (h.slot_valid i a (.inr hm))
  have h3 : 0 < c.free.count a := List.count_pos_iff.mpr hmem
  have h4 := unit_nonneg (decide (0 < c.count a))
  omega

/-- A change that concerns the item `f` alone. -/
theorem Ok.change (h : c.Ok valid) (hf : valid f)
    (hslot : ∀ j, c'.slot j = c.slot j ∨ (c.slot j).About f ∧ (c'.slot j).About f)
    (hcount : ∀ a, a ≠ f → c'.count a = c.count a) (hkept : ∀ a, a ≠ f → c'.kept a = c.kept a)
    (hfree : ∀ a, a ≠ f → c'.free.count a = c.free.count a)
    (hceq : c'.count f = tally (fun _ x => x.refs f) c'.slot + unit (c'.kept f))
    (hplace : (c'.free.count f : ℤ) + tally (fun _ x => x.moves f) c'.slot +
      unit (decide (0 < c'.count f)) = 1) (hsole : ∀ i, c'.slot i = .sole f → c'.count f = 1)
    (hks : c'.kept f = true → c'.count f = 1)
    (hlogged : ∀ a l₁ l₂, c'.log = l₁ ++ .pushed a :: l₂ → .taken a ∉ l₁ → a ∈ c'.free)
    (honce : PushedOnce c'.log) : c'.Ok valid := by
  have hrefs : ∀ a, a ≠ f → ∀ j, (c'.slot j).refs a = (c.slot j).refs a ∧
      (c'.slot j).moves a = (c.slot j).moves a := by
    intro a ha j
    rcases hslot j with hj | ⟨hold, hnew⟩
    · rw [hj]
      exact ⟨rfl, rfl⟩
    · exact ⟨(hnew a ha).1.trans (hold a ha).1.symm, (hnew a ha).2.trans (hold a ha).2.symm⟩
  refine ⟨fun a ha => ?_, fun a ha => ?_, fun i a hi => ?_, fun a ha => ?_, fun a ha => ?_,
    fun i a hi => ?_, fun a ha => ?_, hlogged, honce⟩
  · by_cases he : a = f
    · rw [he]
      exact hceq
    · rw [hcount a he, hkept a he, h.count_eq a ha]
      exact congrArg (· + _) (tally_congr fun j => (hrefs a he j).1.symm)
  · by_cases he : a = f
    · rw [he]
      exact hplace
    · rw [hcount a he, hfree a he, tally_congr fun j => (hrefs a he j).2]
      exact h.place a ha
  · by_cases he : a = f
    · rw [he]
      exact hf
    · rw [(hrefs a he i).1, (hrefs a he i).2] at hi
      exact h.slot_valid i a hi
  · by_cases he : a = f
    · rw [he]
      exact hf
    · rw [hkept a he] at ha
      exact h.kept_valid a ha
  · by_cases he : a = f
    · rw [he]
      exact hf
    · refine h.free_valid a (List.count_pos_iff.mp ?_)
      rw [← hfree a he]
      exact List.count_pos_iff.mpr ha
  · by_cases he : a = f
    · subst he
      exact hsole i hi
    · rw [hcount a he]
      rcases hslot i with hj | ⟨-, hnew⟩
      · exact h.sole i a (hj ▸ hi)
      · have hno := (hnew a he).1
        rw [hi, Slot.refs_sole_self] at hno
        exact nomatch hno
  · by_cases he : a = f
    · subst he
      exact hks ha
    · rw [hkept a he] at ha
      rw [hcount a he]
      exact h.kept_sole a ha

variable [DecidableEq ι]

/-- One step of one party. -/
inductive Move : SlotPool ι α → SlotPool ι α → Prop where
  | take {c : SlotPool ι α} {i : ι} {f : α} {rest : List α} (hfree : c.free = f :: rest)
      (hi : c.slot i = .empty) :
      Move c { c with slot := update c.slot i (.transit f), free := rest, log := .taken f :: c.log }
  | push {c : SlotPool ι α} {i : ι} {f : α} (hi : c.slot i = .transit f) :
      Move c { c with slot := update c.slot i .empty, free := f :: c.free, log := .pushed f :: c.log }
  | born {c : SlotPool ι α} {i j : ι} {f : α} (hij : j ≠ i) (hi : c.slot i = .transit f)
      (hj : c.slot j = .empty) :
      Move c { c with slot := update (update c.slot i .empty) j (.sole f), count := update c.count f 1 }
  | keep {c : SlotPool ι α} {i : ι} {f : α} (hi : c.slot i = .transit f) :
      Move c { c with slot := update c.slot i .empty, kept := update c.kept f true,
                      count := update c.count f 1 }
  | unkeep {c : SlotPool ι α} {i : ι} {f : α} (hf : c.kept f = true) (hi : c.slot i = .empty) :
      Move c { c with slot := update c.slot i (.shared f), kept := update c.kept f false }
  | pass {c : SlotPool ι α} {i j : ι} {f : α} {x : Slot α} (hij : j ≠ i)
      (hi : (c.slot i).refs f = true) (hj : c.slot j = .empty)
      (hx : x = .shared f ∨ x = .sole f ∧ c.slot i = .sole f) :
      Move c { c with slot := update (update c.slot i .empty) j x }
  | weaken {c : SlotPool ι α} {i : ι} {f : α} (hi : (c.slot i).refs f = true) :
      Move c { c with slot := update c.slot i (.shared f) }
  | strengthen {c : SlotPool ι α} {i : ι} {f : α} (hi : (c.slot i).refs f = true)
      (hf : c.count f = 1) : Move c { c with slot := update c.slot i (.sole f) }
  | share {c : SlotPool ι α} {i j : ι} {f : α} (hi : c.slot i = .shared f)
    (hj : c.slot j = .empty) :
      Move c { c with slot := update c.slot j (.shared f), count := update c.count f (c.count f + 1) }
  | drop {c : SlotPool ι α} {i : ι} {f : α} (hi : c.slot i = .shared f) (hf : 1 < c.count f) :
      Move c { c with slot := update c.slot i .empty, count := update c.count f (c.count f - 1) }
  | last {c : SlotPool ι α} {i : ι} {f : α} (hi : c.slot i = .shared f) (hf : c.count f = 1) :
      Move c { c with slot := update c.slot i (.transit f), count := update c.count f 0 }

omit [Fintype ι] in
theorem about_update {x : Slot α} (hi : (c.slot i).About f) (hx : x.About f) (j : ι) :
    update c.slot i x j = c.slot j ∨ (c.slot j).About f ∧ (update c.slot i x j).About f := by
  rcases eq_or_ne j i with rfl | hne
  · rw [update_self]
    exact .inr ⟨hi, hx⟩
  · exact .inl (update_of_ne hne ..)

omit [Fintype ι] in
theorem about_update₂ {x y : Slot α} (hi : (c.slot i).About f) (hj : (c.slot j).About f)
    (hx : x.About f) (hy : y.About f) (k : ι) :
    update (update c.slot i x) j y k = c.slot k ∨
      (c.slot k).About f ∧ (update (update c.slot i x) j y k).About f := by
  rcases eq_or_ne k j with rfl | hne
  · rw [update_self]
    exact .inr ⟨hj, hy⟩
  · rw [update_of_ne hne]
    exact about_update hi hx k

/-! ## Moves keep the pool in order -/

section

variable {x y : Slot α}

omit [Fintype ι] [DecidableEq α] in
theorem sole_of_update (hx : x ≠ .sole f) (hj : update c.slot i x j = .sole f) :
    c.slot j = .sole f := by
  rcases eq_or_ne j i with rfl | hne
  · rw [update_self] at hj
    exact absurd hj hx
  · rwa [update_of_ne hne] at hj

/-- A change to one slot: what it adds to the references and transits of `f`, the rest takes
away. -/
theorem Ok.changeSlot (h : c.Ok valid) (hf : valid f) (hslot : c'.slot = update c.slot i x)
    (hold : (c.slot i).About f) (hnew : x.About f) (hcount : ∀ a, a ≠ f → c'.count a = c.count a)
    (hkept : ∀ a, a ≠ f → c'.kept a = c.kept a)
    (hfree : ∀ a, a ≠ f → c'.free.count a = c.free.count a)
    (hrefs : c'.count f + unit ((c.slot i).refs f) + unit (c.kept f) =
      c.count f + unit (x.refs f) + unit (c'.kept f))
    (hmoves : c'.free.count f + unit (x.moves f) + unit (decide (0 < c'.count f)) =
      c.free.count f + unit ((c.slot i).moves f) + unit (decide (0 < c.count f)))
    (hsole : ∀ i, c'.slot i = .sole f → c'.count f = 1) (hks : c'.kept f = true → c'.count f = 1)
    (hlogged : ∀ a l₁ l₂, c'.log = l₁ ++ .pushed a :: l₂ → .taken a ∉ l₁ → a ∈ c'.free)
    (honce : PushedOnce c'.log) : c'.Ok valid := by
  have hceq := h.count_eq f hf
  have hplace := h.place f hf
  refine h.change hf ?_ hcount hkept hfree ?_ ?_ hsole hks hlogged honce
  · rw [hslot]
    exact about_update hold hnew
  · rw [hslot, tally_update]
    omega
  · rw [hslot, tally_update]
    omega

omit [DecidableEq α] in
theorem logged_taken {log : List (PoolEvent α)} {rest : List α}
    (h : ∀ a l₁ l₂, log = l₁ ++ .pushed a :: l₂ → .taken a ∉ l₁ → a ∈ f :: rest)
    (l₁ l₂ : List (PoolEvent α)) (hlog : .taken f :: log = l₁ ++ .pushed a :: l₂)
    (hl : .taken a ∉ l₁) : a ∈ rest := by
  cases l₁ with
  | nil => exact nomatch hlog
  | cons e l =>
    obtain ⟨rfl, hold⟩ := List.cons.inj hlog
    obtain ⟨hne, hnot⟩ := not_or.mp (List.mem_cons.not.mp hl)
    rcases List.mem_cons.mp (h a l l₂ hold hnot) with rfl | hmem
    · exact absurd rfl hne
    · exact hmem

theorem Ok.take {rest : List α} (h : c.Ok valid) (hfree : c.free = f :: rest)
    (hi : c.slot i = .empty) : Ok valid { c with
      slot := update c.slot i (.transit f), free := rest, log := .taken f :: c.log } := by
  have hf : valid f := h.free_valid f (hfree ▸ List.mem_cons_self)
  have hlog := h.logged
  rw [hfree] at hlog
  refine h.changeSlot hf rfl (hi ▸ Slot.about_empty f) (Slot.about_transit f) (fun _ _ => rfl)
    (fun _ _ => rfl) (fun a ha => ?_) ?_ ?_ (fun j hj => ?_) (h.kept_sole f)
    (fun a => logged_taken (hlog ·)) (h.once.taken f)
  · rw [hfree, List.count_cons_of_ne ha.symm]
  · simp [hi]
  · simp [hi, hfree]
  · exact h.sole j f (sole_of_update (i := i) (x := .transit f) nofun hj)

omit [DecidableEq ι] in
theorem Ok.valid_of_transit (h : c.Ok valid) (hi : c.slot i = .transit f) : valid f :=
  h.slot_valid i f (.inr (hi ▸ Slot.moves_transit_self f))

theorem Ok.push (h : c.Ok valid) (hi : c.slot i = .transit f) :
    Ok valid { c with slot := update c.slot i .empty, free := f :: c.free,
                      log := .pushed f :: c.log } := by
  have hnot := h.not_mem_free_of_transit hi
  refine h.changeSlot (h.valid_of_transit hi) rfl (hi ▸ Slot.about_transit f) (Slot.about_empty f)
    (fun _ _ => rfl) (fun _ _ => rfl) (fun a ha => List.count_cons_of_ne ha.symm) ?_ ?_
    (fun j hj => ?_) (h.kept_sole f) (fun a l₁ l₂ hlog hl => ?_)
    (h.once.pushed fun l₁ l₂ hlog => ?_)
  · simp [hi]
  · simp [hi]
  · exact h.sole j f (sole_of_update (i := i) (x := .empty) nofun hj)
  · cases l₁ with
    | nil =>
      obtain ⟨he, -⟩ := List.cons.inj hlog
      cases he
      exact List.mem_cons_self
    | cons e l =>
      obtain ⟨rfl, hold⟩ := List.cons.inj hlog
      exact List.mem_cons_of_mem _ (h.logged a l l₂ hold fun hmem => hl (List.mem_cons_of_mem _ hmem))
  · by_contra hno
    exact hnot (h.logged f l₁ l₂ hlog hno)

theorem Ok.born (h : c.Ok valid) (hij : j ≠ i) (hi : c.slot i = .transit f)
    (hj : c.slot j = .empty) :
    Ok valid { c with slot := update (update c.slot i .empty) j (.sole f),
                      count := update c.count f 1 } := by
  have hf := h.valid_of_transit hi
  have hceq := h.count_eq f hf
  have hplace := h.place f hf
  have h0 := h.count_of_transit hi
  have hone : update c.count f 1 f = 1 := update_self ..
  rw [h0, decide_eq_false (lt_irrefl _), unit_false] at hplace
  refine h.change hf (about_update₂ (hi ▸ Slot.about_transit f) (hj ▸ Slot.about_empty f)
    (Slot.about_empty f) (Slot.about_sole f)) (fun a ha => update_of_ne ha ..) (fun _ _ => rfl)
    (fun _ _ => rfl) ?_ ?_ (fun _ _ => hone) (fun _ => hone) h.logged h.once
  · show update c.count f 1 f = tally _ (update (update c.slot i _) j _) + unit (c.kept f)
    rw [hone, tally_update_update _ _ hij, hi, hj, Slot.refs_empty, Slot.refs_transit,
      Slot.refs_sole_self, unit_true, unit_false]
    omega
  · show (c.free.count f : ℤ) + tally _ (update (update c.slot i _) j _) +
      unit (decide (0 < update c.count f 1 f)) = 1
    rw [hone, tally_update_update _ _ hij, hi, hj, Slot.moves_empty, Slot.moves_transit_self,
      Slot.moves_sole, unit_true, unit_false, decide_eq_true Int.one_pos, unit_true]
    omega

theorem Ok.keep (h : c.Ok valid) (hi : c.slot i = .transit f) :
    Ok valid { c with slot := update c.slot i .empty, kept := update c.kept f true,
                      count := update c.count f 1 } := by
  have h0 := h.count_of_transit hi
  have hk := h.kept_of_transit hi
  have hone : update c.count f 1 f = 1 := update_self ..
  refine h.changeSlot (h.valid_of_transit hi) rfl (hi ▸ Slot.about_transit f) (Slot.about_empty f)
    (fun a ha => update_of_ne ha ..) (fun a ha => update_of_ne ha ..) (fun _ _ => rfl) ?_ ?_
    (fun _ _ => hone) (fun _ => hone) h.logged h.once
  · simp [hi, h0, hk]
  · simp [hi, h0]

theorem Ok.unkeep (h : c.Ok valid) (hk : c.kept f = true) (hi : c.slot i = .empty) :
    Ok valid { c with slot := update c.slot i (.shared f), kept := update c.kept f false } := by
  refine h.changeSlot (h.kept_valid f hk) rfl (hi ▸ Slot.about_empty f) (Slot.about_shared f)
    (fun _ _ => rfl) (fun a ha => update_of_ne ha ..) (fun _ _ => rfl) ?_ ?_
    (fun _ _ => h.kept_sole f hk) (fun _ => h.kept_sole f hk) h.logged h.once
  · simp [hi, hk]
  · simp [hi]

omit [Fintype ι] [DecidableEq ι] in
theorem Slot.refs_of_or (hx : x = .shared f ∨ x = .sole f) : x.refs f = true := by
  rcases hx with rfl | rfl
  · exact Slot.refs_shared_self f
  · exact Slot.refs_sole_self f

theorem Ok.retype (h : c.Ok valid) (hi : (c.slot i).refs f = true)
    (hx : x = .shared f ∨ x = .sole f ∧ c.count f = 1) :
    Ok valid { c with slot := update c.slot i x } := by
  have hrefs : x.refs f = true := Slot.refs_of_or (hx.imp_right And.left)
  refine h.changeSlot (h.slot_valid i f (.inl hi)) rfl (Slot.about_of_refs hi)
    (Slot.about_of_refs hrefs) (fun _ _ => rfl) (fun _ _ => rfl) (fun _ _ => rfl) ?_ ?_
    (fun j hj => ?_) (h.kept_sole f) h.logged h.once
  · simp [hi, hrefs]
  · simp [Slot.moves_of_refs hi, Slot.moves_of_refs hrefs]
  · rcases hx with rfl | ⟨-, h1⟩
    · exact h.sole j f (sole_of_update (i := i) (x := .shared f) nofun hj)
    · exact h1

theorem Ok.pass (h : c.Ok valid) (hij : j ≠ i) (hi : (c.slot i).refs f = true)
    (hj : c.slot j = .empty) (hx : x = .shared f ∨ x = .sole f ∧ c.slot i = .sole f) :
    Ok valid { c with slot := update (update c.slot i .empty) j x } := by
  have hf : valid f := h.slot_valid i f (.inl hi)
  have hceq := h.count_eq f hf
  have hplace := h.place f hf
  have hrefs : x.refs f = true := Slot.refs_of_or (hx.imp_right And.left)
  refine h.change hf (about_update₂ (Slot.about_of_refs hi) (hj ▸ Slot.about_empty f)
    (Slot.about_empty f) (Slot.about_of_refs hrefs)) (fun _ _ => rfl) (fun _ _ => rfl)
    (fun _ _ => rfl) ?_ ?_ (fun k hk => ?_) (h.kept_sole f) h.logged h.once
  · show c.count f = tally _ (update (update c.slot i _) j _) + unit (c.kept f)
    rw [tally_update_update _ _ hij, hi, hj, hrefs, Slot.refs_empty]
    omega
  · show (c.free.count f : ℤ) + tally _ (update (update c.slot i _) j _) +
      unit (decide (0 < c.count f)) = 1
    rw [tally_update_update _ _ hij, Slot.moves_of_refs hi, hj, Slot.moves_of_refs hrefs,
      Slot.moves_empty]
    omega
  · rcases hx with rfl | ⟨-, hs⟩
    · refine h.sole k f (sole_of_update (i := i) (x := .empty) nofun ?_)
      rcases eq_or_ne k j with rfl | hne
      · exact absurd (hk.symm.trans (update_self ..)) nofun
      · exact (update_of_ne hne ..).symm.trans hk
    · exact h.sole i f hs

theorem Ok.share (h : c.Ok valid) (hi : c.slot i = .shared f) (hj : c.slot j = .empty) :
    Ok valid { c with slot := update c.slot j (.shared f),
                      count := update c.count f (c.count f + 1) } := by
  have hr : (c.slot i).refs f = true := hi ▸ Slot.refs_shared_self f
  have hpos := h.count_pos hr
  refine h.changeSlot (h.slot_valid i f (.inl hr)) rfl (hj ▸ Slot.about_empty f)
    (Slot.about_shared f) (fun a ha => update_of_ne ha ..) (fun _ _ => rfl) (fun _ _ => rfl) ?_ ?_
    (fun k hk => ?_) (fun hk => ?_) h.logged h.once
  · simp [hj]
  · simp [hj, hpos, hpos.trans (Int.lt_succ _)]
  · -- A sole reference would be the one that is shared.
    have hs := sole_of_update (i := j) (x := .shared f) nofun hk
    obtain rfl := h.eq_of_sole hs hr
    exact absurd (hi.symm.trans hs) nofun
  · exact absurd (hr.symm.trans (h.refs_of_kept hk i)) nofun

theorem Ok.drop (h : c.Ok valid) (hi : c.slot i = .shared f) (hc : 1 < c.count f) :
    Ok valid { c with slot := update c.slot i .empty,
                      count := update c.count f (c.count f - 1) } := by
  have hr : (c.slot i).refs f = true := hi ▸ Slot.refs_shared_self f
  have hpos := h.count_pos hr
  refine h.changeSlot (h.slot_valid i f (.inl hr)) rfl (hi ▸ Slot.about_shared f)
    (Slot.about_empty f) (fun a ha => update_of_ne ha ..) (fun _ _ => rfl) (fun _ _ => rfl) ?_ ?_
    (fun k hk => ?_) (fun hk => ?_) h.logged h.once
  · simp [hi]
  · simp [hi, hpos, hc]
  · have h1 := h.sole k f (sole_of_update (i := i) (x := .empty) nofun hk)
    omega
  · have h1 := h.kept_sole f hk
    omega

theorem Ok.last (h : c.Ok valid) (hi : c.slot i = .shared f) (hc : c.count f = 1) :
    Ok valid { c with slot := update c.slot i (.transit f), count := update c.count f 0 } := by
  have hr : (c.slot i).refs f = true := hi ▸ Slot.refs_shared_self f
  refine h.changeSlot (h.slot_valid i f (.inl hr)) rfl (hi ▸ Slot.about_shared f)
    (Slot.about_transit f) (fun a ha => update_of_ne ha ..) (fun _ _ => rfl) (fun _ _ => rfl) ?_ ?_
    (fun k hk => ?_) (fun hk => ?_) h.logged h.once
  · simp [hi, hc]
  · simp [hi, hc]
  · have hs := sole_of_update (i := i) (x := .transit f) nofun hk
    obtain rfl := h.eq_of_sole hs hr
    exact absurd (hi.symm.trans hs) nofun
  · exact absurd (hr.symm.trans (h.refs_of_kept hk i)) nofun

/-- **Every move keeps the pool in order.** -/
theorem Move.ok (hm : Move c c') (h : c.Ok valid) : c'.Ok valid := by
  cases hm with
  | take hfree hi => exact h.take hfree hi
  | push hi => exact h.push hi
  | born hij hi hj => exact h.born hij hi hj
  | keep hi => exact h.keep hi
  | unkeep hk hi => exact h.unkeep hk hi
  | pass hij hi hj hx => exact h.pass hij hi hj hx
  | weaken hi => exact h.retype hi (.inl rfl)
  | strengthen hi hc => exact h.retype hi (.inr ⟨rfl, hc⟩)
  | share hi hj => exact h.share hi hj
  | drop hi hc => exact h.drop hi hc
  | last hi hc => exact h.last hi hc

theorem Ok.moves (h : c.Ok valid) (hm : Relation.ReflTransGen Move c c') : c'.Ok valid := by
  induction hm with
  | refl => exact h
  | tail _ hm ih => exact hm.ok ih

end

end SlotPool

end Lib
