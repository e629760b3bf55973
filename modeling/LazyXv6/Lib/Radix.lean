import Mathlib

/-!
# Radix trees of tables

A tree of depth `d` is a table, kept on a page of its own, whose `b` entries are values (`d = 0`)
or trees of depth `d - 1`, each possibly absent. A key is read digit by digit in base `b`, the
highest digit at the root. `lookup` follows the key to its entry, `ensure` makes the tables on the
way, taking their pages from an allocator, `store` changes an entry and `freeAll` gives every page
back. `get` is the finite map the tree stands for: an absent table counts as one full of `default`.
-/

namespace Lib

open Function

/-- Trees with `d` levels of tables above the tables of values. -/
inductive Radix (ι α : Type) : ℕ → Type
  | absent {d : ℕ} : Radix ι α d
  | leaf (page : ι) (entry : ℕ → α) : Radix ι α 0
  | node {d : ℕ} (page : ι) (entry : ℕ → Radix ι α d) : Radix ι α (d + 1)

namespace Radix

variable {ι α σ ε : Type} (b : ℕ)

/-- The digit of the key that a tree of depth `d` branches on. -/
def digit (d v : ℕ) : ℕ := v / b ^ d % b

def zeroed [Inhabited α] : (d : ℕ) → ι → Radix ι α d
  | 0, i => .leaf i fun _ => default
  | _ + 1, i => .node i fun _ => .absent

/-- The entry of a key, if the tables on the way to it exist. -/
def lookup : {d : ℕ} → Radix ι α d → ℕ → Option α
  | _, .absent, _ => none
  | _, .leaf _ e, v => some (e (digit b 0 v))
  | d + 1, .node _ e, v => lookup (e (digit b (d + 1) v)) v

/-- The value of a key, `default` where there is no table for it. -/
def get [Inhabited α] {d : ℕ} (t : Radix ι α d) (v : ℕ) : α := (lookup b t v).getD default

/-- The tree with the entry of a key changed, if there is a table for it. -/
def store : {d : ℕ} → Radix ι α d → ℕ → α → Radix ι α d
  | _, .absent, _, _ => .absent
  | _, .leaf p e, v, x => .leaf p (update e (digit b 0 v) x)
  | d + 1, .node p e, v, x =>
    .node p (update e (digit b (d + 1) v) (store (e (digit b (d + 1) v)) v x))

/-- The table of an entry, a new one if there is none and the allocator has a page. -/
def link [Inhabited α] (alloc : σ → σ × Option ι) {d : ℕ} (s : σ) : Radix ι α d → σ × Radix ι α d
  | .absent =>
    match alloc s with
    | (s, none) => (s, .absent)
    | (s, some i) => (s, zeroed d i)
  | c => (s, c)

/-- Make the tables on the way to a key; the flag says whether the allocator had enough pages. -/
def ensure [Inhabited α] (alloc : σ → σ × Option ι) :
    {d : ℕ} → σ → Radix ι α d → ℕ → σ × Radix ι α d × Bool
  | _, s, .absent, _ => (s, .absent, false)
  | _, s, .leaf p e, _ => (s, .leaf p e, true)
  | d + 1, s, .node p e, v =>
    let c := link alloc s (e (digit b (d + 1) v))
    let r := ensure alloc c.1 c.2 v
    (r.1, .node p (update e (digit b (d + 1) v) r.2.1), r.2.2)

/-- Give back every page, the children of a table before the table; `leaf` checks each value. -/
def freeAll (free : σ → ι → Except ε σ) (leaf : α → Except ε Unit) :
    {d : ℕ} → σ → Radix ι α d → Except ε σ
  | _, s, .absent => pure s
  | _, s, .leaf p e => do
    forM (List.range b) fun i => leaf (e i)
    free s p
  | _, s, .node p e => do
    let s ← (List.range b).foldlM (fun s i => freeAll free leaf s (e i)) s
    free s p

def pages : {d : ℕ} → Radix ι α d → Multiset ι
  | _, .absent => 0
  | _, .leaf p _ => {p}
  | _, .node p e => {p} + ∑ i ∈ Finset.range b, pages (e i)

/-! ## The finite map -/

section Map

variable {b} [Inhabited α]

@[simp] theorem get_absent (d v : ℕ) : get b (.absent : Radix ι α d) v = default := by
  unfold get
  rw [lookup, Option.getD_none]

@[simp] theorem get_leaf (p : ι) (e : ℕ → α) (v : ℕ) :
    get b (.leaf p e : Radix ι α 0) v = e (digit b 0 v) := rfl

@[simp] theorem get_node {d : ℕ} (p : ι) (e : ℕ → Radix ι α d) (v : ℕ) :
    get b (.node p e) v = get b (e (digit b (d + 1) v)) v := rfl

@[simp] theorem get_zeroed (d : ℕ) (i : ι) (v : ℕ) :
    get b (zeroed d i : Radix ι α d) v = default := by
  cases d with
  | zero => rfl
  | succ d => exact get_absent d v

theorem get_eq_of_lookup {d : ℕ} {t : Radix ι α d} {v : ℕ} {x : α} (h : lookup b t v = some x) :
    get b t v = x := by
  unfold get
  rw [h, Option.getD_some]

omit [Inhabited α] in
theorem digit_eq_and_mod_iff {d u v : ℕ} :
    (digit b (d + 1) u = digit b (d + 1) v ∧ u % b ^ (d + 1) = v % b ^ (d + 1)) ↔
      u % b ^ (d + 2) = v % b ^ (d + 2) := by
  unfold digit
  rw [Nat.mod_pow_succ (b := b) (k := d + 1), Nat.mod_pow_succ (b := b) (k := d + 1)]
  constructor
  · rintro ⟨h1, h2⟩
    rw [h1, h2]
  · intro h
    have hmod := congrArg (· % b ^ (d + 1)) h
    have hdiv := congrArg (· / b ^ (d + 1)) h
    simp only [Nat.add_mul_mod_self_left, Nat.mod_mod] at hmod
    rcases Nat.eq_zero_or_pos (b ^ (d + 1)) with h0 | h0
    · have hb : b = 0 := (Nat.pow_eq_zero.mp h0).1
      subst hb
      simpa using h
    · simp only [Nat.add_mul_div_left _ _ h0, Nat.div_eq_of_lt (Nat.mod_lt _ h0), zero_add] at hdiv
      exact ⟨hdiv, hmod⟩

theorem get_congr {d : ℕ} {t : Radix ι α d} {u v : ℕ}
    (h : u % b ^ (d + 1) = v % b ^ (d + 1)) : get b t u = get b t v := by
  induction t with
  | absent => rw [get_absent, get_absent]
  | leaf p e =>
    rw [zero_add, pow_one] at h
    rw [get_leaf, get_leaf, digit, digit, pow_zero, Nat.div_one, Nat.div_one, h]
  | node p e ih =>
    obtain ⟨hd, hm⟩ := digit_eq_and_mod_iff.mpr h
    rw [get_node, get_node, hd]
    exact ih _ hm

theorem get_store {x : α} {d : ℕ} {t : Radix ι α d} {v : ℕ} (h : (lookup b t v).isSome)
    (u : ℕ) : get b (store b t v x) u =
      if u % b ^ (d + 1) = v % b ^ (d + 1) then x else get b t u := by
  induction t with
  | absent => simp [lookup] at h
  | leaf p e =>
    rw [store, get_leaf, get_leaf, update_apply]
    unfold digit
    simp only [pow_zero, Nat.div_one, zero_add, pow_one]
  | @node d p e ih =>
    rw [lookup] at h
    rw [store, get_node, get_node]
    by_cases hd : digit b (d + 1) u = digit b (d + 1) v
    · rw [hd, update_self, ih _ h]
      exact if_congr (by rw [← digit_eq_and_mod_iff]; simp [hd]) rfl rfl
    · rw [update_of_ne hd]
      exact (if_neg fun he => hd (digit_eq_and_mod_iff.mpr he).1).symm

end Map

variable {b}

@[simp] theorem lookup_isSome_store {x : α} {d : ℕ} {t : Radix ι α d} {v w : ℕ} :
    (lookup b (store b t v x) w).isSome = (lookup b t w).isSome := by
  induction t with
  | absent | leaf => rfl
  | @node d p e ih =>
    rw [store, lookup, lookup]
    by_cases hd : digit b (d + 1) w = digit b (d + 1) v
    · rw [hd, update_self]
      exact ih _
    · rw [update_of_ne hd]

theorem store_ne_absent {x : α} {d : ℕ} {t : Radix ι α d} {v : ℕ} (h : t ≠ .absent) :
    store b t v x ≠ .absent := by
  cases t with
  | absent => exact absurd rfl h
  | leaf | node => exact fun h => nomatch h

/-! ## The pages -/

theorem digit_lt (hb : 0 < b) (d v : ℕ) : digit b d v < b := Nat.mod_lt _ hb

theorem mem_pages_node {d : ℕ} (p : ι) (e : ℕ → Radix ι α d) : p ∈ pages b (.node p e) := by
  rw [pages]
  exact Multiset.mem_add.mpr (.inl (Multiset.mem_singleton_self p))

theorem mem_pages_child {d : ℕ} {p q : ι} {e : ℕ → Radix ι α d} {i : ℕ} (hi : i < b)
    (hq : q ∈ pages b (e i)) : q ∈ pages b (.node p e) := by
  rw [pages]
  exact Multiset.mem_add.mpr (.inr (Multiset.mem_sum.mpr ⟨i, Finset.mem_range.mpr hi, hq⟩))

theorem pages_update {d : ℕ} (p : ι) (e : ℕ → Radix ι α d) {i : ℕ} (hi : i < b) :
    ∃ m, pages b (.node p e) = m + pages b (e i) ∧
    ∀ c, pages b (.node p (update e i c)) = m + pages b c := by
  have hmem : i ∈ Finset.range b := Finset.mem_range.mpr hi
  refine ⟨{p} + ∑ j ∈ (Finset.range b).erase i, pages b (e j), ?_, fun c => ?_⟩
  · rw [pages, ← Finset.add_sum_erase _ _ hmem]
    abel
  · have hrest : ∀ j ∈ (Finset.range b).erase i, pages b (update e i c j) = pages b (e j) := by
      intro j hj
      rw [update_of_ne (Finset.ne_of_mem_erase hj)]
    rw [pages, ← Finset.add_sum_erase _ _ hmem, Finset.sum_congr rfl hrest, update_self]
    abel

theorem mem_of_pages_update {d : ℕ} {p : ι} {e : ℕ → Radix ι α d} {i : ℕ} {m : Multiset ι}
    (h : ∀ c, pages b (.node p (update e i c)) = m + pages b c) :
    p ∈ m ∧ ∀ j < b, j ≠ i → ∀ q ∈ pages b (e j), q ∈ m := by
  have hm : m = pages b (.node p (update e i .absent)) := by
    rw [h, pages, add_zero]
  refine ⟨hm ▸ mem_pages_node p _, fun j hj hne q hq => ?_⟩
  rw [hm]
  refine mem_pages_child hj ?_
  rw [update_of_ne hne]
  exact hq

theorem lt_card_pages (hb : 0 < b) {d : ℕ} {t : Radix ι α d} {v : ℕ} (h : (lookup b t v).isSome) :
    d < (pages b t).card := by
  induction t with
  | absent => exact absurd h (by simp [lookup])
  | leaf p e => simp [pages]
  | @node d p e ih =>
    have hlt := ih _ h
    obtain ⟨m, h1, h2⟩ := pages_update p e (digit_lt hb (d + 1) v)
    have hpos := Multiset.card_pos_iff_exists_mem.mpr ⟨p, (mem_of_pages_update h2).1⟩
    rw [h1, Multiset.card_add]
    omega

theorem pages_store (hb : 0 < b) {x : α} {d : ℕ} {t : Radix ι α d} {v : ℕ} :
    pages b (store b t v x) = pages b t := by
  induction t with
  | absent | leaf => rfl
  | @node d p e ih =>
    obtain ⟨m, h1, h2⟩ := pages_update p e (digit_lt hb (d + 1) v)
    rw [store, h1, h2, ih]

@[simp] theorem pages_zeroed [Inhabited α] (d : ℕ) (i : ι) :
    pages b (zeroed d i : Radix ι α d) = {i} := by
  cases d with
  | zero => rfl
  | succ d => simp [zeroed, pages]

/-! ## Making and freeing tables

`P s m`: in state `s` the pages `m` are held. -/

section Resource

variable [Inhabited α] {P : σ → Multiset ι → Prop} {Q : σ → Prop} {alloc : σ → σ × Option ι}
  {free : σ → ι → Except ε σ} {leaf : α → Except ε Unit}

theorem link_spec (hsome : ∀ {s s' m i}, P s m → alloc s = (s', some i) → P s' (m + {i}))
    (hnone : ∀ {s s' m}, P s m → alloc s = (s', none) → P s' m ∧ Q s')
    {d : ℕ} {s : σ} {t : Radix ι α d} {m : Multiset ι} (h : P s (m + pages b t)) :
    P (link alloc s t).1 (m + pages b (link alloc s t).2) ∧
      (∀ u, get b (link alloc s t).2 u = get b t u) ∧
      ((link alloc s t).2 = .absent → Q (link alloc s t).1) := by
  cases t with
  | absent =>
    rw [link]
    rw [pages, add_zero] at h
    rcases ha : alloc s with ⟨s', _ | i⟩
    · obtain ⟨hP, hQ⟩ := hnone h ha
      exact ⟨by rwa [pages, add_zero], fun _ => rfl, fun _ => hQ⟩
    · have hz : (zeroed d i : Radix ι α d) ≠ .absent := by cases d <;> exact fun h => nomatch h
      refine ⟨?_, fun u => ?_, fun h => absurd h hz⟩
      · rw [pages_zeroed]
        exact hsome h ha
      · rw [get_zeroed, get_absent]
  | leaf | node => exact ⟨h, fun _ => rfl, fun h => nomatch h⟩

theorem ensure_absent {d : ℕ} (s : σ) (v : ℕ) :
    ensure b alloc s (.absent : Radix ι α d) v = (s, .absent, false) := by
  cases d <;> rfl

/-- Making the tables of a key takes pages for them and changes no value. If the allocator ran out,
`Q` holds. -/
theorem ensure_spec (hb : 0 < b)
    (hsome : ∀ {s s' m i}, P s m → alloc s = (s', some i) → P s' (m + {i}))
    (hnone : ∀ {s s' m}, P s m → alloc s = (s', none) → P s' m ∧ Q s') {v : ℕ} :
    ∀ {d : ℕ} {s : σ} {t : Radix ι α d} {m : Multiset ι}, t ≠ .absent → P s (m + pages b t) →
      P (ensure b alloc s t v).1 (m + pages b (ensure b alloc s t v).2.1) ∧
      (∀ u, get b (ensure b alloc s t v).2.1 u = get b t u) ∧
      ((ensure b alloc s t v).2.2 = true → (lookup b (ensure b alloc s t v).2.1 v).isSome) ∧
      ((ensure b alloc s t v).2.2 = false → Q (ensure b alloc s t v).1)
  | d, s, .absent, m, ht, h => absurd rfl ht
  | _, s, .leaf p e, m, _, h => ⟨h, fun _ => rfl, fun _ => rfl, fun h => nomatch h⟩
  | d + 1, s, .node p e, m, _, h => by
    obtain ⟨m', h1, h2⟩ := pages_update p e (digit_lt hb (d + 1) v)
    rw [h1, ← add_assoc] at h
    obtain ⟨l1, l2, l3⟩ := link_spec hsome hnone h
    rw [ensure]
    by_cases hc : (link alloc s (e (digit b (d + 1) v))).2 = .absent
    · rw [hc] at l1 l2 ⊢
      rw [ensure_absent]
      refine ⟨?_, fun u => ?_, fun hok => absurd hok (by simp), fun _ => l3 hc⟩
      · rw [h2, ← add_assoc]
        exact l1
      · rw [get_node, get_node]
        by_cases hd : digit b (d + 1) u = digit b (d + 1) v
        · rw [hd, update_self, l2]
        · rw [update_of_ne hd]
    · obtain ⟨i1, i2, i3, i4⟩ := ensure_spec (v := v) hb hsome hnone hc l1
      refine ⟨?_, fun u => ?_, fun hok => ?_, i4⟩
      · rw [h2, ← add_assoc]
        exact i1
      · rw [get_node, get_node]
        by_cases hd : digit b (d + 1) u = digit b (d + 1) v
        · rw [hd, update_self, i2, l2]
        · rw [update_of_ne hd]
      · rw [lookup, update_self]
        exact i3 hok

theorem ensure_kept {I : σ → Prop} (hsome : ∀ {s s' i}, I s → alloc s = (s', some i) → I s')
    {v : ℕ} : ∀ {d : ℕ} {s : σ} {t : Radix ι α d}, I s → (ensure b alloc s t v).2.2 = true →
    I (ensure b alloc s t v).1
  | _, _, .absent, hs, hok => by
    rw [ensure_absent] at hok
    exact nomatch hok
  | _, _, .leaf p e, hs, _ => hs
  | d + 1, s, .node p e, hs, hok => by
    rw [ensure] at hok ⊢
    have hlink : (link alloc s (e (digit b (d + 1) v))).2 = .absent ∨
      I (link alloc s (e (digit b (d + 1) v))).1 := by
      cases e (digit b (d + 1) v) with
      | absent =>
        rw [link]
        rcases ha : alloc s with ⟨s', _ | i⟩
        · exact .inl rfl
        · exact .inr (hsome hs ha)
      | leaf | node => exact .inr hs
    rcases hlink with habsent | hlink
    · rw [habsent, ensure_absent] at hok
      exact nomatch hok
    · exact ensure_kept hsome hlink hok

theorem ensure_of_isSome {d : ℕ} {s : σ} {t : Radix ι α d} {v : ℕ} (h : (lookup b t v).isSome) :
    ensure b alloc s t v = (s, t, true) := by
  induction t with
  | absent => simp [lookup] at h
  | leaf p e => rfl
  | @node d p e ih =>
    rw [lookup] at h
    have hlink : link alloc s (e (digit b (d + 1) v)) = (s, e (digit b (d + 1) v)) := by
      cases hc : e (digit b (d + 1) v) with
      | absent => simp [hc, lookup] at h
      | leaf | node => rfl
    rw [ensure, hlink, ih _ h, update_eq_self]

theorem ensure_ne_absent {d : ℕ} {s : σ} {t : Radix ι α d} {v : ℕ} (h : t ≠ .absent) :
    (ensure b alloc s t v).2.1 ≠ .absent := by
  cases t with
  | absent => exact absurd rfl h
  | leaf | node => exact fun h => nomatch h

omit [Inhabited α] in
theorem forM_leaf (leaf : α → Except ε Unit) (e : ℕ → α) (n : ℕ)
    (h : ∀ i < n, leaf (e i) = .ok ()) : forM (List.range n) (fun i => leaf (e i)) = .ok () := by
  induction n with
  | zero => rfl
  | succ n ih =>
    rw [List.range_succ, List.forM_append, ih fun i hi => h i (by omega)]
    simp only [List.forM_cons, List.forM_nil, h n (Nat.lt_succ_self n)]
    rfl

/-- Freeing the tree gives its pages back, if no value is in the way. -/
theorem freeAll_spec (hfree : ∀ {s m i}, P s (m + {i}) → ∃ s', free s i = .ok s' ∧ P s' m) :
    ∀ {d : ℕ} {s : σ} {t : Radix ι α d} {m : Multiset ι},
      (∀ v < b ^ (d + 1), leaf (get b t v) = .ok ()) → P s (m + pages b t) →
      ∃ s', freeAll b free leaf s t = .ok s' ∧ P s' m
  | _, s, .absent, m, _, h => ⟨s, by rw [freeAll]; rfl, by rwa [pages, add_zero] at h⟩
  | _, s, .leaf p e, m, hleaf, h => by
    obtain ⟨s', hs, hP⟩ := hfree h
    refine ⟨s', ?_, hP⟩
    have hall := forM_leaf leaf e b fun i hi => by
      have hi' := hleaf i (by simpa using hi)
      rwa [get_leaf, digit, pow_zero, Nat.div_one, Nat.mod_eq_of_lt hi] at hi'
    rw [freeAll, hall]
    exact hs
  | d + 1, s, .node p e, m, hleaf, h => by
    -- the children below `n` are freed, the others still held
    have hall : ∀ n ≤ b, ∃ s', (List.range n).foldlM (fun s i => freeAll b free leaf s (e i)) s =
        .ok s' ∧ P s' (m + {p} + ∑ i ∈ Finset.Ico n b, pages b (e i)) := by
      intro n
      induction n with
      | zero =>
        intro _
        refine ⟨s, rfl, ?_⟩
        rwa [pages, Finset.range_eq_Ico, ← add_assoc] at h
      | succ n ih =>
        intro hn
        obtain ⟨s', hs, hP⟩ := ih (by omega)
        rw [Finset.sum_eq_sum_Ico_succ_bot (by omega), add_comm (pages b (e n)), ← add_assoc] at hP
        have hle : ∀ v < b ^ (d + 1), leaf (get b (e n) v) = .ok () := by
          intro v hv
          have hdiv : (n * b ^ (d + 1) + v) / b ^ (d + 1) = n := by
            rw [Nat.add_comm, Nat.add_mul_div_right _ _ (by omega), Nat.div_eq_of_lt hv, zero_add]
          have hlt : n * b ^ (d + 1) + v < b ^ (d + 2) := by
            calc n * b ^ (d + 1) + v < (n + 1) * b ^ (d + 1) := by rw [Nat.succ_mul]; omega
              _ ≤ b * b ^ (d + 1) := Nat.mul_le_mul_right _ hn
              _ = b ^ (d + 2) := (Nat.pow_succ' ..).symm
          have hl := hleaf (n * b ^ (d + 1) + v) hlt
          rw [get_node, digit, hdiv, Nat.mod_eq_of_lt (by omega)] at hl
          rw [← hl, get_congr (u := n * b ^ (d + 1) + v) (v := v) (by simp)]
        obtain ⟨s'', hs', hP'⟩ := freeAll_spec hfree hle hP
        refine ⟨s'', ?_, hP'⟩
        rw [List.range_succ, List.foldlM_append, hs]
        simp only [List.foldlM_cons, List.foldlM_nil]
        exact (congrArg (· >>= pure) hs').trans rfl
    obtain ⟨s', hs, hP⟩ := hall b le_rfl
    rw [Finset.Ico_self, Finset.sum_empty, add_zero] at hP
    obtain ⟨s'', hs', hP'⟩ := hfree hP
    refine ⟨s'', ?_, hP'⟩
    rw [freeAll, hs]
    exact hs'

end Resource

end Radix

end Lib
