import LazyXv6.Kernel.PageTable

/-!
# Page tables in memory (`walk`, `mappages`, `uvmunmap` of `vm.c`)

The same functions on physical memory: a table is a page of 512 words, an entry is a word with a
page number and ten flags, and the tree is what the entries point to. `read` gathers the tree below
a root page. In a tree that uses no page twice (`TreeWf`) a store to the word that `walk` finds is a
store to the tree (`read_setWord`), so that the functions act on the finite map `lookup`.
-/

namespace LazyXv6.Kernel

open Function Lib

/-! ## Words -/

def Kmem.word (k : Kmem) (p i : ℕ) : ℕ :=
  Nat.ofDigits 256 ((List.range 8).map fun j => (k.mem p (8 * i + j)).toNat)

def Kmem.setWord (k : Kmem) (p i w : ℕ) : Kmem := k.write p (8 * i) (le64 w)

def pa2pte (pa : ℕ) : ℕ := pa >>> 12 <<< 10

def pte2pa (pte : ℕ) : ℕ := (pte >>> 10 <<< 12) % 2 ^ 64

def pteFlags (pte : ℕ) : ℕ := pte &&& 0x3ff

def pteValid (pte : ℕ) : Bool := pte &&& 1 != 0

def px (level va : ℕ) : ℕ := va >>> (12 + 9 * level) &&& 0x1ff

@[irreducible] def tableLen : ℕ := 512

theorem tableLen_eq : tableLen = 512 := by
  unfold tableLen
  rfl

section Words

variable {k k' : Kmem} {p q i j w pa perm va : ℕ}

theorem Kmem.word_congr (h : k'.mem p = k.mem p) : k'.word p i = k.word p i := by
  unfold word
  rw [h]

theorem Kmem.word_setWord (hw : w < 2 ^ 64) : (k.setWord p i w).word p i = w := by
  have hbyte : ∀ j < 8, (k.setWord p i w).mem p (8 * i + j) = UInt8.ofNat (w / 256 ^ j) := by
    intro j hj
    unfold setWord
    rw [write_mem_self]
    unfold overwrite le64
    rw [if_pos (by omega), Nat.add_sub_cancel_left]
    simp [hj]
  unfold word
  rw [List.map_congr_left fun j hj => by rw [hbyte j (List.mem_range.mp hj)]]
  simp only [List.range, List.range.loop, List.map_cons, List.map_nil, Nat.ofDigits_cons,
    Nat.ofDigits_nil, UInt8.toNat_ofNat']
  omega

theorem Kmem.word_setWord_of_ne (h : q ≠ p ∨ j ≠ i) : (k.setWord p i w).word q j = k.word q j := by
  unfold word setWord
  refine congrArg _ (List.map_congr_left fun l hl => ?_)
  rw [List.mem_range] at hl
  by_cases hq : q = p
  · subst hq
    have hj := h.resolve_left (not_not.mpr rfl)
    rw [write_mem_self]
    rcases Nat.lt_or_gt_of_ne hj with hlt | hgt
    · rw [overwrite_of_lt (by omega)]
    · have hlen : (le64 w).length = 8 := rfl
      rw [overwrite_of_ge (by omega)]
  · rw [write_mem_of_ne hq]

theorem Kmem.word_of_zero (h : k.mem p = fun _ => 0) : k.word p i = 0 := by
  unfold word
  rw [h]
  simp [List.range, List.range.loop, Nat.ofDigits_cons]

theorem Kmem.word_memset_zero : (k.memset p 0).word p i = 0 :=
  word_of_zero (update_self ..)

theorem pa2pte_or (hperm : perm < 1024) :
    pa2pte pa ||| perm ||| 1 = pa / 4096 * 1024 + (perm ||| 1) := by
  have hlt : perm ||| 1 < 2 ^ 10 := Nat.or_lt_two_pow hperm (by decide)
  unfold pa2pte
  rw [Nat.or_assoc, ← Nat.shiftLeft_add_eq_or_of_lt hlt, Nat.shiftLeft_eq,
    Nat.shiftRight_eq_div_pow]

theorem pteFlags_eq (w : ℕ) : pteFlags w = w % 1024 := Nat.and_two_pow_sub_one_eq_mod w 10

theorem pteFlags_entry (hperm : perm < 1024) :
    pteFlags (pa2pte pa ||| perm ||| 1) = perm ||| 1 := by
  have hlt : perm ||| 1 < 2 ^ 10 := Nat.or_lt_two_pow hperm (by decide)
  rw [pa2pte_or hperm, pteFlags_eq]
  omega

theorem pte2pa_entry (hperm : perm < 1024) (hpa : pa < 2 ^ 64) (hal : pa % 4096 = 0) :
    pte2pa (pa2pte pa ||| perm ||| 1) = pa := by
  have hlt : perm ||| 1 < 2 ^ 10 := Nat.or_lt_two_pow hperm (by decide)
  rw [pa2pte_or hperm]
  unfold pte2pa
  rw [Nat.shiftLeft_eq, Nat.shiftRight_eq_div_pow]
  omega

theorem entry_lt (hperm : perm < 1024) (hpa : pa < 2 ^ 64) : pa2pte pa ||| perm ||| 1 < 2 ^ 64 := by
  have hlt : perm ||| 1 < 2 ^ 10 := Nat.or_lt_two_pow hperm (by decide)
  rw [pa2pte_or hperm]
  omega

theorem pteValid_eq (w : ℕ) : pteValid w = decide (w % 2 = 1) := by
  unfold pteValid
  rw [Nat.and_one_is_mod]
  rcases Nat.mod_two_eq_zero_or_one w with h | h <;> rw [h] <;> rfl

theorem pteValid_entry : pteValid (pa2pte pa ||| perm ||| 1) = true := by
  rw [pteValid_eq, decide_eq_true_eq, Nat.mod_two_eq_one_iff_testBit_zero, Nat.testBit_or]
  simp

theorem px_eq (l va : ℕ) : px l va = Radix.digit tableLen l (va / pgSize) := by
  unfold px Radix.digit
  rw [tableLen_eq, Nat.and_two_pow_sub_one_eq_mod _ 9, Nat.shiftRight_eq_div_pow, pow_add, pow_mul,
    ← Nat.div_div_eq_div_mul]
  rfl

theorem px_lt (l va : ℕ) : px l va < tableLen := by
  rw [px_eq]
  exact Radix.digit_lt (by rw [tableLen_eq]; decide) ..

end Words

namespace InMemory

/-! ## The functions -/

/-- The loop of `walk` at a level above the leaves; a result is the place of an entry. -/
def walkLoop (va : ℕ) (alloc : Bool) : ℕ → Kmem → ℕ → Kmem × Option (ℕ × ℕ)
  | 0, k, p => (k, some (p, px 0 va))
  | level + 1, k, p =>
    let pte := k.word p (px (level + 1) va)
    if pteValid pte then walkLoop va alloc level k (pte2pa pte / pgSize)
    else if !alloc then (k, none)
    else
      match kalloc k with
      | (k, none) => (k, none)
      | (k, some q) =>
        walkLoop va alloc level ((k.memset q 0).setWord p (px (level + 1) va)
          (pa2pte (q * pgSize) ||| 1)) q

/-- `walk`, for the table in page `root`; `none` if it returns 0. -/
def walk (k : Kmem) (root va : ℕ) (alloc : Bool) : Except Panic (Kmem × Option (ℕ × ℕ)) :=
  if maxPage * pgSize ≤ va then .error .walk else .ok (walkLoop va alloc 2 k root)

/-- The leaf entry that `walk` reaches, zero where there is no table for it. -/
def lookup (k : Kmem) (root va : ℕ) : ℕ :=
  match (walkLoop va false 2 k root).2 with
  | none => 0
  | some slot => k.word slot.1 slot.2

def mappagesLoop (root perm : ℕ) : ℕ → Kmem → ℕ → ℕ → Except Panic (Kmem × Bool)
  | 0, k, _, _ => .ok (k, true)
  | n + 1, k, a, pa => do
    let r ← walk k root a true
    match r.2 with
    | none => .ok (r.1, false)
    | some slot =>
      if pteValid (r.1.word slot.1 slot.2) then .error .mappagesRemap
      else
        mappagesLoop root perm n (r.1.setWord slot.1 slot.2 (pa2pte pa ||| perm ||| 1))
          (a + pgSize) ((pa + pgSize) % 2 ^ 64)

def pgRoundDown (a : ℕ) : ℕ := a / pgSize * pgSize

/-- `mappages`; the flag is false if it returns -1. The loop ends at `last`, if need be by wrapping
around. -/
def mappages (k : Kmem) (root va size pa perm : ℕ) : Except Panic (Kmem × Bool) :=
  if size = 0 then .error .mappagesSize
  else
    let a := pgRoundDown va
    let last := pgRoundDown ((va + size - 1) % 2 ^ 64)
    mappagesLoop root perm ((last + 2 ^ 64 - a) % 2 ^ 64 / pgSize + 1) k a pa

section Unmap

variable [Layout]

def uvmunmapLoop (root : ℕ) (doFree : Bool) : ℕ → Kmem → ℕ → Except Panic Kmem
  | 0, k, _ => .ok k
  | n + 1, k, a => do
    let r ← walk k root a false
    match r.2 with
    | none => .error .uvmunmapWalk
    | some slot =>
      let pte := k.word slot.1 slot.2
      if !pteValid pte then .error .uvmunmapNotMapped
      else if pteFlags pte = 1 then .error .uvmunmapNotALeaf
      else do
        let k ← (if doFree then kfree k (pte2pa pte / pgSize) else .ok k)
        uvmunmapLoop root doFree n (k.setWord slot.1 slot.2 0) (a + pgSize)

/-- `uvmunmap`. The bound `va + npages*PGSIZE` of its loop wraps. -/
def uvmunmap (k : Kmem) (root va npages : ℕ) (doFree : Bool) : Except Panic Kmem :=
  if va % pgSize ≠ 0 then .error .uvmunmapNotAligned
  else uvmunmapLoop root doFree (((va + npages * pgSize) % 2 ^ 64 - va) / pgSize) k va

end Unmap

/-! ## The tree in memory -/

/-- The tree of tables below page `p`. -/
def read (k : Kmem) : (level : ℕ) → ℕ → Radix ℕ ℕ level
  | 0, p => .leaf p (k.word p)
  | level + 1, p => .node p fun i =>
    if i < tableLen ∧ pteValid (k.word p i) then read k level (pte2pa (k.word p i) / pgSize)
    else .absent

def tables (k : Kmem) (level p : ℕ) : Multiset ℕ := Radix.pages tableLen (read k level p)

variable {k k' : Kmem} {l p q i w va : ℕ}

def child (k : Kmem) (l p i : ℕ) : Radix ℕ ℕ l :=
  if i < tableLen ∧ pteValid (k.word p i) then read k l (pte2pa (k.word p i) / pgSize) else .absent

theorem read_succ (k : Kmem) (l p : ℕ) : read k (l + 1) p = .node p (child k l p) := rfl

theorem child_of_valid (hi : i < tableLen) (hv : pteValid (k.word p i) = true) :
    child k l p i = read k l (pte2pa (k.word p i) / pgSize) := if_pos ⟨hi, hv⟩

theorem child_of_invalid (hv : ¬pteValid (k.word p i) = true) : child k l p i = .absent :=
  if_neg fun h => hv h.2

theorem tables_eq (k : Kmem) (l p : ℕ) :
    tables k (l + 1) p = Radix.pages tableLen (.node p (child k l p)) := by
  unfold tables
  rw [read_succ]

theorem mem_tables_self (k : Kmem) (l p : ℕ) : p ∈ tables k l p := by
  cases l with
  | zero =>
    unfold tables read
    rw [Radix.pages]
    exact Multiset.mem_singleton_self p
  | succ l =>
    rw [tables_eq]
    exact Radix.mem_pages_node p _

theorem child_of_ge (hi : ¬i < tableLen) : child k l p i = .absent := if_neg fun h => hi h.1

theorem not_mem_absent {d : ℕ} : q ∉ Radix.pages tableLen (.absent : Radix ℕ ℕ d) := by
  rw [Radix.pages]
  exact Multiset.notMem_zero q

theorem mem_tables_child (h : q ∈ Radix.pages tableLen (child k l p i)) :
    q ∈ tables k (l + 1) p := by
  rw [tables_eq]
  by_cases hi : i < tableLen
  · exact Radix.mem_pages_child hi h
  · rw [child_of_ge hi] at h
    exact absurd h not_mem_absent

theorem tables_succ (k : Kmem) (l p : ℕ) (hi : i < tableLen) :
    ∃ m, p ∈ m ∧ tables k (l + 1) p = m + Radix.pages tableLen (child k l p i) ∧
      (∀ c, Radix.pages tableLen (.node p (update (child k l p) i c)) = m + Radix.pages tableLen c) ∧
      ∀ j, j ≠ i → ∀ q ∈ Radix.pages tableLen (child k l p j), q ∈ m := by
  rw [tables_eq]
  obtain ⟨m, h1, h2⟩ := Radix.pages_update p (child k l p) hi
  obtain ⟨hp, hother⟩ := Radix.mem_of_pages_update h2
  refine ⟨m, hp, h1, h2, fun j hj q hq => ?_⟩
  by_cases hj' : j < tableLen
  · exact hother j hj' hj q hq
  · rw [child_of_ge hj'] at hq
    exact absurd hq not_mem_absent

theorem read_congr (h : ∀ q ∈ tables k l p, k'.mem q = k.mem q) : read k' l p = read k l p := by
  induction l generalizing p with
  | zero =>
    have hp : k'.mem p = k.mem p := h p (mem_tables_self k 0 p)
    unfold read
    exact congrArg _ (funext fun i => Kmem.word_congr hp)
  | succ l ih =>
    have hp : k'.mem p = k.mem p := h p (mem_tables_self k (l + 1) p)
    rw [read_succ, read_succ]
    refine congrArg _ (funext fun i => ?_)
    unfold child
    rw [Kmem.word_congr hp]
    by_cases hi : i < tableLen ∧ pteValid (k.word p i)
    · rw [if_pos hi, if_pos hi]
      refine ih fun q hq => h q (mem_tables_child (i := i) ?_)
      rw [child_of_valid hi.1 hi.2]
      exact hq
    · rw [if_neg hi, if_neg hi]

theorem child_congr (hw : k'.word p i = k.word p i)
    (h : ∀ q ∈ Radix.pages tableLen (child k l p i), k'.mem q = k.mem q) :
    child k' l p i = child k l p i := by
  unfold child
  rw [hw]
  by_cases hi : i < tableLen ∧ pteValid (k.word p i)
  · rw [if_pos hi, if_pos hi]
    rw [child_of_valid hi.1 hi.2] at h
    exact read_congr h
  · rw [if_neg hi, if_neg hi]

/-! ## `walk` without allocation -/

theorem walkLoop_false (k : Kmem) (l p va : ℕ) : (walkLoop va false l k p).1 = k ∧
      (walkLoop va false l k p).2.map (fun slot => k.word slot.1 slot.2) =
        Radix.lookup tableLen (read k l p) (va / pgSize) ∧
      ∀ slot, (walkLoop va false l k p).2 = some slot → slot.1 ∈ tables k l p := by
  induction l generalizing p with
  | zero =>
    refine ⟨rfl, ?_, fun slot h => ?_⟩
    · rw [walkLoop, read, Radix.lookup, Option.map_some, px_eq]
    · obtain rfl : (p, px 0 va) = slot := Option.some.inj h
      exact mem_tables_self k 0 p
  | succ l ih =>
    rw [walkLoop, read_succ, Radix.lookup, ← px_eq]
    by_cases hv : pteValid (k.word p (px (l + 1) va)) = true
    · have hc := child_of_valid (l := l) (px_lt (l + 1) va) hv
      simp only [if_pos hv]
      rw [hc]
      obtain ⟨h1, h2, h3⟩ := ih (pte2pa (k.word p (px (l + 1) va)) / pgSize)
      refine ⟨h1, h2, fun slot hs => mem_tables_child (i := px (l + 1) va) ?_⟩
      rw [hc]
      exact h3 slot hs
    · rw [child_of_invalid hv]
      simp only [if_neg hv]
      exact ⟨rfl, by rw [Radix.lookup]; rfl, by simp⟩

theorem lookup_eq (k : Kmem) (root va : ℕ) :
    lookup k root va = Radix.get tableLen (read k 2 root) (va / pgSize) := by
  unfold lookup Radix.get
  rw [← (walkLoop_false k 2 root va).2.1]
  rcases (walkLoop va false 2 k root).2 with _ | slot <;> rfl

/-! ## Changing an entry -/

theorem not_mem_child (hnd : (tables k (l + 1) p).Nodup) (i : ℕ) :
    p ∉ Radix.pages tableLen (child k l p i) := by
  by_cases hi : i < tableLen
  · obtain ⟨m, hp, hm, _⟩ := tables_succ k l p hi
    rw [hm, Multiset.nodup_add] at hnd
    exact fun h => Multiset.disjoint_left.mp hnd.2.2 hp h
  · rw [child_of_ge hi]
    exact not_mem_absent

theorem read_setWord {slot : ℕ × ℕ} (hnd : (tables k l p).Nodup)
    (hs : (walkLoop va false l k p).2 = some slot) (hw : w < 2 ^ 64) :
    read (k.setWord slot.1 slot.2 w) l p = Radix.store tableLen (read k l p) (va / pgSize) w := by
  induction l generalizing p with
  | zero =>
    obtain rfl : (p, px 0 va) = slot := Option.some.inj hs
    unfold read
    rw [Radix.store, ← px_eq]
    refine congrArg _ (funext fun i => ?_)
    by_cases hi : i = px 0 va
    · rw [hi, update_self, Kmem.word_setWord hw]
    · rw [update_of_ne hi, Kmem.word_setWord_of_ne (.inr hi)]
  | succ l ih =>
    rw [walkLoop] at hs
    by_cases hv : pteValid (k.word p (px (l + 1) va)) = true
    swap
    · simp only [if_neg hv] at hs
      cases hs
    simp only [if_pos hv] at hs
    have hc := child_of_valid (l := l) (px_lt (l + 1) va) hv
    obtain ⟨m, hp, hm, _, hother⟩ := tables_succ k l p (px_lt (l + 1) va)
    have hdisj : (tables k l (pte2pa (k.word p (px (l + 1) va)) / pgSize)).Nodup ∧
      ∀ q ∈ m, q ≠ slot.1 := by
      rw [hm, hc, Multiset.nodup_add] at hnd
      refine ⟨hnd.2.1, fun q hq he => ?_⟩
      exact Multiset.disjoint_left.mp hnd.2.2 hq (he ▸ (walkLoop_false k l _ va).2.2 slot hs)
    have hword : ∀ j, (k.setWord slot.1 slot.2 w).word p j = k.word p j := fun j =>
      Kmem.word_setWord_of_ne (.inl (hdisj.2 p hp))
    rw [read_succ, read_succ, Radix.store, ← px_eq]
    refine congrArg _ (funext fun j => ?_)
    by_cases hj : j = px (l + 1) va
    · subst hj
      rw [update_self, hc, child_of_valid (px_lt (l + 1) va) (by rw [hword]; exact hv), hword]
      exact ih hdisj.1 hs
    · rw [update_of_ne hj]
      exact child_congr (hword j) fun q hq =>
        Kmem.write_mem_of_ne (hdisj.2 q (hother j hj q hq))

theorem read_zeroed (h : ∀ i, k.word q i = 0) (l : ℕ) : read k l q = Radix.zeroed l q := by
  cases l with
  | zero =>
    unfold read Radix.zeroed
    exact congrArg _ (funext h)
  | succ l =>
    rw [read_succ]
    unfold Radix.zeroed
    refine congrArg _ (funext fun i => child_of_invalid ?_)
    rw [h i]
    decide

/-! ## `walk` with allocation -/

/-- `k'` comes from `k` by adding tables, taken off the free list, below page `p`. -/
structure Extends (l p : ℕ) (k k' : Kmem) : Prop where
  tables : tables k' l p + (k'.freelist : Multiset ℕ) = tables k l p + (k.freelist : Multiset ℕ)
  get : ∀ v, Radix.get tableLen (read k' l p) v = Radix.get tableLen (read k l p) v
  mem : ∀ q, q ∉ InMemory.tables k l p → q ∉ k.freelist → k'.mem q = k.mem q
  free : ∀ q ∈ k'.freelist, q ∈ k.freelist ∧ k'.referenceCounter q = k.referenceCounter q

theorem Extends.refl (l p : ℕ) (k : Kmem) : Extends l p k k :=
  ⟨rfl, fun _ => rfl, fun _ _ _ => rfl, fun _ hq => ⟨hq, rfl⟩⟩

theorem Extends.trans {k'' : Kmem} (h : Extends l p k k') (h' : Extends l p k' k'') :
    Extends l p k k'' where
  tables := h'.tables.trans h.tables
  get v := (h'.get v).trans (h.get v)
  mem q hq hf := by
    have hnot : q ∉ InMemory.tables k' l p + (k'.freelist : Multiset ℕ) := by
      rw [h.tables, Multiset.mem_add, not_or]
      exact ⟨hq, hf⟩
    rw [Multiset.mem_add, not_or] at hnot
    rw [h'.mem q hnot.1 hnot.2, h.mem q hq hf]
  free q hq := by
    obtain ⟨h1, h2⟩ := h'.free q hq
    exact ⟨(h.free q h1).1, h2.trans (h.free q h1).2⟩

theorem Extends.lift (hi : i < tableLen) (hv : pteValid (k.word p i) = true)
    (hnd : (InMemory.tables k (l + 1) p + (k.freelist : Multiset ℕ)).Nodup)
    (h : Extends l (pte2pa (k.word p i) / pgSize) k k') :
    Extends (l + 1) p k k' ∧ k'.word p i = k.word p i := by
  have hc := child_of_valid (l := l) hi hv
  obtain ⟨m, hp, hm, hm', hother⟩ := tables_succ k l p hi
  rw [hc] at hm
  have hm2 : InMemory.tables k (l + 1) p = m + InMemory.tables k l (pte2pa (k.word p i) / pgSize) :=
    hm
  rw [hm2, add_assoc, Multiset.nodup_add] at hnd
  have hsame : ∀ q ∈ m, k'.mem q = k.mem q := by
    intro q hq
    have hnot := Multiset.disjoint_left.mp hnd.2.2 hq
    rw [Multiset.mem_add, not_or] at hnot
    exact h.mem q hnot.1 hnot.2
  have hword : ∀ j, k'.word p j = k.word p j := fun j => Kmem.word_congr (hsame p hp)
  have hread : read k' (l + 1) p =
    .node p (update (child k l p) i (read k' l (pte2pa (k.word p i) / pgSize))) := by
    rw [read_succ]
    refine congrArg _ (funext fun j => ?_)
    by_cases hj : j = i
    · subst hj
      rw [update_self, child_of_valid hi (by rw [hword]; exact hv), hword]
    · rw [update_of_ne hj]
      exact child_congr (hword j) fun q hq => hsame q (hother j hj q hq)
  have htables : InMemory.tables k' (l + 1) p =
    m + InMemory.tables k' l (pte2pa (k.word p i) / pgSize) := by
    unfold InMemory.tables
    rw [hread, hm']
  refine ⟨⟨?_, fun v => ?_, fun q hq hf => ?_, h.free⟩, hword i⟩
  · rw [htables, hm2, add_assoc, h.tables, add_assoc]
  · rw [hread, read_succ, Radix.get_node, Radix.get_node]
    by_cases hd : Radix.digit tableLen (l + 1) v = i
    · rw [hd, update_self, hc, h.get]
    · rw [update_of_ne hd]
  · refine h.mem q (fun hq' => hq ?_) hf
    rw [hm2]
    exact Multiset.mem_add.mpr (.inr hq')

theorem table_entry (hq : q < 2 ^ 52) : pteValid (pa2pte (q * pgSize) ||| 1) = true ∧
      pte2pa (pa2pte (q * pgSize) ||| 1) / pgSize = q ∧ pa2pte (q * pgSize) ||| 1 < 2 ^ 64 := by
  have hlt : q * pgSize < 2 ^ 64 := by
    unfold pgSize
    omega
  have hor : pa2pte (q * pgSize) ||| 1 = pa2pte (q * pgSize) ||| 0 ||| 1 := by rw [Nat.or_zero]
  rw [hor, pte2pa_entry (by decide) hlt (Nat.mul_mod_left q 4096)]
  exact ⟨pteValid_entry, Nat.mul_div_cancel q (by decide), entry_lt (by decide) hlt⟩

theorem extends_link {k₁ : Kmem} (hi : i < tableLen) (hv : ¬pteValid (k.word p i) = true)
    (hnd : (tables k (l + 1) p + (k.freelist : Multiset ℕ)).Nodup)
    (hq : q < 2 ^ 52) (hk : kalloc k = (k₁, some q)) :
    Extends (l + 1) p k ((k₁.memset q 0).setWord p i (pa2pte (q * pgSize) ||| 1)) ∧
      ((k₁.memset q 0).setWord p i (pa2pte (q * pgSize) ||| 1)).word p i =
      pa2pte (q * pgSize) ||| 1 := by
  obtain ⟨hvalid, htarget, hlt⟩ := table_entry hq
  obtain ⟨rest, hfree, hk₁⟩ : ∃ rest, k.freelist = q :: rest ∧ k₁ = { (k.memset q 5) with
      freelist := rest, referenceCounter := update k.referenceCounter q 1 } := by
    unfold kalloc at hk
    split at hk
    · simp at hk
    · next r rest hl =>
      obtain ⟨rfl, rfl⟩ : _ ∧ r = q := by simpa using hk
      exact ⟨rest, hl, rfl⟩
  rw [hfree] at hnd
  obtain ⟨m, hp, hm, hm', hother⟩ := tables_succ k l p hi
  rw [child_of_invalid hv, Radix.pages, add_zero] at hm
  rw [hm, Multiset.nodup_add] at hnd
  obtain ⟨_, hrest, hdisj⟩ := hnd
  have hqm : q ∉ m := fun h => Multiset.disjoint_left.mp hdisj h (List.mem_cons_self ..)
  have hpq : p ≠ q := fun he => hqm (he ▸ hp)
  have hword := Kmem.word_setWord (k := k₁.memset q 0) (p := p) (i := i) hlt
  generalize hk₂ : (k₁.memset q 0).setWord p i (pa2pte (q * pgSize) ||| 1) = k₂ at hword ⊢
  have hmem : ∀ a, a ≠ q → a ≠ p → k₂.mem a = k.mem a := by
    intro a haq hap
    rw [← hk₂, hk₁]
    unfold Kmem.setWord
    rw [Kmem.write_mem_of_ne hap]
    show update (update k.mem q _) q _ a = _
    rw [update_of_ne haq, update_of_ne haq]
  have hwords : ∀ j, j ≠ i → k₂.word p j = k.word p j := by
    intro j hj
    rw [← hk₂, Kmem.word_setWord_of_ne (.inr hj)]
    refine Kmem.word_congr ?_
    rw [hk₁]
    show update (update k.mem q _) q _ p = _
    rw [update_of_ne hpq, update_of_ne hpq]
  have hzero : ∀ j, k₂.word q j = 0 := by
    intro j
    rw [← hk₂, Kmem.word_setWord_of_ne (.inl (Ne.symm hpq)), Kmem.word_memset_zero]
  have hlist : k₂.freelist = rest := by
    rw [← hk₂, hk₁]
    rfl
  have hcount : k₂.referenceCounter = update k.referenceCounter q 1 := by
    rw [← hk₂, hk₁]
    rfl
  have hnd' : (tables k (l + 1) p).Nodup := by
    rw [hm]
    assumption
  have hread : read k₂ (l + 1) p = .node p (update (child k l p) i (Radix.zeroed l q)) := by
    rw [read_succ]
    refine congrArg _ (funext fun j => ?_)
    by_cases hj : j = i
    · subst hj
      rw [update_self, child_of_valid hi (by rw [hword]; exact hvalid), hword, htarget,
        read_zeroed hzero]
    · rw [update_of_ne hj]
      refine child_congr (hwords j hj) fun a ha => hmem a ?_ ?_
      · rintro rfl
        exact hqm (hother j hj a ha)
      · rintro rfl
        exact not_mem_child hnd' j ha
  refine ⟨⟨?_, fun v => ?_, fun a ha hf => hmem a ?_ ?_, fun a ha => ?_⟩, hword⟩
  · unfold InMemory.tables at hm ⊢
    rw [hread, hm', Radix.pages_zeroed, hlist, hm, hfree, add_assoc]
    rfl
  · rw [hread, read_succ, Radix.get_node, Radix.get_node]
    by_cases hd : Radix.digit tableLen (l + 1) v = i
    · rw [hd, update_self, child_of_invalid hv, Radix.get_zeroed, Radix.get_absent]
    · rw [update_of_ne hd]
  · rintro rfl
    rw [hfree] at hf
    exact hf (List.mem_cons_self ..)
  · rintro rfl
    exact ha (mem_tables_self k (l + 1) a)
  · rw [hlist] at ha
    have hne : a ≠ q := by
      rintro rfl
      exact (List.nodup_cons.mp hrest).1 ha
    rw [hfree, hcount, update_of_ne hne]
    exact ⟨List.mem_cons_of_mem q ha, rfl⟩

/-- **`walk` with allocation** adds tables to the tree and changes no entry. -/
theorem walkLoop_true (va : ℕ) (hnd : (tables k l p + (k.freelist : Multiset ℕ)).Nodup)
    (hlt : ∀ q ∈ k.freelist, q < 2 ^ 52) :
    Extends l p k (walkLoop va true l k p).1 ∧ ∀ slot, (walkLoop va true l k p).2 = some slot →
        (walkLoop va false l (walkLoop va true l k p).1 p).2 = some slot := by
  induction l generalizing k p with
  | zero => exact ⟨Extends.refl 0 p k, fun slot h => h⟩
  | succ l ih =>
    -- below an entry with a table
    have hbelow : ∀ {k₁ : Kmem}, Extends (l + 1) p k k₁ → pteValid (k₁.word p (px (l + 1) va)) = true →
        let r := walkLoop va true l k₁ (pte2pa (k₁.word p (px (l + 1) va)) / pgSize)
        Extends (l + 1) p k r.1 ∧ ∀ slot, r.2 = some slot →
        (walkLoop va false (l + 1) r.1 p).2 = some slot := by
      intro k₁ h₁ hv₁ r
      have hnd₁ : (tables k₁ (l + 1) p + (k₁.freelist : Multiset ℕ)).Nodup := by
        rw [h₁.tables]
        exact hnd
      have hsub : (tables k₁ l (pte2pa (k₁.word p (px (l + 1) va)) / pgSize) +
        (k₁.freelist : Multiset ℕ)).Nodup := by
        obtain ⟨m, _, hm, _⟩ := tables_succ k₁ l p (px_lt (l + 1) va)
        rw [child_of_valid (px_lt (l + 1) va) hv₁] at hm
        rw [hm, add_assoc, Multiset.nodup_add] at hnd₁
        exact hnd₁.2.1
      obtain ⟨hext, hslot⟩ := ih hsub fun q hq => hlt q (h₁.free q hq).1
      obtain ⟨hlift, hsame⟩ := hext.lift (px_lt (l + 1) va) hv₁ hnd₁
      refine ⟨h₁.trans hlift, fun slot hs => ?_⟩
      rw [walkLoop]
      simp only [show r.1.word p (px (l + 1) va) = k₁.word p (px (l + 1) va) from hsame, if_pos hv₁]
      exact hslot slot hs
    rw [walkLoop]
    by_cases hv : pteValid (k.word p (px (l + 1) va)) = true
    · simp only [if_pos hv]
      exact hbelow (Extends.refl (l + 1) p k) hv
    · simp only [if_neg hv, Bool.not_true, Bool.false_eq_true, if_false]
      rcases hk : kalloc k with ⟨k₁, _ | q⟩
      · refine ⟨?_, nofun⟩
        obtain rfl : { k with failures := k.failures + 1 } = k₁ := by
          unfold kalloc at hk
          split at hk
          · simpa using hk
          · simp at hk
        have hread : read { k with failures := k.failures + 1 } (l + 1) p = read k (l + 1) p :=
          read_congr fun _ _ => rfl
        refine ⟨?_, fun v => by rw [hread], fun _ _ _ => rfl, fun _ h => ⟨h, rfl⟩⟩
        unfold InMemory.tables
        rw [hread]
      · have hmem : q ∈ k.freelist := by
          unfold kalloc at hk
          split at hk
          · simp at hk
          · next r rest hl =>
            obtain ⟨_, rfl⟩ : _ ∧ r = q := by simpa using hk
            rw [hl]
            exact List.mem_cons_self ..
        obtain ⟨hlink, hword⟩ := extends_link (px_lt (l + 1) va) hv hnd (hlt q hmem) hk
        obtain ⟨hvalid, htarget, _⟩ := table_entry (hlt q hmem)
        have hres := hbelow hlink (by rw [hword]; exact hvalid)
        simp only [hword, htarget] at hres
        exact hres

/-! ## Well-formed trees -/

/-- The tree below `root` uses no page twice and none that is free, so that `kalloc` returns pages
outside of it; free pages are counted as free. -/
structure TreeWf (k : Kmem) (root : ℕ) : Prop where
  nodup : (tables k 2 root + (k.freelist : Multiset ℕ)).Nodup
  free : ∀ q ∈ k.freelist, q < 2 ^ 52 ∧ k.referenceCounter q ≤ 0

def entry (k : Kmem) (root v : ℕ) : ℕ := Radix.get tableLen (read k 2 root) v

variable {root a n v pa perm : ℕ}

theorem lookup_eq_entry (k : Kmem) (root va : ℕ) :
    lookup k root va = entry k root (va / pgSize) := lookup_eq k root va

theorem TreeWf.extends (h : TreeWf k root) (he : Extends 2 root k k') : TreeWf k' root where
  nodup := by
    rw [he.tables]
    exact h.nodup
  free q hq := by
    obtain ⟨h1, h2⟩ := he.free q hq
    rw [h2]
    exact h.free q h1

theorem eq_of_mod_tableLen {u : ℕ} (hu : u < maxPage) (hv : v < maxPage) :
    u % tableLen ^ (2 + 1) = v % tableLen ^ (2 + 1) ↔ u = v := by
  have hmax := maxPage_lt
  rw [tableLen_eq, Nat.mod_eq_of_lt (hu.trans hmax), Nat.mod_eq_of_lt (hv.trans hmax)]

theorem TreeWf.setWord {slot : ℕ × ℕ} (va : ℕ) (h : TreeWf k root) (hva : va / pgSize < maxPage)
    (hs : (walkLoop va false 2 k root).2 = some slot) (hw : w < 2 ^ 64) :
    TreeWf (k.setWord slot.1 slot.2 w) root ∧
      tables (k.setWord slot.1 slot.2 w) 2 root = tables k 2 root ∧
      k.word slot.1 slot.2 = entry k root (va / pgSize) ∧
      ∀ u < maxPage, entry (k.setWord slot.1 slot.2 w) root u =
        if u = va / pgSize then w else entry k root u := by
  have hnd := (Multiset.nodup_add.mp h.nodup).1
  have hread := read_setWord hnd hs hw
  have hlook := (walkLoop_false k 2 root va).2.1
  rw [hs, Option.map_some] at hlook
  have htables : tables (k.setWord slot.1 slot.2 w) 2 root = tables k 2 root := by
    unfold tables
    rw [hread, Radix.pages_store (by rw [tableLen_eq]; decide)]
  refine ⟨⟨?_, h.free⟩, htables, (Radix.get_eq_of_lookup hlook.symm).symm, fun u hu => ?_⟩
  · rw [htables]
    exact h.nodup
  · unfold entry
    rw [hread, Radix.get_store (by rw [← hlook]; rfl)]
    exact if_congr (eq_of_mod_tableLen hu hva) rfl rfl

/-! ## `mappages` -/

theorem div_pgSize_lt (h : ¬maxPage * pgSize ≤ a) : a / pgSize < maxPage :=
  Nat.div_lt_of_lt_mul (by rw [Nat.mul_comm]; omega)

theorem mappagesLoop_spec {ok : Bool} (h : TreeWf k root) (hperm : perm < 1024)
    (hpa : pa < 2 ^ 64) (hal : pa % pgSize = 0)
    (he : mappagesLoop root perm n k (v * pgSize) pa = .ok (k', ok)) :
    TreeWf k' root ∧ (∀ u < maxPage, u < v ∨ v + n ≤ u → entry k' root u = entry k root u) ∧
      (ok = true → ∀ i < n, v + i < maxPage ∧
        entry k' root (v + i) = pa2pte ((pa + i * pgSize) % 2 ^ 64) ||| perm ||| 1) := by
  induction n generalizing k v pa with
  | zero =>
    obtain ⟨rfl, rfl⟩ : k = k' ∧ true = ok := by simpa [mappagesLoop] using he
    exact ⟨h, fun _ _ _ => rfl, fun _ i hi => absurd hi (Nat.not_lt_zero i)⟩
  | succ n ih =>
    rw [mappagesLoop] at he
    unfold walk at he
    by_cases hmax : maxPage * pgSize ≤ v * pgSize
    · rw [if_pos hmax] at he
      exact nomatch he
    have hv : v < maxPage := by
      have := div_pgSize_lt hmax
      rwa [Nat.mul_div_cancel v (by decide)] at this
    rw [if_neg hmax, ok_bind] at he
    obtain ⟨hext, hslot⟩ := walkLoop_true (v * pgSize) h.nodup fun q hq => (h.free q hq).1
    have h₁ := h.extends hext
    generalize walkLoop (v * pgSize) true 2 k root = r at he hext hslot h₁
    obtain ⟨k₁, _ | slot⟩ := r
    · obtain ⟨rfl, rfl⟩ : k₁ = k' ∧ false = ok := by simpa using he
      exact ⟨h₁, fun u _ _ => hext.get u, nofun⟩
    simp only at he
    by_cases hvalid : pteValid (k₁.word slot.1 slot.2) = true
    · rw [if_pos hvalid] at he
      exact nomatch he
    rw [if_neg hvalid] at he
    have hdiv : v * pgSize / pgSize = v := Nat.mul_div_cancel v (by decide)
    obtain ⟨h₂, _, _, hentry⟩ := h₁.setWord (v * pgSize) (by rw [hdiv]; exact hv)
      (hslot slot rfl) (entry_lt hperm hpa)
    rw [hdiv] at hentry
    have hnext : v * pgSize + pgSize = (v + 1) * pgSize := by rw [Nat.succ_mul]
    rw [hnext] at he
    obtain ⟨h', hother, hmapped⟩ :=
      ih h₂ (Nat.mod_lt _ (by decide)) (by unfold pgSize at hal ⊢; omega) he
    refine ⟨h', fun u hu hout => ?_, fun hok i hi => ?_⟩
    · rw [hother u hu (by omega), hentry u hu, if_neg (by omega)]
      exact hext.get u
    · cases i with
      | zero =>
        refine ⟨hv, ?_⟩
        rw [Nat.add_zero, hother v hv (.inl (Nat.lt_succ_self v)), hentry v hv, if_pos rfl,
          Nat.zero_mul, Nat.add_zero, Nat.mod_eq_of_lt hpa]
      | succ i =>
        obtain ⟨hlt, hi'⟩ := hmapped hok i (by omega)
        have hidx : v + 1 + i = v + (i + 1) := by omega
        have hpa' : ((pa + pgSize) % 2 ^ 64 + i * pgSize) % 2 ^ 64 =
          (pa + (i + 1) * pgSize) % 2 ^ 64 := by
          unfold pgSize
          omega
        rw [hidx] at hlt hi'
        rw [hi', hpa']
        exact ⟨hlt, rfl⟩

/-! ## `uvmunmap` -/

variable [Layout]

theorem kfree_cases (he : kfree k p = .ok k') :
    p < physPages ∧ 0 < k.referenceCounter p ∧ (∀ q, q ≠ p → k'.mem q = k.mem q) ∧
      (∀ q, q ≠ p → k'.referenceCounter q = k.referenceCounter q) ∧
      (k'.freelist = k.freelist ∨ k'.freelist = p :: k.freelist ∧ k'.referenceCounter p = 0) := by
  unfold kfree at he
  by_cases h1 : p < endPage ∨ physPages ≤ p
  · rw [if_pos h1] at he
    exact nomatch he
  rw [if_neg h1] at he
  by_cases h2 : k.referenceCounter p ≤ 0
  · rw [if_pos h2] at he
    exact nomatch he
  rw [if_neg h2] at he
  refine ⟨by omega, by omega, ?_⟩
  by_cases h3 : k.referenceCounter p = 1
  · rw [if_pos h3] at he
    obtain rfl := Except.ok.inj he
    exact ⟨fun q hq => update_of_ne hq .., fun q hq => update_of_ne hq .., .inr ⟨rfl, update_self ..⟩⟩
  · rw [if_neg h3] at he
    obtain rfl := Except.ok.inj he
    exact ⟨fun _ _ => rfl, fun q hq => update_of_ne hq .., .inl rfl⟩

theorem TreeWf.kfree (h : TreeWf k root) (hp : p ∉ tables k 2 root)
    (he : Kernel.kfree k p = .ok k') : TreeWf k' root ∧
    ∀ q ∈ tables k 2 root, k'.mem q = k.mem q := by
  obtain ⟨hphys, hpos, hmem, hcount, hlist⟩ := kfree_cases he
  have hnot : p ∉ k.freelist := fun hf => absurd (h.free p hf).2 (not_le.mpr hpos)
  have hsame : ∀ q ∈ tables k 2 root, k'.mem q = k.mem q := by
    intro q hq
    refine hmem q ?_
    rintro rfl
    exact hp hq
  have hold : ∀ q ∈ k.freelist, q < 2 ^ 52 ∧ k'.referenceCounter q ≤ 0 := by
    intro q hq
    have hne : q ≠ p := by
      rintro rfl
      exact hnot hq
    rw [hcount q hne]
    exact h.free q hq
  have htables : tables k' 2 root = tables k 2 root := by
    unfold tables
    rw [read_congr hsame]
  have hnd := h.nodup
  refine ⟨⟨?_, ?_⟩, hsame⟩
  · rw [htables]
    rcases hlist with hl | ⟨hl, _⟩
    · rw [hl]
      exact hnd
    · rw [hl, ← Multiset.cons_coe, Multiset.add_cons, Multiset.nodup_cons, Multiset.mem_add, not_or]
      exact ⟨⟨hp, hnot⟩, hnd⟩
  · rcases hlist with hl | ⟨hl, hzero⟩
    · rw [hl]
      exact hold
    · rw [hl, List.forall_mem_cons]
      have hlt : physPages < 2 ^ 52 := by decide
      exact ⟨⟨hphys.trans hlt, hzero.le⟩, hold⟩

omit [Layout] in
theorem walkLoop_congr (h : ∀ q ∈ tables k l p, k'.mem q = k.mem q) :
    (walkLoop va false l k' p).2 = (walkLoop va false l k p).2 := by
  induction l generalizing p with
  | zero => rfl
  | succ l ih =>
    have hp : k'.mem p = k.mem p := h p (mem_tables_self k (l + 1) p)
    rw [walkLoop, walkLoop, Kmem.word_congr hp]
    by_cases hv : pteValid (k.word p (px (l + 1) va)) = true
    · simp only [if_pos hv]
      refine ih fun q hq => h q (mem_tables_child (i := px (l + 1) va) ?_)
      rw [child_of_valid (px_lt (l + 1) va) hv]
      exact hq
    · simp only [if_neg hv]
      rfl

/-- The pages that `uvmunmap` frees are not tables of the tree. -/
def FreesOutside (k : Kmem) (root v n : ℕ) : Prop :=
  ∀ i < n, v + i < maxPage → pte2pa (entry k root (v + i)) / pgSize ∉ tables k 2 root

theorem uvmunmapLoop_spec {doFree : Bool} (h : TreeWf k root)
    (hfree : doFree = true → FreesOutside k root v n)
    (he : uvmunmapLoop root doFree n k (v * pgSize) = .ok k') : TreeWf k' root ∧
    ∀ u < maxPage, entry k' root u = if v ≤ u ∧ u < v + n then 0 else entry k root u := by
  induction n generalizing k v with
  | zero =>
    obtain rfl : k = k' := by simpa [uvmunmapLoop] using he
    exact ⟨h, fun u _ => (if_neg (by omega)).symm⟩
  | succ n ih =>
    rw [uvmunmapLoop] at he
    unfold walk at he
    by_cases hmax : maxPage * pgSize ≤ v * pgSize
    · rw [if_pos hmax] at he
      exact nomatch he
    have hdiv : v * pgSize / pgSize = v := Nat.mul_div_cancel v (by decide)
    have hv : v < maxPage := hdiv ▸ div_pgSize_lt hmax
    rw [if_neg hmax, ok_bind] at he
    rcases hs : (walkLoop (v * pgSize) false 2 k root).2 with _ | slot
    · rw [hs] at he
      exact nomatch he
    rw [hs] at he
    simp only at he
    obtain ⟨_, _, hword, _⟩ := h.setWord (w := 0) (v * pgSize) (by rw [hdiv]; exact hv) hs (by decide)
    rw [hdiv] at hword
    rw [hword] at he
    by_cases h1 : (!pteValid (entry k root v)) = true
    · rw [if_pos h1] at he
      exact nomatch he
    rw [if_neg h1] at he
    by_cases h2 : pteFlags (entry k root v) = 1
    · rw [if_pos h2] at he
      exact nomatch he
    rw [if_neg h2] at he
    obtain ⟨k₁, hk₁, he⟩ := exists_of_bind_eq_ok he
    -- `kfree` leaves the tree alone
    obtain ⟨h₁, hmem⟩ : TreeWf k₁ root ∧ ∀ q ∈ tables k 2 root, k₁.mem q = k.mem q := by
      cases doFree with
      | false =>
        obtain rfl := Except.ok.inj hk₁
        exact ⟨h, fun _ _ => rfl⟩
      | true => exact h.kfree (hfree rfl 0 (Nat.succ_pos n) hv) hk₁
    have hread := read_congr hmem
    obtain ⟨h₂, htables, _, hentry⟩ := h₁.setWord (w := 0) (v * pgSize) (by rw [hdiv]; exact hv)
      ((walkLoop_congr hmem).trans hs) (by decide)
    rw [hdiv] at hentry
    have hsame : ∀ u, entry k₁ root u = entry k root u := by
      intro u
      unfold entry
      rw [hread]
    have hnext : v * pgSize + pgSize = (v + 1) * pgSize := by rw [Nat.succ_mul]
    rw [hnext] at he
    have hfree' : doFree = true → FreesOutside (k₁.setWord slot.1 slot.2 0) root (v + 1) n := by
      intro hd i hi hlt
      have hout := hfree hd (i + 1) (by omega) (by omega)
      have hidx : v + (i + 1) = v + 1 + i := by omega
      rw [hidx] at hout
      rw [hentry _ hlt, if_neg (by omega), hsame, htables]
      unfold tables
      rw [hread]
      exact hout
    obtain ⟨h', hres⟩ := ih h₂ hfree' he
    refine ⟨h', fun u hu => ?_⟩
    rw [hres u hu, hentry u hu, hsame]
    by_cases huv : u = v
    · rw [if_neg (by omega), if_pos huv, if_pos (by omega)]
    · rw [if_neg huv]
      exact if_congr (by omega) rfl rfl

/-! ## Refinement -/

omit [Layout] in
/-- **`mappages`** maps the pages from the first to the last, whose address is taken modulo `2^64`,
to consecutive pages from `pa` on, and changes no other entry. -/
theorem mappages_spec {size : ℕ} {ok : Bool} (h : TreeWf k root) (hperm : perm < 1024)
    (hpa : pa < 2 ^ 64) (hal : pa % pgSize = 0) (hva : va < 2 ^ 64)
    (he : mappages k root va size pa perm = .ok (k', ok)) :
    TreeWf k' root ∧ (ok = true → va / pgSize ≤ (va + size - 1) % 2 ^ 64 / pgSize ∧
      (va + size - 1) % 2 ^ 64 / pgSize < maxPage ∧
      ∀ u < maxPage * pgSize, if va / pgSize ≤ u / pgSize ∧
        u / pgSize ≤ (va + size - 1) % 2 ^ 64 / pgSize
        then pte2pa (lookup k' root u) = (pa + (u / pgSize - va / pgSize) * pgSize) % 2 ^ 64 ∧
          pteFlags (lookup k' root u) = perm ||| 1
        else lookup k' root u = lookup k root u) := by
  unfold mappages at he
  by_cases hsize : size = 0
  · rw [if_pos hsize] at he
    exact nomatch he
  rw [if_neg hsize] at he
  simp only [pgRoundDown] at he
  obtain ⟨h', hother, hmapped⟩ := mappagesLoop_spec h hperm hpa hal he
  refine ⟨h', fun hok => ?_⟩
  generalize hlast : (va + size - 1) % 2 ^ 64 = last at *
  have hlt : last < 2 ^ 64 := hlast ▸ Nat.mod_lt _ (by decide)
  -- a range that wraps would run into MAXVA
  have hmax : maxPage = 2 ^ 26 := rfl
  have hin := (hmapped hok _ (Nat.lt_succ_self _)).1
  have hn : (last / pgSize * pgSize + 2 ^ 64 - va / pgSize * pgSize) % 2 ^ 64 / pgSize =
      last / pgSize - va / pgSize ∧ va / pgSize ≤ last / pgSize := by
    unfold pgSize at hin ⊢
    omega
  rw [hn.1] at hother hmapped hin
  refine ⟨hn.2, by omega, fun u hu => ?_⟩
  have hu' : u / pgSize < maxPage := div_pgSize_lt (not_le.mpr hu)
  rw [lookup_eq_entry, lookup_eq_entry]
  by_cases hrange : va / pgSize ≤ u / pgSize ∧ u / pgSize ≤ last / pgSize
  · rw [if_pos hrange]
    obtain ⟨_, hentry⟩ := hmapped hok (u / pgSize - va / pgSize) (by omega)
    rw [Nat.add_sub_cancel' hrange.1] at hentry
    rw [hentry]
    refine ⟨pte2pa_entry hperm (Nat.mod_lt _ (by decide)) ?_, pteFlags_entry hperm⟩
    unfold pgSize at hal ⊢
    omega
  · rw [if_neg hrange]
    exact hother _ hu' (by omega)

/-- **`uvmunmap`** clears the entries from `va` on up to its bound, which is taken modulo `2^64`,
and changes no other entry. -/
theorem uvmunmap_spec {npages : ℕ} {doFree : Bool} (h : TreeWf k root)
    (hfree : doFree = true → FreesOutside k root (va / pgSize) npages)
    (he : uvmunmap k root va npages doFree = .ok k') :
    TreeWf k' root ∧ ∀ u < maxPage * pgSize, lookup k' root u =
      if va ≤ u ∧ u < (va + npages * pgSize) % 2 ^ 64 then 0 else lookup k root u := by
  unfold uvmunmap at he
  by_cases hal : va % pgSize ≠ 0
  · rw [if_pos hal] at he
    exact nomatch he
  rw [if_neg hal] at he
  have hva : va = va / pgSize * pgSize := by
    unfold pgSize at hal ⊢
    omega
  generalize hbound : ((va + npages * pgSize) % 2 ^ 64 - va) / pgSize = n at he
  have hn : n ≤ npages := by
    unfold pgSize at hbound
    omega
  rw [hva] at he
  obtain ⟨h', hres⟩ := uvmunmapLoop_spec h (fun hd i hi => hfree hd i (by omega)) he
  refine ⟨h', fun u hu => ?_⟩
  rw [lookup_eq_entry, lookup_eq_entry, hres _ (div_pgSize_lt (not_le.mpr hu))]
  refine if_congr ?_ rfl rfl
  unfold pgSize at *
  omega

/-- **The page table refines a finite map.** In a well-formed tree `mappages` and `uvmunmap` change
the entries of their range, with its end taken modulo `2^64`, and no other entry, `walk` changes
none, and the tree stays well-formed. -/
theorem table_refines_map (h : TreeWf k root) :
    (∀ va r, walk k root va true = .ok r →
      TreeWf r.1 root ∧ ∀ u < maxPage * pgSize, lookup r.1 root u = lookup k root u) ∧
    (∀ va size pa perm k' ok, va < 2 ^ 64 → pa < 2 ^ 64 → pa % pgSize = 0 → perm < 1024 →
      mappages k root va size pa perm = .ok (k', ok) →
      TreeWf k' root ∧ (ok = true → va / pgSize ≤ (va + size - 1) % 2 ^ 64 / pgSize ∧
        (va + size - 1) % 2 ^ 64 / pgSize < maxPage ∧
        ∀ u < maxPage * pgSize, if va / pgSize ≤ u / pgSize ∧
          u / pgSize ≤ (va + size - 1) % 2 ^ 64 / pgSize
          then pte2pa (lookup k' root u) = (pa + (u / pgSize - va / pgSize) * pgSize) % 2 ^ 64 ∧
            pteFlags (lookup k' root u) = perm ||| 1
          else lookup k' root u = lookup k root u)) ∧
    ∀ va npages doFree k', (doFree = true → FreesOutside k root (va / pgSize) npages) →
      uvmunmap k root va npages doFree = .ok k' →
      TreeWf k' root ∧ ∀ u < maxPage * pgSize, lookup k' root u =
        if va ≤ u ∧ u < (va + npages * pgSize) % 2 ^ 64 then 0 else lookup k root u := by
  refine ⟨fun va r he => ?_, ?_, ?_⟩
  · unfold walk at he
    by_cases hmax : maxPage * pgSize ≤ va
    · rw [if_pos hmax] at he
      exact nomatch he
    rw [if_neg hmax] at he
    obtain rfl := Except.ok.inj he
    obtain ⟨hext, _⟩ := walkLoop_true va h.nodup fun q hq => (h.free q hq).1
    refine ⟨h.extends hext, fun u _ => ?_⟩
    rw [lookup_eq, lookup_eq, hext.get]
  · intro va size pa perm k' ok hva hpa hal hperm he
    exact mappages_spec h hperm hpa hal hva he
  · intro va npages doFree k' hfree he
    exact uvmunmap_spec h hfree he

omit [Layout] in
theorem TreeWf.of_zeroed (hzero : ∀ i, k.word root i = 0) (hnd : (root :: k.freelist).Nodup)
    (hfree : ∀ q ∈ k.freelist, q < 2 ^ 52 ∧ k.referenceCounter q ≤ 0) : TreeWf k root := by
  refine ⟨?_, hfree⟩
  unfold tables
  rw [read_zeroed hzero, Radix.pages_zeroed, Multiset.singleton_add]
  exact hnd

/-- A memory of zeros whose free pages are `[1, 2]`; page 0 is an empty table. -/
def blank : Kmem := ⟨[1, 2], fun _ => 0, fun _ _ => 0, 0⟩

omit [Layout] in
theorem treeWf_blank : TreeWf blank 0 :=
  TreeWf.of_zeroed (fun _ => Kmem.word_of_zero rfl) (by decide) (by decide)

/-- Page 1 is mapped to page 5 and unmapped again. -/
def mapAndUnmap : Except Panic (Kmem × Kmem) := do
  let r ← mappages blank 0 0x1000 0x1000 0x5000 0x16
  if r.2 then do
    let k' ← uvmunmap r.1 0 0x1000 1 false
    .ok (r.1, k')
  else .error .mappagesRemap

theorem mapAndUnmap_cases {r : Kmem × Kmem} (h : mapAndUnmap = .ok r) :
    mappages blank 0 0x1000 0x1000 0x5000 0x16 = .ok (r.1, true) ∧
    uvmunmap r.1 0 0x1000 1 false = .ok r.2 := by
  obtain ⟨⟨k, ok⟩, hmap, h⟩ := exists_of_bind_eq_ok h
  cases ok with
  | false => exact nomatch h
  | true =>
    obtain ⟨k', hunmap, h⟩ := exists_of_bind_eq_ok h
    obtain rfl := Except.ok.inj h
    exact ⟨hmap, hunmap⟩

omit [Layout] in
theorem mapAndUnmap_ok : let _ := smallLayout; ∃ r, mapAndUnmap = .ok r := by
  let _ := smallLayout
  have hok : mapAndUnmap.toOption.isSome = true := by decide +kernel
  rcases h : mapAndUnmap with e | r
  · rw [h] at hok
    exact nomatch hok
  · exact ⟨r, h⟩

omit [Layout] in
/-- A page is mapped and unmapped again. -/
theorem table_refines_map_blank : ∃ _ : Layout, ∃ k k' : Kmem,
    mappages blank 0 0x1000 0x1000 0x5000 0x16 = .ok (k, true) ∧
      pte2pa (lookup k 0 0x1000) = 0x5000 ∧ pteFlags (lookup k 0 0x1000) = 0x17 ∧
      uvmunmap k 0 0x1000 1 false = .ok k' ∧ lookup k' 0 0x1000 = 0 := by
  let _ := smallLayout
  obtain ⟨⟨k, k'⟩, h⟩ := mapAndUnmap_ok
  obtain ⟨hmap, hunmap⟩ := mapAndUnmap_cases h
  obtain ⟨hwf, hmapped⟩ := (table_refines_map treeWf_blank).2.1 _ _ _ _ _ _
    (by decide) (by decide) (by decide) (by decide) hmap
  have hentry := (hmapped rfl).2.2 0x1000 (by decide)
  rw [if_pos (by decide)] at hentry
  have hclear := ((table_refines_map hwf).2.2 _ _ _ _
    (fun h => absurd h Bool.false_ne_true) hunmap).2 0x1000 (by decide)
  rw [if_pos (by decide)] at hclear
  exact ⟨smallLayout, k, k', hmap, hentry.1, hentry.2, hunmap, hclear⟩

omit [Layout] in
/-- The bound of a range of `2^52` pages wraps to its beginning: `uvmunmap` removes nothing. -/
theorem uvmunmap_wraps : ∃ _ : Layout, ∃ k : Kmem, ∃ root, TreeWf k root ∧
    lookup k root 0x1000 ≠ 0 ∧ uvmunmap k root 0 (2 ^ 52) false = .ok k := by
  let _ := smallLayout
  obtain ⟨⟨k, k'⟩, h⟩ := mapAndUnmap_ok
  obtain ⟨hwf, hmapped⟩ := mappages_spec treeWf_blank (by decide) (by decide) (by decide)
    (by decide) (mapAndUnmap_cases h).1
  have hentry := (hmapped rfl).2.2 0x1000 (by decide)
  rw [if_pos (by decide)] at hentry
  refine ⟨smallLayout, k, 0, hwf, fun h0 => ?_, rfl⟩
  rw [h0] at hentry
  exact absurd hentry.1 (by decide)

end InMemory

end LazyXv6.Kernel
