import LazyXv6.Lib.Radix
import LazyXv6.Kernel.Kalloc

/-!
# Page tables (`walk`, `mappages`, `uvmunmap`, `freewalk` of `vm.c`)

A page table is a tree of three levels of tables of 512 entries, each on a page from `kalloc`.
Page-aligned virtual addresses are given by their page number, of which `PX(level, va)` is a digit
in base 512. `pt.pte v` is the leaf entry of page `v`, zero where there is no table for it.
-/

namespace LazyXv6.Kernel

open Function Lib Lib.Shares

/-- The flag bits of a page-table entry (`PTE_FLAGS`). -/
structure Perm where
  v : Bool := false
  r : Bool := false
  w : Bool := false
  x : Bool := false
  u : Bool := false
  cow : Bool := false
deriving DecidableEq

/-- A page-table entry: the flags and the page it maps (`PTE2PA`). -/
structure Pte extends Perm where
  ppn : ℕ := 0
deriving DecidableEq

instance : Inhabited Pte := ⟨{}⟩

/-- `PA2PTE(pa) | perm | PTE_V` -/
def Perm.entry (perm : Perm) (pa : ℕ) : Pte := ⟨{ perm with v := true }, pa⟩

theorem Perm.entry_of_v (perm : Perm) (h : perm.v = true) (pa : ℕ) :
    perm.entry pa = ⟨perm, pa⟩ := by
  unfold entry
  rw [← h]

abbrev PageTable := Radix ℕ Pte 2

def maxPage : ℕ := 0x4000000

def trampolinePage : ℕ := 0x3ffffff

def trapframePage : ℕ := 0x3fffffe

theorem maxPage_lt : maxPage < 512 ^ 3 := by decide

namespace PageTable

def pte (pt : PageTable) (v : ℕ) : Pte := if v < 512 ^ 3 then Radix.get 512 pt v else default

def tables (pt : PageTable) : Multiset ℕ := Radix.pages 512 pt

/-- `*pte = p` for the leaf entry of page `v`. -/
def set (pt : PageTable) (v : ℕ) (p : Pte) : PageTable := Radix.store 512 pt v p

end PageTable

/-- `walk(pagetable, va, 0)`, read through: the leaf entry, if its table exists. -/
def walk (pt : PageTable) (v : ℕ) : Except Panic (Option Pte) :=
  if maxPage ≤ v then .error .walk else .ok (Radix.lookup 512 pt v)

/-- `walkaddr`; `none` if it returns 0, which it also does for an entry that maps physical page
0. -/
def walkaddr (pt : PageTable) (v : ℕ) : Except Panic (Option ℕ) :=
  if maxPage ≤ v then .ok none
  else do
    match ← walk pt v with
    | none => .ok none
    | some p => .ok (if p.v && p.u && p.ppn ≠ 0 then some p.ppn else none)

/-- `kalloc` and `memset(pagetable, 0, PGSIZE)` for a new table. -/
def kallocTable (k : Kmem) : Kmem × Option ℕ :=
  match kalloc k with
  | (k, none) => (k, none)
  | (k, some pa) => (k.memset pa 0, some pa)

def uvmcreate (k : Kmem) : Kmem × Option PageTable :=
  match kallocTable k with
  | (k, none) => (k, none)
  | (k, some pa) => (k, some (Radix.zeroed 2 pa))

/-- `walk(pagetable, va, 1)`; the flag is false if it returns 0. -/
def walkAlloc (k : Kmem) (pt : PageTable) (v : ℕ) : Except Panic (Kmem × PageTable × Bool) :=
  if maxPage ≤ v then .error .walk else .ok (Radix.ensure 512 kallocTable k pt v)

def mappagesLoop (perm : Perm) :
    ℕ → Kmem → PageTable → ℕ → ℕ → Except Panic (Kmem × PageTable × Bool)
  | 0, k, pt, _, _ => .ok (k, pt, true)
  | n + 1, k, pt, v, pa => do
    let (k, pt, ok) ← walkAlloc k pt v
    if !ok then .ok (k, pt, false)
    else if (pt.pte v).v then .error .mappagesRemap
    else mappagesLoop perm n k (pt.set v (perm.entry pa)) (v + 1) (pa + 1)

/-- The flag is false if `mappages` returns -1. -/
def mappages (k : Kmem) (pt : PageTable) (va size pa : ℕ) (perm : Perm) :
    Except Panic (Kmem × PageTable × Bool) :=
  if size = 0 then .error .mappagesSize
  else
    let a := va / pgSize
    let last := (va + size - 1) % 2 ^ 64 / pgSize
    mappagesLoop perm ((last + 2 ^ 52 - a) % 2 ^ 52 + 1) k pt a pa

/-! ## The finite map of leaf entries -/

section Map

variable {pt : PageTable} {u v : ℕ} {p : Pte}

namespace PageTable

theorem pte_of_lookup (hv : v < maxPage) (h : Radix.lookup 512 pt v = some p) : pt.pte v = p := by
  unfold pte
  rw [if_pos (hv.trans maxPage_lt), Radix.get_eq_of_lookup h]

theorem pte_of_lookup_none (h : Radix.lookup 512 pt v = none) : pt.pte v = default := by
  unfold pte Radix.get
  rw [h, Option.getD_none, ite_self]

theorem isSome_of_v (h : (pt.pte v).v = true) : (Radix.lookup 512 pt v).isSome := by
  rcases hl : Radix.lookup 512 pt v with _ | p
  · rw [pte_of_lookup_none hl] at h
    exact absurd h (by decide)
  · rfl

theorem ne_absent_of_v (h : (pt.pte v).v = true) : pt ≠ .absent := by
  rintro rfl
  exact absurd (isSome_of_v h) (by simp [Radix.lookup])

theorem pte_set (hv : v < maxPage) (h : (Radix.lookup 512 pt v).isSome) :
    (pt.set v p).pte = update pt.pte v p := by
  funext u
  have hmax := maxPage_lt
  unfold pte set
  rw [Radix.get_store h, update_apply]
  by_cases hu : u < 512 ^ 3
  · rw [if_pos hu, if_pos hu, Nat.mod_eq_of_lt hu, Nat.mod_eq_of_lt (by omega)]
  · rw [if_neg hu, if_neg hu, if_neg (by omega)]

@[simp] theorem isSome_set :
    (Radix.lookup 512 (pt.set v p) u).isSome = (Radix.lookup 512 pt u).isSome :=
  Radix.lookup_isSome_store

@[simp] theorem tables_set : (pt.set v p).tables = pt.tables := Radix.pages_store (by decide)

theorem set_ne_absent (h : pt ≠ .absent) : pt.set v p ≠ .absent := Radix.store_ne_absent h

@[simp] theorem pte_zeroed (pa : ℕ) : PageTable.pte (Radix.zeroed 2 pa) = fun _ => default := by
  funext v
  unfold pte
  rw [Radix.get_zeroed, ite_self]

end PageTable

theorem walk_of_v (hv : v < maxPage) (h : (pt.pte v).v = true) :
    walk pt v = .ok (some (pt.pte v)) := by
  obtain ⟨p, hp⟩ := Option.isSome_iff_exists.mp (PageTable.isSome_of_v h)
  unfold walk
  rw [if_neg (by omega), hp, PageTable.pte_of_lookup hv hp]

theorem walk_cases (hv : v < maxPage) (pt : PageTable) :
    walk pt v = .ok (some (pt.pte v)) ∨ (walk pt v = .ok none ∧ pt.pte v = default) := by
  unfold walk
  rw [if_neg (by omega)]
  rcases hl : Radix.lookup 512 pt v with _ | p
  · exact .inr ⟨rfl, PageTable.pte_of_lookup_none hl⟩
  · exact .inl (by rw [PageTable.pte_of_lookup hv hl])

@[simp] theorem ok_bind {ε α β : Type} (a : α) (f : α → Except ε β) : (Except.ok a >>= f) = f a :=
    rfl

theorem eq_ok_of_toOption {ε α : Type} {x : Except ε α} {a : α} (h : x.toOption = some a) :
    x = .ok a := by
  cases x with
  | error => exact nomatch h
  | ok b => exact congrArg _ (Option.some.inj h)

theorem exists_of_bind_eq_ok {ε α β : Type} {x : Except ε α} {f : α → Except ε β} {b : β}
    (h : (x >>= f) = .ok b) : ∃ a, x = .ok a ∧ f a = .ok b := by
  cases x with
  | error e => exact nomatch h
  | ok a => exact ⟨a, rfl, h⟩

theorem walkaddr_ok (pt : PageTable) (v : ℕ) : ∃ r, walkaddr pt v = .ok r := by
  unfold walkaddr walk
  by_cases hv : maxPage ≤ v
  · exact ⟨none, if_pos hv⟩
  · rw [if_neg hv, if_neg hv, ok_bind]
    rcases Radix.lookup 512 pt v with _ | p
    · exact ⟨none, rfl⟩
    · exact ⟨_, rfl⟩

theorem walkaddr_eq (hv : v < maxPage) (pt : PageTable) :
    walkaddr pt v = .ok (if (pt.pte v).v && (pt.pte v).u && (pt.pte v).ppn ≠
      0 then some (pt.pte v).ppn else none) := by
  unfold walkaddr
  rw [if_neg (by omega)]
  rcases walk_cases hv pt with h | ⟨h, hp⟩
  · rw [h, ok_bind]
  · rw [h, hp]
    rfl

/-! ## Holdings -/

/-- What a leaf entry holds: its page, exclusively if it may be written through the entry. -/
def Pte.own (p : Pte) : Shares ℕ :=
  if p.v then if p.w then ({p.ppn}, 0) else (0, {p.ppn}) else 0

theorem Pte.own_of_w (h : p.v = true) (hw : p.w = true) : p.own = ({p.ppn}, 0) := by
  unfold own
  rw [if_pos h, if_pos hw]

theorem Pte.own_of_not_w (h : p.v = true) (hw : p.w = false) : p.own = (0, {p.ppn}) := by
  unfold own
  rw [if_pos h, if_neg (by simp [hw])]

theorem Pte.all_own (h : p.v = true) : all p.own = {p.ppn} := by
  unfold own
  rw [if_pos h]
  split <;> simp

def PageTable.tabs (pt : PageTable) : Shares ℕ := (pt.tables, 0)

@[simp] theorem PageTable.tabs_set : (pt.set v p).tabs = pt.tabs := by
  unfold tabs
  rw [tables_set]

@[simp] theorem PageTable.tabs_zeroed (pa : ℕ) :
    PageTable.tabs (Radix.zeroed 2 pa) = ({pa}, 0) := by
  unfold tabs tables
  rw [Radix.pages_zeroed]

/-- What the entries `g` of the pages `a .. b - 1` hold. -/
def maps (g : ℕ → Pte) (a b : ℕ) : Shares ℕ := ∑ v ∈ Finset.Ico a b, (g v).own

end Map

variable [Layout]

def uvmunmapLoop (doFree : Bool) : ℕ → Kmem → PageTable → ℕ → Except Panic (Kmem × PageTable)
  | 0, k, pt, _ => .ok (k, pt)
  | n + 1, k, pt, v => do
    match ← walk pt v with
    | none => .error .uvmunmapWalk
    | some p =>
      if !p.v then .error .uvmunmapNotMapped
      else if p.toPerm = { v := true } then .error .uvmunmapNotALeaf
      else do
        let k ← (if doFree then kfree k p.ppn else .ok k)
        uvmunmapLoop doFree n k (pt.set v default) (v + 1)

/-- `uvmunmap`. The bound `va + npages*PGSIZE` of its loop wraps. -/
def uvmunmap (k : Kmem) (pt : PageTable) (va npages : ℕ) (doFree : Bool) :
    Except Panic (Kmem × PageTable) :=
  if va % pgSize ≠ 0 then .error .uvmunmapNotAligned
  else uvmunmapLoop doFree (((va + npages * pgSize) % 2 ^ 64 - va) / pgSize) k pt (va / pgSize)

/-- `freewalk`. A leaf with no other flag than `PTE_V`, into which the source would descend, does
not occur. -/
def freewalk (k : Kmem) (pt : PageTable) : Except Panic Kmem :=
  Radix.freeAll 512 kfree (fun p => if p.v then .error .freewalkLeaf else .ok ()) k pt

variable {k k' k'' : Kmem} {pt : PageTable} {o r : Shares ℕ} {a b v pa : ℕ} {perm : Perm}

/-! ## `uvmcreate` and `mappages` -/

theorem kallocTable_some (h : Acct k o) (e : kallocTable k = (k', some pa)) :
    Framed o ({pa}, 0) k k' := by
  unfold kallocTable at e
  split at e
  · simp at e
  · next k1 pa1 he =>
    obtain ⟨rfl, rfl⟩ : _ ∧ pa1 = pa := by simpa using e
    obtain ⟨hf, hpa⟩ := kalloc_some h he
    exact hf.write hpa _

theorem kallocTable_none (h : Framed o r k k') (e : kallocTable k' = (k'', none)) :
    Framed o r k k'' ∧ k.failures < k''.failures := by
  unfold kallocTable at e
  split at e
  · next k1 he =>
    obtain rfl : k1 = k'' := by simpa using e
    exact kalloc_none h he
  · simp at e

theorem ensure_ok (hroot : pt ≠ .absent) (h : Acct k (o + pt.tabs)) (v : ℕ) :
    ∃ (k' : Kmem) (pt' : PageTable) (ok : Bool),
      Radix.ensure 512 kallocTable k pt v = (k', pt', ok) ∧ Framed o pt'.tabs k k' ∧
      pt'.pte = pt.pte ∧ pt' ≠ .absent ∧ (ok = true → (Radix.lookup 512 pt' v).isSome) ∧
      (ok = false → k.failures < k'.failures) := by
  obtain ⟨h1, h2, h3, h4⟩ := Radix.ensure_spec (b := 512) (v := v) (m := 0)
    (P := fun k' m => Framed o (m, 0) k k') (Q := fun k' => k.failures < k'.failures)
    (by decide)
    (fun hP ha => hP.trans ((kallocTable_some hP.acct ha).unframe.congr (by simp)))
    (fun hP ha => kallocTable_none hP ha) hroot (by rw [zero_add]; exact Framed.refl h)
  rw [zero_add] at h1
  refine ⟨_, _, _, rfl, h1, ?_, Radix.ensure_ne_absent hroot, h3, h4⟩
  funext u
  unfold PageTable.pte
  rw [h2]

omit [Layout] in
theorem mappages_eq (hv : v < maxPage) :
    mappages k pt (v * pgSize) pgSize pa perm = mappagesLoop perm 1 k pt v pa := by
  have hv' : v < 0x4000000 := hv
  have h1 : v * pgSize / pgSize = v := Nat.mul_div_cancel v (by decide)
  have h2 : (v * pgSize + pgSize - 1) % 2 ^ 64 / pgSize = v := by
    unfold pgSize
    omega
  have h3 : (v + 2 ^ 52 - v) % 2 ^ 52 + 1 = 1 := by omega
  unfold mappages
  rw [if_neg (by decide), h1, h2]
  show mappagesLoop perm ((v + 2 ^ 52 - v) % 2 ^ 52 + 1) k pt v pa = _
  rw [h3]

/-- **Mapping one page** changes the entry of that page alone, and fails only for want of memory
for the tables. -/
theorem mappages_page (pa : ℕ) (perm : Perm) (hv : v < maxPage) (hroot : pt ≠ .absent)
    (hn : (pt.pte v).v = false) (h : Acct k (o + pt.tabs)) :
    ∃ (k' : Kmem) (pt' : PageTable), Framed o pt'.tabs k k' ∧ pt' ≠ .absent ∧
      ((mappages k pt (v * pgSize) pgSize pa perm = .ok (k', pt', true) ∧
        pt'.pte = update pt.pte v (perm.entry pa)) ∨
        (mappages k pt (v * pgSize) pgSize pa perm = .ok (k', pt', false) ∧
          pt'.pte = pt.pte ∧ k.failures < k'.failures)) := by
  obtain ⟨k', pt', ok, he, hf, hpte, hne, hok, hfail⟩ := ensure_ok hroot h v
  rw [mappages_eq hv, mappagesLoop, walkAlloc, if_neg (by omega), he]
  cases ok with
  | false => exact ⟨k', pt', hf, hne, .inr ⟨rfl, hpte, hfail rfl⟩⟩
  | true =>
    refine ⟨k', pt'.set v (perm.entry pa), ?_, PageTable.set_ne_absent hne, .inl ⟨?_, ?_⟩⟩
    · rw [PageTable.tabs_set]
      exact hf
    · rw [ok_bind]
      simp only [Bool.not_true, Bool.false_eq_true, if_false, hpte, hn, mappagesLoop]
    · rw [PageTable.pte_set hv (hok rfl), hpte]

omit [Layout] in
theorem mappages_present (k : Kmem) (pa : ℕ) (perm : Perm) (hv : v < maxPage)
    (hs : (Radix.lookup 512 pt v).isSome) (hn : (pt.pte v).v = false) :
    mappages k pt (v * pgSize) pgSize pa perm = .ok (k, pt.set v (perm.entry pa), true) := by
  rw [mappages_eq hv, mappagesLoop, walkAlloc, if_neg (by omega),
    Radix.ensure_of_isSome hs, ok_bind]
  simp only [Bool.not_true, Bool.false_eq_true, if_false, hn, mappagesLoop]

theorem uvmcreate_some (h : Acct k o) (e : uvmcreate k = (k', some pt)) :
    Framed o pt.tabs k k' ∧ pt ≠ .absent ∧ pt.pte = fun _ => default := by
  unfold uvmcreate at e
  split at e
  · simp at e
  · next k1 pa1 he =>
    obtain ⟨rfl, rfl⟩ : k1 = k' ∧ Radix.zeroed 2 pa1 = pt := by simpa using e
    have hne : (Radix.zeroed 2 pa1 : PageTable) ≠ .absent := nofun
    refine ⟨?_, hne, PageTable.pte_zeroed pa1⟩
    rw [PageTable.tabs_zeroed]
    exact kallocTable_some h he

theorem uvmcreate_none (h : Framed o r k k') (e : uvmcreate k' = (k'', none)) :
    Framed o r k k'' ∧ k.failures < k''.failures := by
  unfold uvmcreate at e
  split at e
  · next k1 he =>
    obtain rfl : k1 = k'' := by simpa using e
    exact kallocTable_none h he
  · simp at e

/-! ## `uvmunmap` and `freewalk` -/

/-- The entries with the pages `a .. b - 1` cleared. -/
def cleared (g : ℕ → Pte) (a b : ℕ) : ℕ → Pte := fun v => if a ≤ v ∧ v < b then default else g v

theorem uvmunmapLoop_succ {doFree : Bool} {n : ℕ} (hv : v < maxPage) (hm : (pt.pte v).v = true)
    (hr : (pt.pte v).r = true) (hk : (if doFree then kfree k (pt.pte v).ppn else .ok k) = .ok k') :
    uvmunmapLoop doFree (n + 1) k pt v = uvmunmapLoop doFree n k' (pt.set v default) (v + 1) := by
  have hleaf : (pt.pte v).toPerm ≠ { v := true } := by
    intro he
    rw [he] at hr
    exact absurd hr (by decide)
  rw [uvmunmapLoop, walk_of_v hv hm, ok_bind]
  simp only [hm, Bool.not_true, Bool.false_eq_true, if_false, hleaf, hk, ok_bind]

theorem uvmunmap_eq {doFree : Bool} {n : ℕ} (hb : v + n ≤ maxPage) :
    uvmunmap k pt (v * pgSize) n doFree = uvmunmapLoop doFree n k pt v := by
  have hmax : maxPage = 0x4000000 := rfl
  have hcount : ((v * pgSize + n * pgSize) % 2 ^ 64 - v * pgSize) / pgSize = n := by
    unfold pgSize
    omega
  unfold uvmunmap
  rw [if_neg (by simp [pgSize]), Nat.mul_div_cancel v (by decide), hcount]

/-- **Unmapping with `do_free`** gives back what the entries held. -/
theorem uvmunmap_ok (pt : PageTable) {n : ℕ} (hb : v + n ≤ maxPage)
    (hm : ∀ u, v ≤ u → u < v + n → (pt.pte u).v = true ∧ (pt.pte u).r = true)
    (h : Acct k (o + maps pt.pte v (v + n))) :
    ∃ (k' : Kmem) (pt' : PageTable), uvmunmap k pt (v * pgSize) n true = .ok (k', pt') ∧
      Framed o 0 k k' ∧ pt'.tabs = pt.tabs ∧ pt'.pte = cleared pt.pte v (v + n) ∧
      ∀ u, (Radix.lookup 512 pt' u).isSome = (Radix.lookup 512 pt u).isSome := by
  rw [uvmunmap_eq hb]
  induction n generalizing k pt v with
  | zero =>
    refine ⟨k, pt, rfl, Framed.refl (by simpa [maps] using h), rfl, ?_, fun _ => rfl⟩
    funext u
    exact (if_neg (by omega)).symm
  | succ n ih =>
    obtain ⟨hv, hr⟩ := hm v le_rfl (by omega)
    have hvm : v < maxPage := by omega
    have hsplit : maps pt.pte v (v + (n + 1)) = maps pt.pte (v + 1) (v + 1 + n) + (pt.pte v).own := by
      unfold maps
      rw [Finset.sum_eq_sum_Ico_succ_bot (by omega), add_comm,
        show v + (n + 1) = v + 1 + n by omega]
    rw [hsplit, ← add_assoc] at h
    obtain ⟨k1, hk1, hf1⟩ := kfree_ok _ h (Pte.all_own hv)
    have hset := PageTable.pte_set (p := default) hvm (PageTable.isSome_of_v hv)
    have hpte : ∀ u, u ≠ v → (pt.set v default).pte u = pt.pte u := by
      intro u hu
      rw [hset, update_of_ne hu]
    have hmaps : maps (pt.set v default).pte (v + 1) (v + 1 + n) = maps pt.pte (v + 1) (v + 1 + n) := by
      refine Finset.sum_congr rfl fun u hu => ?_
      rw [hpte u (by rw [Finset.mem_Ico] at hu; omega)]
    obtain ⟨k2, pt2, e2, hf2, ht2, hp2, hs2⟩ := ih (k := k1) (pt.set v default) (v := v + 1)
      (by omega) (fun u h1 h2 => by rw [hpte u (by omega)]; exact hm u (by omega) (by omega))
      (by rw [hmaps]; simpa using hf1.acct)
    refine ⟨k2, pt2, ?_, ?_, ht2.trans PageTable.tabs_set, ?_, fun u => ?_⟩
    · rw [uvmunmapLoop_succ hvm hv hr (by rw [if_pos rfl]; exact hk1)]
      exact e2
    · have hf1' : Framed o (maps pt.pte (v + 1) (v + 1 + n)) k k1 :=
        hf1.unframe.congr (by simp)
      exact hf1'.trans hf2
    · funext u
      rw [hp2]
      unfold cleared
      by_cases hu : u = v
      · subst hu
        rw [if_neg (by omega), if_pos (by omega), hset, update_self]
      · rw [hpte u hu]
        exact if_congr (by omega) rfl rfl
    · rw [hs2, PageTable.isSome_set]

theorem uvmunmap_keep (k : Kmem) (pt : PageTable) (hv : v < maxPage) (hm : (pt.pte v).v = true)
    (hr : (pt.pte v).r = true) :
    uvmunmap k pt (v * pgSize) 1 false = .ok (k, pt.set v default) := by
  rw [uvmunmap_eq hv, uvmunmapLoop_succ hv hm hr rfl, uvmunmapLoop]

/-- **Freeing the tables** gives their pages back, once no leaf is left. -/
theorem freewalk_ok (pt : PageTable) (h : Acct k (o + pt.tabs)) (hn : ∀ v, (pt.pte v).v = false) :
    ∃ k', freewalk k pt = .ok k' ∧ Framed o 0 k k' := by
  refine Radix.freeAll_spec (P := fun k' m => Framed o (m, 0) k k') (m := 0) ?_ ?_ ?_
  · intro k1 m pa hP
    have hacct : Acct k1 (o + (m, 0) + ({pa}, 0)) := by
      simpa only [add_assoc, Prod.mk_add_mk, add_zero] using hP.acct
    obtain ⟨k2, hk2, hf2⟩ := kfree_ok pa hacct (show all (({pa}, 0) : Shares ℕ) = {pa} from rfl)
    exact ⟨k2, hk2, hP.trans (hf2.unframe.congr (add_zero _))⟩
  · intro v hv
    have hv' := hn v
    unfold PageTable.pte at hv'
    rw [if_pos hv] at hv'
    exact if_neg (by simp [hv'])
  · rw [zero_add]
    exact Framed.refl h

end LazyXv6.Kernel
