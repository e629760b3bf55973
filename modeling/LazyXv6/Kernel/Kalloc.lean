import LazyXv6.Lib.RefCount
import LazyXv6.Lib.Segment

/-!
# The page allocator (`kalloc.c`)

Physical addresses are given by their page number `pa / PGSIZE`, so that `kfree` meets no unaligned
one. A page is a function from offsets to bytes; the link that a free page keeps in its first bytes
is the order of the list `freelist`. A panic ends the computation with `Except.error`.

`Acct k o`: the counters and the free list are those of the holdings `o`. The rules for `kalloc` and
`kfree` are stated with a frame: `Framed o r k k'` says that `k'` comes from `k` with the pages `o`
untouched and `r` held besides.
-/

namespace LazyXv6.Kernel

open Function Lib Lib.Shares

abbrev pgSize : ℕ := 4096

/-- `PHYSTOP / PGSIZE`, with `PHYSTOP = KERNBASE + 128 * 1024 * 1024`. -/
abbrev physPages : ℕ := 0x88000

/-- Where the linker puts the kernel: the first page after it (`PGROUNDUP(end) / PGSIZE`) and the
page of the trampoline code. -/
class Layout where
  endPage : ℕ
  trampoline : ℕ
  kernBase_le : 0x80000 ≤ endPage
  endPage_le : endPage ≤ physPages

export Layout (endPage)

/-- A machine whose kernel leaves 64 pages. -/
@[reducible] def smallLayout : Layout := ⟨0x87fc0, 0x80007, by decide, by decide⟩

/-- The calls of `panic` in the modelled code. `kerneltrap` is a fault in the kernel itself. -/
inductive Panic
  | kfree
  | decrementingFreedPage
  | walk
  | mappagesSize
  | mappagesRemap
  | uvmunmapNotAligned
  | uvmunmapWalk
  | uvmunmapNotMapped
  | uvmunmapNotALeaf
  | freewalkLeaf
  | uvmfirstMoreThanAPage
  | uvmcopyPteShouldExist
  | uvmcopyPageNotPresent
  | uvmclear
  | loadsegAddressShouldExist
  | initExiting
  | kerneltrap
deriving DecidableEq

/-- Physical memory and the allocator's globals. `failures` is not in the source: it counts the
calls of `kalloc` that returned 0. -/
structure Kmem where
  freelist : List ℕ
  referenceCounter : ℕ → ℤ
  mem : ℕ → ℕ → UInt8
  failures : ℕ

variable [Layout]

/-- `memset(pa, c, PGSIZE)` -/
def Kmem.memset (k : Kmem) (pa : ℕ) (c : UInt8) : Kmem :=
  { k with mem := update k.mem pa fun _ => c }

/-- `memmove(dst, src, PGSIZE)` between two pages. -/
def Kmem.copyPage (k : Kmem) (dst src : ℕ) : Kmem :=
  { k with mem := update k.mem dst (k.mem src) }

/-- `memmove(pa + off, src, n)` into one page. -/
def Kmem.write (k : Kmem) (pa off : ℕ) (src : List UInt8) : Kmem :=
  { k with mem := update k.mem pa (overwrite (k.mem pa) off src) }

/-- The bytes of a `uint64`, lowest first. -/
def le64 (n : ℕ) : List UInt8 := (List.range 8).map fun i => UInt8.ofNat (n / 256 ^ i)

omit [Layout] in
theorem Kmem.write_mem_self (k : Kmem) (pa off : ℕ) (src : List UInt8) :
    (k.write pa off src).mem pa = overwrite (k.mem pa) off src :=
  update_self ..

omit [Layout] in
theorem Kmem.write_mem_of_ne {a pa : ℕ} (h : a ≠ pa) {k : Kmem} {off : ℕ} {src : List UInt8} :
    (k.write pa off src).mem a = k.mem a :=
  update_of_ne h ..

def kfree (k : Kmem) (pa : ℕ) : Except Panic Kmem :=
  if pa < endPage ∨ physPages ≤ pa then .error .kfree
  else if k.referenceCounter pa ≤ 0 then .error .decrementingFreedPage
  else if k.referenceCounter pa = 1 then
    .ok { (k.memset pa 1) with
      referenceCounter := update k.referenceCounter pa 0
      freelist := pa :: k.freelist }
  else .ok { k with
    referenceCounter := update k.referenceCounter pa (k.referenceCounter pa - 1) }

def kalloc (k : Kmem) : Kmem × Option ℕ :=
  match k.freelist with
  | [] => ({ k with failures := k.failures + 1 }, none)
  | r :: rest =>
    ({ (k.memset r 5) with
      freelist := rest
      referenceCounter := update k.referenceCounter r 1 }, some r)

/-- `freerange(end, PHYSTOP)` -/
def freerange (k : Kmem) : Except Panic Kmem :=
  (List.range' endPage (physPages - endPage)).foldlM kfree k

/-- `kinit`, on whatever the memory holds at boot. -/
def kinit (mem : ℕ → ℕ → UInt8) : Except Panic Kmem :=
  freerange { freelist := [], referenceCounter := fun _ => 1, mem, failures := 0 }

/-! ## Accounts -/

def IsPage (pa : ℕ) : Prop := endPage ≤ pa ∧ pa < physPages

abbrev Acct (k : Kmem) (o : Shares ℕ) : Prop := Accounts IsPage k.freelist k.referenceCounter o

/-- `k'` comes from `k` with the pages of `o` untouched, and now `r` is held besides. -/
structure Framed (o r : Shares ℕ) (k k' : Kmem) : Prop where
  acct : Acct k' (o + r)
  mem : ∀ pa ∈ all o, k'.mem pa = k.mem pa
  failures : k.failures ≤ k'.failures

variable {k k' k'' : Kmem} {o q r r' : Shares ℕ} {pa : ℕ}

theorem Framed.refl (h : Acct k (o + r)) : Framed o r k k := ⟨h, fun _ _ => rfl, le_rfl⟩

theorem Framed.trans (h : Framed o r k k') (h' : Framed o r' k' k'') : Framed o r' k k'' where
  acct := h'.acct
  mem pa hpa := (h'.mem pa hpa).trans (h.mem pa hpa)
  failures := h.failures.trans h'.failures

theorem Framed.unframe (h : Framed (o + q) r k k') : Framed o (q + r) k k' where
  acct := by simpa only [add_assoc] using h.acct
  mem pa hpa := h.mem pa (by simp [hpa])
  failures := h.failures

theorem Framed.congr (h : Framed o r k k') (e : r = r') : Framed o r' k k' := e ▸ h

theorem Framed.congrFrame (h : Framed o r k k') (e : o = q) : Framed q r k k' := e ▸ h

theorem Framed.move (h : Framed o r k k') (hacct : Acct k' (o + r) → Acct k' (o + r')) :
    Framed o r' k k' :=
  ⟨hacct h.acct, h.mem, h.failures⟩

theorem Framed.write (h : Framed o r k k') (hpa : pa ∉ all o) (c : ℕ → UInt8) :
    Framed o r k { k' with mem := update k'.mem pa c } where
  acct := h.acct
  mem a ha := by
    have hne : a ≠ pa := fun he => hpa (he ▸ ha)
    show update k'.mem pa c a = _
    rw [update_of_ne hne, h.mem a ha]
  failures := h.failures

theorem kalloc_some (h : Acct k o) (e : kalloc k = (k', some pa)) :
    Framed o ({pa}, 0) k k' ∧ pa ∉ all o := by
  unfold kalloc at e
  split at e
  · simp at e
  · next r rest hl =>
    obtain ⟨rfl, rfl⟩ : _ ∧ r = pa := by simpa using e
    rw [Acct, hl] at h
    have hr : r ∉ all o := ((h.mem_free r).mp (List.mem_cons_self ..)).2
    refine ⟨⟨h.take, fun a ha => ?_, le_rfl⟩, hr⟩
    have hne : a ≠ r := fun he => hr (he ▸ ha)
    exact update_of_ne hne ..

omit [Layout] in
theorem kalloc_eq_none (h : kalloc k = (k', none)) : k.freelist = [] := by
  unfold kalloc at h
  split at h
  · assumption
  · simp at h

omit [Layout] in
theorem mem_freelist_of_kalloc (h : kalloc k = (k', some pa)) : pa ∈ k.freelist := by
  unfold kalloc at h
  split at h
  · simp at h
  · next r rest hf =>
    obtain rfl : r = pa := by simpa using (Prod.mk.inj h).2
    rw [hf]
    exact List.mem_cons_self ..

theorem kalloc_none (h : Framed o r k k') (e : kalloc k' = (k'', none)) :
    Framed o r k k'' ∧ k.failures < k''.failures := by
  unfold kalloc at e
  split at e
  · obtain rfl : _ = k'' := by simpa using e
    exact ⟨⟨h.acct, h.mem, Nat.le_succ_of_le h.failures⟩, Nat.lt_succ_of_le h.failures⟩
  · simp at e

theorem kfree_ok (pa : ℕ) (h : Acct k (o + r)) (hr : all r = {pa}) :
    ∃ k', kfree k pa = .ok k' ∧ Framed o 0 k k' := by
  have hmem : pa ∈ all (o + r) := by simp [hr]
  obtain ⟨h1, h2⟩ := h.valid_of_mem pa hmem
  have hpos := h.count_pos hmem
  unfold kfree
  rw [if_neg (by omega), if_neg (by omega)]
  by_cases hc : k.referenceCounter pa = 1
  · rw [if_pos hc]
    have hacct := h.release_last hr hc
    have hpa : pa ∉ all o := ((hacct.mem_free pa).mp (List.mem_cons_self ..)).2
    refine ⟨_, rfl, by simpa using hacct, fun a ha => ?_, le_rfl⟩
    have hne : a ≠ pa := fun he => hpa (he ▸ ha)
    exact update_of_ne hne ..
  · rw [if_neg hc]
    exact ⟨_, rfl, by simpa using h.release_shared hr hc, fun _ _ => rfl, le_rfl⟩

/-! ## `kinit` -/

/-- What `kinit` leaves: the pages above the kernel are free, the last one first. -/
def initialKmem (mem : ℕ → ℕ → UInt8) : Kmem where
  freelist := (List.range' endPage (physPages - endPage)).reverse
  referenceCounter pa := if endPage ≤ pa ∧ pa < physPages then 0 else 1
  mem pa := if endPage ≤ pa ∧ pa < physPages then fun _ => 1 else mem pa
  failures := 0

theorem foldlM_kfree {n : ℕ} (hn : endPage + n ≤ physPages) (mem : ℕ → ℕ → UInt8) :
    (List.range' endPage n).foldlM kfree
      { freelist := [], referenceCounter := fun _ => 1, mem, failures := 0 } =
      .ok { freelist := (List.range' endPage n).reverse
            referenceCounter := fun pa => if endPage ≤ pa ∧ pa < endPage + n then 0 else 1
            mem := fun pa => if endPage ≤ pa ∧ pa < endPage + n then fun _ => 1 else mem pa
            failures := 0 } := by
  induction n with
  | zero =>
    have hne : ∀ pa, ¬(endPage ≤ pa ∧ pa < endPage + 0) := by omega
    simp only [hne, if_false]
    rfl
  | succ n ih =>
    rw [List.range'_1_concat, List.foldlM_append, ih (by omega)]
    have hstep : ∀ pa, (endPage ≤ pa ∧ pa < endPage + (n + 1)) ↔
        pa = endPage + n ∨ (endPage ≤ pa ∧ pa < endPage + n) := by omega
    simp only [List.foldlM_cons, List.foldlM_nil, List.reverse_append, hstep]
    show (kfree _ (endPage + n) >>= pure) = _
    unfold kfree
    rw [if_neg (by omega), if_neg (by simp), if_pos (by simp)]
    refine congrArg Except.ok ?_
    simp only [Kmem.memset, Kmem.mk.injEq, List.reverse_singleton, List.singleton_append,
      true_and, and_true]
    constructor
    · funext pa
      rw [update_apply, ite_or]
    · funext pa
      rw [update_apply, ite_or]

theorem kinit_eq (mem : ℕ → ℕ → UInt8) : kinit mem = .ok (initialKmem mem) := by
  have hle := Layout.endPage_le
  have h := foldlM_kfree (n := physPages - endPage) (by omega) mem
  rw [show endPage + (physPages - endPage) = physPages by omega] at h
  exact h

theorem initialKmem_acct (mem : ℕ → ℕ → UInt8) : Acct (initialKmem mem) 0 where
  count_eq pa hpa := if_pos hpa
  mem_free pa := by
    have hle := Layout.endPage_le
    simp only [initialKmem, List.mem_reverse, List.mem_range'_1, all_zero, Multiset.notMem_zero,
      not_false_eq_true, and_true, IsPage]
    omega
  nodup := List.nodup_reverse.mpr List.nodup_range'
  valid_of_mem pa hpa := by simp at hpa
  exclusive pa hpa := by simp at hpa

end LazyXv6.Kernel
