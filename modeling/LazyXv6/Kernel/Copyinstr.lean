import LazyXv6.Kernel.CopyBytes

/-!
# `copyinstr` (`vm.c`)

The two loops of `copyinstr` copy page by page, each byte after a test for NUL. `copyinstrLoop_eq`
says that they might as well be one loop over the bytes of the process (`scan`), which stops at the
first NUL, at a page that `walkaddr` does not find, or after `max` bytes.
-/

namespace LazyXv6.Kernel

open Lib

/-- What `copyinstr` has done: the bytes stored from `dst` on, the bytes of physical memory read, by
page and offset, and `got_null`. -/
structure Copied where
  dst : List UInt8
  reads : List (ℕ × ℕ)
  gotNull : Bool
deriving DecidableEq

def Copied.empty : Copied := ⟨[], [], false⟩

def Copied.cons (c : UInt8) (at' : ℕ × ℕ) (r : Copied) : Copied :=
  ⟨c :: r.dst, at' :: r.reads, r.gotNull⟩

def Copied.append (r s : Copied) : Copied := ⟨r.dst ++ s.dst, r.reads ++ s.reads, s.gotNull⟩

/-- The inner loop, over `n` bytes of page `pa0` from offset `off` on. -/
def copyinstrPage (k : Kmem) (pa0 : ℕ) : ℕ → ℕ → Copied
  | 0, _ => .empty
  | n + 1, off =>
    if k.mem pa0 off = 0 then ⟨[0], [(pa0, off)], true⟩
    else .cons (k.mem pa0 off) (pa0, off) (copyinstrPage k pa0 n (off + 1))

/-- The outer loop; each turn takes at least one byte, so `max` turns are enough. It returns 0 if
the NUL was found, and -1 otherwise. -/
def copyinstrLoop (k : Kmem) (pt : PageTable) : ℕ → ℕ → ℕ → Except Panic Copied
  | 0, _, _ => .ok .empty
  | fuel + 1, srcva, max =>
    if max = 0 then .ok .empty
    else do
      match ← walkaddr pt (srcva / pgSize) with
      | none => .ok .empty
      | some pa0 =>
        let n := min (pgSize - srcva % pgSize) max
        let r := copyinstrPage k pa0 n (srcva % pgSize)
        if r.gotNull then .ok r
        else do
          let s ← copyinstrLoop k pt fuel ((srcva / pgSize + 1) * pgSize) (max - n)
          .ok (r.append s)

def copyinstr (k : Kmem) (pt : PageTable) (srcva max : ℕ) : Except Panic Copied :=
  copyinstrLoop k pt max srcva max

/-! ## Byte by byte -/

/-- A page of user memory that `walkaddr` finds: below `MAXVA`, with `PTE_V` and `PTE_U`, and not at
physical page 0. -/
def UserReadable (pt : PageTable) (va : ℕ) : Prop :=
  va / pgSize < maxPage ∧ (pt.pte (va / pgSize)).v = true ∧ (pt.pte (va / pgSize)).u = true ∧
    (pt.pte (va / pgSize)).ppn ≠ 0

instance (pt : PageTable) (va : ℕ) : Decidable (UserReadable pt va) :=
  inferInstanceAs (Decidable (_ ∧ _ ∧ _ ∧ _))

def physical (pt : PageTable) (va : ℕ) : ℕ × ℕ := ((pt.pte (va / pgSize)).ppn, va % pgSize)

/-- `max` bytes from `va` on, up to a NUL. -/
def scan (k : Kmem) (pt : PageTable) : ℕ → ℕ → Copied
  | 0, _ => .empty
  | m + 1, va =>
    if UserReadable pt va then
      if userBytes k pt va = 0 then ⟨[0], [physical pt va], true⟩
      else .cons (userBytes k pt va) (physical pt va) (scan k pt m (va + 1))
    else .empty

variable {k : Kmem} {pt : PageTable} {va m n j : ℕ}

theorem walkaddr_readable (h : UserReadable pt va) :
    walkaddr pt (va / pgSize) = .ok (some (pt.pte (va / pgSize)).ppn) := by
  obtain ⟨hmax, hv, hu, hne⟩ := h
  rw [walkaddr_eq hmax, hv, hu, decide_eq_true hne]
  rfl

theorem walkaddr_not_readable (h : ¬ UserReadable pt va) :
    walkaddr pt (va / pgSize) = .ok none := by
  by_cases hmax : va / pgSize < maxPage
  · rw [walkaddr_eq hmax, if_neg]
    intro hb
    simp only [Bool.and_eq_true, decide_eq_true_eq] at hb
    exact h ⟨hmax, hb.1.1, hb.1.2, hb.2⟩
  · exact if_pos (not_lt.mp hmax)

theorem scan_page (h : UserReadable pt va) (hn : n ≤ pgSize - va % pgSize) (hm : n ≤ m) :
    scan k pt m va =
      let r := copyinstrPage k (pt.pte (va / pgSize)).ppn n (va % pgSize)
      if r.gotNull then r else r.append (scan k pt (m - n) (va + n)) := by
  induction n generalizing va m with
  | zero => rfl
  | succ n ih =>
    obtain ⟨m, rfl⟩ : ∃ m', m = m' + 1 := ⟨m - 1, by omega⟩
    have hbyte : userBytes k pt va = k.mem (pt.pte (va / pgSize)).ppn (va % pgSize) := rfl
    dsimp only
    rw [scan, if_pos h, copyinstrPage, hbyte]
    by_cases hnul : k.mem (pt.pte (va / pgSize)).ppn (va % pgSize) = 0
    · rw [if_pos hnul, if_pos hnul]
      rfl
    rw [if_neg hnul, if_neg hnul]
    cases n with
    | zero => rw [Nat.add_sub_cancel]; rfl
    | succ n =>
      -- the next byte is on the same page
      have hdiv : (va + 1) / pgSize = va / pgSize := by
        unfold pgSize at *
        omega
      have hmod : (va + 1) % pgSize = va % pgSize + 1 := by
        unfold pgSize at *
        omega
      have hnext : UserReadable pt (va + 1) := by
        unfold UserReadable
        rwa [hdiv]
      rw [ih hnext (by omega) (by omega), hdiv, hmod]
      dsimp only
      rw [show m + 1 - (n + 1 + 1) = m - (n + 1) by omega, show va + (n + 1 + 1) =
        va + 1 + (n + 1) by omega]
      cases hr : (copyinstrPage k (pt.pte (va / pgSize)).ppn (n + 1) (va % pgSize + 1)).gotNull with
      | true => rw [if_pos rfl, if_pos (show (Copied.cons _ _ _).gotNull = true from hr)]; rfl
      | false =>
        rw [if_neg Bool.false_ne_true,
          if_neg (show ¬ (Copied.cons _ _ _).gotNull = true by simp [Copied.cons, hr])]
        rfl

theorem copyinstrLoop_eq {fuel : ℕ} (hfuel : m ≤ fuel) :
    copyinstrLoop k pt fuel va m = .ok (scan k pt m va) := by
  induction fuel generalizing va m with
  | zero =>
    obtain rfl := Nat.le_zero.mp hfuel
    rfl
  | succ fuel ih =>
    rw [copyinstrLoop]
    by_cases hm : m = 0
    · rw [if_pos hm, hm]
      rfl
    rw [if_neg hm]
    by_cases hread : UserReadable pt va
    · have hmod : va % pgSize < pgSize := Nat.mod_lt _ (by decide)
      rw [walkaddr_readable hread, ok_bind,
        scan_page (n := min (pgSize - va % pgSize) m) hread (by omega) (by omega)]
      dsimp only
      split
      · rfl
      · rw [ih (by omega), ok_bind]
        -- the rest starts at the next page, unless there is none
        by_cases hlast : m ≤ pgSize - va % pgSize
        · rw [show m - min (pgSize - va % pgSize) m = 0 by omega]
          rfl
        · rw [show va + min (pgSize - va % pgSize) m = (va / pgSize + 1) * pgSize by
            unfold pgSize at *; omega]
    · rw [walkaddr_not_readable hread, ok_bind]
      obtain ⟨m, rfl⟩ : ∃ m', m = m' + 1 := ⟨m - 1, by omega⟩
      rw [scan, if_neg hread]

/-! ## Strings -/

/-- A string of `j` bytes at `va`: they and the NUL behind them are on readable pages. -/
structure StringAt (k : Kmem) (pt : PageTable) (va j : ℕ) : Prop where
  readable : ∀ i ≤ j, UserReadable pt (va + i)
  bytes : ∀ i < j, userBytes k pt (va + i) ≠ 0
  nul : userBytes k pt (va + j) = 0

theorem StringAt.zero_iff : StringAt k pt va 0 ↔ UserReadable pt va ∧ userBytes k pt va = 0 :=
  ⟨fun h => ⟨h.readable 0 le_rfl, h.nul⟩,
    fun h => ⟨fun _ hi => Nat.le_zero.mp hi ▸ h.1, fun i hi => absurd hi (Nat.not_lt_zero i), h.2⟩⟩

theorem StringAt.succ_iff :
    StringAt k pt va (j + 1) ↔ UserReadable pt va ∧ userBytes k pt va ≠ 0 ∧
    StringAt k pt (va + 1) j := by
  have hshift : ∀ i, va + (i + 1) = va + 1 + i := fun i => by omega
  constructor
  · intro h
    refine ⟨h.readable 0 (Nat.zero_le _), h.bytes 0 (Nat.succ_pos j), fun i hi => ?_,
      fun i hi => ?_, ?_⟩
    · exact hshift i ▸ h.readable (i + 1) (by omega)
    · exact hshift i ▸ h.bytes (i + 1) (by omega)
    · exact hshift j ▸ h.nul
  · rintro ⟨hread, hne, h⟩
    refine ⟨fun i hi => ?_, fun i hi => ?_, hshift j ▸ h.nul⟩
    · cases i with
      | zero => exact hread
      | succ i => exact hshift i ▸ h.readable i (by omega)
    · cases i with
      | zero => exact hne
      | succ i => exact hshift i ▸ h.bytes i (by omega)

theorem scan_string (h : StringAt k pt va j) (hj : j < m) :
    (scan k pt m va).gotNull = true ∧ (scan k pt m va).dst = bytesAt k pt va (j + 1) := by
  induction m generalizing va j with
  | zero => exact absurd hj (Nat.not_lt_zero j)
  | succ m ih =>
    rw [scan]
    cases j with
    | zero =>
      obtain ⟨hread, hnul⟩ := StringAt.zero_iff.mp h
      rw [if_pos hread, if_pos hnul]
      refine ⟨rfl, ?_⟩
      show [0] = [userBytes k pt va]
      rw [hnul]
    | succ j =>
      obtain ⟨hread, hne, hrest⟩ := StringAt.succ_iff.mp h
      obtain ⟨hgot, hdst⟩ := ih hrest (by omega)
      rw [if_pos hread, if_neg hne]
      refine ⟨hgot, ?_⟩
      show _ :: (scan k pt m (va + 1)).dst = _
      rw [hdst]
      rfl

theorem exists_string (h : (scan k pt m va).gotNull = true) : ∃ j < m, StringAt k pt va j := by
  induction m generalizing va with
  | zero => exact nomatch h
  | succ m ih =>
    rw [scan] at h
    by_cases hread : UserReadable pt va
    · rw [if_pos hread] at h
      by_cases hnul : userBytes k pt va = 0
      · exact ⟨0, Nat.succ_pos m, StringAt.zero_iff.mpr ⟨hread, hnul⟩⟩
      · rw [if_neg hnul] at h
        obtain ⟨j, hj, hstring⟩ := ih h
        exact ⟨j + 1, by omega, StringAt.succ_iff.mpr ⟨hread, hnul, hstring⟩⟩
    · rw [if_neg hread] at h
      exact nomatch h

theorem scan_reads (k : Kmem) (pt : PageTable) (m va : ℕ) : (scan k pt m va).dst.length ≤ m ∧
      ∀ x ∈ (scan k pt m va).reads, ∃ va, UserReadable pt va ∧ x = physical pt va := by
  induction m generalizing va with
  | zero => exact ⟨le_rfl, fun x hx => nomatch hx⟩
  | succ m ih =>
    obtain ⟨hlen, hmem⟩ := ih (va + 1)
    rw [scan]
    by_cases hread : UserReadable pt va
    · rw [if_pos hread]
      split
      · refine ⟨by simp, fun x hx => ⟨va, hread, List.mem_singleton.mp hx⟩⟩
      · refine ⟨Nat.succ_le_succ hlen, fun x hx => ?_⟩
        rcases List.mem_cons.mp hx with rfl | hx
        · exact ⟨va, hread, rfl⟩
        · exact hmem x hx
    · rw [if_neg hread]
      exact ⟨Nat.zero_le _, fun x hx => nomatch hx⟩

/-- **`copyinstr` returns the user string**: it succeeds if and only if a string of fewer than `max`
bytes and its NUL lie on readable pages, and then stores it and nothing behind it. In every case it
stores at most `max` bytes and reads readable pages only. -/
theorem copyinstr_exact (k : Kmem) (pt : PageTable) (srcva max : ℕ) :
    ∃ r, copyinstr k pt srcva max = .ok r ∧
      (r.gotNull = true ↔ ∃ j < max, StringAt k pt srcva j) ∧
      (∀ j < max, StringAt k pt srcva j → r.dst = bytesAt k pt srcva (j + 1)) ∧
      r.dst.length ≤ max ∧
      ∀ x ∈ r.reads, ∃ va, UserReadable pt va ∧ x = physical pt va := by
  obtain ⟨hlen, hreads⟩ := scan_reads k pt max srcva
  refine ⟨_, copyinstrLoop_eq le_rfl, ⟨exists_string, ?_⟩, fun j hj h => (scan_string h hj).2,
    hlen, hreads⟩
  rintro ⟨j, hj, h⟩
  exact (scan_string h hj).1

def mapsPageZero : PageTable :=
    .node 1 fun _ => .node 2 fun _ => .leaf 3 fun _ => { v := true, u := true, r := true }

/-- `walkaddr` returns 0 for a page that is mapped to physical page 0, and `copyinstr` fails. -/
theorem copyinstr_page_zero :
    let k : Kmem := ⟨[], fun _ => 0, fun _ _ => 0, 0⟩
    (mapsPageZero.pte 0).v = true ∧ (mapsPageZero.pte 0).u = true ∧ userBytes k mapsPageZero 0 = 0 ∧
      copyinstr k mapsPageZero 0 1 = .ok .empty := by
  exact ⟨rfl, rfl, rfl, rfl⟩

end LazyXv6.Kernel
