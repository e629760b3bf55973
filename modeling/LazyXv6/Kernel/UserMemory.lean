import LazyXv6.Kernel.Vm

/-!
# Rules for user memory

`UserMem o tf k₀ k pt n`: in `k`, reached from `k₀`, the table `pt` maps the user pages `0 .. n - 1`
and nothing else below the trapframe, and its holdings are accounted for next to the frame `o`. The
`image` is the pages as user code sees them, where a copy-on-write page counts as writable.
-/

namespace LazyXv6.Kernel

open Lib Lib.Shares

variable [Layout]

structure Pte.Leaf (p : Pte) : Prop where
  valid : p.v = true
  readable : p.r = true
  cow : p.cow = true → p.w = false

/-- Leaf entries with the user pages `0 .. n - 1`, the trapframe page `tf` and the trampoline. -/
structure Wf (g : ℕ → Pte) (n tf : ℕ) : Prop where
  leaf : ∀ v < n, (g v).Leaf
  inj : ∀ u < n, ∀ v < n, (g u).ppn = (g v).ppn → u = v
  trapframe : g trapframePage = { v := true, r := true, w := true, ppn := tf }
  trampoline : g trampolinePage = { v := true, r := true, x := true, ppn := Layout.trampoline }
  rest : ∀ v, n ≤ v → v ≠ trapframePage → v ≠ trampolinePage → (g v).v = false
  le : n ≤ trapframePage

/-- What a page table with `n` user pages holds. -/
def PageTable.owned (pt : PageTable) (n : ℕ) : Shares ℕ := pt.tabs + maps pt.pte 0 n

structure UserMem (o : Shares ℕ) (tf : ℕ) (k₀ k : Kmem) (pt : PageTable) (n : ℕ) : Prop where
  framed : Framed o (pt.owned n) k₀ k
  wf : Wf pt.pte n tf

/-- A user page as user code sees it; `w` says that a store succeeds, at once or after a fault. -/
structure Page where
  r : Bool
  w : Bool
  x : Bool
  u : Bool
  bytes : ℕ → UInt8

def Pte.page (k : Kmem) (p : Pte) : Page := ⟨p.r, p.w || p.cow, p.x, p.u, k.mem p.ppn⟩

def image (k : Kmem) (g : ℕ → Pte) (n : ℕ) : ℕ → Option Page :=
  fun v => if v < n then some ((g v).page k) else none

def pagesOf (sz : ℕ) : ℕ := (sz + pgSize - 1) / pgSize

variable {k k₀ k' k'' : Kmem} {pt pt' : PageTable} {o q r : Shares ℕ} {g g' : ℕ → Pte}
  {a b n m tf u v va sz pa : ℕ} {p : Pte} {perm : Perm}

/-! ## Arithmetic of sizes -/

omit [Layout] in
@[simp] theorem pagesOf_mul (v : ℕ) : pagesOf (v * pgSize) = v := by
  unfold pagesOf pgSize
  omega

omit [Layout] in
@[simp] theorem pagesOf_zero : pagesOf 0 = 0 := rfl

omit [Layout] in
theorem pgRoundUp_eq (h : sz < 2 ^ 63) : pgRoundUp sz = pagesOf sz * pgSize := by
  unfold pgRoundUp pagesOf
  rw [Nat.mod_eq_of_lt (by unfold pgSize; omega)]

omit [Layout] in
theorem throughInt_eq (h : n < 2 ^ 31) : throughInt n = n := by
  unfold throughInt
  rw [if_pos (by omega), Nat.mod_eq_of_lt (by omega)]

omit [Layout] in
theorem lt_of_pagesOf_le (h : pagesOf sz ≤ 0x8000) : sz < 2 ^ 63 := by
  unfold pagesOf pgSize at h
  omega

omit [Layout] in
theorem div_lt_pagesOf (h : va < sz) : va / pgSize < pagesOf sz := by
  unfold pagesOf pgSize
  omega

omit [Layout] in
theorem lt_pagesOf (h : v * pgSize < sz) : v < pagesOf sz := by
  unfold pagesOf pgSize at *
  omega

omit [Layout] in
theorem trapframePage_lt : trapframePage < maxPage := by decide

/-! ## Sums of holdings -/

theorem acct_congr (h : Acct k o) (e : o = q) : Acct k q := e ▸ h

omit [Layout] in
theorem maps_congr (g' : ℕ → Pte) (h : ∀ v, a ≤ v → v < b → g v = g' v) :
    maps g a b = maps g' a b :=
  Finset.sum_congr rfl fun v hv => by
    rw [Finset.mem_Ico] at hv
    rw [h v hv.1 hv.2]

omit [Layout] in
theorem maps_succ (g : ℕ → Pte) (n : ℕ) : maps g 0 (n + 1) = maps g 0 n + (g n).own :=
  Finset.sum_Ico_succ_top (Nat.zero_le n) _

omit [Layout] in
theorem maps_append (g : ℕ → Pte) (h : m ≤ n) : maps g 0 n = maps g 0 m + maps g m n :=
  (Finset.sum_Ico_consecutive _ (Nat.zero_le m) h).symm

omit [Layout] in
@[simp] theorem maps_self (g : ℕ → Pte) (a : ℕ) : maps g a a = 0 := by
  unfold maps
  rw [Finset.Ico_self, Finset.sum_empty]

omit [Layout] in
@[simp] theorem maps_one (g : ℕ → Pte) (v : ℕ) : maps g v (v + 1) = (g v).own := by
  unfold maps
  rw [Nat.Ico_succ_singleton, Finset.sum_singleton]

omit [Layout] in
theorem maps_update (g : ℕ → Pte) (hv : v < n) :
    ∃ m, maps g 0 n = m + (g v).own ∧ (∀ p, maps (Function.update g v p) 0 n = m + p.own) ∧
      ∀ u < n, u ≠ v → (g u).v = true → (g u).ppn ∈ all m := by
  have hmem : v ∈ Finset.Ico 0 n := Finset.mem_Ico.mpr ⟨Nat.zero_le v, hv⟩
  refine ⟨∑ u ∈ (Finset.Ico 0 n).erase v, (g u).own, ?_, fun p => ?_, fun u hu hne hval => ?_⟩
  · unfold maps
    rw [Finset.sum_erase_add _ _ hmem]
  · have hrest : ∀ u ∈ (Finset.Ico 0 n).erase v, (Function.update g v p u).own = (g u).own := by
      intro u hu
      rw [Function.update_of_ne (Finset.ne_of_mem_erase hu)]
    unfold maps
    rw [← Finset.sum_erase_add _ _ hmem, Finset.sum_congr rfl hrest, Function.update_self]
  · have hu' : u ∈ (Finset.Ico 0 n).erase v :=
      Finset.mem_erase.mpr ⟨hne, Finset.mem_Ico.mpr ⟨Nat.zero_le u, hu⟩⟩
    rw [← Finset.add_sum_erase _ _ hu', all_add, Pte.all_own hval]
    simp

omit [Layout] in
theorem mem_all_maps (hv : v < n) (h : (g v).v = true) : (g v).ppn ∈ all (maps g 0 n) := by
  obtain ⟨m, hm, _, _⟩ := maps_update g hv
  rw [hm, all_add, Pte.all_own h]
  simp

omit [Layout] in
theorem mem_all_owned (hv : v < n) (h : (pt.pte v).v = true) :
    (pt.pte v).ppn ∈ all (pt.owned n) := by
  unfold PageTable.owned
  rw [all_add]
  exact Multiset.mem_add.mpr (.inr (mem_all_maps hv h))

/-! ## Well-formed leaf entries -/

/-- Distinct pages map distinct frames, so there are no more pages than frames. -/
theorem Wf.bound (h : Wf pt.pte n tf) (ha : Acct k (o + pt.owned n)) : n ≤ 0x8000 := by
  have hle := Layout.kernBase_le
  have hpage : ∀ v < n, endPage ≤ (pt.pte v).ppn ∧ (pt.pte v).ppn < physPages := by
    intro v hv
    refine ha.valid_of_mem _ ?_
    rw [all_add]
    exact Multiset.mem_add.mpr (.inr (mem_all_owned hv (h.leaf v hv).valid))
  have hcard := Finset.card_le_card_of_injOn (s := Finset.range n)
    (t := Finset.Ico endPage physPages) (fun v => (pt.pte v).ppn)
    (fun v hv => by
      have := hpage v (by simpa using hv)
      simpa using this)
    (fun u hu v hv he => h.inj u (by simpa using hu) v (by simpa using hv) he)
  rw [Finset.card_range, Nat.card_Ico] at hcard
  have hphys : physPages = 0x88000 := rfl
  omega

theorem UserMem.bound (h : UserMem o tf k₀ k pt n) : n ≤ 0x8000 := h.wf.bound h.framed.acct

theorem UserMem.lt_maxPage (h : UserMem o tf k₀ k pt n) : n < maxPage := by
  have hb := h.bound
  have hmax : maxPage = 0x4000000 := rfl
  omega

theorem UserMem.lt_trapframePage (h : UserMem o tf k₀ k pt n) : n < trapframePage := by
  have hb := h.bound
  have htf : trapframePage = 0x3fffffe := rfl
  omega

theorem UserMem.ppn_ne_zero (h : UserMem o tf k₀ k pt n) (hv : v < n) : (pt.pte v).ppn ≠ 0 := by
  have hmem : (pt.pte v).ppn ∈ all (o + pt.owned n) := by
    rw [all_add]
    exact Multiset.mem_add.mpr (.inr (mem_all_owned hv (h.wf.leaf v hv).valid))
  have h1 := (h.framed.acct.valid_of_mem _ hmem).1
  have h2 := Layout.kernBase_le
  omega

theorem UserMem.walkaddr (h : UserMem o tf k₀ k pt n) (hv : v < n) (hu : (pt.pte v).u = true) :
    walkaddr pt v = .ok (some (pt.pte v).ppn) := by
  rw [walkaddr_eq (hv.trans h.lt_maxPage), (h.wf.leaf v hv).valid, hu,
    decide_eq_true (h.ppn_ne_zero hv)]
  rfl

theorem UserMem.ne_absent (h : UserMem o tf k₀ k pt n) : pt ≠ .absent :=
  PageTable.ne_absent_of_v (v := trapframePage) (by rw [h.wf.trapframe])

theorem Wf.not_user (h : Wf g n tf) (hv : n ≤ v) : ((g v).v && (g v).u) = false := by
  by_cases h1 : v = trapframePage
  · rw [h1, h.trapframe]
    rfl
  · by_cases h2 : v = trampolinePage
    · rw [h2, h.trampoline]
      rfl
    · rw [h.rest v hv h1 h2]
      rfl

omit [Layout] in
theorem trampolinePage_ne (h : v ≤ trapframePage) : v ≠ trampolinePage := by
  have h1 : trapframePage = 0x3fffffe := rfl
  have h2 : trampolinePage = 0x3ffffff := rfl
  omega

theorem Wf.mapped (h : Wf g n tf) (v : ℕ) :
    ((g v).v = true ↔ v < n ∨ v = trapframePage ∨ v = trampolinePage) ∧
      ((g v).v = true → (g v).r = true) := by
  by_cases hv : v < n
  · have hleaf := h.leaf v hv
    exact ⟨iff_of_true hleaf.valid (.inl hv), fun _ => hleaf.readable⟩
  by_cases h1 : v = trapframePage
  · rw [h1, h.trapframe]
    exact ⟨iff_of_true rfl (.inr (.inl rfl)), fun _ => rfl⟩
  by_cases h2 : v = trampolinePage
  · rw [h2, h.trampoline]
    exact ⟨iff_of_true rfl (.inr (.inr rfl)), fun _ => rfl⟩
  have hnot := h.rest v (by omega) h1 h2
  refine ⟨iff_of_false (by simp [hnot]) ?_, fun hval => ?_⟩
  · rintro (hlt | he | he)
    exacts [hv hlt, h1 he, h2 he]
  · rw [hnot] at hval
    exact absurd hval Bool.false_ne_true

theorem Wf.grow (h : Wf g n tf) (hn : n < trapframePage) (hl : p.Leaf)
    (hp : ∀ v < n, (g v).ppn ≠ p.ppn) : Wf (Function.update g n p) (n + 1) tf := by
  have hlt : ∀ v, v < n → Function.update g n p v = g v := fun v hv =>
    Function.update_of_ne (by omega) ..
  have htr := trampolinePage_ne hn.le
  refine ⟨fun v hv => ?_, fun u hu v hv he => ?_, ?_, ?_, fun v hv h1 h2 => ?_, hn⟩
  · rcases Nat.lt_succ_iff_lt_or_eq.mp hv with hv | rfl
    · rw [hlt v hv]
      exact h.leaf v hv
    · rw [Function.update_self]
      exact hl
  · rcases Nat.lt_succ_iff_lt_or_eq.mp hu with hu | rfl <;>
      rcases Nat.lt_succ_iff_lt_or_eq.mp hv with hv | rfl
    · rw [hlt u hu, hlt v hv] at he
      exact h.inj u hu v hv he
    · rw [hlt u hu, Function.update_self] at he
      exact absurd he (hp u hu)
    · rw [hlt v hv, Function.update_self] at he
      exact absurd he.symm (hp v hv)
    · rfl
  · rw [Function.update_of_ne (by omega)]
    exact h.trapframe
  · rw [Function.update_of_ne htr.symm]
    exact h.trampoline
  · rw [Function.update_of_ne (by omega)]
    exact h.rest v (by omega) h1 h2

theorem Wf.update (h : Wf g n tf) (hv : v < n) (hl : p.Leaf)
    (hp : ∀ u < n, u ≠ v → (g u).ppn ≠ p.ppn) : Wf (Function.update g v p) n tf := by
  have hle := h.le
  have htr := trampolinePage_ne (v := v) (by omega)
  refine ⟨fun u hu => ?_, fun u hu w hw he => ?_, ?_, ?_, fun u hu h1 h2 => ?_, hle⟩
  · by_cases h1 : u = v
    · rw [h1, Function.update_self]
      exact hl
    · rw [Function.update_of_ne h1]
      exact h.leaf u hu
  · by_cases h1 : u = v <;> by_cases h2 : w = v
    · rw [h1, h2]
    · rw [h1, Function.update_self, Function.update_of_ne h2] at he
      exact absurd he.symm (hp w hw h2)
    · rw [h2, Function.update_self, Function.update_of_ne h1] at he
      exact absurd he (hp u hu h1)
    · rw [Function.update_of_ne h1, Function.update_of_ne h2] at he
      exact h.inj u hu w hw he
  · rw [Function.update_of_ne (by omega)]
    exact h.trapframe
  · rw [Function.update_of_ne htr.symm]
    exact h.trampoline
  · rw [Function.update_of_ne (by omega)]
    exact h.rest u hu h1 h2

theorem Wf.shrink (h : Wf g n tf) (hm : m ≤ n) : Wf (cleared g m n) m tf := by
  have hle := h.le
  have hlt : ∀ v < m, cleared g m n v = g v := fun v hv => if_neg (by omega)
  have hge : ∀ v, n ≤ v → cleared g m n v = g v := fun v hv => if_neg (by omega)
  have htr : n ≤ trampolinePage := hle.trans (by decide)
  refine ⟨fun v hv => ?_, fun u hu v hv he => ?_, ?_, ?_, fun v hv h1 h2 => ?_, hm.trans hle⟩
  · rw [hlt v hv]
    exact h.leaf v (by omega)
  · rw [hlt u hu, hlt v hv] at he
    exact h.inj u (by omega) v (by omega) he
  · rw [hge _ hle]
    exact h.trapframe
  · rw [hge _ htr]
    exact h.trampoline
  · by_cases hvn : v < n
    · have hdef : cleared g m n v = default := if_pos ⟨hv, hvn⟩
      rw [hdef]
      rfl
    · rw [hge v (by omega)]
      exact h.rest v (by omega) h1 h2

/-! ## Images -/

omit [Layout] in
theorem image_congr (h : ∀ v < n, (g' v).page k' = (g v).page k) : image k' g' n = image k g n := by
  funext v
  unfold image
  by_cases hv : v < n
  · rw [if_pos hv, if_pos hv, h v hv]
  · rw [if_neg hv, if_neg hv]

omit [Layout] in
theorem image_of_lt (hv : v < n) : image k g n v = some ((g v).page k) := if_pos hv

omit [Layout] in
theorem image_of_ge (hv : n ≤ v) : image k g n v = none := if_neg (by omega)

def truncated (img : ℕ → Option Page) (m : ℕ) : ℕ → Option Page :=
  fun v => if v < m then img v else none

omit [Layout] in
theorem truncated_image (h : m ≤ n) : truncated (image k g n) m = image k g m := by
  funext v
  unfold truncated image
  by_cases hv : v < m
  · rw [if_pos hv, if_pos hv, if_pos (by omega)]
  · rw [if_neg hv, if_neg hv]

omit [Layout] in
theorem truncated_update {img : ℕ → Option Page} {x : Option Page} (h : m ≤ n) :
    truncated (Function.update img n x) m = truncated img m := by
  funext v
  unfold truncated
  by_cases hv : v < m
  · rw [if_pos hv, if_pos hv, Function.update_of_ne (by omega)]
  · rw [if_neg hv, if_neg hv]

theorem UserMem.page_eq (h : UserMem o tf k₀ k pt n) (hf : Framed (q + maps pt.pte 0 n) r k k')
    (hv : v < n) : (pt.pte v).page k' = (pt.pte v).page k := by
  have hmem : (pt.pte v).ppn ∈ all (q + maps pt.pte 0 n) := by
    rw [all_add]
    exact Multiset.mem_add.mpr (.inr (mem_all_maps hv (h.wf.leaf v hv).valid))
  unfold Pte.page
  rw [hf.mem _ hmem]

theorem UserMem.self (h : UserMem o tf k₀ k pt n) : UserMem o tf k k pt n :=
  ⟨Framed.refl h.framed.acct, h.wf⟩

theorem UserMem.trans (h : UserMem o tf k₀ k pt n) (h' : UserMem o tf k k' pt' m) :
    UserMem o tf k₀ k' pt' m :=
  ⟨h.framed.trans h'.framed, h'.wf⟩

theorem UserMem.acct (h : UserMem o tf k₀ k pt n) : Acct k (o + pt.owned n) := h.framed.acct

theorem UserMem.of_framed (h : UserMem o tf k₀ k pt n)
    (hf : Framed (o + maps pt.pte 0 n) pt'.tabs k k') (hpte : pt'.pte = pt.pte) :
    UserMem o tf k₀ k' pt' n ∧ image k' pt'.pte n = image k pt.pte n := by
  refine ⟨⟨h.framed.trans (hf.unframe.congr ?_), ?_⟩, ?_⟩
  · unfold PageTable.owned
    rw [hpte, add_comm]
  · rw [hpte]
    exact h.wf
  · rw [hpte]
    exact image_congr fun v hv => h.page_eq hf hv

/-! ## Growing and shrinking -/

/-- A fresh page is mapped after the last user page, or given back if there is no memory for the
tables. -/
theorem UserMem.grow_page {k1 : Kmem} (perm : Perm) (c : UInt8) (h : UserMem o tf k₀ k pt n)
    (hk : kalloc k = (k1, some pa)) (hr : perm.r = true) (hc : perm.cow = false) :
    ∃ (k2 : Kmem) (pt2 : PageTable),
        (mappages (k1.memset pa c) pt (n * pgSize) pgSize pa perm = .ok (k2, pt2, true) ∧
        UserMem o tf k₀ k2 pt2 (n + 1) ∧
        image k2 pt2.pte (n + 1) =
          Function.update (image k pt.pte n) n (some ⟨true, perm.w, perm.x, perm.u, fun _ => c⟩) ∧
        pt2.pte = Function.update pt.pte n (perm.entry pa)) ∨
      (mappages (k1.memset pa c) pt (n * pgSize) pgSize pa perm = .ok (k2, pt2, false) ∧
        ∃ k3, kfree k2 pa = .ok k3 ∧ UserMem o tf k₀ k3 pt2 n ∧
          image k3 pt2.pte n = image k pt.pte n ∧ k₀.failures < k3.failures ∧ pt2.pte = pt.pte) := by
  obtain ⟨hf, hpa⟩ := kalloc_some h.acct hk
  have hf1 : Framed (o + maps pt.pte 0 n) (pt.tabs + ({pa}, 0)) k (k1.memset pa c) :=
    ((hf.write hpa _).congrFrame (by unfold PageTable.owned; abel)).unframe
  have hn := h.lt_trapframePage
  have hfree := h.wf.rest n le_rfl (by omega) (trampolinePage_ne hn.le)
  obtain ⟨k2, pt2, hf2, hne, hmap⟩ := mappages_page pa perm
    (o := o + maps pt.pte 0 n + ({pa}, 0)) h.lt_maxPage h.ne_absent hfree
    (acct_congr hf1.acct (by abel))
  have hf12 : Framed (o + maps pt.pte 0 n) (({pa}, 0) + pt2.tabs) k k2 := hf1.trans hf2.unframe
  refine ⟨k2, pt2, ?_⟩
  rcases hmap with ⟨he, hpte⟩ | ⟨he, hpte, hlt⟩
  · have hlt : ∀ v, v < n → pt2.pte v = pt.pte v := by
      intro v hv
      rw [hpte, Function.update_of_ne (by omega)]
    have hown : Framed (o + maps pt.pte 0 n) ((pt2.pte n).own + pt2.tabs) k k2 := by
      rw [hpte, Function.update_self]
      cases hw : perm.w with
      | true =>
        rw [Pte.own_of_w rfl hw]
        exact hf12
      | false =>
        rw [Pte.own_of_not_w rfl hw]
        refine hf12.move fun ha => ?_
        have hd := Accounts.demote
          (acct_congr ha (q := o + maps pt.pte 0 n + pt2.tabs + ({pa}, 0)) (by abel))
        exact acct_congr hd (by rw [show (perm.entry pa).ppn = pa from rfl]; abel)
    refine .inl ⟨he, ⟨h.framed.trans (hown.unframe.congr ?_), ?_⟩, ?_, hpte⟩
    · unfold PageTable.owned
      rw [maps_succ, maps_congr pt.pte fun v _ hv => hlt v hv]
      abel
    · rw [hpte]
      have hcow : (perm.entry pa).cow = false := hc
      refine h.wf.grow hn ⟨rfl, hr, by simp [hcow]⟩ fun v hv he => hpa ?_
      rw [all_add, Multiset.mem_add]
      have hmem := mem_all_owned hv (h.wf.leaf v hv).valid
      rw [show (pt.pte v).ppn = pa from he] at hmem
      exact .inr hmem
    · funext v
      unfold image
      rcases Nat.lt_trichotomy v n with hv | rfl | hv
      · rw [if_pos (by omega), Function.update_of_ne (by omega), if_pos hv, hlt v hv, h.page_eq hf12 hv]
      · have hmem : k2.mem pa = fun _ => c := by
          rw [hf2.mem pa (by simp)]
          exact Function.update_self ..
        rw [if_pos (by omega), Function.update_self, hpte, Function.update_self]
        unfold Pte.page Perm.entry
        simp only [hr, hc, Bool.or_false, hmem]
      · rw [if_neg (by omega), Function.update_of_ne (by omega), if_neg (by omega)]
  · obtain ⟨k3, hk3, hf3⟩ := kfree_ok pa (k := k2) (o := o + maps pt.pte 0 n + pt2.tabs)
      (r := ({pa}, 0)) (acct_congr hf12.acct (by abel)) rfl
    have hf13 : Framed (o + maps pt.pte 0 n) pt2.tabs k k3 :=
      hf12.trans (hf3.unframe.congr (add_zero _))
    obtain ⟨hum, him⟩ := h.of_framed hf13 hpte
    refine .inr ⟨he, k3, hk3, hum, him, ?_, hpte⟩
    have h1 := h.framed.failures
    have h2 := hf1.failures
    have h3 := hf3.failures
    omega

theorem UserMem.unmap (h : UserMem o tf k₀ k pt n) (hm : m ≤ n) :
    ∃ (k' : Kmem) (pt' : PageTable), uvmunmap k pt (m * pgSize) (n - m) true = .ok (k', pt') ∧
      UserMem o tf k₀ k' pt' m ∧ image k' pt'.pte m = image k pt.pte m ∧
      ∀ v < m, pt'.pte v = pt.pte v := by
  have hmn : m + (n - m) = n := by omega
  obtain ⟨k', pt', he, hf, ht, hp, _⟩ := uvmunmap_ok pt (k := k) (v := m) (n := n - m)
    (o := o + pt.tabs + maps pt.pte 0 m) (by have := h.lt_maxPage; omega)
    (fun u _ hu => ⟨(h.wf.leaf u (by omega)).valid, (h.wf.leaf u (by omega)).readable⟩)
    (by
      rw [hmn]
      refine acct_congr h.acct ?_
      unfold PageTable.owned
      rw [maps_append pt.pte hm]
      abel)
  rw [hmn] at hp
  have hlt : ∀ v < m, pt'.pte v = pt.pte v := by
    intro v hv
    rw [hp]
    exact if_neg (by omega)
  refine ⟨k', pt', he, ⟨h.framed.trans ((hf.congrFrame (add_assoc ..)).unframe.congr ?_), ?_⟩, ?_,
    hlt⟩
  · unfold PageTable.owned
    rw [ht, maps_congr pt.pte fun v _ hv => hlt v hv, add_zero]
  · rw [hp]
    exact h.wf.shrink hm
  · refine image_congr fun v hv => ?_
    have hmem : (pt.pte v).ppn ∈ all (o + pt.tabs + maps pt.pte 0 m) := by
      rw [all_add]
      exact Multiset.mem_add.mpr (.inr (mem_all_maps hv (h.wf.leaf v (by omega)).valid))
    rw [hlt v hv]
    unfold Pte.page
    rw [hf.mem _ hmem]

/-- **`uvmdealloc`** drops the pages above the new size. -/
theorem uvmdealloc_ok (sz : ℕ) (h : UserMem o tf k₀ k pt (pagesOf sz)) (newsz : ℕ) :
    ∃ (k' : Kmem) (pt' : PageTable),
      uvmdealloc k pt sz newsz = .ok (k', pt', min sz newsz) ∧
      UserMem o tf k₀ k' pt' (pagesOf (min sz newsz)) ∧
      image k' pt'.pte (pagesOf (min sz newsz)) = image k pt.pte (pagesOf (min sz newsz)) ∧
      ∀ v < pagesOf (min sz newsz), pt'.pte v = pt.pte v := by
  unfold uvmdealloc
  by_cases hle : sz ≤ newsz
  · rw [if_pos hle, Nat.min_eq_left hle]
    exact ⟨k, pt, rfl, h, rfl, fun _ _ => rfl⟩
  · have hsz := lt_of_pagesOf_le h.bound
    have hp : pagesOf newsz ≤ pagesOf sz := Nat.div_le_div_right (by omega)
    rw [if_neg hle, Nat.min_eq_right (by omega), pgRoundUp_eq hsz, pgRoundUp_eq (by omega)]
    by_cases hlt : pagesOf newsz * pgSize < pagesOf sz * pgSize
    · have hb := h.bound
      have hcount : throughInt ((pagesOf sz * pgSize - pagesOf newsz * pgSize) / pgSize) =
          pagesOf sz - pagesOf newsz := by
        rw [← Nat.sub_mul, Nat.mul_div_cancel _ (by decide), throughInt_eq (by omega)]
      obtain ⟨k', pt', he, hum, him, hkept⟩ := h.unmap hp
      rw [if_pos hlt, hcount]
      refine ⟨k', pt', ?_, hum, him, hkept⟩
      simp only [he, ok_bind]
    · have heq : pagesOf newsz = pagesOf sz := by
        unfold pgSize at hlt
        omega
      rw [if_neg hlt, heq]
      exact ⟨k, pt, rfl, h, rfl, fun _ _ => rfl⟩

/-- An image with the pages `a .. b - 1` added. -/
def extended (img : ℕ → Option Page) (a b : ℕ) (page : Page) : ℕ → Option Page :=
  fun v => if a ≤ v ∧ v < b then some page else img v

/-- A page as `uvmalloc` makes it. -/
def zeroPage (xperm : Perm) : Page := ⟨true, xperm.w, xperm.x, true, fun _ => 0⟩

/-- Entries with the pages `a .. b - 1` added, as `uvmalloc` makes them. -/
structure Grown (xperm : Perm) (g g' : ℕ → Pte) (a b : ℕ) : Prop where
  kept : ∀ v < a, g' v = g v
  added : ∀ v, a ≤ v → v < b → (g' v).toPerm = { xperm with v := true, r := true, u := true }

omit [Layout] in
theorem Grown.refl (xperm : Perm) (g : ℕ → Pte) (n : ℕ) : Grown xperm g g n n :=
  ⟨fun _ _ => rfl, fun v h1 h2 => absurd h2 (by omega)⟩

omit [Layout] in
theorem Grown.succ {xperm : Perm} {g₁ : ℕ → Pte}
    (h : g₁ = Function.update g n (Perm.entry { xperm with r := true, u := true } pa))
    (h' : Grown xperm g₁ g' (n + 1) b) (hb : n < b) : Grown xperm g g' n b := by
  refine ⟨fun v hv => ?_, fun v h1 h2 => ?_⟩
  · rw [h'.kept v (by omega), h, Function.update_of_ne (by omega)]
  · rcases eq_or_ne v n with rfl | hne
    · rw [h'.kept v (by omega), h, Function.update_self]
      rfl
    · exact h'.added v (by omega) h2

theorem uvmallocLoop_ok {xperm : Perm} (hx : xperm.cow = false) (hm : m ≤ n)
    (h : UserMem o tf k₀ k pt n) (i : ℕ) : ∃ (k' : Kmem) (pt' : PageTable),
      (uvmallocLoop xperm (m * pgSize) i k pt n = .ok (k', pt', true) ∧
        UserMem o tf k₀ k' pt' (n + i) ∧
        image k' pt'.pte (n + i) = extended (image k pt.pte n) n (n + i) (zeroPage xperm) ∧
        Grown xperm pt.pte pt'.pte n (n + i) ∧
        ∀ v, n ≤ v → v < n + i → (pt'.pte v).ppn ∉ all o) ∨
      (uvmallocLoop xperm (m * pgSize) i k pt n = .ok (k', pt', false) ∧
        UserMem o tf k₀ k' pt' m ∧ image k' pt'.pte m = image k pt.pte m ∧
        k₀.failures < k'.failures ∧ ∀ v < m, pt'.pte v = pt.pte v) := by
  induction i generalizing k pt n with
  | zero =>
    refine ⟨k, pt, .inl ⟨rfl, h, ?_, .refl .., fun v h1 h2 => absurd h2 (by omega)⟩⟩
    funext v
    exact (if_neg (by omega)).symm
  | succ i ih =>
    -- both failures free what the loop has allocated so far
    have hundo : ∀ {k1 : Kmem} {pt1 : PageTable}, UserMem o tf k₀ k1 pt1 n →
        image k1 pt1.pte n = image k pt.pte n → k₀.failures < k1.failures → pt1.pte = pt.pte →
        ∃ (k' : Kmem) (pt' : PageTable), uvmdealloc k1 pt1 (n * pgSize) (m * pgSize) =
          .ok (k', pt', m * pgSize) ∧
          UserMem o tf k₀ k' pt' m ∧ image k' pt'.pte m = image k pt.pte m ∧
          k₀.failures < k'.failures ∧ ∀ v < m, pt'.pte v = pt.pte v := by
      intro k1 pt1 h1 him hlt hpte
      have hmin : min (n * pgSize) (m * pgSize) = m * pgSize :=
        Nat.min_eq_right (Nat.mul_le_mul_right _ hm)
      obtain ⟨k', pt', he, hum, hi, hkept⟩ := uvmdealloc_ok (n * pgSize)
        (by rw [pagesOf_mul]; exact h1.self) (m * pgSize)
      rw [hmin, pagesOf_mul] at hum hi hkept
      rw [hmin] at he
      rw [hpte] at hkept
      refine ⟨k', pt', he, h1.trans hum, ?_, hlt.trans_le hum.framed.failures, hkept⟩
      rw [hi, ← truncated_image hm, him, truncated_image hm]
    rcases hk : kalloc k with ⟨k1, _ | pa⟩
    · have hacct : Acct k (o + maps pt.pte 0 n + pt.tabs) :=
        acct_congr h.acct (by unfold PageTable.owned; abel)
      obtain ⟨hf, hlt⟩ := kalloc_none (Framed.refl hacct) hk
      obtain ⟨h1, him⟩ := h.of_framed hf rfl
      obtain ⟨k', pt', he, hum, hi, hlt'⟩ := hundo h1 him (h.framed.failures.trans_lt hlt) rfl
      refine ⟨k', pt', .inr ⟨?_, hum, hi, hlt'⟩⟩
      rw [uvmallocLoop, hk]
      simp only [he, ok_bind]
    · obtain ⟨k2, pt2, ⟨he, h2, him, hpte⟩ | ⟨he, k3, hk3, h3, him, hlt, hpte⟩⟩ :=
        h.grow_page { xperm with r := true, u := true } 0 hk rfl hx
      · obtain ⟨k', pt', ⟨he', hum, hi, hgrown, hfresh⟩ | ⟨he', hum, hi, hlt, hkept⟩⟩ :=
          ih (hm.trans (Nat.le_succ n)) h2
        · have hni : n + 1 + i = n + (i + 1) := by omega
          rw [hni] at hum hi hgrown hfresh
          refine ⟨k', pt', .inl ⟨?_, hum, ?_, hgrown.succ hpte (by omega), fun v h1 h2 => ?_⟩⟩
          rotate_left 2
          · rcases eq_or_ne v n with rfl | hne
            · rw [hgrown.kept v (by omega), hpte, Function.update_self]
              intro hmem
              refine (kalloc_some h.acct hk).2 ?_
              rw [all_add]
              exact Multiset.mem_add.mpr (.inl hmem)
            · exact hfresh v (by omega) h2
          · rw [uvmallocLoop, hk]
            simp only [he, ok_bind, if_true, he']
          · rw [hi, him]
            funext v
            unfold extended
            by_cases hv : v = n
            · subst hv
              rw [if_neg (by omega), if_pos (by omega), Function.update_self]
              rfl
            · rw [Function.update_of_ne hv]
              exact if_congr (by omega) rfl rfl
        · refine ⟨k', pt', .inr ⟨?_, hum, ?_, hlt, fun v hv => ?_⟩⟩
          · rw [uvmallocLoop, hk]
            simp only [he, ok_bind, if_true, he']
          · rw [hi, ← truncated_image (hm.trans (Nat.le_succ n)), him, truncated_update hm,
              truncated_image hm]
          · rw [hkept v hv, hpte, Function.update_of_ne (by omega)]
      · obtain ⟨k', pt', he', hum, hi, hlt'⟩ := hundo h3 him hlt hpte
        refine ⟨k', pt', .inr ⟨?_, hum, hi, hlt'⟩⟩
        rw [uvmallocLoop, hk]
        simp only [he, ok_bind, Bool.false_eq_true, if_false, hk3, he']

omit [Layout] in
theorem pagesOf_mono {sz sz' : ℕ} (h : sz ≤ sz') : pagesOf sz ≤ pagesOf sz' :=
  Nat.div_le_div_right (by omega)

/-- **`uvmalloc`** adds zeroed pages up to the new size, on frames in nobody's hands, or changes
nothing for want of memory. -/
theorem uvmalloc_ok (xperm : Perm) (hx : xperm.cow = false) (h : UserMem o tf k₀ k pt (pagesOf sz))
    (newsz : ℕ) : ∃ (k' : Kmem) (pt' : PageTable),
      (uvmalloc k pt sz newsz xperm = .ok (k', pt', max sz newsz) ∧
        UserMem o tf k₀ k' pt' (pagesOf (max sz newsz)) ∧
        image k' pt'.pte (pagesOf (max sz newsz)) = extended (image k pt.pte (pagesOf sz))
          (pagesOf sz) (pagesOf (max sz newsz)) (zeroPage xperm) ∧
        Grown xperm pt.pte pt'.pte (pagesOf sz) (pagesOf (max sz newsz)) ∧
        ∀ v, pagesOf sz ≤ v → v < pagesOf (max sz newsz) → (pt'.pte v).ppn ∉ all o) ∨
      (uvmalloc k pt sz newsz xperm = .ok (k', pt', 0) ∧ UserMem o tf k₀ k' pt' (pagesOf sz) ∧
        image k' pt'.pte (pagesOf sz) = image k pt.pte (pagesOf sz) ∧
        k₀.failures < k'.failures ∧ ∀ v < pagesOf sz, pt'.pte v = pt.pte v) := by
  unfold uvmalloc
  by_cases hlt : newsz < sz
  · rw [if_pos hlt, Nat.max_eq_left hlt.le]
    refine ⟨k, pt, .inl ⟨rfl, h, ?_, .refl .., fun v h1 h2 => absurd h2 (by omega)⟩⟩
    funext v
    exact (if_neg (by omega)).symm
  · have hmono := pagesOf_mono (Nat.le_of_not_lt hlt)
    have hcount : (newsz - pagesOf sz * pgSize + pgSize - 1) / pgSize = pagesOf newsz - pagesOf sz := by
      unfold pagesOf pgSize
      omega
    rw [if_neg hlt, Nat.max_eq_right (by omega), pgRoundUp_eq (lt_of_pagesOf_le h.bound), hcount,
      Nat.mul_div_cancel _ (by decide)]
    obtain ⟨k', pt', ⟨he, hum, him, hgrown, hfresh⟩ | ⟨he, hum, him, hf⟩⟩ :=
      uvmallocLoop_ok hx le_rfl h (pagesOf newsz - pagesOf sz)
    · rw [Nat.add_sub_cancel' hmono] at hum him hgrown hfresh
      exact ⟨k', pt', .inl ⟨by rw [he]; rfl, hum, him, hgrown, hfresh⟩⟩
    · exact ⟨k', pt', .inr ⟨by rw [he]; rfl, hum, him, hf⟩⟩

/-! ## `uvmcopy` -/

section ToCow

omit [Layout]

@[simp] theorem Pte.toCow_v : p.toCow.v = p.v := by
  unfold toCow
  split <;> rfl

@[simp] theorem Pte.toCow_ppn : p.toCow.ppn = p.ppn := by
  unfold toCow
  split <;> rfl

theorem Pte.toCow_of_not_w (h : ¬p.w = true) : p.toCow = p := if_neg h

theorem Pte.toCow_w : p.toCow.w = false := by
  unfold toCow
  by_cases h : p.w = true
  · rw [if_pos h]
  · rw [if_neg h]
    simpa using h

theorem Pte.Leaf.toCow (h : p.Leaf) : p.toCow.Leaf := by
  refine ⟨by rw [Pte.toCow_v, h.valid], ?_, fun _ => Pte.toCow_w⟩
  unfold Pte.toCow
  split <;> exact h.readable

theorem Pte.own_toCow (h : p.v = true) : p.toCow.own = (0, {p.ppn}) := by
  rw [own_of_not_w (by rw [toCow_v, h]) toCow_w, toCow_ppn]

theorem Pte.page_toCow (k : Kmem) : p.toCow.page k = p.page k := by
  unfold page
  rw [toCow_ppn]
  unfold toCow
  split
  · next h => simp [h]
  · rfl

end ToCow

/-- `old'` is `old` with some of its writable entries made copy-on-write. -/
structure CowOf (old old' : PageTable) : Prop where
  tabs : old'.tabs = old.tabs
  pte : ∀ v, old'.pte v = old.pte v ∨ old'.pte v = (old.pte v).toCow

omit [Layout] in
theorem CowOf.refl (pt : PageTable) : CowOf pt pt := ⟨rfl, fun _ => .inl rfl⟩

omit [Layout] in
theorem CowOf.trans {pt₁ pt₂ pt₃ : PageTable} (h : CowOf pt₁ pt₂) (h' : CowOf pt₂ pt₃) :
    CowOf pt₁ pt₃ := by
  refine ⟨h'.tabs.trans h.tabs, fun v => ?_⟩
  rcases h.pte v with he | he <;> rcases h'.pte v with he' | he'
  · exact .inl (he'.trans he)
  · exact .inr (he'.trans (by rw [he]))
  · exact .inr (he'.trans he)
  · refine .inr (he'.trans ?_)
    rw [he, Pte.toCow_of_not_w (by simp [Pte.toCow_w])]

/-- `uvmcopy` after `i` pages: the child has them too, and the parent's are not writable. -/
structure Copying (o : Shares ℕ) (tf tf' : ℕ) (k₀ k : Kmem) (old new : PageTable) (n i : ℕ) :
    Prop where
  framed : Framed o (old.owned n + new.owned i) k₀ k
  oldWf : Wf old.pte n tf
  newWf : Wf new.pte i tf'
  same : ∀ v < i, new.pte v = old.pte v

variable {old new : PageTable} {i tf' : ℕ}

theorem Copying.toCow (h : Copying o tf tf' k₀ k old new n i) (hi : i < n) :
    ∃ old1 : PageTable, (if (old.pte i).w then old.set i (old.pte i).toCow else old) = old1 ∧
      old1.pte = Function.update old.pte i (old.pte i).toCow ∧ old1.tabs = old.tabs ∧
      Copying o tf tf' k₀ k old1 new n i := by
  have hleaf := h.oldWf.leaf i hi
  have him : i < maxPage := hi.trans_le (h.oldWf.le.trans trapframePage_lt.le)
  refine ⟨_, rfl, ?_⟩
  by_cases hw : (old.pte i).w = true
  · have hset := PageTable.pte_set (p := (old.pte i).toCow) him (PageTable.isSome_of_v hleaf.valid)
    rw [if_pos hw]
    obtain ⟨m, hm, hm', _⟩ := maps_update old.pte hi
    refine ⟨hset, PageTable.tabs_set, h.framed.move fun ha => ?_, ?_, h.newWf, fun v hv => ?_⟩
    · have hown := Pte.own_of_w hleaf.valid hw
      have hd := Accounts.demote (acct_congr ha (q := o + old.tabs + m + new.owned i +
        ({(old.pte i).ppn}, 0)) (by unfold PageTable.owned; rw [hm, hown]; abel))
      refine acct_congr hd ?_
      unfold PageTable.owned
      rw [hset, hm', PageTable.tabs_set, Pte.own_toCow hleaf.valid]
      abel
    · rw [hset]
      refine h.oldWf.update hi hleaf.toCow fun u hu hne he => hne ?_
      rw [Pte.toCow_ppn] at he
      exact h.oldWf.inj u hu i hi he
    · rw [hset, Function.update_of_ne (by omega), h.same v hv]
  · rw [if_neg hw, Pte.toCow_of_not_w hw, Function.update_eq_self]
    exact ⟨rfl, rfl, h⟩

theorem Copying.page_eq (h : Copying o tf tf' k₀ k old new n i)
    (hf : Framed (q + old.owned n) r k k') (hv : v < n) :
    (old.pte v).page k' = (old.pte v).page k := by
  have hmem : (old.pte v).ppn ∈ all (q + old.owned n) := by
    rw [all_add]
    exact Multiset.mem_add.mpr (.inr (mem_all_owned hv (h.oldWf.leaf v hv).valid))
  unfold Pte.page
  rw [hf.mem _ hmem]

theorem Copying.step (h : Copying o tf tf' k₀ k old new n i) (hi : i < n)
    (hcow : (old.pte i).w = false) :
      ∃ (k2 : Kmem) (new2 : PageTable), (∀ v < n, (old.pte v).page k2 = (old.pte v).page k) ∧
      ((mappages k new (i * pgSize) pgSize (old.pte i).ppn (old.pte i).toPerm = .ok (k2, new2, true) ∧
        Copying o tf tf' k₀ (k2.incRef (old.pte i).ppn) old new2 n (i + 1)) ∨
      (mappages k new (i * pgSize) pgSize (old.pte i).ppn (old.pte i).toPerm = .ok (k2, new2, false) ∧
        Copying o tf tf' k₀ k2 old new2 n i ∧ k₀.failures < k2.failures)) := by
  have hleaf := h.oldWf.leaf i hi
  have hown := Pte.own_of_not_w hleaf.valid hcow
  have hn : i < trapframePage := hi.trans_le h.oldWf.le
  have hfree := h.newWf.rest i le_rfl (by omega) (trampolinePage_ne hn.le)
  have hroot : new ≠ .absent :=
    PageTable.ne_absent_of_v (v := trapframePage) (by rw [h.newWf.trapframe])
  obtain ⟨k2, new2, hf, hne, hmap⟩ := mappages_page (k := k) (old.pte i).ppn
    (old.pte i).toPerm (o := o + maps new.pte 0 i + old.owned n)
    (hn.trans trapframePage_lt) hroot hfree
    (acct_congr h.framed.acct (by unfold PageTable.owned; abel))
  refine ⟨k2, new2, fun v hv => h.page_eq hf hv, ?_⟩
  have hf' : Framed o (old.owned n + maps new.pte 0 i + new2.tabs) k₀ k2 :=
    h.framed.trans ((hf.congrFrame (add_assoc ..)).unframe.congr (by abel))
  rcases hmap with ⟨he, hpte⟩ | ⟨he, hpte, hlt⟩
  · rw [Perm.entry_of_v _ hleaf.valid] at hpte
    have hlt : ∀ v < i, new2.pte v = new.pte v := by
      intro v hv
      rw [hpte, Function.update_of_ne (by omega)]
    have hmaps : maps new2.pte 0 (i + 1) = maps new.pte 0 i + (0, {(old.pte i).ppn}) := by
      rw [maps_succ, maps_congr new.pte fun v _ hv => hlt v hv, hpte, Function.update_self, hown]
    obtain ⟨m, hm, _, _⟩ := maps_update old.pte hi
    refine .inl ⟨he, ⟨?_, hf'.mem, hf'.failures⟩, h.oldWf, ?_, fun v hv => ?_⟩
    · have hs := Accounts.share (acct_congr hf'.acct (q := o + old.tabs + m + maps new.pte 0 i +
        new2.tabs + (0, {(old.pte i).ppn})) (by unfold PageTable.owned; rw [hm, hown]; abel))
      refine acct_congr hs ?_
      unfold PageTable.owned
      rw [hmaps, hm, hown]
      abel
    · rw [hpte]
      refine h.newWf.grow hn hleaf fun v hv he => ?_
      rw [h.same v hv] at he
      have := h.oldWf.inj v (by omega) i hi he
      omega
    · rcases Nat.lt_succ_iff_lt_or_eq.mp hv with hv | rfl
      · rw [hlt v hv, h.same v hv]
      · rw [hpte, Function.update_self]
  · refine .inr ⟨he, ⟨hf'.congr ?_, h.oldWf, ?_, fun v hv => ?_⟩, ?_⟩
    · unfold PageTable.owned
      rw [hpte]
      abel
    · rw [hpte]
      exact h.newWf
    · rw [hpte]
      exact h.same v hv
    · exact h.framed.failures.trans_lt hlt

/-- One turn of the loop, once the page of the old table has been marked. -/
theorem uvmcopyLoop_succ {j : ℕ} {old1 : PageTable} (hi : i < maxPage) (hv : (old.pte i).v = true)
    (hold : (if (old.pte i).w then old.set i (old.pte i).toCow else old) = old1)
    (hpi : old1.pte i = (old.pte i).toCow) :
    uvmcopyLoop (j + 1) k old new i = (do
      let (k, new, ok) ← mappages k new (i * pgSize) pgSize (old1.pte i).ppn (old1.pte i).toPerm
      if ok then uvmcopyLoop j (k.incRef (old1.pte i).ppn) old1 new (i + 1)
      else do
        let (k, new) ← uvmunmap k new 0 i true
        .ok (k, old1, new, false)) := by
  rw [uvmcopyLoop, walk_of_v hi hv, ok_bind]
  simp only [hv, Bool.not_true, Bool.false_eq_true, if_false, hold, hpi, Pte.toCow_ppn]

theorem uvmcopyLoop_ok {j : ℕ} (h : Copying o tf tf' k₀ k old new n i) (hj : i + j = n) :
    ∃ (k' : Kmem) (old' new' : PageTable), (∀ v < n, (old'.pte v).page k' = (old.pte v).page k) ∧
      CowOf old old' ∧
      ((uvmcopyLoop j k old new i = .ok (k', old', new', true) ∧ Copying o tf tf' k₀ k' old' new' n n) ∨
      (uvmcopyLoop j k old new i = .ok (k', old', new', false) ∧
        Copying o tf tf' k₀ k' old' new' n 0 ∧ k₀.failures < k'.failures)) := by
  induction j generalizing k old new i with
  | zero =>
    obtain rfl : i = n := by omega
    exact ⟨k, old, new, fun _ _ => rfl, .refl old, .inl ⟨rfl, h⟩⟩
  | succ j ih =>
    have hi : i < n := by omega
    have hleaf := h.oldWf.leaf i hi
    have him : i < maxPage := hi.trans_le (h.oldWf.le.trans trapframePage_lt.le)
    obtain ⟨old1, hold, hpte, htabs, h1⟩ := h.toCow hi
    have hpi : old1.pte i = (old.pte i).toCow := by rw [hpte, Function.update_self]
    have hcow : CowOf old old1 := by
      refine ⟨htabs, fun v => ?_⟩
      rcases eq_or_ne v i with rfl | hne
      · exact .inr hpi
      · exact .inl (by rw [hpte, Function.update_of_ne hne])
    have hpage : ∀ v, (old1.pte v).page k = (old.pte v).page k := by
      intro v
      by_cases hv : v = i
      · rw [hv, hpi, Pte.page_toCow]
      · rw [hpte, Function.update_of_ne hv]
    rw [uvmcopyLoop_succ him hleaf.valid hold hpi]
    obtain ⟨k2, new2, hp2, ⟨he, h2⟩ | ⟨he, h2, hlt⟩⟩ := h1.step hi (by rw [hpi, Pte.toCow_w])
    · obtain ⟨k', old', new', hp', hcow', hres⟩ := ih h2 (by omega)
      refine ⟨k', old', new', fun v hv => ?_, hcow.trans hcow', ?_⟩
      · rw [hp' v hv, ← hpage v, ← hp2 v hv]
        rfl
      · rw [he, ok_bind]
        exact hres
    · have hum : UserMem (o + old1.owned n) tf' k2 k2 new2 i :=
        ⟨Framed.refl (acct_congr h2.framed.acct (by abel)), h2.newWf⟩
      obtain ⟨k3, new3, he3, hum3, _⟩ := hum.unmap (Nat.zero_le i)
      rw [Nat.zero_mul, Nat.sub_zero] at he3
      refine ⟨k3, old1, new3, fun v hv => ?_, hcow, .inr ⟨?_, ⟨?_, h2.oldWf, hum3.wf, by simp⟩, ?_⟩⟩
      · rw [h2.page_eq hum3.framed hv, hp2 v hv, hpage v]
      · rw [he, ok_bind]
        simp only [Bool.false_eq_true, if_false, he3, ok_bind]
      · exact h2.framed.trans hum3.framed.unframe
      · exact hlt.trans_le hum3.framed.failures

/-- **`uvmcopy`** gives the child every page of the parent, or nothing for want of memory; user
code in the parent sees no difference. -/
theorem uvmcopy_ok (h : UserMem (o + new.owned 0) tf k k old (pagesOf sz))
    (hnew : Wf new.pte 0 tf') : ∃ (k' : Kmem) (old' new' : PageTable),
      image k' old'.pte (pagesOf sz) = image k old.pte (pagesOf sz) ∧ Wf old'.pte (pagesOf sz) tf ∧
      CowOf old old' ∧
      ((uvmcopy k old new sz = .ok (k', old', new', true) ∧
        Framed o (old'.owned (pagesOf sz) + new'.owned (pagesOf sz)) k k' ∧
        Wf new'.pte (pagesOf sz) tf' ∧
        image k' new'.pte (pagesOf sz) = image k old.pte (pagesOf sz)) ∨
      (uvmcopy k old new sz = .ok (k', old', new', false) ∧
        Framed o (old'.owned (pagesOf sz) + new'.owned 0) k k' ∧ Wf new'.pte 0 tf' ∧
        k.failures < k'.failures)) := by
  have hcopy : Copying o tf tf' k k old new (pagesOf sz) 0 :=
    ⟨Framed.refl (acct_congr h.acct (by abel)), h.wf, hnew, nofun⟩
  obtain ⟨k', old', new', hp, hcow, hres⟩ := uvmcopyLoop_ok (j := pagesOf sz) hcopy (Nat.zero_add _)
  refine ⟨k', old', new', image_congr hp, ?_⟩
  rcases hres with ⟨he, hc⟩ | ⟨he, hc, hlt⟩
  · refine ⟨hc.oldWf, hcow, .inl ⟨he, hc.framed, hc.newWf, ?_⟩⟩
    refine image_congr fun v hv => ?_
    rw [hc.same v hv, hp v hv]
  · exact ⟨hc.oldWf, hcow, .inr ⟨he, hc.framed, hc.newWf, hlt⟩⟩

end LazyXv6.Kernel
