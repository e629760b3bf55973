import LazyXv6.Kernel.Isolation
import LazyXv6.Kernel.Growproc

/-!
# Page faults of user accesses

A load or a store that faults is tried again whenever `usertrap` returns. `usertrap` does not look
at `PTE_U`, so it resolves pages that only the kernel may touch, too; `closedIn_step` says that no
operation opens such a page.
-/

namespace LazyXv6.Kernel

open Function Lib Lib.Shares

variable [Layout] {k k₀ k' k1 : Kmem} {pt pt' : PageTable} {o : Shares ℕ} {n tf u v va sz pa : ℕ}

/-- A user access by a process that may be marked as killed. `usertrap` ends with `killed(p)`, and
the instruction is tried again, `n` times at most, after each trap that returns. -/
def userAccess (may : Perm → Bool) (killed : Bool) : ℕ → Kmem → PageTable → ℕ → ℕ →
    Except Panic (Kmem × PageTable × Access)
  | 0, k, pt, _, _ => .ok (k, pt, .faulting)
  | n + 1, k, pt, sz, va =>
    if va / pgSize < maxPage ∧ (pt.pte (va / pgSize)).allows may then
      .ok (k, pt, .done (pt.pte (va / pgSize)).ppn)
    else do
      let r ← usertrap k pt sz va
      if r.2.2 && !killed then userAccess may killed n r.1 r.2.1 sz va else .ok (r.1, r.2.1, .killed)

theorem userAccess_unmarked (may : Perm → Bool) : ∀ (n : ℕ) (k : Kmem) (pt : PageTable) (sz va : ℕ),
      userAccess may false n k pt sz va = access may n k pt sz va
  | 0, _, _, _, _ => rfl
  | n + 1, k, pt, sz, va => by
    rw [userAccess, access]
    simp only [Bool.not_false, Bool.and_true, userAccess_unmarked may n]

/-! ## When a fault is resolved -/

/-- The entry can be resolved: it is copy-on-write, and if its frame has other owners, a page is
free. -/
def Pte.Resolves (k : Kmem) (p : Pte) : Prop :=
  p.cow = true ∧ (1 < k.referenceCounter p.ppn → k.freelist ≠ [])

/-- What it takes to resolve page `v`: a free page if the frame has other owners, and nothing of the
frames behind the other pages. -/
structure Spent (k : Kmem) (pt : PageTable) (n v : ℕ) (k' : Kmem) : Prop where
  free : k'.freelist.length + (if 1 < k.referenceCounter (pt.pte v).ppn then 1 else 0) =
    k.freelist.length
  counts : ∀ u < n, u ≠ v → k'.referenceCounter (pt.pte u).ppn = k.referenceCounter (pt.pte u).ppn

omit [Layout] in
theorem Spent.refl (h : ¬1 < k.referenceCounter (pt.pte v).ppn) : Spent k pt n v k where
  free := by rw [if_neg h, add_zero]
  counts _ _ _ := rfl

omit [Layout] in
theorem owned_congr (hv : v < n) (hval : (pt.pte v).v = true) (hval' : (pt'.pte v).v = true)
    (htabs : pt'.tabs = pt.tabs) (hother : ∀ u, u ≠ v → pt'.pte u = pt.pte u) :
    ∃ rest, all (o + pt.owned n) = rest + {(pt.pte v).ppn} ∧
    all (o + pt'.owned n) = rest + {(pt'.pte v).ppn} := by
  obtain ⟨m, hm, hm', -⟩ := maps_update pt.pte hv
  have hpte : pt'.pte = update pt.pte v (pt'.pte v) := by
    funext u
    by_cases hu : u = v
    · rw [hu, update_self]
    · rw [update_of_ne hu, hother u hu]
  refine ⟨all o + (all pt.tabs + all m), ?_, ?_⟩
  · unfold PageTable.owned
    rw [hm, all_add, all_add, all_add, Pte.all_own hval]
    abel
  · unfold PageTable.owned
    rw [htabs, hpte, hm' (pt'.pte v), all_add, all_add, all_add, Pte.all_own hval', update_self]
    abel

theorem Resolved.spent (h : UserMem o tf k k pt n) (hres : Resolved o tf k k pt n v k' pt')
    (hv : v < n) (htabs : pt'.tabs = pt.tabs) (hnew : (pt'.pte v).ppn ∈ k.freelist)
    (hfree : k'.freelist.length + 1 = k.freelist.length)
    (hshared : 1 < k.referenceCounter (pt.pte v).ppn) : Spent k pt n v k' := by
  have hval : ∀ u < n, (pt.pte u).v = true := fun u hu => (h.wf.leaf u hu).valid
  have hval' := (hres.userMem.wf.leaf v hv).valid
  obtain ⟨rest, hall, hall'⟩ := owned_congr (o := o) hv (hval v hv) hval' htabs hres.others
  obtain ⟨hpage, hnot⟩ := (h.acct.mem_free _).mp hnew
  have hmem : ∀ u < n, (pt.pte u).ppn ∈ all (o + pt.owned n) := fun u hu => by
    rw [all_add]
    exact Multiset.mem_add.mpr (.inr (mem_all_owned hu (hval u hu)))
  refine ⟨by rw [if_pos hshared, hfree], fun u hu hne => ?_⟩
  have hold : (pt.pte u).ppn ≠ (pt.pte v).ppn := fun he => hne (h.wf.inj u hu v hv he)
  have hnew' : (pt.pte u).ppn ≠ (pt'.pte v).ppn := fun he => hnot (he ▸ hmem u hu)
  rw [hres.userMem.acct.count_eq _ (h.acct.valid_of_mem _ (hmem u hu)),
    h.acct.count_eq_of_mem (hmem u hu), hall, hall', Multiset.count_add, Multiset.count_add,
    Multiset.count_singleton, Multiset.count_singleton, if_neg hold, if_neg hnew']

/-- **A page fault** is resolved exactly if it is below the size and the page can be. -/
theorem usertrap_cases (h : UserMem o tf k k pt (pagesOf sz)) (va : ℕ) :
    ((va < sz ∧ (pt.pte (va / pgSize)).Resolves k) ∧ ∃ (k' : Kmem) (pt' : PageTable),
      usertrap k pt sz va = .ok (k', pt', true) ∧
        Resolved o tf k k pt (pagesOf sz) (va / pgSize) k' pt' ∧
        Spent k pt (pagesOf sz) (va / pgSize) k') ∨
    (¬(va < sz ∧ (pt.pte (va / pgSize)).Resolves k) ∧
      ∃ k', usertrap k pt sz va = .ok (k', pt, false)) := by
  by_cases hcow : va < sz ∧ (pt.pte (va / pgSize)).cow = true
  · have he : usertrap k pt sz va = usertrapCow k pt (va / pgSize) := by
      unfold usertrap
      rw [iscowpage_eq h va, ok_bind, hcow.2, decide_eq_true hcow.1, if_pos (by decide)]
    have hv := div_lt_pagesOf hcow.1
    rw [he, usertrapCow_eq h hv]
    by_cases hr : 1 < k.referenceCounter (pt.pte (va / pgSize)).ppn
    · rw [if_pos hr]
      rcases hk : kalloc k with ⟨k1, _ | pa⟩
      · exact .inr ⟨fun hres => hres.2.2 hr (kalloc_eq_none hk), k1, rfl⟩
      · obtain ⟨k2, pt', he, hres, -, htabs, hppn, hlen⟩ := h.cow_copy hv hcow.2 hk
        have hfree := mem_freelist_of_kalloc hk
        rw [if_neg (by omega)] at hlen
        refine .inl ⟨⟨hcow.1, hcow.2, fun _ => List.ne_nil_of_mem hfree⟩, k2, pt', he, hres, ?_⟩
        exact hres.spent h hv htabs (hppn ▸ hfree) hlen hr
    · have hpos := h.count_pos hv
      have hone : k.referenceCounter (pt.pte (va / pgSize)).ppn = 1 := by omega
      rw [if_neg hr]
      exact .inl ⟨⟨hcow.1, hcow.2, fun h1 => absurd h1 hr⟩, k, _, rfl,
        h.cow_in_place hv hcow.2 hone, .refl hr⟩
  · have hnot : (decide (va < sz) && (pt.pte (va / pgSize)).cow) = false := by
      rw [Bool.and_eq_false_iff, decide_eq_false_iff_not, ← Bool.not_eq_true]
      exact not_and_or.mp hcow
    refine .inr ⟨fun hres => hcow ⟨hres.1, hres.2.1⟩, k, ?_⟩
    unfold usertrap
    rw [iscowpage_eq h va, ok_bind, hnot, if_neg (by decide)]

/-! ## How an access ends -/

/-- User code may make the access, if need be after a fault that is resolved; a process that is
marked as killed does not come back from a fault. -/
def Pte.Performs (may : Perm → Bool) (killed : Bool) (below : Prop) (k : Kmem) (p : Pte) : Prop :=
  p.u = true ∧ (may p.toPerm = true ∨
    (killed = false ∧ may p.toPerm.uncow = true ∧ below ∧ p.Resolves k))

omit [Layout] in
theorem Pte.allows_eq_true {may : Perm → Bool} {p : Pte} :
    p.allows may = true ↔ p.v = true ∧ p.u = true ∧ may p.toPerm = true := by
  unfold allows
  rw [Bool.and_eq_true, Bool.and_eq_true, and_assoc]

theorem userAccess_done {may : Perm → Bool} {i : ℕ} (killed : Bool)
    (h : UserMem o tf k₀ k pt (pagesOf sz)) (ha : (pt.pte (va / pgSize)).allows may = true) :
    userAccess may killed (i + 1) k pt sz va = .ok (k, pt, .done (pt.pte (va / pgSize)).ppn) ∧
      va / pgSize < pagesOf sz := by
  obtain ⟨-, hv⟩ := access_done (i := i) h ha
  rw [userAccess, if_pos ⟨hv.trans h.lt_maxPage, ha⟩]
  exact ⟨rfl, hv⟩

theorem userAccess_trap {may : Perm → Bool} {killed : Bool} {i : ℕ} {r : Kmem × PageTable × Bool}
    (ha : ¬(pt.pte (va / pgSize)).allows may = true) (he : usertrap k pt sz va = .ok r) :
    userAccess may killed (i + 1) k pt sz va =
      if r.2.2 && !killed then userAccess may killed i r.1 r.2.1 sz va else
      .ok (r.1, r.2.1, .killed) := by
  rw [userAccess, if_neg (fun hc => ha hc.2), he, ok_bind]

/-- The access is made: at once, or on the page as it is resolved. -/
structure Made (o : Shares ℕ) (tf : ℕ) (may : Perm → Bool) (killed : Bool) (k : Kmem)
    (pt : PageTable) (sz va : ℕ) (k' : Kmem) (pt' : PageTable) : Prop where
  lt : va / pgSize < pagesOf sz
  performs : (pt.pte (va / pgSize)).Performs may killed (va < sz) k
  how : (may (pt.pte (va / pgSize)).toPerm = true ∧ k' = k ∧ pt' = pt) ∨
    (may (pt.pte (va / pgSize)).toPerm = false ∧
      Resolved o tf k k pt (pagesOf sz) (va / pgSize) k' pt' ∧
      Spent k pt (pagesOf sz) (va / pgSize) k')

/-- **A user access ends**, after at most two traps: with the access made, exactly if user code may
make it, or with the process killed. -/
theorem userAccess_spec (h : UserMem o tf k k pt (pagesOf sz)) (may : Perm → Bool) (killed : Bool)
    (va i : ℕ) : (∃ (k' : Kmem) (pt' : PageTable),
      userAccess may killed (i + 2) k pt sz va = .ok (k', pt', .done (pt'.pte (va / pgSize)).ppn) ∧
        Made o tf may killed k pt sz va k' pt') ∨
    ((∃ (k' : Kmem) (pt' : PageTable), userAccess may killed (i + 2) k pt sz va =
      .ok (k', pt', .killed)) ∧
      ¬(va / pgSize < pagesOf sz ∧ (pt.pte (va / pgSize)).Performs may killed (va < sz) k)) := by
  by_cases ha : (pt.pte (va / pgSize)).allows may = true
  · obtain ⟨he, hv⟩ := userAccess_done killed (i := i + 1) h ha
    obtain ⟨-, hu, hm⟩ := Pte.allows_eq_true.mp ha
    exact .inl ⟨k, pt, he, hv, ⟨hu, .inl hm⟩, .inl ⟨hm, rfl, rfl⟩⟩
  have hdeny : va / pgSize < pagesOf sz → (pt.pte (va / pgSize)).u = true →
      may (pt.pte (va / pgSize)).toPerm = false := fun hv hu =>
    Bool.eq_false_iff.mpr fun hm => ha (Pte.allows_eq_true.mpr ⟨(h.wf.leaf _ hv).valid, hu, hm⟩)
  rcases usertrap_cases h va with ⟨hres, k1, pt1, he, hresolved, hspent⟩ | ⟨hnot, k1, he⟩
  swap
  · refine .inr ⟨⟨k1, pt, ?_⟩, ?_⟩
    · rw [userAccess_trap ha he]
      exact if_neg Bool.false_ne_true
    · rintro ⟨hv, hu, hm | ⟨-, -, hbelow⟩⟩
      · exact absurd hm (Bool.eq_false_iff.mp (hdeny hv hu))
      · exact hnot hbelow
  have hv := div_lt_pagesOf hres.1
  have hperm : ∀ may : Perm →
    Bool, may (pt1.pte (va / pgSize)).toPerm = may (pt.pte (va / pgSize)).toPerm.uncow :=
    fun may => congrArg may hresolved.perm
  rw [userAccess_trap ha he]
  cases killed with
  | true =>
    refine .inr ⟨⟨k1, pt1, if_neg Bool.false_ne_true⟩, ?_⟩
    rintro ⟨-, hu, hm | ⟨hk, -⟩⟩
    · exact absurd hm (Bool.eq_false_iff.mp (hdeny hv hu))
    · exact absurd hk (by decide)
  | false =>
    rw [if_pos (by rfl)]
    by_cases ha1 : (pt1.pte (va / pgSize)).allows may = true
    · obtain ⟨he1, -⟩ := userAccess_done false (i := i) hresolved.userMem ha1
      obtain ⟨-, hu, hm⟩ := Pte.allows_eq_true.mp ha1
      have hu : (pt.pte (va / pgSize)).u = true := (hperm Perm.u).symm.trans hu
      refine .inl ⟨k1, pt1, he1, hv, ⟨hu, .inr ⟨rfl, (hperm may).symm.trans hm, hres⟩⟩, .inr ⟨?_, ?_⟩⟩
      · exact hdeny hv hu
      · exact ⟨hresolved, hspent⟩
    · -- The page is closed to user code: the second trap finds it resolved and kills the process.
      have hcow1 : (pt1.pte (va / pgSize)).cow = false := hperm Perm.cow
      rcases usertrap_cases hresolved.userMem.self va with ⟨⟨-, hcow, -⟩, -⟩ | ⟨-, k2, he2⟩
      · rw [hcow1] at hcow
        exact absurd hcow (by decide)
      refine .inr ⟨⟨k2, pt1, ?_⟩, ?_⟩
      · rw [userAccess_trap ha1 he2]
        exact if_neg Bool.false_ne_true
      · rintro ⟨-, hu, hm | ⟨-, hm, -⟩⟩
        · exact absurd hm (Bool.eq_false_iff.mp (hdeny hv hu))
        · refine ha1 (Pte.allows_eq_true.mpr ⟨(hresolved.userMem.wf.leaf _ hv).valid, ?_, ?_⟩)
          · exact (hperm Perm.u).trans hu
          · exact (hperm may).trans hm

/-! ## Pages for the kernel only -/

/-- The pages of `sp` that are closed to user code are so in `sp'`, where it has them. -/
def Space.ClosedIn (sp sp' : Space) : Prop :=
  ∀ v, v < pagesOf sp.sz → v < pagesOf sp'.sz → (sp.pagetable.pte v).u = false →
    (sp'.pagetable.pte v).u = false

variable {sp sp' np : Space}

omit [Layout] in
theorem Space.ClosedIn.of_u (h : ∀ v, v < pagesOf sp.sz → v < pagesOf sp'.sz →
    (sp'.pagetable.pte v).u = (sp.pagetable.pte v).u) : sp.ClosedIn sp' :=
  fun v hv hv' hu => (h v hv hv').trans hu

omit [Layout] in
theorem Space.ClosedIn.of_image (h : sp'.image k' = sp.image k) : sp.ClosedIn sp' := by
  refine .of_u fun v hv hv' => ?_
  have hpage := congrFun h v
  unfold Space.image at hpage
  rw [image_of_lt hv, image_of_lt hv', Option.some.injEq] at hpage
  exact congrArg Page.u hpage

omit [Layout] in
theorem CowOf.user (h : CowOf pt pt') (v : ℕ) : (pt'.pte v).u = (pt.pte v).u := by
  rcases h.pte v with he | he
  · rw [he]
  · rw [he]
    unfold Pte.toCow
    split <;> rfl

theorem Resolved.user (h : Resolved o tf k₀ k pt n v k' pt') (u : ℕ) :
    (pt'.pte u).u = (pt.pte u).u := by
  by_cases hu : u = v
  · subst hu
    have hperm := congrArg Perm.u h.perm
    exact hperm
  · rw [h.others u hu]

namespace State

variable {N : ℕ} {s s' : State N} {p q c : Fin N} {x : Option Space}

/-- The process that is in the slot before and after opens no page that is closed to user code. -/
def SlotClosed (x x' : Option Space) : Prop :=
  ∀ sp sp', x = some sp → x' = some sp' → sp.ClosedIn sp'

omit [Layout] in
theorem SlotClosed.refl (x : Option Space) : SlotClosed x x := by
  rintro sp sp' h h'
  cases h.symm.trans h'
  exact .of_u fun _ _ _ => rfl

omit [Layout] in
theorem SlotClosed.put (hp : s.space q = some sp) (h : sp.ClosedIn sp') (p : Fin N) :
    SlotClosed (s.space p) ((s.put q k (some sp')).space p) := by
  by_cases hpq : p = q
  · subst hpq
    rw [space_put, hp]
    rintro _ _ ⟨⟩ ⟨⟩
    exact h
  · rw [space_put_of_ne hpq]
    exact .refl _

omit [Layout] in
theorem SlotClosed.put_unused (hp : s.space q = none) (p : Fin N) :
    SlotClosed (s.space p) ((s.put q k x).space p) := by
  by_cases hpq : p = q
  · subst hpq
    rw [hp]
    exact nofun
  · rw [space_put_of_ne hpq]
    exact .refl _

omit [Layout] in
theorem SlotClosed.put_none (p : Fin N) : SlotClosed (s.space p) ((s.put q k none).space p) := by
  by_cases hpq : p = q
  · subst hpq
    rw [space_put]
    exact nofun
  · rw [space_put_of_ne hpq]
    exact .refl _

theorem Inv.afterAccess_closed (h : s.Inv) (hq : s.space q = some sp) {may : Perm → Bool} {va : ℕ}
    {r : Kmem × PageTable × Access} {done : Kmem → ℕ → Kmem × Out N} {out : Out N}
    (he : Kernel.access may 3 s.kmem sp.pagetable sp.sz va = .ok r)
    (hs : s.afterAccess q sp r done = (s', out)) (p : Fin N) :
    SlotClosed (s.space p) (s'.space p) := by
  obtain ⟨k', pt', a, he', -, him, -⟩ := access_ok (h.space hq).userMem may va 1
  obtain rfl : (k', pt', a) = r := Except.ok.inj (he'.symm.trans he)
  have hclosed : ∀ z, sp.ClosedIn { sp with pagetable := pt', zombie := z } := fun z =>
    .of_image (k := s.kmem) him
  obtain rfl : (s.afterAccess q sp (k', pt', a) done).1 = s' := congrArg Prod.fst hs
  cases a with
  | done | faulting => exact .put hq (hclosed sp.zombie) p
  | killed => exact .put hq (hclosed true) p

theorem Inv.fork_closed (h : s.Inv) (hq : s.space q = some sp) {out : Out N}
    (he : s.runUser q sp (.fork q) = .ok (s', out)) (p : Fin N) :
    SlotClosed (s.space p) (s'.space p) := by
  rw [State.runUser] at he
  cases hc : s.unused with
  | none =>
    rw [hc] at he
    cases he
    exact .refl _
  | some c =>
    have hfree := unused_spec hc
    simp only [hc] at he
    obtain ⟨k', pt, -, -, hcow, ⟨np, hf, -⟩ | ⟨hf, -⟩⟩ :=
      forkSpace_ok (h.space hq) <;> rw [hf] at he <;> cases he
    · have hclosed : sp.ClosedIn { sp with pagetable := pt } := .of_u fun v _ _ => hcow.user v
      by_cases hpc : p = c
      · subst hpc
        rw [hfree]
        rintro _ _ ⟨⟩
      · show SlotClosed _ (((s.put q k' (some { sp with pagetable := pt })).put c k' (some np)).space p)
        rw [space_put_of_ne hpc]
        exact .put hq hclosed p
    · exact .put hq (.of_u fun v _ _ => hcow.user v) p

theorem Inv.sbrk_closed (h : s.Inv) (hq : s.space q = some sp) {n : Int32} {k' : Kmem} {ok : Bool}
    (he : growproc s.kmem sp n = .ok (k', sp', ok)) : sp.ClosedIn sp' := by
  by_cases hneg : sp.sz + n.toInt < 0
  · rw [h.growproc_negative hq hneg] at he
    cases he
    exact .of_u fun _ _ _ => rfl
  · obtain ⟨r, he', hex⟩ := h.growproc_exact hq (n := n) (by omega)
    obtain rfl : r = (k', sp', ok) := Except.ok.inj (he'.symm.trans he)
    cases ok with
    | true =>
      have hres : s.Resized q sp n k' sp' := hex
      exact .of_u fun v hv hv' => by rw [(hres.survive v hv hv').1]
    | false =>
      have hres : s.NotResized sp k' sp' := hex
      refine .of_u fun v hv _ => ?_
      rw [hres.entries v (.inr ((h.wf q sp hq).leaf v hv).valid)]

theorem Inv.runUser_closed (h : s.Inv) (hq : s.space q = some sp) {u : UserOp N} {out : Out N}
    (hu : u.proc = q) (he : s.runUser q sp u = .ok (s', out)) (p : Fin N) :
    SlotClosed (s.space p) (s'.space p) := by
  cases u with
  | load | store =>
    obtain ⟨r, hr, he⟩ := exists_of_bind_eq_ok he
    exact h.afterAccess_closed hq hr (Except.ok.inj he) p
  | fork _ =>
    cases hu
    exact h.fork_closed hq he p
  | sbrk _ n =>
    obtain ⟨⟨k', sp', ok⟩, hr, he⟩ := exists_of_bind_eq_ok he
    cases he
    exact .put hq (h.sbrk_closed hq hr) p
  | exit _ =>
    cases he
    have hclosed : sp.ClosedIn { sp with zombie := true } := .of_u fun _ _ _ => rfl
    exact .put hq hclosed p
  | reap _ =>
    cases he
    exact .refl _
  | copyout _ dstva src =>
    obtain ⟨⟨k', pt', ok⟩, hr, he⟩ := exists_of_bind_eq_ok he
    cases he
    obtain ⟨k1, pt1, ok1, j, he1, hd, -⟩ := copyout_spec (h.space hq).userMem dstva src
    cases he1.symm.trans hr
    exact .put hq (.of_u fun v _ _ => hd.user v) p

theorem Inv.free_closed {out : Out N} (he : s.free q sp = .ok (s', out)) (p : Fin N) :
    SlotClosed (s.space p) (s'.space p) := by
  obtain ⟨k', -, he⟩ := exists_of_bind_eq_ok he
  cases he
  exact .put_none p

theorem Inv.stepUser_closed (h : s.Inv) {u : UserOp N} {out : Out N}
    (he : s.stepUser u = .ok (s', out)) (p : Fin N) : SlotClosed (s.space p) (s'.space p) := by
  have hrunning : ∀ u : UserOp N, (∀ q, u ≠ .reap q) → s.stepUser u = .ok (s', out) →
      SlotClosed (s.space p) (s'.space p) := by
    intro u hu he
    cases hr : s.running u.proc with
    | none =>
      rw [stepUser_of_not_running hu hr] at he
      cases he
      exact .refl _
    | some sp =>
      rw [stepUser_of_running hu hr] at he
      exact h.runUser_closed (running_spec hr) rfl he p
  cases u with
  | reap q =>
    rw [State.stepUser] at he
    split at he
    · cases he
      exact .refl _
    · split at he
      · exact Inv.free_closed he p
      · cases he
        exact .refl _
  | load | store | fork | sbrk | exit | copyout => exact hrunning _ (by simp) he

theorem Inv.uvmcopy_closed (h : s.Inv) (hq : s.space q = some sp) {out : Out N} (c : Fin N)
    (he : s.runKernel q sp (.uvmcopy q c) = .ok (s', out)) (p : Fin N) :
    SlotClosed (s.space p) (s'.space p) := by
  rw [State.runKernel] at he
  rcases hc : s.space c with _ | np
  · simp only [hc] at he
    cases he
    exact .refl _
  simp only [hc] at he
  by_cases hskip : c = q ∨ np.sz ≠ 0
  · rw [if_pos hskip] at he
    cases he
    exact .refl _
  obtain ⟨hne, hsz⟩ : c ≠ q ∧ np.sz = 0 := by simpa using hskip
  rw [if_neg hskip] at he
  obtain ⟨⟨k', old, new, ok⟩, hr, he⟩ := exists_of_bind_eq_ok he
  have hwf := h.wf c np hc
  rw [hsz, pagesOf_zero] at hwf
  obtain ⟨k1, old1, new1, -, -, hcow, hres⟩ := uvmcopy_ok (h.pair hq hne hc hsz) hwf
  have hold : old1 = old := by
    rcases hres with ⟨hres, -⟩ | ⟨hres, -⟩
    all_goals
      cases hres.symm.trans hr
      rfl
  subst hold
  cases he
  by_cases hpc : p = c
  · -- The child had no page yet.
    subst hpc
    rw [hc]
    rintro _ _ ⟨⟩ - v hv
    rw [hsz] at hv
    exact absurd hv (Nat.not_lt_zero v)
  · rw [space_put_of_ne hpc]
    have hclosed : sp.ClosedIn { sp with pagetable := old1 } := .of_u fun v _ _ => hcow.user v
    exact .put hq hclosed p

theorem Inv.uvmclear_closed (h : s.Inv) (hq : s.space q = some sp) {va : ℕ} (hva : va < sp.sz)
    {pt' : PageTable} (he : uvmclear sp.pagetable va = .ok pt') :
    sp.ClosedIn { sp with pagetable := pt' } := by
  obtain ⟨pt1, he1, -, hpte⟩ := uvmclear_ok (h.space hq).userMem (div_lt_pagesOf hva)
  cases he1.symm.trans he
  intro u _ _ hu
  show (pt'.pte u).u = false
  rw [hpte]
  by_cases huv : u = va / pgSize
  · rw [huv, update_self]
  · rw [update_of_ne huv]
    exact hu

theorem Inv.runKernel_closed (h : s.Inv) (hq : s.space q = some sp) {op : Op N} {out : Out N}
    (hop : ∀ r elf argv, op ≠ .exec r elf argv) (he : s.runKernel q sp op = .ok (s', out))
    (p : Fin N) : SlotClosed (s.space p) (s'.space p) := by
  have hum := (h.space hq).userMem
  cases op with
  | exec r elf argv => exact absurd rfl (hop r elf argv)
  | freeproc _ => exact Inv.free_closed he p
  | uvmalloc _ newsz w x =>
    obtain ⟨⟨k', pt', sz⟩, hr, he⟩ := exists_of_bind_eq_ok he
    obtain ⟨k1, pt1, hres⟩ := uvmalloc_ok { w := w, x := x } rfl hum (newsz % 2 ^ 64)
    have hkept : ∀ v < pagesOf sp.sz, pt'.pte v = sp.pagetable.pte v := by
      rcases hres with ⟨hres, -, -, hgrown, -⟩ | ⟨hres, -, -, -, hkept⟩ <;> cases hres.symm.trans hr
      · exact hgrown.kept
      · exact hkept
    have hclosed : ∀ sz', sp.ClosedIn { sp with pagetable := pt', sz := sz' } := fun _ =>
      .of_u fun v hv _ => congrArg (fun e : Pte => e.u) (hkept v hv)
    by_cases hz : sz = 0
    · rw [if_pos hz] at he
      cases he
      exact .put hq (hclosed sp.sz) p
    · rw [if_neg hz] at he
      cases he
      exact .put hq (hclosed sz) p
  | uvmdealloc _ newsz =>
    obtain ⟨⟨k', pt', sz⟩, hr, he⟩ := exists_of_bind_eq_ok he
    obtain ⟨k1, pt1, hres, -, -, hkept⟩ := uvmdealloc_ok _ hum (newsz % 2 ^ 64)
    cases hres.symm.trans hr
    cases he
    have hclosed : sp.ClosedIn { sp with pagetable := pt', sz := min sp.sz (newsz % 2 ^ 64) } :=
      .of_u fun v _ hv => congrArg (fun e : Pte => e.u) (hkept v hv)
    exact .put hq hclosed p
  | uvmcopy r c => exact h.uvmcopy_closed hq c he p
  | uvmclear _ va =>
    rw [State.runKernel] at he
    by_cases hva : va < sp.sz
    · rw [if_pos hva] at he
      obtain ⟨pt', hr, he⟩ := exists_of_bind_eq_ok he
      cases he
      exact .put hq (h.uvmclear_closed hq hva hr) p
    · rw [if_neg hva] at he
      cases he
      exact .refl _
  | usertrap _ va =>
    obtain ⟨⟨k', pt', ok⟩, hr, he⟩ := exists_of_bind_eq_ok he
    have hclosed : ∀ z, sp.ClosedIn { sp with pagetable := pt', zombie := z } := by
      rcases usertrap_cases hum va with ⟨-, k1, pt1, hres, hresolved, -⟩ | ⟨-, k1, hres⟩ <;>
        cases hres.symm.trans hr
      · exact fun _ => .of_u fun v _ _ => hresolved.user v
      · exact fun _ => .of_u fun _ _ _ => rfl
    cases he
    exact .put hq (hclosed _) p
  | copyin _ srcva len =>
    obtain ⟨r, -, he⟩ := exists_of_bind_eq_ok he
    cases he
    exact .refl _
  | user _ | userinit _ | kalloc | kfree _ | allocproc _ =>
    cases he
    exact .refl _

/-- **No operation opens a page** that is closed to user code, `exec` by the process itself
excepted. -/
theorem Inv.step_closed (h : s.Inv) {op : Op N} {out : Out N}
    (hop : ∀ elf argv, op ≠ .exec p elf argv) (he : s.step op = .ok (s', out)) :
    SlotClosed (s.space p) (s'.space p) := by
  have hkernel : ∀ (q : Fin N) (op : Op N), s.stepKernel q op = .ok (s', out) →
      (∀ r elf argv, op ≠ .exec r elf argv) → SlotClosed (s.space p) (s'.space p) := by
    intro q op he hop
    unfold State.stepKernel at he
    split at he
    · cases he
      exact .refl _
    · next sp hsp => exact h.runKernel_closed hsp hop he p
  cases op with
  | user u => exact h.stepUser_closed he p
  | userinit initcode =>
    rw [State.step] at he
    split at he
    · cases he
    · next q hq =>
      cases hf : firstSpace s.kmem initcode <;> rw [hf] at he <;> cases he
      exact .put_unused (unused_spec hq) p
  | kalloc =>
    rw [State.step] at he
    split at he <;> cases he <;> exact .refl _
  | kfree pa =>
    rw [State.step] at he
    split at he
    · cases hf : Kernel.kfree s.kmem pa <;> rw [hf] at he <;> cases he
      exact .refl _
    · cases he
      exact .refl _
  | allocproc q =>
    rw [State.step] at he
    split at he
    · next hq =>
      rcases hf : Kernel.allocproc s.kmem with e | ⟨k', _ | np⟩ <;> rw [hf] at he <;> cases he
      · exact .refl _
      · exact .put_unused hq p
    · cases he
      exact .refl _
  | exec q elf argv =>
    -- Another process runs a new program.
    rw [State.step, State.stepKernel] at he
    split at he
    · cases he
      exact .refl _
    · obtain ⟨r, -, he⟩ := exists_of_bind_eq_ok he
      cases he
      have hne : p ≠ q := fun hpq => hop elf argv (by rw [hpq])
      rw [space_put_of_ne hne]
      exact .refl _
  | freeproc q | uvmalloc q newsz w x | uvmdealloc q newsz | uvmcopy q c | uvmclear q va
  | usertrap q va | copyin q srcva len => exact hkernel q _ he (by simp)

def HasPage (s : State N) (p : Fin N) (v : ℕ) : Prop :=
  ∃ sp, s.space p = some sp ∧ v < pagesOf sp.sz

/-- The operation leaves page `v` to process `p`, which does not run a new program. -/
def KeepsPage (p : Fin N) (v : ℕ) (s : State N) (op : Op N) : Prop :=
  (∀ elf argv, op ≠ .exec p elf argv) ∧ ∀ s', s.next op = some s' → s'.HasPage p v

def ClosedPage (s : State N) (p : Fin N) (v : ℕ) : Prop :=
  ∃ sp, s.space p = some sp ∧ v < pagesOf sp.sz ∧ (sp.pagetable.pte v).u = false

theorem Inv.closedPage_next (h : s.Inv) {op : Op N} (hc : s.ClosedPage p v)
    (hk : KeepsPage p v s op) (he : s.next op = some s') : s'.ClosedPage p v := by
  obtain ⟨sp, hsp, hv, hu⟩ := hc
  obtain ⟨sp', hsp', hv'⟩ := hk.2 s' he
  unfold State.next at he
  obtain ⟨⟨t, out⟩, hs, rfl⟩ := Option.map_eq_some_iff.mp he
  exact ⟨sp', hsp', hv', h.step_closed hk.1 (eq_ok_of_toOption hs) sp sp' hsp hsp' v hv hv' hu⟩

/-- **A page that is closed to user code stays closed**, as long as the process has it. -/
theorem Inv.closedPage_run {t : State N} (h : s.Inv) (hc : s.ClosedPage p v)
    (hrun : ReachIf State.next (KeepsPage p v) s t) : t.Inv ∧ t.ClosedPage p v :=
  hrun.invariant (I := fun s => s.Inv ∧ s.ClosedPage p v)
    (fun _ _ _ hi hk he => ⟨hi.1.next he, hi.1.closedPage_next hi.2 hk he⟩) ⟨h, hc⟩

theorem Inv.closedPage_child (h : s.Inv) (hc : s.ClosedPage p v)
    (he : s.stepUser (.fork p) = .ok (s', .child c)) : s'.ClosedPage c v := by
  obtain ⟨sp, hsp, hv, hu⟩ := hc
  cases hr : s.running p with
  | none =>
    rw [stepUser_of_not_running (by simp) hr] at he
    cases he
  | some sp1 =>
  rw [stepUser_of_running (by simp) hr, State.runUser] at he
  cases hsp.symm.trans (running_spec hr)
  split at he
  · cases he
  obtain ⟨k', pt, -, -, -, ⟨np, hf, -, -, hsz, -, him⟩ | ⟨hf, -⟩⟩ := forkSpace_ok (h.space hsp) <;>
    rw [hf] at he <;> cases he
  refine ⟨np, space_put, hsz ▸ hv, ?_⟩
  have hpage := congrFun him v
  unfold Space.image at hpage
  rw [image_of_lt hv, image_of_lt (hsz ▸ hv), Option.some.injEq] at hpage
  exact (congrArg Page.u hpage).trans hu

def Performed (s : State N) (sp : Space) (may : Perm → Bool) (killed : Bool) (va : ℕ) : Prop :=
  ∃ k' pt' pa, userAccess may killed 2 s.kmem sp.pagetable sp.sz va = .ok (k', pt', .done pa)

theorem Inv.performed_iff (h : s.Inv) (hp : s.space p = some sp) (may : Perm → Bool) (killed : Bool)
    (va : ℕ) : s.Performed sp may killed va ↔ va / pgSize < pagesOf sp.sz ∧
      (sp.pagetable.pte (va / pgSize)).Performs may killed (va < sp.sz) s.kmem := by
  rcases userAccess_spec (h.space hp).userMem may killed va 0 with
    ⟨k', pt', he, hm⟩ | ⟨⟨k', pt', he⟩, hnot⟩
  · exact iff_of_true ⟨k', pt', _, he⟩ ⟨hm.lt, hm.performs⟩
  · refine iff_of_false ?_ hnot
    rintro ⟨k1, pt1, pa, he1⟩
    cases he.symm.trans he1

/-- **Faults of user accesses are resolved, or kill the process**, after at most two traps; below
the size a store and a load are made exactly if the entry says so; and a page for the kernel only
stays closed to user code, also for the children of the process. -/
theorem fault_resolution (h : s.Reachable) (hp : s.space p = some sp) :
    (∀ may killed va, ∃ k' pt' a, userAccess may killed 2 s.kmem sp.pagetable sp.sz va =
      .ok (k', pt', a) ∧ a ≠ .faulting) ∧
    (∀ killed va, va < sp.sz →
      (s.Performed sp (·.w) killed va ↔ (sp.pagetable.pte (va / pgSize)).u = true ∧
        ((sp.pagetable.pte (va / pgSize)).w = true ∨
          ((sp.pagetable.pte (va / pgSize)).cow = true ∧ killed = false ∧
            (1 < s.kmem.referenceCounter (sp.pagetable.pte (va / pgSize)).ppn →
              s.kmem.freelist ≠ [])))) ∧
      (s.Performed sp (·.r) killed va ↔ (sp.pagetable.pte (va / pgSize)).u = true ∧
        (sp.pagetable.pte (va / pgSize)).r = true)) ∧
    (∀ v, s.ClosedPage p v →
      (∀ t, ReachIf State.next (KeepsPage p v) s t → t.ClosedPage p v ∧
        ∀ sp', t.space p = some sp' → ∀ may killed va, va / pgSize = v →
        ¬t.Performed sp' may killed va) ∧
      ∀ s' c, s.stepUser (.fork p) = .ok (s', .child c) → s'.ClosedPage c v) := by
  refine ⟨fun may killed va => ?_, fun killed va hva => ?_,
    fun v hc => ⟨fun t hrun => ?_, fun s' c he => ?_⟩⟩
  · rcases userAccess_spec (h.inv.space hp).userMem may killed va 0 with
      ⟨k', pt', he, -⟩ | ⟨⟨k', pt', he⟩, -⟩
    · exact ⟨k', pt', _, he, nofun⟩
    · exact ⟨k', pt', _, he, nofun⟩
  · have hv := div_lt_pagesOf hva
    rw [h.inv.performed_iff hp, h.inv.performed_iff hp]
    unfold Pte.Performs Pte.Resolves Perm.uncow
    constructor
    · simp only [hv, hva, true_and]
      tauto
    · simp only [hv, hva, true_and]
      tauto
  · obtain ⟨hinv, hct⟩ := h.inv.closedPage_run hc hrun
    refine ⟨hct, fun sp' hsp' may killed va hva hperf => ?_⟩
    subst hva
    obtain ⟨sp1, hsp1, -, hu⟩ := hct
    cases hsp1.symm.trans hsp'
    have hopen := ((hinv.performed_iff hsp' may killed va).mp hperf).2.1
    rw [hu] at hopen
    exact absurd hopen (by decide)
  · exact h.inv.closedPage_child hc he

omit [Layout] in
/-- The first process runs a program and forks. It may write to its stack page, and not to the guard
page, which is copy-on-write as well. -/
theorem fault_resolution_guard :
    let _ := smallLayout
    ∃ (s : State 2) (sp : Space), s.space 0 = some sp ∧ (sp.pagetable.pte 1).cow = true ∧
      (∀ va, va / pgSize = 1 → ¬s.Performed sp (·.w) false va) ∧
      s.Performed sp (·.w) false (2 * 4096) := by
  let _ := smallLayout
  obtain ⟨s, hs, sp, hsp, hsz, hfree, hcow, hu, hcow', hu'⟩ :
      ∃ s ∈ smallRun [.userinit [0], .exec 0 textOnly [], .user (.fork 0)], ∃ sp ∈ s.space 0,
      sp.sz = 3 * 4096 ∧ s.kmem.freelist ≠ [] ∧
        (sp.pagetable.pte 1).cow = true ∧ (sp.pagetable.pte 1).u = false ∧
        (sp.pagetable.pte 2).cow = true ∧ (sp.pagetable.pte 2).u = true := by decide +kernel
  obtain ⟨-, haccess, hclosed⟩ := fault_resolution (Reachable.of_runActs hs) hsp
  refine ⟨s, sp, hsp, hcow, fun va hva => ?_, ?_⟩
  · have hpage : s.ClosedPage 0 1 := ⟨sp, hsp, by rw [hsz]; decide, hu⟩
    exact ((hclosed 1 hpage).1 s Relation.ReflTransGen.refl).2 sp hsp _ _ va hva
  · exact (haccess false (2 * 4096) (by omega)).1.mpr ⟨hu', .inr ⟨hcow', rfl, fun _ => hfree⟩⟩

omit [Layout] in
/-- **A store is not made**: after a `fork` the page of the first process is copy-on-write, and
pages are free, but the process is marked as killed and does not come back from the fault. -/
theorem store_by_killed :
    let _ := smallLayout
    ∃ (s : State 2) (sp : Space), s.Reachable ∧ s.space 0 = some sp ∧ 0 < sp.sz ∧
      (sp.pagetable.pte 0).u = true ∧ (sp.pagetable.pte 0).cow = true ∧ s.kmem.freelist ≠ [] ∧
      ¬s.Performed sp (·.w) true 0 := by
  let _ := smallLayout
  obtain ⟨s, hs, sp, hsp, hsz, hu, hcow, hw, hfree⟩ :
      ∃ s ∈ smallRun [.userinit [0x73], .user (.fork 0)], ∃ sp ∈ s.space 0,
      0 < sp.sz ∧ (sp.pagetable.pte 0).u = true ∧ (sp.pagetable.pte 0).cow = true ∧
        (sp.pagetable.pte 0).w = false ∧ s.kmem.freelist ≠ [] := by decide +kernel
  have hreach : s.Reachable := Reachable.of_runActs hs
  refine ⟨s, sp, hreach, hsp, hsz, hu, hcow, hfree, fun hperf => ?_⟩
  obtain ⟨-, -, hmay | ⟨hkilled, -⟩⟩ := (hreach.inv.performed_iff hsp _ _ _).mp hperf
  · exact absurd (hmay.symm.trans hw) (by decide)
  · exact absurd hkilled (by decide)

end State

end LazyXv6.Kernel
