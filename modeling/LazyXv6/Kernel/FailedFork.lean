import LazyXv6.Kernel.Faults
import LazyXv6.Kernel.Refinement

/-!
# A fork that fails

`fork` returns -1 if `kalloc` fails anywhere in `allocproc` or in `uvmcopy`. By then pages of the
parent may be copy-on-write that were writable before, and stay so. `forkUnseen` says that nothing
else is left, and `Alike` that the parent cannot tell by its stores below its size: a page that
became copy-on-write has no other owner, so that the fault that it takes now needs no memory.
-/

namespace LazyXv6.Kernel

open Function Lib Lib.SmallFin Lib.Shares

variable [Layout] {k k₀ k' k1 : Kmem} {pt pt' : PageTable} {o : Shares ℕ} {n tf u v va sz pa : ℕ}
    {sp sp' np : Space}

/-! ## A call that goes through had its memory -/

omit [Layout] in
theorem kalloc_failures (h : kalloc k = (k', some pa)) : k'.failures = k.failures := by
  unfold kalloc at h
  split at h
  · cases h
  · cases h
    rfl

omit [Layout] in
theorem kallocTable_failures (h : kallocTable k = (k', some pa)) : k'.failures = k.failures := by
  unfold kallocTable at h
  split at h
  · cases h
  · next k1 pa1 hk =>
    cases h
    show k1.failures = k.failures
    exact kalloc_failures hk

omit [Layout] in
theorem mappagesLoop_failures {perm : Perm}
    (h : mappagesLoop perm n k pt v pa = .ok (k', pt', true)) : k'.failures = k.failures := by
  induction n generalizing k pt v pa with
  | zero =>
    cases h
    rfl
  | succ n ih =>
    rw [mappagesLoop] at h
    obtain ⟨⟨k1, pt1, ok⟩, hw, h⟩ := exists_of_bind_eq_ok h
    cases ok with
    | false => cases h
    | true =>
      have hk : k1.failures = k.failures := by
        unfold walkAlloc at hw
        split at hw
        · cases hw
        · have he := Except.ok.inj hw
          have hkept : (Radix.ensure 512 kallocTable k pt v).1.failures = k.failures :=
            Radix.ensure_kept (I := fun k' => k'.failures = k.failures)
              (fun hs ha => (kallocTable_failures ha).trans hs) rfl (congrArg (fun r => r.2.2) he)
          rwa [congrArg Prod.fst he] at hkept
      simp only [Bool.not_true, Bool.false_eq_true, if_false] at h
      split at h
      · cases h
      · exact (ih h).trans hk

omit [Layout] in
theorem mappages_failures {perm : Perm} {size : ℕ}
    (h : mappages k pt va size pa perm = .ok (k', pt', true)) : k'.failures = k.failures := by
  unfold mappages at h
  split at h
  · cases h
  · exact mappagesLoop_failures h

theorem mapTrapframe_failures (h : mapTrapframe k pt tf = .ok (k', some pt')) :
    k'.failures = k.failures := by
  obtain ⟨⟨k1, pt1, ok⟩, hm, h⟩ := exists_of_bind_eq_ok h
  cases ok with
  | true =>
    cases h
    exact mappages_failures hm
  | false =>
    obtain ⟨_, -, h⟩ := exists_of_bind_eq_ok h
    obtain ⟨_, -, h⟩ := exists_of_bind_eq_ok h
    cases h

theorem procPagetable_failures (h : procPagetable k tf = .ok (k', some pt')) :
    k'.failures = k.failures := by
  unfold procPagetable uvmcreate at h
  rcases hk : kallocTable k with ⟨k1, _ | pa⟩ <;> rw [hk] at h
  · cases h
  obtain ⟨⟨k2, pt2, ok⟩, hm, h⟩ := exists_of_bind_eq_ok h
  cases ok with
  | true =>
    exact (mapTrapframe_failures h).trans ((mappages_failures hm).trans (kallocTable_failures hk))
  | false =>
    obtain ⟨_, -, h⟩ := exists_of_bind_eq_ok h
    cases h

theorem allocproc_failures (h : allocproc k = .ok (k', some np)) : k'.failures = k.failures := by
  unfold allocproc at h
  rcases hk : kalloc k with ⟨k1, _ | pa⟩ <;> rw [hk] at h
  · cases h
  obtain ⟨⟨k2, _ | pt⟩, hp, h⟩ := exists_of_bind_eq_ok h
  · cases hf : kfree k2 pa <;> simp only [hf] at h <;> cases h
  · cases h
    exact (procPagetable_failures hp).trans (kalloc_failures hk)

theorem uvmcopyLoop_failures {old new old' new' : PageTable} {i : ℕ}
    (h : uvmcopyLoop n k old new i = .ok (k', old', new', true)) : k'.failures = k.failures := by
  induction n generalizing k old new i with
  | zero =>
    cases h
    rfl
  | succ n ih =>
    rw [uvmcopyLoop] at h
    obtain ⟨_ | p, -, h⟩ := exists_of_bind_eq_ok h
    · cases h
    cases hv : p.v with
    | false =>
      simp only [hv, Bool.not_false, if_true] at h
      cases h
    | true =>
    simp only [hv, Bool.not_true, Bool.false_eq_true, if_false] at h
    obtain ⟨⟨k1, new1, ok⟩, hm, h⟩ := exists_of_bind_eq_ok h
    cases ok with
    | true =>
      have hk : k1.failures = k.failures := mappages_failures hm
      exact (ih h).trans hk
    | false =>
      obtain ⟨_, -, h⟩ := exists_of_bind_eq_ok h
      cases h

/-- **A fork that goes through** had all the memory it asked for. -/
theorem forkSpace_failures (h : forkSpace k sp = .ok (k', sp', some np)) :
    k'.failures = k.failures := by
  obtain ⟨⟨k1, _ | np1⟩, ha, h⟩ := exists_of_bind_eq_ok h
  · cases h
  obtain ⟨⟨k2, old, new, ok⟩, hc, h⟩ := exists_of_bind_eq_ok h
  cases ok with
  | true =>
    cases h
    exact (uvmcopyLoop_failures hc).trans (allocproc_failures ha)
  | false =>
    obtain ⟨_, -, h⟩ := exists_of_bind_eq_ok h
    cases h

/-! ## What is left of a fork that fails -/

omit [Layout] in
theorem CowOf.all_owned (h : CowOf pt pt') (n : ℕ) : all (pt'.owned n) = all (pt.owned n) := by
  have hmaps : all (maps pt'.pte 0 n) = all (maps pt.pte 0 n) := by
    refine Multiset.ext.mpr fun f => ?_
    rw [count_maps, count_maps]
    refine congrArg Finset.card (Finset.filter_congr fun v _ => ?_)
    rcases h.pte v with he | he <;> simp [he]
  unfold PageTable.owned
  rw [all_add, all_add, h.tabs, hmaps]

namespace State

variable {N : ℕ} {s s' t t' : State N} {p c : Fin N}

theorem Inv.same_frames (h : s.Inv) (h' : s'.Inv) (hall : all s'.owned = all s.owned) :
    (∀ f, IsPage f → s'.kmem.referenceCounter f = s.kmem.referenceCounter f) ∧
      s'.kmem.freelist.Perm s.kmem.freelist := h.acct.same h'.acct hall

omit [Layout] in
theorem all_owned_of_cow (hp : s.space p = some sp) (hcow : CowOf sp.pagetable pt) :
    all (s.put p k' (some { sp with pagetable := pt })).owned = all s.owned := by
  rw [owned_put, s.owned_eq p, hp]
  show all (s.others {p} + ({ sp with pagetable := pt } : Space).own) = all (s.others {p} + sp.own)
  unfold Space.own
  rw [all_add, all_add, all_add, all_add, hcow.all_owned]

theorem Inv.mem_owned (h : s.Inv) (hp : s.space p = some sp) (hv : v < pagesOf sp.sz) :
    (sp.pagetable.pte v).ppn ∈ all s.owned := by
  rw [s.owned_eq p, hp, all_add]
  exact Multiset.mem_add.mpr (.inr (h.mem_own hp hv))

end State

/-! ## Stores -/

def Pte.Shared (k : Kmem) (p : Pte) : Prop := p.cow = true ∧ 1 < k.referenceCounter p.ppn

instance (k : Kmem) (p : Pte) : Decidable (p.Shared k) := inferInstanceAs (Decidable (_ ∧ _))

/-- A store through the entry succeeds, at once or after a fault. -/
def Pte.MayStore (k : Kmem) (p : Pte) : Prop :=
  p.u = true ∧ (p.w || p.cow) = true ∧ (p.Shared k → k.freelist ≠ [])

omit [Layout] in
theorem Pte.performs_store {p : Pte} (hl : p.Leaf) {below : Prop} (hb : below) :
    p.Performs (·.w) false below k ↔ p.MayStore k := by
  unfold Performs Resolves MayStore Shared Perm.uncow
  have hcow := hl.cow
  cases hw : p.w <;> cases hc : p.cow <;> simp_all

namespace State

variable {N : ℕ} {s s' t t' : State N} {p c : Fin N} {b : UInt8}

/-- A store has been made: the process sees it, and a page is spent if the frame was shared. -/
structure Stored (s : State N) (p : Fin N) (sp : Space) (va : ℕ) (b : UInt8) (t : State N) :
    Prop where
  inv : t.Inv
  view : t.eager = s.eager.put p
    (some ⟨sp.sz, stored (sp.image s.kmem) (va / pgSize) (va % pgSize) [b], sp.zombie⟩)
  free : t.kmem.freelist.length +
    (if (sp.pagetable.pte (va / pgSize)).Shared s.kmem then 1 else 0) =
    s.kmem.freelist.length
  shared : ∃ sp', t.space p = some sp' ∧ ∀ u < pagesOf sp.sz, (sp'.pagetable.pte u).Shared t.kmem ↔
    u ≠ va / pgSize ∧ (sp.pagetable.pte u).Shared s.kmem

/-- The process has been killed, and its pages look as before. -/
structure StoreKilled (s : State N) (p : Fin N) (sp : Space) (t : State N) : Prop where
  inv : t.Inv
  view : t.eager = s.eager.put p (some ⟨sp.sz, sp.image s.kmem, true⟩)

theorem Inv.store_shared (h : s.Inv) (hp : s.space p = some sp) (hva : va < sp.sz)
    (hmade : Made (s.others {p} + ({sp.trapframe}, 0)) sp.trapframe (·.w) false s.kmem sp.pagetable
      sp.sz va k' pt') : k'.freelist.length +
    (if (sp.pagetable.pte (va / pgSize)).Shared s.kmem then 1 else 0) = s.kmem.freelist.length ∧
      ∀ u < pagesOf sp.sz, (pt'.pte u).Shared k' ↔ u ≠ va / pgSize ∧
      (sp.pagetable.pte u).Shared s.kmem := by
  have hleaf := (h.wf p sp hp).leaf _ (div_lt_pagesOf hva)
  rcases hmade.how with ⟨hw, rfl, rfl⟩ | ⟨hw, hres, hspent⟩
  · have hcow : (sp.pagetable.pte (va / pgSize)).cow = false :=
      Bool.eq_false_iff.mpr fun hc => absurd (hleaf.cow hc) (by rw [hw]; decide)
    have hnot : ¬(sp.pagetable.pte (va / pgSize)).Shared s.kmem := fun hs =>
      absurd (hs.1.symm.trans hcow) (by decide)
    refine ⟨by rw [if_neg hnot, add_zero], fun u _ => ⟨fun hs => ⟨?_, hs⟩, And.right⟩⟩
    rintro rfl
    exact hnot hs
  · obtain ⟨-, hw' | ⟨-, -, -, hcow, -⟩⟩ := hmade.performs
    · exact absurd (hw'.symm.trans hw) (by decide)
    have hiff : (sp.pagetable.pte (va / pgSize)).Shared s.kmem ↔
        1 < s.kmem.referenceCounter (sp.pagetable.pte (va / pgSize)).ppn := and_iff_right hcow
    refine ⟨?_, fun u hu => ?_⟩
    · simp only [hiff]
      exact hspent.free
    · by_cases huv : u = va / pgSize
      · subst huv
        have hcow' : (pt'.pte (va / pgSize)).cow = false := congrArg Perm.cow hres.perm
        unfold Pte.Shared
        simp [hcow']
      · unfold Pte.Shared
        rw [hres.others u huv, hspent.counts u hu huv]
        simp [huv]

/-- **A store below the size** is made exactly if the entry says so, and kills the process
otherwise. -/
theorem Inv.store_cases (h : s.Inv) (hp : s.running p = some sp) (hva : va < sp.sz) (b : UInt8) :
    ((sp.pagetable.pte (va / pgSize)).MayStore s.kmem ∧
      ∃ t, s.stepUser (.store p va b) = .ok (t, .idle) ∧ s.Stored p sp va b t) ∨
    (¬(sp.pagetable.pte (va / pgSize)).MayStore s.kmem ∧
      ∃ t, s.stepUser (.store p va b) = .ok (t, .killed) ∧ s.StoreKilled p sp t) := by
  have hsp := running_spec hp
  have hv := div_lt_pagesOf hva
  have hmay := Pte.performs_store (k := s.kmem) ((h.wf p sp hsp).leaf _ hv) hva
  have hstep : s.stepUser (.store p va b) = s.runUser p sp (.store p va b) :=
    stepUser_of_running (by simp) hp
  obtain ⟨k', pt, a, he, hok, hview, hend⟩ :=
    h.access hsp (·.w) (·.w) (fun q k => by simp [Pte.page, Perm.uncow]) va
  rw [hstep, State.runUser, he, ok_bind]
  rcases userAccess_spec (h.space hsp).userMem (·.w) false va 1 with
    ⟨k1, pt1, he1, hmade⟩ | ⟨⟨k1, pt1, he1⟩, hnot⟩ <;> rw [userAccess_unmarked] at he1 <;>
      cases he.symm.trans he1
  · obtain ⟨-, hlt, hw, -⟩ := hend.resolve_right (fun hk => by cases hk.1)
    have hum := (hok sp.zombie).userMem
    have hok' : SpaceOk (s.others {p}) s.kmem
        (k'.write (pt.pte (va / pgSize)).ppn (va % pgSize) [b]) ⟨pt, sp.sz, sp.trapframe, sp.zombie⟩ :=
      (hok sp.zombie).of_userMem (hum.write (hum.exclusive hlt hw)) sp.zombie
    obtain ⟨hfree, hshared⟩ := h.store_shared hsp hva hmade
    refine .inl ⟨hmay.mp hmade.performs, _, rfl, h.put hok', ?_, hfree, _, space_put, hshared⟩
    show (s.put p _ _).eager = _
    rw [h.wf.eager_put hok'.framed.mem]
    have hpages : Kernel.image k' pt.pte (pagesOf sp.sz) = sp.image s.kmem :=
      congrArg EagerProc.pages (hview sp.zombie)
    refine congrArg (fun img => s.eager.put p (some ⟨sp.sz, img, sp.zombie⟩)) ?_
    rw [← hpages]
    exact hum.image_write hlt
  · refine .inr ⟨fun hm => hnot ⟨hv, hmay.mpr hm⟩, _, rfl, h.put (hok true), ?_⟩
    show (s.put p _ _).eager = _
    rw [h.wf.eager_put (hok true).framed.mem]
    exact congrArg (fun pr => s.eager.put p (some pr)) (hview true)

/-- Two states that process `p` cannot tell apart by its stores: they look the same, and as long as
it runs, the same of its pages are shared and as many pages are free. -/
structure Alike (p : Fin N) (sz : ℕ) (s s' : State N) : Prop where
  inv : s.Inv
  inv' : s'.Inv
  view : s'.eager = s.eager
  size : ∀ sp, s.space p = some sp → sp.sz = sz
  live : ∀ sp sp', s.running p = some sp → s'.running p = some sp' →
    s'.kmem.freelist.length = s.kmem.freelist.length ∧
      ∀ v < pagesOf sp.sz, (sp'.pagetable.pte v).Shared s'.kmem ↔ (sp.pagetable.pte v).Shared s.kmem

omit [Layout] in
theorem running_of_view (hview : s'.eager = s.eager) (hp : s.running p = some sp) :
    ∃ sp', s'.running p = some sp' ∧ sp'.eager s'.kmem = sp.eager s.kmem := by
  have hrun : s'.eager.running p = s.eager.running p := by rw [hview]
  rw [eager_running, eager_running, hp, Option.map_some] at hrun
  exact Option.map_eq_some_iff.mp hrun

omit [Layout] in
theorem mayStore_congr {q q' : Pte} (hpage : q'.page k' = q.page k)
    (hshared : q'.Shared k' ↔ q.Shared k) (hfree : k'.freelist.length = k.freelist.length) :
    q'.MayStore k' ↔ q.MayStore k := by
  have hu : q'.u = q.u := congrArg Page.u hpage
  have hw : (q'.w || q'.cow) = (q.w || q.cow) := congrArg Page.w hpage
  have hnil : k'.freelist ≠ [] ↔ k.freelist ≠ [] := by
    rw [← List.length_pos_iff, ← List.length_pos_iff, hfree]
  unfold Pte.MayStore
  rw [hu, hw, hshared, hnil]

omit [Layout] in
theorem size_of_view {img : ℕ → Option Page} {z : Bool}
    (hview : t.eager = s.eager.put p (some ⟨sz, img, z⟩)) (hp : t.space p = some sp) :
    sp.sz = sz := by
  have hself := congrFun hview p
  unfold State.eager EagerState.put at hself
  rw [hp, update_self, Option.map_some, Option.some.injEq] at hself
  exact congrArg EagerProc.sz hself

omit [Layout] in
theorem running_killed {img : ℕ → Option Page}
    (hview : t.eager = s.eager.put p (some ⟨sz, img, true⟩)) : t.running p = none := by
  have hrun : t.eager.running p = none := by
    rw [hview]
    unfold EagerState.running EagerState.put
    rw [update_self]
    rfl
  rw [eager_running, Option.map_eq_none_iff] at hrun
  exact hrun

theorem Alike.stored (h : Alike p sz s s') (hr : s.running p = some sp)
    (hr' : s'.running p = some sp') (heq : sp'.eager s'.kmem = sp.eager s.kmem)
    (hv : va / pgSize < pagesOf sp.sz) (hst : s.Stored p sp va b t)
    (hst' : s'.Stored p sp' va b t') : Alike p sz t t' := by
  have hsz : sp'.sz = sp.sz := congrArg EagerProc.sz heq
  have him : sp'.image s'.kmem = sp.image s.kmem := congrArg EagerProc.pages heq
  have hz : sp'.zombie = sp.zombie := congrArg EagerProc.zombie heq
  obtain ⟨hfree, hshared⟩ := h.live sp sp' hr hr'
  refine ⟨hst.inv, hst'.inv, ?_, fun q hq => ?_, fun q q' hq hq' => ⟨?_, fun u hu => ?_⟩⟩
  · rw [hst'.view, hst.view, h.view, hsz, him, hz]
  · exact (size_of_view hst.view hq).trans (h.size sp (running_spec hr))
  · have hcost := hst.free
    have hcost' := hst'.free
    simp only [hshared _ hv] at hcost'
    omega
  · rw [size_of_view hst.view (running_spec hq)] at hu
    obtain ⟨q1, hq1, hiff⟩ := hst.shared
    obtain ⟨q1', hq1', hiff'⟩ := hst'.shared
    cases hq1.symm.trans (running_spec hq)
    cases hq1'.symm.trans (running_spec hq')
    rw [hiff u hu, hiff' u (hsz ▸ hu), hshared u hu]

/-- **One store** has the same outcome in both. -/
theorem Alike.store (h : Alike p sz s s') (hva : va < sz) (b : UInt8) :
    ∃ t t' out, s.stepUser (.store p va b) = .ok (t, out) ∧
      s'.stepUser (.store p va b) = .ok (t', out) ∧ Alike p sz t t' := by
  cases hr : s.running p with
  | none =>
    have hr' : s'.running p = none := by
      by_contra hne
      obtain ⟨sp', hsp'⟩ := Option.ne_none_iff_exists'.mp hne
      obtain ⟨sp, hsp, -⟩ := running_of_view h.view.symm hsp'
      rw [hr] at hsp
      cases hsp
    have hidle : ∀ {s : State N}, s.running p = none → s.stepUser (.store p va b) = .ok (s, .idle) :=
      fun hs => stepUser_of_not_running (by simp) hs
    exact ⟨s, s', .idle, hidle hr, hidle hr', h⟩
  | some sp =>
    obtain ⟨sp', hr', heq⟩ := running_of_view h.view hr
    have hsz : sp'.sz = sp.sz := congrArg EagerProc.sz heq
    have hva : va < sp.sz := (h.size sp (running_spec hr)).symm ▸ hva
    have hv := div_lt_pagesOf hva
    obtain ⟨hfree, hshared⟩ := h.live sp sp' hr hr'
    have hpage : (sp'.pagetable.pte (va / pgSize)).page s'.kmem =
      (sp.pagetable.pte (va / pgSize)).page s.kmem := by
      have him : sp'.image s'.kmem (va / pgSize) = sp.image s.kmem (va / pgSize) :=
        congrFun (congrArg EagerProc.pages heq) (va / pgSize)
      unfold Space.image at him
      rwa [hsz, image_of_lt hv, image_of_lt hv, Option.some.injEq] at him
    have hmay := mayStore_congr hpage (hshared _ hv) hfree
    rcases h.inv.store_cases hr hva b with ⟨hm, t, he, hst⟩ | ⟨hm, t, he, hk⟩
    · rcases h.inv'.store_cases hr' (hsz ▸ hva) b with ⟨-, t', he', hst'⟩ | ⟨hm', -⟩
      · exact ⟨t, t', .idle, he, he', h.stored hr hr' heq hv hst hst'⟩
      · exact absurd (hmay.mpr hm) hm'
    · rcases h.inv'.store_cases hr' (hsz ▸ hva) b with ⟨hm', -⟩ | ⟨-, t', he', hk'⟩
      · exact absurd (hmay.mp hm') hm
      · refine ⟨t, t', .killed, he, he', hk.inv, hk'.inv, ?_, fun q hq => ?_, fun q q' hq _ => ?_⟩
        · have him : sp'.image s'.kmem = sp.image s.kmem := congrArg EagerProc.pages heq
          rw [hk'.view, hk.view, h.view, hsz, him]
        · exact (size_of_view hk.view hq).trans (h.size sp (running_spec hr))
        · rw [running_killed hk.view] at hq
          cases hq

/-- **Any number of stores** below the size have the same outcomes in both, and leave them alike. -/
theorem Alike.run (h : Alike p sz s s') {stores : List (ℕ × UInt8)} (hva : ∀ x ∈ stores, x.1 < sz) :
    ∃ t t' outs, s.run (stores.map fun x => .store p x.1 x.2) = .ok (t, outs) ∧
      s'.run (stores.map fun x => .store p x.1 x.2) = .ok (t', outs) ∧ t'.eager = t.eager := by
  induction stores generalizing s s' with
  | nil => exact ⟨s, s', [], rfl, rfl, h.view⟩
  | cons x stores ih =>
    obtain ⟨hx, hrest⟩ := List.forall_mem_cons.mp hva
    obtain ⟨t, t', out, he, he', halike⟩ := h.store hx x.2
    obtain ⟨r, r', outs, hr, hr', hview⟩ := ih halike hrest
    refine ⟨r, r', out :: outs, ?_, ?_, hview⟩
    · rw [List.map_cons, State.run, he, ok_bind, hr, ok_bind]
    · rw [List.map_cons, State.run, he', ok_bind, hr', ok_bind]

/-! ## The fork -/

theorem Inv.shared_of_cow (h : s.Inv) (hp : s.space p = some sp) (hcow : CowOf sp.pagetable pt)
    (hcounts : ∀ f, IsPage f → k'.referenceCounter f = s.kmem.referenceCounter f)
    (hv : v < pagesOf sp.sz) : (pt.pte v).Shared k' ↔ (sp.pagetable.pte v).Shared s.kmem := by
  have hleaf := (h.wf p sp hp).leaf v hv
  have hcount := hcounts _ (h.acct.valid_of_mem _ (h.mem_owned hp hv))
  unfold Pte.Shared
  rcases hcow.pte v with he | he
  · rw [he, hcount]
  · rw [he, Pte.toCow_ppn, hcount]
    unfold Pte.toCow
    cases hw : (sp.pagetable.pte v).w with
    | false => rw [if_neg Bool.false_ne_true]
    | true =>
      have hexcl := h.acct.exclusive _ (h.exclusive_of_w hp hleaf.valid hw)
      have hone : s.kmem.referenceCounter (sp.pagetable.pte v).ppn = 1 := by
        rw [h.acct.count_eq_of_mem (h.mem_owned hp hv), hexcl]
        rfl
      have hnot : ¬1 < s.kmem.referenceCounter (sp.pagetable.pte v).ppn := by omega
      exact iff_of_false (fun hs => hnot hs.2) (fun hs => hnot hs.2)

theorem Inv.alike_of_cow (h : s.Inv) (hp : s.running p = some sp)
    (h' : SpaceOk (s.others {p}) s.kmem k' { sp with pagetable := pt })
    (hcow : CowOf sp.pagetable pt)
    (him : ({ sp with pagetable := pt } : Space).image k' = sp.image s.kmem) :
    Alike p sp.sz s (s.put p k' (some { sp with pagetable := pt })) := by
  have hsp := running_spec hp
  have hinv := h.put h'
  obtain ⟨hcounts, hfree⟩ := h.same_frames hinv (all_owned_of_cow hsp hcow)
  refine ⟨h, hinv, ?_, fun q hq => ?_, fun q q' hq hq' => ⟨?_, fun v hv => ?_⟩⟩
  · rw [h.wf.eager_put h'.framed.mem, Option.map_some]
    have hview : Space.eager k' { sp with pagetable := pt } = sp.eager s.kmem := by
      unfold Space.eager
      rw [him]
    rw [hview, eager_put_self hsp]
  · cases hsp.symm.trans hq
    rfl
  · exact hfree.length_eq
  · cases hp.symm.trans hq
    have hq' := running_spec hq'
    rw [space_put] at hq'
    cases hq'
    exact h.shared_of_cow hsp hcow hcounts hv

/-- What a `fork` by `p` that fails leaves: every count, the free pages, the other slots and the
parent's memory as they were, and stores below the parent's size that go as they would have gone. -/
structure ForkUnseen (s : State N) (p : Fin N) (sp : Space) (s' : State N) : Prop where
  counts : ∀ f, IsPage f → s'.kmem.referenceCounter f = s.kmem.referenceCounter f
  free : ∀ f, f ∈ s'.kmem.freelist ↔ f ∈ s.kmem.freelist
  child : ∀ c, s.unused = some c → s'.space c = none
  others : ∀ q, q ≠ p → s'.space q = s.space q
  parent : ∃ pt, s'.space p = some { sp with pagetable := pt } ∧
    image s'.kmem pt.pte (pagesOf sp.sz) = image s.kmem sp.pagetable.pte (pagesOf sp.sz)
  stores : ∀ stores : List (ℕ × UInt8), (∀ x ∈ stores, x.1 < sp.sz) →
    ∃ t t' outs, s.run (stores.map fun x => .store p x.1 x.2) = .ok (t, outs) ∧
      s'.run (stores.map fun x => .store p x.1 x.2) = .ok (t', outs) ∧ t'.eager = t.eager

/-- **A fork that fails is unseen**: `fork` returns -1 if `kalloc` fails anywhere in it, and when it
returns -1, it leaves everything as it was. -/
theorem failed_fork_unseen (h : s.Inv) (hp : s.running p = some sp) :
    ∃ s' out, s.stepUser (.fork p) = .ok (s', out) ∧
      (s'.kmem.failures ≠ s.kmem.failures → out = .ret (-1)) ∧
      (out = .ret (-1) → s.ForkUnseen p sp s') := by
  have hsp := running_spec hp
  have hstep : s.stepUser (.fork p) = s.runUser p sp (.fork p) := stepUser_of_running (by simp) hp
  rw [hstep, State.runUser]
  have hunseen : ∀ {k' : Kmem} {pt : PageTable},
    SpaceOk (s.others {p}) s.kmem k' { sp with pagetable := pt } →
      CowOf sp.pagetable pt → ({ sp with pagetable := pt } : Space).image k' = sp.image s.kmem →
      s.ForkUnseen p sp (s.put p k' (some { sp with pagetable := pt })) := by
    intro k' pt hok hcow him
    obtain ⟨hcounts, hfree⟩ := h.same_frames (h.put hok) (all_owned_of_cow hsp hcow)
    refine ⟨hcounts, fun _ => hfree.mem_iff, fun c hc => ?_, fun q hq => space_put_of_ne hq,
      ⟨pt, space_put, him⟩, fun stores hva => (h.alike_of_cow hp hok hcow him).run hva⟩
    have hne : c ≠ p := by
      rintro rfl
      rw [unused_spec hc] at hsp
      cases hsp
    rw [space_put_of_ne hne]
    exact unused_spec hc
  cases hc : s.unused with
  | none =>
    have hself : s.put p s.kmem (some sp) = s := by
      unfold State.put
      rw [← hsp, update_eq_self]
    have hs := hunseen (h.space hsp) (.refl _) rfl
    rw [show ({ sp with pagetable := sp.pagetable } : Space) = sp from rfl, hself] at hs
    exact ⟨s, _, rfl, fun hne => absurd rfl hne, fun _ => hs⟩
  | some c =>
    simp only []
    obtain ⟨k', pt, hwf, him, hcow, ⟨np, hf, -⟩ | ⟨hf, hframed, -⟩⟩ := forkSpace_ok (h.space hsp)
    · have hfail := forkSpace_failures hf
      rw [hf]
      exact ⟨_, _, rfl, fun hne => absurd hfail hne, by simp⟩
    · rw [hf]
      exact ⟨_, _, rfl, fun _ => rfl, fun _ => hunseen ⟨hframed, hwf⟩ hcow him⟩

/-- All but five pages of memory are taken: enough for `allocproc`, and not for the first page of
the child. -/
def almostFull : List (Op 2) :=
  [.userinit [0x73], .user (.sbrk 0 (-1))] ++ List.replicate 52 .kalloc

omit [Layout] in
theorem failed_fork_unseen_almostFull :
    let _ := smallLayout
    ∃ (s s' : State 2) (sp : Space), s.running 0 = some sp ∧ s.kmem.freelist.length = 5 ∧
      s.stepUser (.fork 0) = .ok (s', .ret (-1)) ∧ s.ForkUnseen 0 sp s' := by
  let _ := smallLayout
  obtain ⟨s, hs, hlen, sp, hsp, ⟨t, ret⟩, hr, hret⟩ : ∃ s ∈ smallRun almostFull,
      s.kmem.freelist.length = 5 ∧ ∃ sp ∈ s.running 0,
        ∃ r ∈ (s.stepUser (.fork 0)).toOption, r.2 = .ret (-1) := by decide +kernel
  have hinv : s.Inv := Reachable.inv (Reachable.of_runActs hs)
  obtain ⟨s', out, he, -, hunseen⟩ := failed_fork_unseen hinv hsp
  obtain ⟨rfl, rfl⟩ := Prod.mk.inj (Except.ok.inj (he.symm.trans (eq_ok_of_toOption hr)))
  obtain rfl : out = .ret (-1) := hret
  exact ⟨s, s', sp, hsp, hlen, he, hunseen rfl⟩

omit [Layout] in
/-- **A store beyond the size shows it**: before the fork that fails, the first process may store to
the last byte of its page; after it the page is copy-on-write, `iscowpage` does not look at
addresses from the size on, and the store kills the process. -/
theorem failed_fork_seen_beyond_size :
    let _ := smallLayout
    ∃ (s s' t t' : State 2) (sp : Space), s.Reachable ∧ s.running 0 = some sp ∧ sp.sz = 4095 ∧
      s.stepUser (.fork 0) = .ok (s', .ret (-1)) ∧
      s.stepUser (.store 0 4095 7) = .ok (t, .idle) ∧
      s'.stepUser (.store 0 4095 7) = .ok (t', .killed) := by
  let _ := smallLayout
  obtain ⟨s, hs, sp, hsp, hsz, ⟨s', ret⟩, hr, hret, ⟨t, out⟩, ht, hout, ⟨t', out'⟩, ht', hout'⟩ :
      ∃ s ∈ smallRun almostFull, ∃ sp ∈ s.running 0, sp.sz = 4095 ∧
      ∃ r ∈ (s.stepUser (.fork 0)).toOption, r.2 = .ret (-1) ∧
      ∃ q ∈ (s.stepUser (.store 0 4095 7)).toOption, q.2 = .idle ∧
      ∃ q' ∈ (r.1.stepUser (.store 0 4095 7)).toOption, q'.2 = .killed := by decide +kernel
  obtain rfl : ret = .ret (-1) := hret
  obtain rfl : out = .idle := hout
  obtain rfl : out' = .killed := hout'
  exact ⟨s, s', t, t', sp, Reachable.of_runActs hs, hsp, hsz, eq_ok_of_toOption hr,
    eq_ok_of_toOption ht, eq_ok_of_toOption ht'⟩

end State

end LazyXv6.Kernel
