import LazyXv6.Kernel.Eager

/-!
# The invariant of the machine

`State.Inv`: the counters and the free list are those of what the kernel and the processes hold
together, and every page table is well formed. Every operation keeps it, and none of them panics
but `userinit`; the operations of user programs do what they do in the reference system, unless
memory runs out.
-/

namespace LazyXv6.Kernel

open Function Lib Lib.Shares

variable {N : ℕ} {s : State N} {p c : Fin N} {P : Finset (Fin N)} {sp np : Space}
  {k k' k₀ : Kmem} {pt : PageTable} {x : Option Space}

/-! ## Holdings -/

def held (x : Option Space) : Shares ℕ := x.elim 0 Space.own

namespace State

/-- What the kernel and the processes outside `P` hold. -/
def others (s : State N) (P : Finset (Fin N)) : Shares ℕ :=
  ((s.holders : Multiset ℕ), 0) + ∑ p ∈ Pᶜ, held (s.space p)

def owned (s : State N) : Shares ℕ := s.others ∅

theorem others_eq (hp : p ∉ P) : s.others P = s.others (insert p P) + held (s.space p) := by
  unfold others
  rw [Finset.compl_insert, add_assoc, Finset.sum_erase_add _ _ (Finset.mem_compl.mpr hp)]

theorem others_put (hp : p ∈ P) : (s.put p k x).others P = s.others P := by
  unfold others
  refine congrArg _ (Finset.sum_congr rfl fun q hq => ?_)
  have hne : q ≠ p := by
    rintro rfl
    exact Finset.mem_compl.mp hq hp
  show held (update s.space p x q) = _
  rw [update_of_ne hne]

theorem owned_eq (s : State N) (p : Fin N) : s.owned = s.others {p} + held (s.space p) :=
  others_eq (Finset.notMem_empty p)

theorem space_put : (s.put p k x).space p = x := update_self ..

theorem space_put_of_ne (h : c ≠ p) : (s.put p k x).space c = s.space c :=
  update_of_ne h ..

theorem owned_put : (s.put p k x).owned = s.others {p} + held x := by
  rw [owned_eq _ p, space_put, others_put (Finset.mem_singleton_self p)]

theorem others_pair (h : p ≠ c) : s.others {p} = s.others {c, p} + held (s.space c) :=
  others_eq (by simpa using h.symm)

theorem owned_hold {l l' : List ℕ} {pa : ℕ} (h : (l' : Multiset ℕ) = {pa} + (l : Multiset ℕ)) :
    ({ s with kmem := k', holders := l' } : State N).owned =
      ({ s with kmem := k, holders := l } : State N).owned + ({pa}, 0) := by
  unfold owned others
  rw [h, add_right_comm, add_left_inj, Prod.mk_add_mk, add_comm, add_zero]

theorem owned_put_put {y : Option Space} (h : p ≠ c) :
    ((s.put p k x).put c k y).owned = s.others {c, p} + held x + held y := by
  rw [owned_put, others_pair h.symm, space_put, Finset.pair_comm, others_put (by simp)]

theorem eager_running : s.eager.running p = (s.running p).map (Space.eager s.kmem) := by
  unfold EagerState.running State.running State.eager
  rcases s.space p with _ | sp
  · rfl
  · show (if sp.zombie then none else some _) = Option.map _ (if sp.zombie then none else some sp)
    split <;> rfl

theorem running_spec (h : s.running p = some sp) : s.space p = some sp := by
  unfold State.running at h
  rcases hp : s.space p with _ | sq
  · rw [hp] at h
    exact nomatch h
  · rw [hp] at h
    obtain ⟨_, rfl⟩ : ¬sq.zombie = true ∧ sq = sp := by simpa using h
    rfl

theorem eager_unused : s.eager.unused = s.unused := by
  unfold EagerState.unused State.unused State.eager
  simp only [Option.isNone_map]

variable [Layout]

def TablesWf (s : State N) : Prop :=
  ∀ p sp, s.space p = some sp → Wf sp.pagetable.pte (pagesOf sp.sz) sp.trapframe

theorem TablesWf.put (h : s.TablesWf)
    (hw : ∀ sp, x = some sp → Wf sp.pagetable.pte (pagesOf sp.sz) sp.trapframe) :
    (s.put p k x).TablesWf := by
  intro q sq hq
  by_cases hqp : q = p
  · subst hqp
    rw [space_put] at hq
    exact hw sq hq
  · rw [space_put_of_ne hqp] at hq
    exact h q sq hq

/-- **The invariant**: all holdings are accounted for, and all page tables are well formed. -/
structure Inv (s : State N) : Prop where
  acct : Acct s.kmem s.owned
  wf : s.TablesWf

theorem Inv.space (h : s.Inv) (hp : s.space p = some sp) :
    SpaceOk (s.others {p}) s.kmem s.kmem sp := by
  refine ⟨Framed.refl (acct_congr h.acct ?_), h.wf p sp hp⟩
  rw [s.owned_eq p, hp]
  rfl

theorem Inv.put_of_acct (h : s.Inv) (ha : Acct k' (s.others {p} + held x))
    (hw : ∀ sp, x = some sp → Wf sp.pagetable.pte (pagesOf sp.sz) sp.trapframe) :
    (s.put p k' x).Inv :=
  ⟨acct_congr ha owned_put.symm, h.wf.put hw⟩

theorem Inv.put (h : s.Inv) (h' : SpaceOk (s.others {p}) k₀ k' sp) : (s.put p k' (some sp)).Inv :=
  h.put_of_acct h'.framed.acct fun _ e => Option.some.inj e ▸ h'.wf

theorem Inv.put_none (h : s.Inv) (h' : Framed (s.others {p}) 0 k₀ k') : (s.put p k' none).Inv :=
  h.put_of_acct h'.acct nofun

theorem Inv.put_put (h : s.Inv) (hne : p ≠ c)
    (hf : Framed (s.others {c, p}) (sp.own + np.own) k₀ k')
    (hw : Wf sp.pagetable.pte (pagesOf sp.sz) sp.trapframe)
    (hw' : Wf np.pagetable.pte (pagesOf np.sz) np.trapframe) :
    ((s.put p k' (some sp)).put c k' (some np)).Inv := by
  refine ⟨acct_congr hf.acct ?_, (h.wf.put ?_).put ?_⟩
  · rw [owned_put_put hne, add_assoc]
    rfl
  · exact fun _ e => Option.some.inj e ▸ hw
  · exact fun _ e => Option.some.inj e ▸ hw'

/-! ## The view of user programs -/

theorem TablesWf.eager_put (h : s.TablesWf)
    (hm : ∀ pa ∈ all (s.others {p}), k'.mem pa = s.kmem.mem pa) :
    (s.put p k' x).eager = s.eager.put p (x.map (Space.eager k')) := by
  funext q
  unfold State.eager EagerState.put
  by_cases hqp : q = p
  · subst hqp
    rw [update_self, space_put]
    rfl
  rw [update_of_ne hqp, space_put_of_ne hqp]
  rcases hq : s.space q with _ | sq
  · rfl
  refine congrArg some ?_
  have him : sq.image k' = sq.image s.kmem := by
    refine image_congr fun v hv => ?_
    have hmem : (sq.pagetable.pte v).ppn ∈ all (s.others {p}) := by
      rw [others_pair (c := q) (Ne.symm hqp), hq, all_add]
      refine Multiset.mem_add.mpr (.inr ?_)
      show _ ∈ all sq.own
      unfold Space.own
      rw [all_add]
      exact Multiset.mem_add.mpr (.inr (mem_all_owned hv ((h q sq hq).leaf v hv).valid))
    unfold Pte.page
    rw [hm _ hmem]
  show Space.eager k' sq = Space.eager s.kmem sq
  unfold Space.eager
  rw [him]

/-- `r` is the outcome of an operation in `s`: no panic, the invariant holds, and in runs that meet
`C` and find enough memory, `t` is the outcome in the reference system. -/
def Simulates (s : State N) (C : Prop) (t : EagerState N × Out N)
    (r : Except Panic (State N × Out N)) : Prop :=
  ∃ (s' : State N) (out : Out N), r = .ok (s', out) ∧ s'.Inv ∧ s.kmem.failures ≤ s'.kmem.failures ∧
    (C → s'.kmem.failures = s.kmem.failures → t = (s'.eager, out))

theorem Inv.simulates_idle (h : s.Inv) {C : Prop} {out : Out N} :
    s.Simulates C (s.eager, out) (.ok (s, out)) :=
  ⟨s, out, rfl, h, le_rfl, fun _ _ => rfl⟩

omit [Layout] in
theorem page_eq (k : Kmem) (sp : Space) (want : Page → Bool) {va : ℕ}
    (hv : va / pgSize < pagesOf sp.sz) :
    (sp.eager k).page want va = (some ((sp.pagetable.pte (va / pgSize)).page k)).filter
      fun page => page.u && want page := by
  show Option.filter _ (Kernel.image k sp.pagetable.pte (pagesOf sp.sz) (va / pgSize)) = _
  rw [image_of_lt hv]

theorem Inv.access (h : s.Inv) (hp : s.space p = some sp) (may : Perm → Bool) (want : Page → Bool)
    (hwant : ∀ (q : Pte) (k : Kmem), want (q.page k) = true ↔
      may q.toPerm = true ∨ (q.cow = true ∧ may q.toPerm.uncow = true)) (va : ℕ) :
    ∃ (k' : Kmem) (pt : PageTable) (a : Access), access may 3 s.kmem sp.pagetable sp.sz va =
      .ok (k', pt, a) ∧ (∀ z, SpaceOk (s.others {p}) s.kmem k' ⟨pt, sp.sz, sp.trapframe, z⟩) ∧
      (∀ z, Space.eager k' ⟨pt, sp.sz, sp.trapframe, z⟩ = { sp.eager s.kmem with zombie := z }) ∧
      ((a = .done (pt.pte (va / pgSize)).ppn ∧ va / pgSize < pagesOf sp.sz ∧
          may (pt.pte (va / pgSize)).toPerm = true ∧
          (sp.eager s.kmem).page want va = some ((pt.pte (va / pgSize)).page k')) ∨
        (a = .killed ∧ (va < sp.sz → k'.failures = s.kmem.failures →
          (sp.eager s.kmem).page want va = none))) := by
  have hsp := h.space hp
  obtain ⟨k', pt, a, he, hum, him, hend⟩ := access_ok hsp.userMem may va 1
  have hview : ∀ z, Space.eager k' ⟨pt, sp.sz, sp.trapframe, z⟩ =
    { sp.eager s.kmem with zombie := z } := by
    intro z
    unfold Space.eager Space.image
    rw [him]
  refine ⟨k', pt, a, he, fun z => hsp.of_userMem hum z, hview, ?_⟩
  rcases hend with ⟨rfl, hv, hu, hm⟩ | ⟨rfl, hwhy⟩
  · refine .inl ⟨rfl, hv, hm, ?_⟩
    have hpage := page_eq k' ⟨pt, sp.sz, sp.trapframe, sp.zombie⟩ want hv
    rw [hview] at hpage
    refine hpage.trans (Option.filter_some_pos ?_)
    rw [Bool.and_eq_true, hwant]
    exact ⟨hu, .inl hm⟩
  · refine .inr ⟨rfl, fun hva hfail => ?_⟩
    have hv := div_lt_pagesOf hva
    have hnot := (hwhy.resolve_left (by omega)).resolve_left (by omega)
    refine (page_eq _ _ _ hv).trans (Option.filter_some_neg ?_)
    rw [← Bool.not_eq_true, Bool.and_eq_true, hwant]
    rintro ⟨hu, hm⟩
    exact hnot ⟨hu, hm.imp_right fun hc => ⟨hva, hc⟩⟩

omit [Layout] in
theorem eager_put_self (hp : s.space p = some sp) :
    s.eager.put p (some (sp.eager s.kmem)) = s.eager := by
  have hself : s.eager p = some (sp.eager s.kmem) := by
    unfold State.eager
    rw [hp]
    rfl
  unfold EagerState.put
  rw [← hself, update_eq_self]

theorem Inv.load (h : s.Inv) (hp : s.space p = some sp) (va : ℕ) :
    s.Simulates (va < sp.sz) (s.eager.runUser p (sp.eager s.kmem) (.load p va))
    (s.runUser p sp (.load p va)) := by
  obtain ⟨k', pt, a, he, hok, hview, hend⟩ := h.access hp (·.r) (·.r)
    (fun q k => ⟨.inl, fun hq => hq.elim id And.right⟩) va
  rw [runUser, he, ok_bind, EagerState.runUser]
  rcases hend with ⟨rfl, hv, _, hpage⟩ | ⟨rfl, hnone⟩
  · refine ⟨_, _, rfl, h.put (hok sp.zombie), (hok sp.zombie).framed.failures, fun _ _ => ?_⟩
    rw [hpage, h.wf.eager_put (hok sp.zombie).framed.mem]
    simp only [Option.map_some, hview]
    exact congrArg (·, _) (eager_put_self hp).symm
  · refine ⟨_, _, rfl, h.put (hok true), (hok true).framed.failures, fun hva hfail => ?_⟩
    rw [hnone hva hfail, h.wf.eager_put (hok true).framed.mem]
    simp only [Option.map_some, hview]

theorem Inv.store (h : s.Inv) (hp : s.space p = some sp) (va : ℕ) (b : UInt8) :
    s.Simulates (va < sp.sz) (s.eager.runUser p (sp.eager s.kmem) (.store p va b))
      (s.runUser p sp (.store p va b)) := by
  obtain ⟨k', pt, a, he, hok, hview, hend⟩ :=
    h.access hp (·.w) (·.w) (fun q k => by simp [Pte.page, Perm.uncow]) va
  rw [runUser, he, ok_bind, EagerState.runUser]
  rcases hend with ⟨rfl, hv, hw, hpage⟩ | ⟨rfl, hnone⟩
  · have hum := (hok sp.zombie).userMem
    have hex := hum.exclusive hv hw
    have hok' : SpaceOk (s.others {p}) s.kmem (k'.write (pt.pte (va / pgSize)).ppn (va % pgSize) [b])
        ⟨pt, sp.sz, sp.trapframe, sp.zombie⟩ :=
      (hok sp.zombie).of_userMem (hum.write hex) sp.zombie
    refine ⟨_, _, rfl, h.put hok', hok'.framed.failures, fun _ _ => ?_⟩
    have hview' : Space.eager (k'.write (pt.pte (va / pgSize)).ppn (va % pgSize) [b])
        ⟨pt, sp.sz, sp.trapframe, sp.zombie⟩ = { sp.eager s.kmem with
          pages := stored (sp.eager s.kmem).pages (va / pgSize) (va % pgSize) [b] } := by
      have hpages : Kernel.image k' pt.pte (pagesOf sp.sz) = (sp.eager s.kmem).pages :=
        congrArg EagerProc.pages (hview sp.zombie)
      rw [← hpages, ← hum.image_write hv]
      rfl
    rw [hpage, h.wf.eager_put hok'.framed.mem]
    simp only [Option.map_some, hview']
  · refine ⟨_, _, rfl, h.put (hok true), (hok true).framed.failures, fun hva hfail => ?_⟩
    rw [hnone hva hfail, h.wf.eager_put (hok true).framed.mem]
    simp only [Option.map_some, hview]

omit [Layout] in
theorem unused_spec (h : s.unused = some c) : s.space c = none := by
  have hc := List.find?_some h
  exact Option.isNone_iff_eq_none.mp hc

theorem Inv.fork (h : s.Inv) (hp : s.space p = some sp) :
    s.Simulates True (s.eager.runUser p (sp.eager s.kmem) (.fork p))
    (s.runUser p sp (.fork p)) := by
  rw [runUser, EagerState.runUser, eager_unused]
  rcases hc : s.unused with _ | c
  · exact h.simulates_idle
  have hnone := unused_spec hc
  have hne : p ≠ c := by
    rintro rfl
    rw [hp] at hnone
    cases hnone
  obtain ⟨k', pt, hwf, him, -, ⟨np, he, hf, hwf', hsz, hz', him'⟩ | ⟨he, hf, hlt⟩⟩ :=
    forkSpace_ok (h.space hp)
  · have hpair : s.others {p} = s.others {c, p} := by
      rw [others_pair hne, hnone]
      exact add_zero _
    have hinv := h.put_put hne (hf.congrFrame hpair) hwf hwf'
    refine ⟨_, _, by rw [he]; rfl, hinv, hf.failures, fun _ _ => ?_⟩
    have hsp' : Space.eager k' { sp with pagetable := pt } = sp.eager s.kmem := by
      unfold Space.eager
      rw [him]
    have hnp : Space.eager k' np = { sp.eager s.kmem with zombie := false } := by
      unfold Space.eager
      rw [him', hsz, hz']
    have hwf1 : (s.put p k' (some { sp with pagetable := pt })).TablesWf :=
      h.wf.put fun _ e => Option.some.inj e ▸ hwf
    have hview : ((s.put p k' (some { sp with pagetable := pt })).put c k' (some np)).eager =
        s.eager.put c (some { sp.eager s.kmem with zombie := false }) := by
      have hput : ((s.put p k' (some { sp with pagetable := pt })).put c k' (some np)).eager =
          (s.put p k' (some { sp with pagetable := pt })).eager.put c (some (Space.eager k' np)) :=
        hwf1.eager_put fun _ _ => rfl
      rw [hput, h.wf.eager_put hf.mem, Option.map_some, hsp', hnp, eager_put_self hp]
    exact congrArg (·, _) hview.symm
  · have hok : SpaceOk (s.others {p}) s.kmem k' { sp with pagetable := pt } := ⟨hf, hwf⟩
    refine ⟨_, _, by rw [he]; rfl, h.put hok, hf.failures, fun _ hfail => absurd hfail ?_⟩
    show k'.failures ≠ _
    omega

theorem Inv.sbrk (h : s.Inv) (hp : s.space p = some sp) (n : Int32) :
    s.Simulates True (s.eager.runUser p (sp.eager s.kmem) (.sbrk p n))
    (s.runUser p sp (.sbrk p n)) := by
  obtain ⟨k', sp', ok, he, hok, hz, hend⟩ := growproc_ok (h.space hp) n
  rw [runUser, EagerState.runUser, he, ok_bind]
  refine ⟨_, _, rfl, h.put hok, hok.framed.failures, fun _ hfail => ?_⟩
  rcases hend with ⟨rfl, hsz, him⟩ | ⟨_, hlt⟩
  · have hview : Space.eager k' sp' = ⟨grownSize sp.sz n, resized (sp.image s.kmem) (pagesOf sp.sz)
        (pagesOf (grownSize sp.sz n)) (zeroPage { w := true }), sp.zombie⟩ := by
      unfold Space.eager
      rw [him, hsz, hz]
    rw [h.wf.eager_put hok.framed.mem, Option.map_some, hview]
    rfl
  · have hfail' : k'.failures = s.kmem.failures := hfail
    omega

theorem Inv.exit (h : s.Inv) (hp : s.space p = some sp) :
    s.Simulates True (s.eager.runUser p (sp.eager s.kmem) (.exit p))
    (s.runUser p sp (.exit p)) := by
  have hok : SpaceOk (s.others {p}) s.kmem s.kmem { sp with zombie := true } :=
    ⟨(h.space hp).framed, (h.space hp).wf⟩
  rw [runUser, EagerState.runUser]
  refine ⟨_, _, rfl, h.put hok, le_rfl, fun _ _ => ?_⟩
  rw [h.wf.eager_put fun _ _ => rfl]
  rfl

theorem Inv.copyout (h : s.Inv) (hp : s.space p = some sp) (dstva : ℕ) (src : List UInt8) :
    s.Simulates (sp.MayCopyout dstva src)
      (s.eager.runUser p (sp.eager s.kmem) (.copyout p dstva src))
      (s.runUser p sp (.copyout p dstva src)) := by
  obtain ⟨k', pt, ok, he, hum, hle, hmem, him⟩ :=
    copyoutLoop_ok src.length dstva src (h.space hp).userMem
  rw [runUser, EagerState.runUser, Kernel.copyout, he, ok_bind]
  have hok : SpaceOk (s.others {p}) k' k' { sp with pagetable := pt } :=
    ⟨Framed.refl (acct_congr hum.acct (add_assoc ..)), hum.wf⟩
  refine ⟨_, _, rfl, h.put hok, hle, fun hmay hfail => ?_⟩
  have hothers : ∀ pa ∈ all (s.others {p}), k'.mem pa = s.kmem.mem pa := by
    intro pa hpa
    refine hmem pa (by rw [all_add]; exact Multiset.mem_add.mpr (.inl hpa)) fun v h1 h2 hv hu => ?_
    exact (hmay v (lt_pagesOf h2) h1 hv hu).imp_right .inl
  obtain ⟨hpages, hret⟩ := Prod.mk.inj (him hfail)
  have hview : Space.eager k' { sp with pagetable := pt } = { sp.eager s.kmem with
      pages := (copyoutImage src.length (sp.eager s.kmem).pages dstva src).1 } :=
    congrArg (EagerProc.mk sp.sz · sp.zombie) hpages
  rw [h.wf.eager_put hothers, Option.map_some, hview, hret]
  rfl

/-- What the operations of user programs are held to: loads and stores stay below the size, and
`copyout` is aimed at pages that user code may write. -/
def Allows (s : State N) : UserOp N → Prop
  | .load p va | .store p va _ => ∀ sp ∈ s.space p, va < sp.sz
  | .copyout p dstva src => ∀ sp ∈ s.space p, sp.MayCopyout dstva src
  | .fork _ | .sbrk _ _ | .exit _ | .reap _ => True

instance (s : State N) : (u : UserOp N) → Decidable (s.Allows u)
  | .load p va | .store p va _ => inferInstanceAs (Decidable (∀ sp ∈ s.space p, va < sp.sz))
  | .copyout p dstva src =>
    inferInstanceAs (Decidable (∀ sp ∈ s.space p, sp.MayCopyout dstva src))
  | .fork _ | .sbrk _ _ | .exit _ | .reap _ => isTrue trivial

theorem Simulates.imp {C D : Prop} {t : EagerState N × Out N} {r : Except Panic (State N × Out N)}
    (h : s.Simulates C t r) (hcd : D → C) : s.Simulates D t r := by
  obtain ⟨s', out, he, hinv, hle, hsim⟩ := h
  exact ⟨s', out, he, hinv, hle, fun hd => hsim (hcd hd)⟩

theorem Inv.runUser (h : s.Inv) {u : UserOp N} (hu : u.proc = p) (hp : s.space p = some sp) :
    s.Simulates (s.Allows u) (s.eager.runUser p (sp.eager s.kmem) u) (s.runUser p sp u) := by
  subst hu
  cases u with
  | load p va => exact (h.load hp va).imp fun ha => ha sp hp
  | store p va b => exact (h.store hp va b).imp fun ha => ha sp hp
  | fork p => exact h.fork hp
  | sbrk p n => exact h.sbrk hp n
  | exit p => exact h.exit hp
  | copyout p dstva src => exact (h.copyout hp dstva src).imp fun ha => ha sp hp
  | reap p => exact h.simulates_idle

theorem Inv.stepRunning (h : s.Inv) (u : UserOp N) :
    s.Simulates (s.Allows u) (match s.eager.running u.proc with
        | none => (s.eager, .idle)
        | some pr => s.eager.runUser u.proc pr u)
      (match s.running u.proc with
        | none => .ok (s, .idle)
        | some sp => s.runUser u.proc sp u) := by
  rw [eager_running]
  rcases hr : s.running u.proc with _ | sp
  · exact h.simulates_idle
  · exact h.runUser rfl (running_spec hr)

theorem Inv.reap (h : s.Inv) (hp : s.space p = some sp) {C : Prop} :
    s.Simulates C (s.eager.put p none, .idle) (s.free p sp) := by
  obtain ⟨k', he, hf⟩ := freeproc_ok (h.space hp)
  unfold State.free
  rw [he, ok_bind]
  refine ⟨_, _, rfl, h.put_none hf, hf.failures, fun _ _ => ?_⟩
  rw [h.wf.eager_put hf.mem]
  rfl

/-- **One operation of a user program** keeps the invariant, and does what it does in the reference
system if it is allowed and memory does not run out. -/
theorem Inv.stepUser (h : s.Inv) (u : UserOp N) :
    s.Simulates (s.Allows u) (s.eager.step u) (s.stepUser u) := by
  cases u with
  | reap p =>
    show s.Simulates _ (match s.eager p with
        | none => (s.eager, .idle)
        | some pr => if pr.zombie then (s.eager.put p none, .idle) else (s.eager, .idle))
      (match s.space p with
        | none => .ok (s, .idle)
        | some sp => if sp.zombie then s.free p sp else .ok (s, .idle))
    rw [show s.eager p = (s.space p).map (Space.eager s.kmem) from rfl]
    rcases hp : s.space p with _ | sp
    · exact h.simulates_idle
    · show s.Simulates _ (if sp.zombie then _ else _) (if sp.zombie then _ else _)
      by_cases hz : sp.zombie = true
      · rw [if_pos hz, if_pos hz]
        exact h.reap hp
      · rw [if_neg hz, if_neg hz]
        exact h.simulates_idle
  | load p va => exact h.stepRunning (.load p va)
  | store p va b => exact h.stepRunning (.store p va b)
  | fork p => exact h.stepRunning (.fork p)
  | sbrk p n => exact h.stepRunning (.sbrk p n)
  | exit p => exact h.stepRunning (.exit p)
  | copyout p dstva src => exact h.stepRunning (.copyout p dstva src)

/-! ## The operations of the kernel -/

/-- `r` is the outcome of an operation: no panic, and the invariant holds. -/
def Keeps (r : Except Panic (State N × Out N)) : Prop :=
  ∃ (s' : State N) (out : Out N), r = .ok (s', out) ∧ s'.Inv

theorem Inv.keeps_idle (h : s.Inv) {out : Out N} : Keeps (.ok (s, out)) := ⟨s, out, rfl, h⟩

theorem Inv.kalloc (h : s.Inv) : Keeps (s.step .kalloc) := by
  rw [State.step]
  rcases hk : Kernel.kalloc s.kmem with ⟨k, _ | pa⟩
  · have hf := Framed.refl (r := 0) (acct_congr h.acct (add_zero _).symm)
    exact ⟨_, _, rfl, acct_congr (kalloc_none hf hk).1.acct (add_zero _), h.wf⟩
  · exact ⟨_, _, rfl, acct_congr (kalloc_some h.acct hk).1.acct (owned_hold rfl).symm, h.wf⟩

theorem Inv.kfree (h : s.Inv) (pa : ℕ) : Keeps (s.step (.kfree pa)) := by
  rw [State.step]
  by_cases hpa : pa ∈ s.holders
  · have hl : (s.holders : Multiset ℕ) = {pa} + (s.holders.erase pa : Multiset ℕ) := by
      rw [← Multiset.coe_erase, Multiset.singleton_add, Multiset.cons_erase hpa]
    have howned : s.owned = ({ s with holders := s.holders.erase pa } : State N).owned + ({pa}, 0) :=
      owned_hold hl
    obtain ⟨k', he, hf⟩ := kfree_ok _ (acct_congr h.acct howned) rfl
    have hinv : ({ s with kmem := k', holders := s.holders.erase pa } : State N).Inv :=
      ⟨acct_congr hf.acct (add_zero _), h.wf⟩
    exact ⟨_, .idle, by rw [if_pos hpa, he]; rfl, hinv⟩
  · rw [if_neg hpa]
    exact h.keeps_idle

theorem Inv.allocproc (h : s.Inv) (p : Fin N) : Keeps (s.step (.allocproc p)) := by
  rw [State.step]
  rcases hp : s.space p with _ | sp
  · have hothers : s.owned = s.others {p} := by
      rw [s.owned_eq p, hp]
      exact add_zero _
    rcases allocproc_ok (acct_congr h.acct hothers) with ⟨k', np, he, hnp, _⟩ | ⟨k', he, hf, _⟩
    · rw [he]
      exact ⟨_, _, rfl, h.put hnp⟩
    · rw [he]
      exact ⟨_, _, rfl, acct_congr hf.acct ((add_zero _).trans hothers.symm), h.wf⟩
  · exact h.keeps_idle

theorem Inv.pair (h : s.Inv) (hp : s.space p = some sp) (hne : c ≠ p) (hc : s.space c = some np)
    (hsz : np.sz = 0) : UserMem
      (s.others {c, p} + ({sp.trapframe}, 0) + ({np.trapframe}, 0) + np.pagetable.owned 0)
      sp.trapframe s.kmem s.kmem sp.pagetable (pagesOf sp.sz) := by
  refine ⟨Framed.refl (acct_congr (h.space hp).framed.acct ?_), h.wf p sp hp⟩
  rw [others_pair (Ne.symm hne), hc]
  show s.others {c, p} + np.own + sp.own = _
  unfold Space.own
  rw [hsz, pagesOf_zero]
  abel

theorem Inv.uvmcopy (h : s.Inv) (hp : s.space p = some sp) (c : Fin N) :
    Keeps (s.runKernel p sp (.uvmcopy p c)) := by
  rw [State.runKernel]
  rcases hc : s.space c with _ | np
  · exact h.keeps_idle
  by_cases hskip : c = p ∨ np.sz ≠ 0
  · simp only [if_pos hskip]
    exact h.keeps_idle
  simp only [if_neg hskip]
  obtain ⟨hne, hsz⟩ : c ≠ p ∧ np.sz = 0 := by simpa using hskip
  have hwf := h.wf c np hc
  rw [hsz, pagesOf_zero] at hwf
  obtain ⟨k', old, new, _, hwf', -, ⟨he, hf, hnew, _⟩ | ⟨he, hf, hnew, _⟩⟩ :=
    uvmcopy_ok (h.pair hp hne hc hsz) hwf
  · have hf' : Framed (s.others {c, p}) (({ sp with pagetable := old } : Space).own +
        ({ np with pagetable := new, sz := sp.sz } : Space).own) s.kmem k' := by
      refine (hf.congrFrame (add_assoc ..)).unframe.congr ?_
      unfold Space.own
      abel
    rw [he, ok_bind]
    exact ⟨_, _, rfl, h.put_put (Ne.symm hne) hf' hwf' hnew⟩
  · have hf' : Framed (s.others {c, p}) (({ sp with pagetable := old } : Space).own +
        ({ np with pagetable := new, sz := 0 } : Space).own) s.kmem k' := by
      refine (hf.congrFrame (add_assoc ..)).unframe.congr ?_
      unfold Space.own
      rw [pagesOf_zero]
      abel
    rw [← pagesOf_zero] at hnew
    rw [he, ok_bind]
    exact ⟨_, _, rfl, h.put_put (Ne.symm hne) hf' hwf' hnew⟩

theorem Inv.runKernel (h : s.Inv) (hp : s.space p = some sp) (op : Op N) :
    Keeps (s.runKernel p sp op) := by
  have hsp := h.space hp
  have hum := hsp.userMem
  cases op with
  | exec q elf argv =>
    obtain ⟨k', sp', ok, he, hok, _⟩ := exec_ok hsp elf argv
    rw [State.runKernel, he, ok_bind]
    exact ⟨_, _, rfl, h.put hok⟩
  | freeproc q =>
    obtain ⟨s', out, he, hinv, _⟩ := h.reap hp (C := True)
    exact ⟨s', out, he, hinv⟩
  | uvmalloc q newsz w x =>
    rw [State.runKernel]
    obtain ⟨k', pt', ⟨he, hum', _⟩ | ⟨he, hum', _⟩⟩ :=
      uvmalloc_ok { w := w, x := x } rfl hum (newsz % 2 ^ 64)
    · rw [he, ok_bind]
      by_cases h0 : max sp.sz (newsz % 2 ^ 64) = 0
      · have hsz : max sp.sz (newsz % 2 ^ 64) = sp.sz := by omega
        rw [hsz] at hum'
        exact ⟨_, _, by rw [if_pos h0], h.put (hsp.of_userMem hum' sp.zombie)⟩
      · exact ⟨_, _, by rw [if_neg h0], h.put (hsp.of_userMem hum' sp.zombie)⟩
    · rw [he, ok_bind]
      exact ⟨_, _, by rw [if_pos rfl], h.put (hsp.of_userMem hum' sp.zombie)⟩
  | uvmdealloc q newsz =>
    obtain ⟨k', pt', he, hum', _⟩ := uvmdealloc_ok _ hum (newsz % 2 ^ 64)
    rw [State.runKernel, he, ok_bind]
    exact ⟨_, _, rfl, h.put (hsp.of_userMem hum' sp.zombie)⟩
  | uvmcopy q c => exact h.uvmcopy hp c
  | uvmclear q va =>
    rw [State.runKernel]
    by_cases hva : va < sp.sz
    · obtain ⟨pt', he, hum', -⟩ := uvmclear_ok hum (div_lt_pagesOf hva)
      rw [if_pos hva, he, ok_bind]
      exact ⟨_, _, rfl, h.put (hsp.of_userMem hum' sp.zombie)⟩
    · rw [if_neg hva]
      exact h.keeps_idle
  | usertrap q va =>
    rw [State.runKernel]
    rcases usertrap_ok hum va with ⟨k', pt', he, _, hres⟩ | ⟨k', he, hum', _⟩
    · rw [he, ok_bind]
      exact ⟨_, _, rfl, h.put (hsp.of_userMem hres.userMem _)⟩
    · rw [he, ok_bind]
      exact ⟨_, _, rfl, h.put (hsp.of_userMem hum' _)⟩
  | copyin q srcva len =>
    obtain ⟨r, he⟩ := copyinLoop_ok s.kmem sp.pagetable len srcva len
    rw [State.runKernel, Kernel.copyin, he, ok_bind]
    exact h.keeps_idle
  | user _ | userinit _ | kalloc | kfree _ | allocproc _ => exact h.keeps_idle

theorem Inv.stepKernel (h : s.Inv) (p : Fin N) (op : Op N) : Keeps (s.stepKernel p op) := by
  unfold State.stepKernel
  rcases hp : s.space p with _ | sp
  · exact h.keeps_idle
  · exact h.runKernel hp op

/-- **No operation panics** but `userinit`, and the invariant is kept. -/
theorem Inv.keeps (h : s.Inv) {op : Op N} (hop : ∀ initcode, op ≠ .userinit initcode) :
    Keeps (s.step op) := by
  cases op with
  | user u =>
    obtain ⟨s', out, he, hinv, _⟩ := h.stepUser u
    exact ⟨s', out, he, hinv⟩
  | userinit initcode => exact absurd rfl (hop initcode)
  | kalloc => exact h.kalloc
  | kfree pa => exact h.kfree pa
  | allocproc p => exact h.allocproc p
  | exec p | freeproc p | uvmalloc p | uvmdealloc p | uvmcopy p | uvmclear p | usertrap p
  | copyin p => exact h.stepKernel p _

theorem Inv.userinit {s' : State N} {out : Out N} {initcode : List UInt8} (h : s.Inv)
    (he : s.step (.userinit initcode) = .ok (s', out)) : s'.Inv := by
  rw [State.step] at he
  rcases hp : s.unused with _ | p
  · rw [hp] at he
    exact nomatch he
  rw [hp] at he
  rcases hf : firstSpace s.kmem initcode with e | ⟨k', sp⟩
  · rw [hf] at he
    exact nomatch he
  rw [hf] at he
  obtain ⟨rfl, _⟩ : s.put p k' (some sp) = s' ∧ Out.child p = out := by
    simpa [Except.map] using he
  refine h.put (firstSpace_ok (acct_congr h.acct ?_) hf)
  rw [s.owned_eq p, unused_spec hp]
  exact add_zero _

theorem Inv.next {s' : State N} {op : Op N} (h : s.Inv) (he : s.next op = some s') : s'.Inv := by
  unfold State.next at he
  rcases hs : s.step op with e | ⟨t, out⟩
  · rw [hs] at he
    exact nomatch he
  rw [hs] at he
  obtain rfl : t = s' := Option.some.inj he
  by_cases hop : ∀ initcode, op ≠ .userinit initcode
  · obtain ⟨s', out', he', hinv⟩ := h.keeps hop
    rw [he'] at hs
    obtain ⟨rfl, _⟩ : s' = t ∧ out' = out := by simpa using hs
    exact hinv
  · obtain ⟨initcode, rfl⟩ : ∃ initcode, op = .userinit initcode := by simpa using hop
    exact h.userinit hs

theorem boot_inv {mem : ℕ → ℕ → UInt8} {s₀ : State N} (h : boot N mem = .ok s₀) : s₀.Inv := by
  unfold boot at h
  rw [kinit_eq] at h
  obtain rfl : (⟨initialKmem mem, [], fun _ => none⟩ : State N) = s₀ := by
    simpa [Except.map] using h
  refine ⟨acct_congr (initialKmem_acct mem) ?_, nofun⟩
  have hsum : ∑ _p ∈ (∅ : Finset (Fin N))ᶜ, held none = 0 := Finset.sum_eq_zero fun _ _ => rfl
  show 0 = ((([] : List ℕ) : Multiset ℕ), 0) + ∑ _p ∈ (∅ : Finset (Fin N))ᶜ, held none
  rw [hsum]
  rfl

theorem Reachable.inv (h : s.Reachable) : s.Inv := by
  obtain ⟨mem, s₀, hb, hr⟩ := h
  exact hr.invariant (fun _ _ _ hi he => hi.next he) (boot_inv hb)

/-- **No panic of the virtual-memory code is reachable.** In every reachable state every process
maps exactly the pages below its size, all of them readable, the trapframe and the trampoline; and
no operation panics, whatever its arguments and however little memory is left. -/
theorem vm_never_panics (h : s.Reachable) (op : Op N) (hop : ∀ initcode, op ≠ .userinit initcode) :
    (∀ p sp, s.space p = some sp → ∀ v, ((sp.pagetable.pte v).v = true ↔
        v < pagesOf sp.sz ∨ v = trapframePage ∨ v = trampolinePage) ∧
      ((sp.pagetable.pte v).v = true → (sp.pagetable.pte v).r = true)) ∧
    ∃ (s' : State N) (out : Out N), s.step op = .ok (s', out) := by
  refine ⟨fun p sp hp v => (h.inv.wf p sp hp).mapped v, ?_⟩
  obtain ⟨s', out, he, _⟩ := h.inv.keeps hop
  exact ⟨s', out, he⟩

omit [Layout] in
/-- The first process forks when no page is left. -/
theorem vm_never_panics_outOfMemory :
    let _ := smallLayout
    ∃ s : State 2, s.kmem.freelist = [] ∧
      ∃ (s' : State 2) (out : Out 2), s.step (.user (.fork 0)) = .ok (s', out) := by
  let _ := smallLayout
  obtain ⟨s, hs, hfree⟩ : ∃ s ∈ smallRun (.userinit [0x73] :: List.replicate 57 .kalloc),
      s.kmem.freelist = [] := by decide +kernel
  exact ⟨s, hfree, (vm_never_panics (Reachable.of_runActs hs) (.user (.fork 0)) nofun).2⟩

end State

end LazyXv6.Kernel
