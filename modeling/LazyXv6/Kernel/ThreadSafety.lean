import LazyXv6.Kernel.Threads

/-!
# Copy-on-write under every interleaving

The references to a page sit in the page-table entries and in the local variables of the threads:
`pool s` is a pool of slots (`Lib.SlotPool`), and every step of a thread is a sequence of its moves
(`Effect.moves`). The rest of the invariant says what each thread may rely on (`Pc.Ok`), about its
own page table and that of its child, which no other thread touches.
-/

namespace LazyXv6.Kernel.Threads

open Lib Function Relation

variable {n m : ℕ}

inductive Loc (n m : ℕ) where
  | entry (q : Fin n) (v : Fin m)
  /-- What a thread in `kalloc` or `kfree` has in hand. -/
  | frame (p : Fin n)
  /-- The new page of a thread, before it is mapped. -/
  | page (p : Fin n)
  deriving DecidableEq, Fintype

def Loc.proc : Loc n m → Fin n
  | .entry q _ => q
  | .frame p | .page p => p

def Entry.slot (e : Entry) : Slot ℕ :=
  if e.pte.v then
    match e.share with
    | .counted => .shared e.pte.ppn
    | .sole => .sole e.pte.ppn
    | .uncounted | .freed => .empty
  else .empty

def MapFor.fresh : MapFor n m → Slot ℕ
  | .cow _ _ newPage _ => .sole newPage
  | .page _ mem _ => .sole mem
  | .copy .. => .empty

def AllocFor.fresh : AllocFor n m → Slot ℕ
  | .table k => k.fresh
  | .cow .. | .page .. | .kernel => .empty

def UnmapFor.fresh : UnmapFor n m → Slot ℕ
  | .cow _ _ newPage _ => .sole newPage
  | .shrink _ | .exit | .forkFails _ => .empty

def FreeFor.fresh : FreeFor n m → Slot ℕ
  | .unmap _ _ k => k.fresh
  | .newPage _ | .kernel => .empty

namespace Pc

def frame : Pc n m → Slot ℕ
  | .kallocFill r _ | .kallocCount r _ => .transit r
  | .kfree pa _ | .kfreeCount pa _ => .shared pa
  | .kfreeFill pa _ | .kfreePush pa _ => .transit pa
  | _ => .empty

def fresh : Pc n m → Slot ℕ
  | .kalloc k | .kallocFill _ k | .kallocCount _ k => k.fresh
  | .memmove _ _ _ newPage _ _ => .sole newPage
  | .unmap _ k | .unmapClear _ _ k => k.fresh
  | .kfree _ k | .kfreeCount _ k | .kfreeFill _ k | .kfreePush _ k => k.fresh
  | .zero _ mem _ => .sole mem
  | .map k => k.fresh
  | _ => .empty

end Pc

def slots (entry : Fin n → Fin m → Entry) (pc : Fin n → Pc n m) : Loc n m → Slot ℕ
  | .entry q v => (entry q v).slot
  | .frame p => (pc p).frame
  | .page p => (pc p).fresh

def pool (s : State n m) : SlotPool (Loc n m) ℕ :=
  ⟨slots s.entry s.pc, s.held, s.kmem.referenceCounter, s.kmem.freelist, s.log⟩

section

variable {entry : Fin n → Fin m → Entry} {pc : Fin n → Pc n m} {p q : Fin n} {v : Fin m}

theorem setEntry_self (e : Entry) : setEntry entry q v e q v = e := by
  unfold setEntry
  rw [update_self, update_self]

theorem setEntry_of_ne {q' : Fin n} {v' : Fin m} (h : ¬(q' = q ∧ v' = v)) (e : Entry) :
    setEntry entry q v e q' v' = entry q' v' := by
  unfold setEntry
  rcases eq_or_ne q' q with rfl | hq
  · rw [update_self, update_of_ne fun hv => h ⟨rfl, hv⟩]
  · rw [update_of_ne hq]

theorem slots_setEntry (e : Entry) :
    slots (setEntry entry q v e) pc = update (slots entry pc) (.entry q v) e.slot := by
  funext l
  cases l with
  | entry q' v' =>
    by_cases h : q' = q ∧ v' = v
    · obtain ⟨rfl, rfl⟩ := h
      rw [update_self]
      exact congrArg Entry.slot (setEntry_self e)
    · rw [update_of_ne fun he => h ⟨(Loc.entry.inj he).1, (Loc.entry.inj he).2⟩]
      exact congrArg Entry.slot (setEntry_of_ne h e)
  | frame | page => rfl

theorem slots_setPc (c : Pc n m) :
    slots entry (update pc p c) = update (update (slots entry pc) (.frame p) c.frame) (.page p)
      c.fresh := by
  funext l
  cases l with
  | entry q v => rfl
  | frame r =>
    rw [update_of_ne (show Loc.frame r ≠ .page p from nofun)]
    rcases eq_or_ne r p with rfl | hr
    · rw [update_self]
      show (update pc r c r).frame = _
      rw [update_self]
    · rw [update_of_ne fun he => hr (Loc.frame.inj he)]
      show (update pc p c r).frame = _
      rw [update_of_ne hr]
      rfl
  | page r =>
    rcases eq_or_ne r p with rfl | hr
    · rw [update_self]
      show (update pc r c r).fresh = _
      rw [update_self]
    · rw [update_of_ne fun he => hr (Loc.page.inj he),
        update_of_ne (show Loc.page r ≠ .frame p from nofun)]
      show (update pc p c r).fresh = _
      rw [update_of_ne hr]
      rfl

theorem slots_setPc_frame {c : Pc n m} (h : c.fresh = (pc p).fresh) :
    slots entry (update pc p c) = update (slots entry pc) (.frame p) c.frame := by
  rw [slots_setPc, h]
  refine update_eq_iff.mpr ⟨?_, fun _ _ => rfl⟩
  rw [update_of_ne (show Loc.page p ≠ .frame p from nofun)]
  rfl

theorem slots_setPc_page {c : Pc n m} (h : c.frame = (pc p).frame) :
    slots entry (update pc p c) = update (slots entry pc) (.page p) c.fresh := by
  rw [slots_setPc, h]
  congr 1
  exact update_eq_self (Loc.frame p) (slots entry pc)

theorem slots_setPc_same {c : Pc n m} (h : c.frame = (pc p).frame) (h' : c.fresh = (pc p).fresh) :
    slots entry (update pc p c) = slots entry pc := by
  rw [slots_setPc_page h, h']
  exact update_eq_self (Loc.page p) (slots entry pc)

end

/-! ## What threads rely on -/

section

variable (s : State n m) (p : Fin n)

def MapFor.Ok : MapFor n m → Prop
  | .copy c i _ pa flags => s.pc c = .embryo p ∧
      ((s.entry p i).pte.v = true ∧ (s.entry p i).share = .counted ∧ (s.entry p i).pte.ppn = pa) ∧
      flags.w = false
  | .cow .. | .page .. => True

def AllocFor.Ok : AllocFor n m → Prop
  | .cow _ v pa _ => (s.entry p v).pte.v = true ∧ (s.entry p v).pte.ppn = pa
  | .table k => k.Ok s p
  | .page .. | .kernel => True

def UnmapFor.Ok : UnmapFor n m → Prop
  | .forkFails c => s.pc c = .embryo p
  | .cow .. | .shrink _ | .exit => True

def FreeFor.Ok : FreeFor n m → Prop
  | .unmap v _ k => k.Ok s p ∧ (s.entry (k.table p) v).share = .freed
  | .newPage _ | .kernel => True

def Pc.Ok : Pc n m → Prop
  | .clearCow v | .setW v | .write v =>
    (s.entry p v).pte.v = true ∧ (s.entry p v).share = .sole
  | .kalloc k | .kallocFill _ k | .kallocCount _ k => k.Ok s p
  | .memmove _ v pa newPage _ off => (s.entry p v).pte.v = true ∧ (s.entry p v).pte.ppn = pa ∧
      ∀ j < off, s.kmem.mem newPage j = s.kmem.mem pa j
  | .unmap _ k => k.Ok s p
  | .unmapClear v _ k => k.Ok s p ∧ (s.entry (k.table p) v).share = .freed
  | .kfree _ k | .kfreeCount _ k | .kfreeFill _ k | .kfreePush _ k => k.Ok s p
  | .map k => k.Ok s p
  | .copy c _ => s.pc c = .embryo p
  | .copySetCow c i _ | .copyClearW c i _ => s.pc c = .embryo p ∧ (s.entry p i).pte.v = true
  | .copyCount c i _ pa => s.pc c = .embryo p ∧
      ((s.entry p i).pte.v = true ∧ (s.entry p i).share = .counted ∧ (s.entry p i).pte.ppn = pa) ∧
      (s.entry c i).pte.v = true ∧ (s.entry c i).share = .uncounted ∧ (s.entry c i).pte.ppn = pa ∧
      (s.entry c i).pte.w = false
  | .unused | .embryo _ | .user | .zero .. => True

end

def FreeFor.works (p : Fin n) : FreeFor n m → Option (Fin n × Fin m)
  | .unmap v _ k => some (k.table p, v)
  | .newPage _ | .kernel => none

/-- The entry that a thread is about to count, or to clear. -/
def Pc.works (p : Fin n) : Pc n m → Option (Fin n × Fin m)
  | .copyCount c i _ _ => some (c, i)
  | .kfree _ k | .kfreeCount _ k | .kfreeFill _ k | .kfreePush _ k => k.works p
  | .unmapClear v _ k => some (k.table p, v)
  | _ => none

/-- The entry is not in use, or counted. -/
def Entry.Settled (e : Entry) : Prop :=
  e.pte.v = true → e.share = .counted ∨ e.share = .sole

/-- A writable entry is the only reference to its page. -/
def Entry.WOk (e : Entry) : Prop :=
  e.pte.v = true → e.pte.w = true → e.share = .sole ∨ e.share = .freed

variable [Layout]

structure Inv (s : State n m) : Prop where
  pool : (pool s).Ok IsPage
  pc : ∀ p, (s.pc p).Ok s p
  busy : ∀ q v, (s.entry q v).Settled ∨ ∃ p, (s.pc p).works p = some (q, v)
  w : ∀ q v, (s.entry q v).WOk

def Writes (s : State n m) (p : Fin n) (pa : ℕ) : Prop :=
  s.held pa = true ∨ ∃ l : Loc n m, l.proc = p ∧
    ((Threads.pool s).slot l = .sole pa ∨ (Threads.pool s).slot l = .transit pa)

structure Effect (s s' : State n m) (p : Fin n) : Prop where
  moves : ReflTransGen SlotPool.Move (pool s) (pool s')
  writes : ∀ pa, s'.kmem.mem pa = s.kmem.mem pa ∨ Writes s p pa
  active : s.pc p ≠ .unused ∧ ∀ q, s.pc p ≠ .embryo q
  pc : ∀ q, q ≠ p → s'.pc q = s.pc q ∨ (s.pc q = .unused ∨ s.pc q = .embryo p) ∧
    (s'.pc q = .unused ∨ s'.pc q = .user ∨ s'.pc q = .embryo p)
  entry : ∀ q v, q ≠ p → s.pc q ≠ .embryo p → s'.entry q v = s.entry q v
  ok : (s'.pc p).Ok s' p
  busy : ∀ q v, s'.entry q v = s.entry q v ∧ (s.pc p).works p ≠ some (q, v) ∨
    (s'.entry q v).Settled ∨ (s'.pc p).works p = some (q, v)
  w : ∀ q v, s'.entry q v = s.entry q v ∨ (s'.entry q v).WOk

section

variable {s s' : State n m} {p q : Fin n} {v : Fin m} {pa : ℕ}

/-! ## One thread against the others -/

/-- A page that a thread writes to has no reference but one of the thread. -/
theorem Writes.sole (h : Inv s) (hw : Writes s p pa) {l : Loc n m}
    (hrefs : ((pool s).slot l).refs pa = true) : l.proc = p ∧ (pool s).slot l = .sole pa := by
  rcases hw with hheld | ⟨l', hproc, hsole | htransit⟩
  · exact absurd (hrefs.symm.trans (h.pool.refs_of_kept hheld _)) nofun
  · obtain rfl := h.pool.eq_of_sole hsole hrefs
    exact ⟨hproc, hsole⟩
  · exact absurd (hrefs.symm.trans (h.pool.refs_of_transit htransit _)) nofun

omit [Layout] in
theorem Entry.refs_of_settled {e : Entry} (h : e.Settled) (hv : e.pte.v = true) :
    e.slot.refs e.pte.ppn = true := by
  unfold slot
  rw [if_pos hv]
  rcases h hv with hs | hs
  · rw [hs]
    exact Slot.refs_shared_self _
  · rw [hs]
    exact Slot.refs_sole_self _

omit [Layout] in
/-- `uvmunmap` works on the page table of the thread, or of its child. -/
theorem UnmapFor.Ok.table {k : UnmapFor n m} (h : k.Ok s p) :
    k.table p = p ∨ s.pc (k.table p) = .embryo p := by
  cases k with
  | forkFails c => exact .inr h
  | _ => exact .inl rfl

theorem Inv.works (h : Inv s) {t : Fin n} (hp : (s.pc p).works p = some (t, v)) :
    t = p ∨ s.pc t = .embryo p := by
  have hfree : ∀ k : FreeFor n m, k.Ok s p → k.works p = some (t, v) → t = p ∨
    s.pc t = .embryo p := by
    intro k hk hw
    cases k with
    | unmap v' vs k =>
      cases hw
      exact hk.1.table
    | newPage | kernel => exact nomatch hw
  have hok := h.pc p
  cases hpc : s.pc p with
  | unmapClear v' vs k =>
    rw [hpc] at hok hp
    cases hp
    exact hok.1.table
  | kfree pa k | kfreeCount pa k | kfreeFill pa k | kfreePush pa k =>
    rw [hpc] at hok hp
    exact hfree k hok hp
  | copyCount c i vs pa =>
    rw [hpc] at hok hp
    cases hp
    exact .inr hok.1
  | _ =>
    rw [hpc] at hp
    exact nomatch hp

theorem Inv.settled (h : Inv s) (hactive : ∀ q, s.pc p ≠ .embryo q) {t : Fin n}
    (ht : t = p ∨ s.pc t = .embryo p) (hwork : (s.pc p).works p ≠ some (t, v)) :
    (s.entry t v).Settled := by
  rcases h.busy t v with hs | ⟨q, hq⟩
  · exact hs
  have hqp : q = p := by
    rcases h.works hq with rfl | he
    · rcases ht with rfl | he
      · rfl
      · rw [he] at hq
        exact nomatch hq
    · rcases ht with rfl | he'
      · exact absurd he (hactive q)
      · exact Pc.embryo.inj (he.symm.trans he')
  rw [hqp] at hq
  exact absurd hq hwork

omit [Layout] in
theorem UnmapFor.Ok.frame {k : UnmapFor n m} (h : k.Ok s p)
    (hchild : ∀ c, s.pc c = .embryo p → s'.pc c = .embryo p) : k.Ok s' p := by
  cases k with
  | forkFails c => exact hchild c h
  | _ => trivial

section

omit [Layout]

variable (hentry : ∀ v, s'.entry p v = s.entry p v)
  (hchild : ∀ c, s.pc c = .embryo p → s'.pc c = .embryo p ∧ ∀ v, s'.entry c v = s.entry c v)

include hentry hchild

theorem UnmapFor.Ok.entry_eq {k : UnmapFor n m} (h : k.Ok s p) (v : Fin m) :
    s'.entry (k.table p) v = s.entry (k.table p) v := by
  cases k with
  | forkFails c => exact (hchild c h).2 v
  | _ => exact hentry v

theorem MapFor.Ok.frame {k : MapFor n m} (h : k.Ok s p) : k.Ok s' p := by
  cases k with
  | copy c i vs pa flags =>
    refine ⟨(hchild c h.1).1, ?_, h.2.2⟩
    rw [hentry]
    exact h.2.1
  | _ => trivial

theorem AllocFor.Ok.frame {k : AllocFor n m} (h : k.Ok s p) : k.Ok s' p := by
  cases k with
  | cow f v pa flags =>
    show (s'.entry p v).pte.v = true ∧ _
    rw [hentry]
    exact h
  | table k => exact MapFor.Ok.frame (k := k) hentry hchild h
  | _ => trivial

theorem FreeFor.Ok.frame {k : FreeFor n m} (h : k.Ok s p) : k.Ok s' p := by
  cases k with
  | unmap v vs k =>
    refine ⟨h.1.frame fun c hc => (hchild c hc).1, ?_⟩
    rw [h.1.entry_eq hentry hchild]
    exact h.2
  | _ => trivial

/-- A thread can rely on the same as before if its page tables and what it copies are the same. -/
theorem Pc.Ok.frame {c : Pc n m} (h : c.Ok s p)
    (hmem : ∀ f v pa newPage flags off, c = .memmove f v pa newPage flags off →
      s'.kmem.mem pa = s.kmem.mem pa ∧ s'.kmem.mem newPage = s.kmem.mem newPage) : c.Ok s' p := by
  cases c with
  | clearCow v | setW v | write v =>
    show (s'.entry p v).pte.v = true ∧ _
    rw [hentry]
    exact h
  | kalloc k | kallocFill r k | kallocCount r k => exact AllocFor.Ok.frame (k := k) hentry hchild h
  | memmove f v pa newPage flags off =>
    obtain ⟨h1, h2⟩ := hmem f v pa newPage flags off rfl
    show (s'.entry p v).pte.v = true ∧ _ ∧ ∀ j < off, _
    rw [hentry, h1, h2]
    exact h
  | unmap vs k => exact UnmapFor.Ok.frame (k := k) h fun c hc => (hchild c hc).1
  | unmapClear v vs k =>
    refine ⟨h.1.frame fun c hc => (hchild c hc).1, ?_⟩
    rw [h.1.entry_eq hentry hchild]
    exact h.2
  | kfree pa k | kfreeCount pa k | kfreeFill pa k | kfreePush pa k =>
    exact FreeFor.Ok.frame (k := k) hentry hchild h
  | map k => exact MapFor.Ok.frame (k := k) hentry hchild h
  | copy c vs => exact (hchild c h).1
  | copySetCow c i vs | copyClearW c i vs =>
    refine ⟨(hchild c h.1).1, ?_⟩
    rw [hentry]
    exact h.2
  | copyCount c i vs pa =>
    refine ⟨(hchild c h.1).1, ?_⟩
    rw [hentry, (hchild c h.1).2]
    exact h.2
  | _ => trivial

end

/-- **A step of one thread keeps the invariant of all.** -/
theorem Effect.inv (h : Inv s) (e : Effect s s' p) : Inv s' := by
  refine ⟨h.pool.moves e.moves, fun q => ?_, fun q v => ?_, fun q v => ?_⟩
  · by_cases hqp : q = p
    · rw [hqp]
      exact e.ok
    rcases e.pc q hqp with hsame | ⟨-, hq | hq | hq⟩
    · rw [hsame]
      have hok := h.pc q
      -- A thread that does not run relies on nothing; the page tables of the others are untouched.
      by_cases hidle : s.pc q = .unused ∨ ∃ r, s.pc q = .embryo r
      · rcases hidle with hidle | ⟨r, hidle⟩
        · rw [hidle]
          trivial
        · rw [hidle]
          trivial
      obtain ⟨hunused, hembryo⟩ := not_or.mp hidle
      have hentry : ∀ v, s'.entry q v = s.entry q v := fun v =>
        e.entry q v hqp fun he => hembryo ⟨p, he⟩
      refine hok.frame hentry (fun c hc => ?_) fun f v pa newPage flags off hmm => ?_
      · have hcp : c ≠ p := by
          rintro rfl
          exact e.active.2 q hc
        have hne : s.pc c ≠ .embryo p := by
          rw [hc]
          intro he
          exact hqp (Pc.embryo.inj he)
        refine ⟨?_, fun v => e.entry c v hcp hne⟩
        rcases e.pc c hcp with hsame | ⟨hold | hold, -⟩
        · rw [hsame, hc]
        · rw [hc] at hold
          exact nomatch hold
        · exact absurd hold hne
      · rw [hmm] at hok
        have hfresh : ((pool s).slot (.page q)).refs newPage = true := by
          show (s.pc q).fresh.refs newPage = true
          rw [hmm]
          exact Slot.refs_sole_self newPage
        have hwork : (s.pc q).works q ≠ some (q, v) := by
          rw [hmm]
          exact nofun
        have hrefs : ((pool s).slot (.entry q v)).refs pa = true := by
          rw [← hok.2.1]
          exact Entry.refs_of_settled (h.settled (fun r he => hembryo ⟨r, he⟩) (.inl rfl) hwork) hok.1
        exact ⟨(e.writes pa).resolve_right fun hw => hqp (hw.sole h hrefs).1,
          (e.writes newPage).resolve_right fun hw => hqp (hw.sole h hfresh).1⟩
    all_goals
      rw [hq]
      trivial
  · rcases e.busy q v with ⟨hsame, hwork⟩ | hs | hp
    · rw [hsame]
      refine (h.busy q v).imp_right fun ⟨r, hr⟩ => ⟨r, ?_⟩
      have hrp : r ≠ p := by
        rintro rfl
        exact hwork hr
      rcases e.pc r hrp with hsame' | ⟨hold | hold, -⟩
      · rw [hsame']
        exact hr
      all_goals
        rw [hold] at hr
        exact nomatch hr
    · exact .inl hs
    · exact .inr ⟨p, hp⟩
  · rcases e.w q v with hsame | hw
    · rw [hsame]
      exact h.w q v
    · exact hw

end

end LazyXv6.Kernel.Threads
