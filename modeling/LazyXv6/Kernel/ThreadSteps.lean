import LazyXv6.Kernel.ThreadSafety

/-!
# The steps of copy-on-write

What each step of `State.go` and each start of a sequence does to the pool of references.
-/

namespace LazyXv6.Kernel.Threads

open Lib Lib.SmallFin Function Relation

variable {n m : ℕ} {s s' : State n m} {p q : Fin n} {v : Fin m} {pa : ℕ}

/-! ## Kinds of steps -/

def Pc.Active (c : Pc n m) : Prop := c ≠ .unused ∧ ∀ q, c ≠ .embryo q

section

variable {c : Pc n m}

theorem slot_frame {x : Slot ℕ} (hpc : s.pc p = c) (h : c.frame = x) :
    (pool s).slot (.frame p) = x :=
  (congrArg Pc.frame hpc).trans h

theorem slot_page {x : Slot ℕ} (hpc : s.pc p = c) (h : c.fresh = x) : (pool s).slot (.page p) = x :=
  (congrArg Pc.fresh hpc).trans h

theorem Writes.ofFrame (hpc : s.pc p = c) (h : c.frame = .transit pa) : Writes s p pa :=
  .inr ⟨.frame p, rfl, .inr (slot_frame hpc h)⟩

theorem Writes.ofFresh (hpc : s.pc p = c) (h : c.fresh = .sole pa) : Writes s p pa :=
  .inr ⟨.page p, rfl, .inl (slot_page hpc h)⟩

theorem Effect.resize (h : Effect s s' p) (sz : Fin n → ℕ) : Effect s { s' with sz := sz } p :=
  ⟨h.moves, h.writes, h.active, h.pc, h.entry,
    h.ok.frame (fun _ => rfl) (fun _ hc => ⟨hc, fun _ => rfl⟩) fun _ _ _ _ _ _ _ => ⟨rfl, rfl⟩,
    h.busy, h.w⟩

/-- A step that is one move of the pool. -/
theorem single_move {f : Loc n m → Slot ℕ} (hslots : slots s'.entry s'.pc = f)
    (hmove : SlotPool.Move (pool s) { pool s' with slot := f }) :
    ReflTransGen SlotPool.Move (pool s) (pool s') := by
  subst hslots
  exact .single hmove

/-- A step that leaves all references where they are. -/
theorem no_move (hslots : slots s'.entry s'.pc = slots s.entry s.pc)
    (hpool : { pool s' with slot := (pool s).slot } = pool s) :
    ReflTransGen SlotPool.Move (pool s) (pool s') := by
  have heq : (pool s').slot = (pool s).slot := hslots
  rw [← hpool, ← heq]

end

section

variable {c₀ c : Pc n m} (hpc : s.pc p = c₀) (hactive : c₀.Active)

include hpc hactive

/-- A step that leaves the page tables alone. -/
theorem Effect.ofPc (hentry : s'.entry = s.entry) (hpc' : s'.pc = update s.pc p c)
    (hmoves : ReflTransGen SlotPool.Move (pool s) (pool s'))
    (hwrites : ∀ pa, s'.kmem.mem pa = s.kmem.mem pa ∨ Writes s p pa) (hok : c.Ok s' p)
    (hworks : ∀ x, c₀.works p = some x → c.works p = some x) : Effect s s' p := by
  subst hpc
  have hself : s'.pc p = c := by
    rw [hpc']
    exact update_self ..
  refine ⟨hmoves, hwrites, hactive, fun q hq => .inl ?_, fun q v _ _ => ?_, hself ▸ hok,
    fun q v => ?_, fun q v => .inl ?_⟩
  · rw [hpc']
    exact update_of_ne hq ..
  · rw [hentry]
  · rw [hself, hentry]
    by_cases hx : (s.pc p).works p = some (q, v)
    · exact .inr (.inr (hworks _ hx))
    · exact .inl ⟨rfl, hx⟩
  · rw [hentry]

theorem Effect.ofEntry {t : Fin n} {e : Entry} (ht : t = p ∨ s.pc t = .embryo p)
    (hentry : s'.entry = setEntry s.entry t v e) (hpc' : s'.pc = update s.pc p c)
    (hmoves : ReflTransGen SlotPool.Move (pool s) (pool s')) (hmem : s'.kmem.mem = s.kmem.mem)
    (hok : c.Ok s' p) (hworks : ∀ x, c₀.works p = some x → x = (t, v) ∨ c.works p = some x)
    (hbusy : e.Settled ∨ c.works p = some (t, v)) (hw : e.WOk) : Effect s s' p := by
  subst hpc
  have hself : s'.pc p = c := by
    rw [hpc']
    exact update_self ..
  refine ⟨hmoves, fun pa => .inl (congrFun hmem pa), hactive, fun q hq => .inl ?_,
    fun q u hq he => ?_, hself ▸ hok, fun q u => ?_, fun q u => ?_⟩
  · rw [hpc']
    exact update_of_ne hq ..
  · rw [hentry]
    refine setEntry_of_ne (fun hqu => ?_) e
    rcases ht with rfl | ht
    · exact hq hqu.1
    · exact he (hqu.1 ▸ ht)
  · rw [hself, hentry]
    by_cases hqu : q = t ∧ u = v
    · obtain ⟨rfl, rfl⟩ := hqu
      rw [setEntry_self]
      exact .inr hbusy
    · rw [setEntry_of_ne hqu]
      by_cases hx : (s.pc p).works p = some (q, u)
      · refine .inr (.inr ((hworks _ hx).resolve_left fun he => hqu ?_))
        exact Prod.mk.inj he
      · exact .inl ⟨rfl, hx⟩
  · rw [hentry]
    by_cases hqu : q = t ∧ u = v
    · obtain ⟨rfl, rfl⟩ := hqu
      rw [setEntry_self]
      exact .inr hw
    · exact .inl (setEntry_of_ne hqu e)

theorem child_ne (hq : s.pc q = .embryo p) : q ≠ p := by
  rintro rfl
  exact hactive.2 q (hpc.symm.trans hq)

theorem child_stays (hpc' : s'.pc = update s.pc p c) (hq : s.pc q = .embryo p) :
    s'.pc q = .embryo p := by
  rw [hpc', update_of_ne (child_ne hpc hactive hq), hq]

theorem Pc.Ok.move {c' : Pc n m} (h : c.Ok s p) (hentry : s'.entry = s.entry)
    (hpc' : s'.pc = update s.pc p c')
    (hmem : ∀ f v pa newPage flags off, c = .memmove f v pa newPage flags off →
      s'.kmem.mem pa = s.kmem.mem pa ∧ s'.kmem.mem newPage = s.kmem.mem newPage) : c.Ok s' p := by
  refine h.frame (fun v => ?_) (fun q hq => ⟨child_stays hpc hactive hpc' hq, fun v => ?_⟩) hmem
  all_goals rw [hentry]

/-- A step that changes what the thread has in hand. -/
theorem Effect.reframe {x : Slot ℕ} (hentry : s'.entry = s.entry) (hpc' : s'.pc = update s.pc p c)
    (hmem : s'.kmem.mem = s.kmem.mem) (hframe : c.frame = x) (hfresh : c.fresh = c₀.fresh)
    (hmove : SlotPool.Move (pool s) { pool s' with slot := update (pool s).slot (.frame p) x })
    (hok : c.Ok s p) (hworks : ∀ y, c₀.works p = some y → c.works p = some y) : Effect s s' p := by
  have hslots : slots s'.entry s'.pc = update (pool s).slot (.frame p) x := by
    rw [hentry, hpc', slots_setPc_frame (hpc ▸ hfresh), hframe]
    rfl
  have hok' : c.Ok s' p := hok.move hpc hactive hentry hpc' fun _ _ pa newPage _ _ _ =>
    ⟨congrFun hmem pa, congrFun hmem newPage⟩
  exact .ofPc hpc hactive hentry hpc' (single_move hslots hmove) (fun pa => .inl (congrFun hmem pa))
    hok' hworks

theorem Effect.goto (hframe : c.frame = c₀.frame) (hfresh : c.fresh = c₀.fresh) (hok : c.Ok s p)
    (hworks : ∀ x, c₀.works p = some x → c.works p = some x) : Effect s (s.setPc p c) p :=
  .ofPc hpc hactive rfl rfl (no_move (slots_setPc_same (hpc ▸ hframe) (hpc ▸ hfresh)) rfl)
    (fun _ => .inl rfl) (hok.move hpc hactive rfl rfl fun _ _ _ _ _ _ _ => ⟨rfl, rfl⟩) hworks

theorem Effect.fill {bytes : ℕ → UInt8} (hframe : c.frame = c₀.frame) (hfresh : c.fresh = c₀.fresh)
    (hpa : Writes s p pa) (hok : c.Ok ((s.setMem pa bytes).setPc p c) p)
    (hworks : ∀ x, c₀.works p = some x → c.works p = some x) :
    Effect s ((s.setMem pa bytes).setPc p c) p := by
  refine .ofPc hpc hactive rfl rfl (no_move (slots_setPc_same (hpc ▸ hframe) (hpc ▸ hfresh)) rfl)
    (fun a => ?_) hok hworks
  rcases eq_or_ne a pa with rfl | hne
  · exact .inr hpa
  · exact .inl (update_of_ne hne ..)

theorem Effect.retouch {t : Fin n} {e : Entry} (ht : t = p ∨ s.pc t = .embryo p)
    (hslot : e.slot = (s.entry t v).slot) (hframe : c.frame = c₀.frame)
    (hfresh : c.fresh = c₀.fresh) (hok : c.Ok ((s.setEntry t v e).setPc p c) p)
    (hworks : ∀ x, c₀.works p = some x → x = (t, v) ∨ c.works p = some x)
    (hbusy : e.Settled ∨ c.works p = some (t, v)) (hw : e.WOk) :
    Effect s ((s.setEntry t v e).setPc p c) p := by
  have hslots : slots (setEntry s.entry t v e) (update s.pc p c) = slots s.entry s.pc := by
    rw [slots_setPc_same (hpc ▸ hframe) (hpc ▸ hfresh), slots_setEntry, hslot]
    exact update_eq_self (Loc.entry t v) (slots s.entry s.pc)
  exact .ofEntry hpc hactive ht rfl rfl (no_move hslots rfl) rfl hok hworks hbusy hw

theorem Effect.reslot {e : Entry} {x : Slot ℕ} (hslot : e.slot = x)
    (hmove : SlotPool.Move (pool s) { pool s with slot := update (pool s).slot (.entry p v) x })
    (hframe : c.frame = c₀.frame) (hfresh : c.fresh = c₀.fresh)
    (hok : c.Ok ((s.setEntry p v e).setPc p c) p)
    (hworks : ∀ y, c₀.works p = some y → y = (p, v) ∨ c.works p = some y)
    (hbusy : e.Settled) (hw : e.WOk) : Effect s ((s.setEntry p v e).setPc p c) p := by
  have hslots : slots (setEntry s.entry p v e) (update s.pc p c) =
    update (slots s.entry s.pc) (.entry p v) x := by
    rw [slots_setPc_same (hpc ▸ hframe) (hpc ▸ hfresh), slots_setEntry, hslot]
  exact .ofEntry hpc hactive (.inl rfl) rfl rfl (single_move hslots hmove) rfl hok hworks
    (.inl hbusy) hw

/-- A step that also starts or ends a thread. -/
theorem Effect.ofTwo {t : Fin n} {d : Pc n m} (ht : s.pc t = .unused ∨ s.pc t = .embryo p)
    (hd : d = .unused ∨ d = .user ∨ d = .embryo p) (hentry : s'.entry = s.entry)
    (hpc' : s'.pc = update (update s.pc t d) p c) (hkmem : s'.kmem = s.kmem)
    (hpool : { pool s' with slot := (pool s).slot } = pool s) (hframe : c.frame = c₀.frame)
    (hfresh : c.fresh = c₀.fresh) (hok : c.Ok s' p) (hworks : c₀.works p = none) :
    Effect s s' p := by
  subst hpc
  have hne : p ≠ t := by
    rintro rfl
    rcases ht with ht | ht
    · exact hactive.1 ht
    · exact hactive.2 p ht
  have hself : s'.pc p = c := by
    rw [hpc']
    exact update_self ..
  have hempty : d.frame = (s.pc t).frame ∧ d.fresh = (s.pc t).fresh := by
    rcases ht with ht | ht
    all_goals
      rw [ht]
      rcases hd with rfl | rfl | rfl
      all_goals exact ⟨rfl, rfl⟩
  have hslots : slots s'.entry s'.pc = slots s.entry s.pc := by
    rw [hentry, hpc', slots_setPc_same, slots_setPc_same hempty.1 hempty.2]
    · rw [update_of_ne hne]
      exact hframe
    · rw [update_of_ne hne]
      exact hfresh
  refine ⟨no_move hslots hpool, fun pa => .inl (by rw [hkmem]), hactive, fun q hq => ?_,
    fun q v _ _ => ?_, hself ▸ hok, fun q v => .inl ?_, fun q v => .inl ?_⟩
  · rw [hpc', update_of_ne hq]
    rcases eq_or_ne q t with rfl | hqt
    · rw [update_self]
      exact .inr ⟨ht, hd⟩
    · exact .inl (update_of_ne hqt ..)
  · rw [hentry]
  · rw [hentry, hworks]
    exact ⟨rfl, nofun⟩
  · rw [hentry]

theorem Effect.giveUp {f : Option Fault} (hframe : c₀.frame = .empty) (hfresh : c₀.fresh = .sole pa)
    (hworks : c₀.works p = none) : Effect s (s.setPc p (.kfree pa (.newPage f))) p := by
  have hslots : slots s.entry (update s.pc p (.kfree pa (.newPage f))) =
      update (update (pool s).slot (.page p) .empty) (.frame p) (.shared pa) := by
    rw [slots_setPc]
    exact update_comm (show Loc.frame p ≠ .page p from nofun) ..
  have hpage := slot_page hpc hfresh
  have hmove := SlotPool.Move.pass (show Loc.frame p ≠ .page p from nofun)
    (hpage ▸ Slot.refs_sole_self pa) (slot_frame hpc hframe) (.inl rfl)
  exact .ofPc hpc hactive rfl rfl (single_move hslots hmove)
    (fun _ => .inl rfl) trivial (hworks ▸ nofun)

theorem Effect.born {r : ℕ} (hframe : c₀.frame = .transit r) (hfresh : c₀.fresh = .empty)
    (hcframe : c.frame = .empty) (hcfresh : c.fresh = .sole r)
    (hok : c.Ok ((s.setCount r 1).setPc p c) p)
    (hworks : ∀ x, c₀.works p = some x → c.works p = some x) :
    Effect s ((s.setCount r 1).setPc p c) p := by
  have hslots : slots s.entry (update s.pc p c) =
      update (update (pool s).slot (.frame p) .empty) (.page p) (.sole r) := by
    rw [slots_setPc, hcframe, hcfresh]
    rfl
  have hmove := SlotPool.Move.born (show Loc.page p ≠ .frame p from nofun) (slot_frame hpc hframe)
    (slot_page hpc hfresh)
  exact .ofPc hpc hactive rfl rfl (single_move hslots hmove) (fun _ => .inl rfl) hok hworks

end

section

variable {e : Entry}

theorem Entry.slot_sole (hv : e.pte.v = true) (hs : e.share = .sole) :
    e.slot = .sole e.pte.ppn := by
  unfold slot
  rw [if_pos hv, hs]

theorem Entry.slot_counted (hv : e.pte.v = true) (hs : e.share = .counted) :
    e.slot = .shared e.pte.ppn := by
  unfold slot
  rw [if_pos hv, hs]

theorem Entry.slot_freed (hs : e.share = .freed ∨ e.share = .uncounted) : e.slot = .empty := by
  unfold slot
  rcases hs with hs | hs
  · rw [hs]
    exact ite_self _
  · rw [hs]
    exact ite_self _

theorem Entry.slot_invalid (hv : ¬e.pte.v = true) : e.slot = .empty := if_neg hv

end

variable [Layout]

theorem Inv.ok (h : Inv s) {c : Pc n m} (hpc : s.pc p = c) : c.Ok s p := hpc ▸ h.pc p

theorem Inv.refs (h : Inv s) {c : Pc n m} (hpc : s.pc p = c) (hactive : c.Active) {t : Fin n}
    (ht : t = p ∨ s.pc t = .embryo p) (hworks : c.works p = none)
    (hv : (s.entry t v).pte.v = true) : (s.entry t v).slot.refs (s.entry t v).pte.ppn = true := by
  subst hpc
  refine Entry.refs_of_settled (h.settled hactive.2 ht ?_) hv
  rw [hworks]
  exact nofun

/-! ## The copy-on-write branch, in place -/

theorem clearCow_effect (h : Inv s) (hpc : s.pc p = .clearCow v) :
    Effect s ((s.setPte p v (fun e => { e with cow := false }) .sole).setPc p (.setW v)) p := by
  have hok := h.ok hpc
  refine .retouch hpc ⟨nofun, nofun⟩ (.inl rfl) ?_ rfl rfl ?_ nofun (.inl fun _ => .inr rfl)
    fun _ _ => .inl rfl
  · rw [Entry.slot_sole hok.1 hok.2]
    exact Entry.slot_sole hok.1 rfl
  · show (setEntry _ p v _ p v).pte.v = true ∧ (setEntry _ p v _ p v).share = .sole
    rw [setEntry_self]
    exact ⟨hok.1, rfl⟩

theorem setW_effect (h : Inv s) (hpc : s.pc p = .setW v) :
    Effect s ((s.setPte p v (fun e => { e with w := true }) .sole).setPc p .user) p := by
  have hok := h.ok hpc
  refine .retouch hpc ⟨nofun, nofun⟩ (.inl rfl) ?_ rfl rfl trivial nofun (.inl fun _ => .inr rfl)
    fun _ _ => .inl rfl
  rw [Entry.slot_sole hok.1 hok.2]
  exact Entry.slot_sole hok.1 rfl

/-! ## `kalloc` -/

theorem noMemory_effect (h : Inv s) {k : AllocFor n m} (hpc : s.pc p = .kalloc k) :
    Effect s (s.noMemory p k) p := by
  have hactive : (Pc.kalloc k).Active := ⟨nofun, nofun⟩
  cases k with
  | cow f v pa flags =>
    cases f with
    | usertrap | copyout => exact .goto hpc hactive rfl rfl trivial nofun
  | page | kernel => exact .goto hpc hactive rfl rfl trivial nofun
  | table k =>
    cases k with
    | cow | page => exact .giveUp hpc hactive rfl rfl rfl
    | copy c i vs pa flags => exact .goto hpc hactive rfl rfl (h.ok hpc).1 nofun

theorem take_effect (h : Inv s) {k : AllocFor n m} {r : ℕ} {rest : List ℕ}
    (hpc : s.pc p = .kalloc k) (hfree : s.kmem.freelist = r :: rest) :
    Effect s ({ s with kmem := { s.kmem with freelist := rest }, log := .taken r :: s.log }.setPc p
      (.kallocFill r k)) p := by
  have hok : k.Ok s p := h.ok hpc
  exact .reframe hpc ⟨nofun, nofun⟩ rfl rfl rfl rfl rfl (.take hfree (slot_frame hpc rfl)) hok nofun

theorem kallocFill_effect (h : Inv s) {k : AllocFor n m} {r : ℕ} (hpc : s.pc p = .kallocFill r k)
    (bytes : ℕ → UInt8) : Effect s ((s.setMem r bytes).setPc p (.kallocCount r k)) p := by
  have hactive : (Pc.kallocFill r k).Active := ⟨nofun, nofun⟩
  have hok := h.ok hpc
  refine .fill hpc hactive rfl rfl (.ofFrame hpc rfl) ?_ nofun
  exact Pc.Ok.move (c := .kallocCount r k) hpc hactive hok rfl rfl nofun

theorem allocated_effect (h : Inv s) {k : AllocFor n m} {r : ℕ} (hpc : s.pc p = .kallocCount r k) :
    Effect s (s.allocated p r k) p := by
  have hactive : (Pc.kallocCount r k).Active := ⟨nofun, nofun⟩
  have hok := h.ok hpc
  cases k with
  | cow f v pa flags => exact .born hpc hactive rfl rfl rfl rfl ⟨hok.1, hok.2, nofun⟩ nofun
  | page v perm => exact .born hpc hactive rfl rfl rfl rfl trivial nofun
  | table k => exact .reframe hpc hactive rfl rfl rfl rfl rfl (.keep (slot_frame hpc rfl)) hok nofun
  | kernel =>
    exact .reframe hpc hactive rfl rfl rfl rfl rfl (.keep (slot_frame hpc rfl)) trivial nofun

/-! ## The copy of a page -/

theorem ne_newPage (h : Inv s) {f : Fault} {newPage off : ℕ} {flags : Perm}
    (hpc : s.pc p = .memmove f v pa newPage flags off) : pa ≠ newPage := by
  rintro rfl
  have hok := h.ok hpc
  have hrefs := h.refs hpc ⟨nofun, nofun⟩ (.inl rfl) rfl hok.1
  rw [hok.2.1] at hrefs
  have heq : Loc.entry p v = .page p := h.pool.eq_of_sole (slot_page hpc rfl) hrefs
  exact nomatch heq

theorem memmove_effect (h : Inv s) {f : Fault} {newPage off : ℕ} {flags : Perm}
    (hpc : s.pc p = .memmove f v pa newPage flags off) :
    Effect s ((s.setMem newPage (update (s.kmem.mem newPage) off (s.kmem.mem pa off))).setPc p
      (.memmove f v pa newPage flags (off + 1))) p := by
  have hok := h.ok hpc
  have hne := ne_newPage h hpc
  refine .fill hpc ⟨nofun, nofun⟩ rfl rfl (.ofFresh hpc rfl) ⟨hok.1, hok.2.1, ?_⟩ nofun
  intro j hj
  show update s.kmem.mem newPage _ newPage j = update s.kmem.mem newPage _ pa j
  rw [update_self, update_of_ne hne]
  rcases eq_or_ne j off with rfl | hjo
  · exact update_self ..
  · rw [update_of_ne hjo]
    exact hok.2.2 j (by omega)

/-! ## `uvmunmap` and `kfree` -/

theorem unmapped_effect (h : Inv s) {k : UnmapFor n m} (hpc : s.pc p = .unmap [] k) :
    Effect s (s.unmapped p k) p := by
  have hactive : (Pc.unmap [] k).Active := ⟨nofun, nofun⟩
  cases k with
  | cow f v newPage flags => exact .goto hpc hactive rfl rfl trivial nofun
  | shrink newsz => exact (Effect.goto (c := .user) hpc hactive rfl rfl trivial nofun).resize _
  | exit => exact (Effect.goto (c := .unused) hpc hactive rfl rfl trivial nofun).resize _
  | forkFails c =>
    exact .ofTwo hpc hactive (.inr (h.ok hpc)) (.inl rfl) rfl rfl rfl rfl rfl rfl trivial rfl

theorem unmap_effect (h : Inv s) {k : UnmapFor n m} {vs : List (Fin m)}
    (hpc : s.pc p = .unmap (v :: vs) k) (hv : (s.entry (k.table p) v).pte.v = true) :
    Effect s ((s.setPte (k.table p) v id .freed).setPc p
      (.kfree (s.entry (k.table p) v).pte.ppn (.unmap v vs k))) p := by
  have hactive : (Pc.unmap (v :: vs) k).Active := ⟨nofun, nofun⟩
  have hok : k.Ok s p := h.ok hpc
  have ht := hok.table
  have hrefs := h.refs hpc hactive ht rfl hv
  have hfresh : (Pc.kfree (s.entry (k.table p) v).pte.ppn (.unmap v vs k)).fresh =
    (s.pc p).fresh := by
    rw [hpc]
    rfl
  have hslots : slots (setEntry s.entry (k.table p) v ⟨(s.entry (k.table p) v).pte, .freed⟩)
      (update s.pc p (.kfree (s.entry (k.table p) v).pte.ppn (.unmap v vs k))) =
      update (update (pool s).slot (.entry (k.table p) v) .empty) (.frame p)
        (.shared (s.entry (k.table p) v).pte.ppn) := by
    rw [slots_setPc_frame hfresh, slots_setEntry, Entry.slot_freed (.inl rfl)]
    rfl
  have hmove := SlotPool.Move.pass (show Loc.frame p ≠ .entry _ v from nofun) hrefs
    (slot_frame hpc rfl) (.inl rfl)
  refine .ofEntry hpc hactive ht rfl rfl (single_move hslots hmove) rfl ⟨?_, ?_⟩ nofun (.inr rfl)
    fun _ _ => .inr rfl
  · exact UnmapFor.Ok.frame (k := k) hok fun _ hc => child_stays hpc hactive rfl hc
  · show (setEntry _ _ v _ _ v).share = .freed
    rw [setEntry_self]

theorem unmapClear_effect (h : Inv s) {k : UnmapFor n m} {vs : List (Fin m)}
    (hpc : s.pc p = .unmapClear v vs k) :
    Effect s ((s.setEntry (k.table p) v .zero).setPc p (.unmap vs k)) p := by
  have hactive : (Pc.unmapClear v vs k).Active := ⟨nofun, nofun⟩
  have hok := h.ok hpc
  refine .retouch hpc hactive hok.1.table ?_ rfl rfl ?_ ?_ (.inl nofun) nofun
  · rw [Entry.slot_freed (.inl hok.2)]
    rfl
  · exact hok.1.frame fun _ hc => child_stays hpc hactive rfl hc
  · intro x hx
    exact .inl (Option.some.inj hx).symm

def FreeFor.back (sz : ℕ) : FreeFor n m → Pc n m
  | .unmap v vs k => .unmapClear v vs k
  | .newPage (some .usertrap) => .unmap (pages 0 sz) .exit
  | .newPage (some .copyout) | .newPage none | .kernel => .user

section

variable {k : FreeFor n m} {sz : ℕ}

omit [Layout] in
theorem freed_eq (s : State n m) (p : Fin n) (k : FreeFor n m) :
    s.freed p k = s.setPc p (k.back (s.sz p)) := by
  unfold State.freed FreeFor.back
  split
  all_goals rfl

omit [Layout] in
theorem back_frame : (k.back sz).frame = .empty := by
  unfold FreeFor.back
  split
  all_goals rfl

omit [Layout] in
theorem back_fresh : (k.back sz).fresh = k.fresh := by
  unfold FreeFor.back
  split
  all_goals rfl

omit [Layout] in
theorem back_works : (k.back sz).works p = k.works p := by
  unfold FreeFor.back
  split
  all_goals rfl

omit [Layout] in
theorem back_ok (h : k.Ok s p) : (k.back sz).Ok s p := by
  unfold FreeFor.back
  split
  · exact h
  all_goals trivial

theorem kfreeCount_effect (h : Inv s) (hpc : s.pc p = .kfreeCount pa k)
    (hcount : 1 < s.kmem.referenceCounter pa) :
    Effect s ((s.setCount pa (s.kmem.referenceCounter pa - 1)).freed p k) p := by
  rw [freed_eq]
  exact .reframe hpc ⟨nofun, nofun⟩ rfl rfl rfl back_frame back_fresh
    (.drop (slot_frame hpc rfl) hcount) (back_ok (h.ok hpc)) fun _ hx => back_works.trans hx

theorem kfreePush_effect (h : Inv s) (hpc : s.pc p = .kfreePush pa k) :
    Effect s ({ s with kmem := { s.kmem with freelist := pa :: s.kmem.freelist },
                       log := .pushed pa :: s.log }.freed p k) p := by
  rw [freed_eq]
  exact .reframe hpc ⟨nofun, nofun⟩ rfl rfl rfl back_frame back_fresh (.push (slot_frame hpc rfl))
    (back_ok (h.ok hpc)) fun _ hx => back_works.trans hx

theorem kfreeFill_effect (h : Inv s) (hpc : s.pc p = .kfreeFill pa k) (bytes : ℕ → UInt8) :
    Effect s ((s.setMem pa bytes).setPc p (.kfreePush pa k)) p := by
  have hactive : (Pc.kfreeFill pa k).Active := ⟨nofun, nofun⟩
  have hok := h.ok hpc
  refine .fill hpc hactive rfl rfl (.ofFrame hpc rfl) ?_ fun _ hx => hx
  exact Pc.Ok.move (c := .kfreePush pa k) hpc hactive hok rfl rfl nofun

end

/-! ## `mappages` and `uvmcopy` -/

omit [Layout] in
theorem map_effect {c₀ c : Pc n m} {e : Entry} (hpc : s.pc p = c₀) (hactive : c₀.Active)
    (hframe : c.frame = c₀.frame) (hfresh : c₀.fresh = .sole pa) (hcfresh : c.fresh = .empty)
    (hworks : ∀ x, c₀.works p = some x → x = (p, v) ∨ c.works p = some x)
    (hv : ¬(s.entry p v).pte.v = true) (hslot : e.slot = .sole pa) (hshare : e.share = .sole)
    (hok : c.Ok ((s.setEntry p v e).setPc p c) p) : Effect s ((s.setEntry p v e).setPc p c) p := by
  have hslots : slots (setEntry s.entry p v e) (update s.pc p c) =
      update (update (pool s).slot (.page p) .empty) (.entry p v) (.sole pa) := by
    rw [slots_setPc_page (hpc ▸ hframe), slots_setEntry, hslot, hcfresh]
    exact update_comm (show Loc.entry p v ≠ .page p from nofun) ..
  have hpage := slot_page hpc hfresh
  have hmove := SlotPool.Move.pass (show Loc.entry p v ≠ .page p from nofun)
    (hpage ▸ Slot.refs_sole_self pa) (Entry.slot_invalid hv) (.inr ⟨rfl, hpage⟩)
  exact .ofEntry hpc hactive (.inl rfl) rfl rfl (single_move hslots hmove) rfl hok hworks
    (.inl fun _ => .inr hshare) fun _ _ => .inl hshare

theorem mapped_effect (h : Inv s) {k : MapFor n m} (hpc : s.pc p = .map k)
    (hs : s.mapped p k = some s') : Effect s s' p := by
  have hactive : (Pc.map k).Active := ⟨nofun, nofun⟩
  cases k with
  | cow f v newPage flags =>
    obtain ⟨hv, he⟩ := Option.ite_none_left_eq_some.mp hs
    cases he
    refine map_effect hpc hactive ?_ rfl ?_ nofun hv rfl rfl ?_
    · cases f with
      | usertrap | copyout => rfl
    · cases f with
      | usertrap | copyout => rfl
    · cases f with
      | usertrap => trivial
      | copyout =>
        show (setEntry _ p v _ p v).pte.v = true ∧ (setEntry _ p v _ p v).share = .sole
        rw [setEntry_self]
        exact ⟨rfl, rfl⟩
  | page v mem perm =>
    obtain ⟨hv, he⟩ := Option.ite_none_left_eq_some.mp hs
    cases he
    exact (map_effect (c := .user) hpc hactive rfl rfl rfl nofun hv rfl rfl trivial).resize _
  | copy c i vs pa flags =>
    obtain ⟨hv, he⟩ := Option.ite_none_left_eq_some.mp hs
    cases he
    obtain ⟨hc, hentry, hw⟩ := h.ok hpc
    have hne : p ≠ c := (child_ne hpc hactive hc).symm
    refine .retouch hpc hactive (.inr hc) ?_ rfl rfl ?_ nofun (.inr rfl) ?_
    · rw [Entry.slot_freed (.inr rfl), Entry.slot_invalid hv]
    · refine ⟨child_stays hpc hactive rfl hc, ?_⟩
      show ((setEntry _ c i _ p i).pte.v = true ∧ (setEntry _ c i _ p i).share = .counted ∧
        (setEntry _ c i _ p i).pte.ppn = pa) ∧ (setEntry _ c i _ c i).pte.v = true ∧
        (setEntry _ c i _ c i).share = .uncounted ∧ (setEntry _ c i _ c i).pte.ppn = pa ∧
        (setEntry _ c i _ c i).pte.w = false
      rw [setEntry_self, setEntry_of_ne fun he => hne he.1]
      exact ⟨hentry, rfl, rfl, rfl, hw⟩
    · intro _ hw'
      exact absurd (hw.symm.trans hw') nofun

/-- `uvmcopy` weakens its reference before it shares it. -/
theorem weaken_effect (h : Inv s) {c₀ : Pc n m} {c : Fin n} {i : Fin m}
    {vs : List (Fin m)} {e : Pte} (hpc : s.pc p = c₀) (hactive : c₀.Active)
    (hframe : c₀.frame = .empty) (hfresh : c₀.fresh = .empty) (hworks : c₀.works p = none)
    (hc : s.pc c = .embryo p) (hv : (s.entry p i).pte.v = true) (hev : e.v = true)
    (hppn : e.ppn = (s.entry p i).pte.ppn) (hw : e.w = false) :
    Effect s ((s.setEntry p i ⟨e, .counted⟩).setPc p (.map (.copy c i vs e.ppn e.toPerm))) p := by
  have hrefs := h.refs hpc hactive (.inl rfl) hworks hv
  rw [← hppn] at hrefs
  refine .reslot hpc hactive (Entry.slot_counted hev rfl) (.weaken hrefs) hframe.symm hfresh.symm
    ⟨child_stays hpc hactive rfl hc, ?_, hw⟩ (hworks ▸ nofun) (fun _ => .inl rfl) ?_
  · show (setEntry _ p i _ p i).pte.v = true ∧ (setEntry _ p i _ p i).share = .counted ∧
      (setEntry _ p i _ p i).pte.ppn = e.ppn
    rw [setEntry_self]
    exact ⟨hev, rfl, rfl⟩
  · intro _ hw'
    exact absurd (hw.symm.trans hw') nofun

theorem copySetCow_effect (h : Inv s) {c : Fin n} {i : Fin m} {vs : List (Fin m)}
    (hpc : s.pc p = .copySetCow c i vs) :
    Effect s ((s.setPte p i (fun e => { e with cow := true }) (s.entry p i).share).setPc p
      (.copyClearW c i vs)) p := by
  have hactive : (Pc.copySetCow c i vs).Active := ⟨nofun, nofun⟩
  obtain ⟨hc, hv⟩ := h.ok hpc
  refine .retouch hpc hactive (.inl rfl) rfl rfl rfl ⟨child_stays hpc hactive rfl hc, ?_⟩
    nofun (.inl ?_) (h.w p i)
  · show (setEntry _ p i _ p i).pte.v = true
    rw [setEntry_self]
    exact hv
  · have hs := h.settled (p := p) (v := i) (hpc ▸ hactive.2) (.inl rfl) (hpc ▸ nofun)
    exact hs

theorem copyCount_effect (h : Inv s) {c : Fin n} {i : Fin m} {vs : List (Fin m)}
    (hpc : s.pc p = .copyCount c i vs pa) :
    Effect s (((s.setCount pa (s.kmem.referenceCounter pa + 1)).setPte c i id .counted).setPc p
      (.copy c vs)) p := by
  have hactive : (Pc.copyCount c i vs pa).Active := ⟨nofun, nofun⟩
  obtain ⟨hc, ⟨hv, hs, hppn⟩, hv', hs', hppn', hw'⟩ := h.ok hpc
  have hslots : slots (setEntry s.entry c i ⟨(s.entry c i).pte, .counted⟩)
    (update s.pc p (.copy c vs)) =
      update (pool s).slot (.entry c i) (.shared pa) := by
    rw [slots_setPc_same (hpc ▸ rfl) (hpc ▸ rfl), slots_setEntry, ← hppn']
    exact congrArg (update (slots s.entry s.pc) (.entry c i)) (Entry.slot_counted hv' rfl)
  have hslot : (pool s).slot (.entry p i) = .shared pa := hppn ▸ Entry.slot_counted hv hs
  refine .ofEntry hpc hactive (.inr hc) rfl rfl
    (single_move hslots (.share hslot (Entry.slot_freed (.inr hs')))) rfl
    (child_stays hpc hactive rfl hc) ?_ (.inl fun _ => .inl rfl) fun _ hw =>
    absurd (hw'.symm.trans hw) nofun
  intro x hx
  exact .inl (Option.some.inj hx).symm

theorem go_effect (h : Inv s) (hs : s.go p = some s') : Effect s s' p := by
  unfold State.go at hs
  cases hpc : s.pc p with
  | unused | embryo q | user | write v =>
    rw [hpc] at hs
    exact nomatch hs
  | clearCow v =>
    rw [hpc] at hs
    cases hs
    exact clearCow_effect h hpc
  | setW v =>
    rw [hpc] at hs
    cases hs
    exact setW_effect h hpc
  | kalloc k =>
    simp only [hpc] at hs
    cases hfree : s.kmem.freelist with
    | nil =>
      rw [hfree] at hs
      cases hs
      exact noMemory_effect h hpc
    | cons r rest =>
      rw [hfree] at hs
      cases hs
      exact take_effect h hpc hfree
  | kallocFill r k =>
    rw [hpc] at hs
    cases hs
    exact kallocFill_effect h hpc _
  | kallocCount r k =>
    rw [hpc] at hs
    cases hs
    exact allocated_effect h hpc
  | memmove f v pa newPage flags off =>
    rw [hpc] at hs
    dsimp only at hs
    split at hs
    · cases hs
      exact memmove_effect h hpc
    · cases hs
      exact .goto hpc ⟨nofun, nofun⟩ rfl rfl trivial nofun
  | unmap vs k =>
    cases vs with
    | nil =>
      rw [hpc] at hs
      cases hs
      exact unmapped_effect h hpc
    | cons v vs =>
      rw [hpc] at hs
      obtain ⟨hv, he⟩ := Option.ite_none_right_eq_some.mp hs
      cases he
      exact unmap_effect h hpc hv
  | unmapClear v vs k =>
    rw [hpc] at hs
    cases hs
    exact unmapClear_effect h hpc
  | kfree pa k =>
    rw [hpc] at hs
    obtain ⟨-, he⟩ := Option.ite_none_left_eq_some.mp hs
    cases he
    have hok : k.Ok s p := h.ok hpc
    exact .goto hpc ⟨nofun, nofun⟩ rfl rfl hok fun _ hx => hx
  | kfreeCount pa k =>
    rw [hpc] at hs
    dsimp only at hs
    split at hs
    case isTrue hone =>
      cases hs
      have hok : k.Ok s p := h.ok hpc
      exact .reframe hpc ⟨nofun, nofun⟩ rfl rfl rfl rfl rfl (.last (slot_frame hpc rfl) hone) hok
        fun _ hx => hx
    case isFalse =>
      obtain ⟨hcount, he⟩ := Option.ite_none_right_eq_some.mp hs
      cases he
      exact kfreeCount_effect h hpc hcount
  | kfreeFill pa k =>
    rw [hpc] at hs
    cases hs
    exact kfreeFill_effect h hpc _
  | kfreePush pa k =>
    rw [hpc] at hs
    cases hs
    exact kfreePush_effect h hpc
  | zero v mem perm =>
    rw [hpc] at hs
    cases hs
    exact .fill hpc ⟨nofun, nofun⟩ rfl rfl (.ofFresh hpc rfl) trivial nofun
  | map k =>
    rw [hpc] at hs
    exact mapped_effect h hpc hs
  | copy c vs =>
    cases vs with
    | nil =>
      rw [hpc] at hs
      cases hs
      exact .ofTwo hpc ⟨nofun, nofun⟩ (.inr (h.ok hpc)) (.inr (.inl rfl)) rfl rfl rfl rfl rfl rfl
        trivial rfl
    | cons i vs =>
      rw [hpc] at hs
      dsimp only at hs
      obtain ⟨hv, hs⟩ := Option.ite_none_left_eq_some.mp hs
      have hv : (s.entry p i).pte.v = true := by simpa using hv
      split at hs
      case isTrue =>
        cases hs
        exact .goto hpc ⟨nofun, nofun⟩ rfl rfl ⟨h.ok hpc, hv⟩ nofun
      case isFalse hw =>
        cases hs
        exact weaken_effect h hpc ⟨nofun, nofun⟩ rfl rfl rfl (h.ok hpc) hv hv rfl
          (Bool.not_eq_true _ ▸ hw)
  | copySetCow c i vs =>
    rw [hpc] at hs
    cases hs
    exact copySetCow_effect h hpc
  | copyClearW c i vs =>
    rw [hpc] at hs
    cases hs
    obtain ⟨hc, hv⟩ := h.ok hpc
    exact weaken_effect h hpc ⟨nofun, nofun⟩ rfl rfl rfl hc hv hv rfl rfl
  | copyCount c i vs pa =>
    rw [hpc] at hs
    cases hs
    exact copyCount_effect h hpc

/-! ## Starts, and writes to memory -/

omit [Layout] in
theorem Effect.write {c₀ : Pc n m} {bytes : ℕ → UInt8} (hpc : s.pc p = c₀) (hactive : c₀.Active)
    (hframe : c₀.frame = .empty) (hfresh : c₀.fresh = .empty) (hworks : c₀.works p = none)
    (hpa : Writes s p pa) : Effect s ((s.setMem pa bytes).setPc p .user) p :=
  .fill hpc hactive hframe.symm hfresh.symm hpa trivial (hworks ▸ nofun)

omit [Layout] in
theorem Writes.ofEntry (hv : (s.entry p v).pte.v = true) (hs : (s.entry p v).share = .sole) :
    Writes s p (s.entry p v).pte.ppn := .inr ⟨.entry p v, rfl, .inl (Entry.slot_sole hv hs)⟩

/-- A thread in user mode works on no entry, so a writable one is not freed. -/
theorem Inv.sole_of_user (h : Inv s) (hpc : s.pc p = .user) (hv : (s.entry p v).pte.v = true)
    (hw : (s.entry p v).pte.w = true) : (s.entry p v).share = .sole := by
  have hs : (s.entry p v).Settled := by
    refine h.settled (p := p) ?_ (.inl rfl) ?_
    · rw [hpc]
      exact nofun
    · rw [hpc]
      exact nofun
  rcases h.w p v hv hw with hsole | hfreed
  · exact hsole
  · rcases hs hv with he | he
    · exact absurd (hfreed.symm.trans he) nofun
    · exact he

omit [Layout] in
theorem setPc_self (hpc : s.pc p = .user) : s.setPc p .user = s := by
  unfold State.setPc
  rw [← hpc, update_eq_self]

theorem trap_effect (h : Inv s) (hpc : s.pc p = .user) (hv : (s.entry p v).pte.v = true) :
    Effect s (s.trap p v) p := by
  have hactive : (Pc.user : Pc n m).Active := ⟨nofun, nofun⟩
  unfold State.trap
  dsimp only
  split
  · exact .goto hpc hactive rfl rfl trivial nofun
  split
  · exact .goto hpc hactive rfl rfl ⟨hv, rfl⟩ nofun
  split
  case isTrue hone =>
    refine .reslot hpc hactive (Entry.slot_sole hv rfl)
      (.strengthen (h.refs hpc hactive (.inl rfl) rfl hv) hone) rfl rfl ?_ nofun (fun _ => .inr rfl)
      fun _ _ => .inl rfl
    show (setEntry _ p v _ p v).pte.v = true ∧ (setEntry _ p v _ p v).share = .sole
    rw [setEntry_self]
    exact ⟨hv, rfl⟩
  case isFalse => exact .goto hpc hactive rfl rfl trivial nofun

omit [Layout] in
theorem copyout_effect (hpc : s.pc p = .user) (hv : (s.entry p v).pte.v = true) :
    Effect s (s.copyout p v) p := by
  have hactive : (Pc.user : Pc n m).Active := ⟨nofun, nofun⟩
  unfold State.copyout
  dsimp only
  split
  · have hstay : Effect s (s.setPc p .user) p := .goto hpc hactive rfl rfl trivial nofun
    rw [setPc_self hpc] at hstay
    exact hstay
  · exact .goto hpc hactive rfl rfl ⟨hv, rfl⟩ nofun

omit [Layout] in
theorem kfree_effect (hpc : s.pc p = .user) (hheld : s.held pa = true) :
    Effect s ({ s with held := update s.held pa false }.setPc p (.kfree pa .kernel)) p := by
  exact .reframe hpc ⟨nofun, nofun⟩ rfl rfl rfl rfl rfl (.unkeep hheld (slot_frame hpc rfl))
    trivial nofun

omit [Layout] in
theorem fork_effect {c : Fin n} (hpc : s.pc p = .user) (hc : s.pc c = .unused) :
    Effect s ((s.setPc c (.embryo p)).setPc p (.copy c (pages 0 (s.sz p)))) p := by
  have hne : c ≠ p := ne_of_apply_ne s.pc (by simp [hpc, hc])
  refine .ofTwo hpc ⟨nofun, nofun⟩ (.inl hc) (.inr (.inr rfl)) rfl rfl rfl rfl rfl rfl ?_ rfl
  show update (update s.pc c (.embryo p)) p _ c = .embryo p
  rw [update_of_ne hne, update_self]

theorem start_effect (h : Inv s) {a : Act n m} (hpc : s.pc a.proc = .user)
    (hs : s.start a = some s') : Effect s s' a.proc := by
  have hactive : (Pc.user : Pc n m).Active := ⟨nofun, nofun⟩
  cases a with
  | trap p v =>
    obtain ⟨hg, he⟩ := Option.ite_none_right_eq_some.mp hs
    cases he
    exact trap_effect h hpc hg.2.1
  | copyout p v =>
    obtain ⟨hg, he⟩ := Option.ite_none_right_eq_some.mp hs
    cases he
    exact copyout_effect hpc hg.1
  | fork p c =>
    dsimp only [State.start] at hs
    split at hs
    case h_1 hc =>
      cases hs
      exact fork_effect hpc hc
    case h_2 => exact nomatch hs
  | grow p w x =>
    dsimp only [State.start] at hs
    split at hs
    · cases hs
      exact .goto hpc hactive rfl rfl trivial nofun
    · exact nomatch hs
  | shrink | exit | kalloc =>
    cases hs
    exact .goto hpc hactive rfl rfl trivial nofun
  | kfree p pa =>
    obtain ⟨hheld, he⟩ := Option.ite_none_right_eq_some.mp hs
    cases he
    exact kfree_effect hpc hheld
  | store p v off src =>
    obtain ⟨⟨hv, -, hw⟩, he⟩ := Option.ite_none_right_eq_some.mp hs
    cases he
    have he : Effect s ((s.setMem (s.entry p v).pte.ppn
        (overwrite (s.kmem.mem (s.entry p v).pte.ppn) off src)).setPc p .user) p :=
      .write hpc hactive rfl rfl rfl (.ofEntry hv (h.sole_of_user hpc hv hw))
    rw [setPc_self (by exact hpc)] at he
    exact he
  | kernelWrite p pa bytes =>
    obtain ⟨hheld, he⟩ := Option.ite_none_right_eq_some.mp hs
    cases he
    have he : Effect s ((s.setMem pa bytes).setPc p .user) p :=
      .write hpc hactive rfl rfl rfl (.inl hheld)
    rw [setPc_self (by exact hpc)] at he
    exact he
  | go p | table p | copyoutWrite p off src => exact nomatch hs

theorem user_effect (h : Inv s) {a : Act n m}
    (hs : (match s.pc a.proc with | .user => s.start a | _ => none) = some s') :
    Effect s s' a.proc := by
  split at hs
  case h_1 hpc => exact start_effect h hpc hs
  case h_2 => cases hs

theorem next_effect (h : Inv s) {a : Act n m} (hs : next s a = some s') : Effect s s' a.proc := by
  cases a with
  | go p => exact go_effect h hs
  | table p =>
    dsimp only [next] at hs
    split at hs
    case h_1 k hpc =>
      cases hs
      have hok : k.Ok s p := h.ok hpc
      exact .goto hpc ⟨by simp, by simp⟩ rfl rfl hok (by rintro _ ⟨⟩)
    case h_2 => cases hs
  | copyoutWrite p off src =>
    dsimp only [next] at hs
    split at hs
    case h_1 v hpc =>
      have hok := h.ok hpc
      split at hs
      · cases hs
        exact .write hpc ⟨by simp, by simp⟩ rfl rfl rfl (.ofEntry hok.1 hok.2)
      · cases hs
        exact .goto hpc ⟨by simp, by simp⟩ rfl rfl trivial (by rintro _ ⟨⟩)
    case h_2 => cases hs
  | _ => exact user_effect h hs

/-! ## Every interleaving -/

theorem pc_boot (mem : ℕ → ℕ → UInt8) {q : Fin (n + 1)} (hq : q ≠ 0) :
    (boot mem : State (n + 1) m).pc q = .unused :=
  update_of_ne hq _ fun _ => Pc.unused

theorem slot_boot (mem : ℕ → ℕ → UInt8) (l : Loc (n + 1) m) :
    (pool (boot mem)).slot l = .empty := by
  cases l with
  | entry q v => rfl
  | frame q =>
    rcases eq_or_ne q 0 with rfl | hq
    · rfl
    · exact slot_frame (pc_boot mem hq) rfl
  | page q =>
    rcases eq_or_ne q 0 with rfl | hq
    · rfl
    · exact slot_page (pc_boot mem hq) rfl

theorem pool_boot (mem : ℕ → ℕ → UInt8) : (pool (boot mem : State (n + 1) m)).Ok IsPage := by
  have hfree := initialKmem_acct mem
  have hrefs : ∀ a, tally (fun _ x => Slot.refs a x) (pool (boot mem : State (n + 1) m)).slot = 0 :=
    fun a => tally_eq_zero fun l => by rw [slot_boot]; rfl
  have hmoves : ∀ a,
      tally (fun _ x => Slot.moves a x) (pool (boot mem : State (n + 1) m)).slot = 0 :=
    fun a => tally_eq_zero fun l => by rw [slot_boot]; rfl
  refine ⟨fun a ha => ?_, fun a ha => ?_, fun i a hi => ?_, nofun, fun a ha => ?_,
    fun i a hi => ?_, nofun, fun a l₁ l₂ hlog _ => ?_, fun a l₁ l₂ l₃ hlog => ?_⟩
  · rw [hrefs]
    exact hfree.count_eq a ha
  · have hcount : (initialKmem mem).referenceCounter a = 0 := hfree.count_eq a ha
    have hmem : a ∈ (initialKmem mem).freelist := (hfree.mem_free a).mpr ⟨ha, by simp⟩
    rw [hmoves]
    show ((initialKmem mem).freelist.count a : ℤ) + 0 +
      unit (decide (0 < (initialKmem mem).referenceCounter a)) = 1
    rw [List.count_eq_one_of_mem hfree.nodup hmem, hcount]
    rfl
  · rw [slot_boot] at hi
    rcases hi with hi | hi
    · exact nomatch hi
    · exact nomatch hi
  · exact ((hfree.mem_free a).mp ha).1
  · rw [slot_boot] at hi
    exact nomatch hi
  · have hlog : (initialKmem mem).freelist.map PoolEvent.pushed = _ := hlog
    have hmem : PoolEvent.pushed a ∈ (initialKmem mem).freelist.map .pushed := by
      rw [hlog]
      exact List.mem_append_right _ List.mem_cons_self
    obtain ⟨b, hb, he⟩ := List.mem_map.mp hmem
    exact PoolEvent.pushed.inj he ▸ hb
  · have hnodup : ((initialKmem mem).freelist.map PoolEvent.pushed).Nodup :=
      hfree.nodup.map fun _ _ he => PoolEvent.pushed.inj he
    have hlog : (initialKmem mem).freelist.map PoolEvent.pushed = _ := hlog
    rw [hlog] at hnodup
    exact absurd hnodup (by simp [List.nodup_append])

theorem inv_boot (mem : ℕ → ℕ → UInt8) : Inv (boot mem : State (n + 1) m) where
  pool := pool_boot mem
  pc p := by
    rcases eq_or_ne p 0 with rfl | hp
    · trivial
    · rw [pc_boot mem hp]
      trivial
  busy _ _ := .inl nofun
  w _ _ := nofun

/-- A live entry is a reference to its page, or `uvmcopy` has it and the parent's entry is one. -/
theorem live_refs (h : Inv s) (hl : (s.entry q v).Live) :
    ∃ l, ((pool s).slot l).refs (s.entry q v).pte.ppn = true ∧
      (l = .entry q v ∨ (pool s).slot l = .shared (s.entry q v).pte.ppn) := by
  rcases h.busy q v with hs | ⟨p, hp⟩
  · exact ⟨.entry q v, Entry.refs_of_settled hs hl.1, .inl rfl⟩
  have hok := h.pc p
  have hfree : ∀ k : FreeFor n m, k.Ok s p → k.works p = some (q, v) → False := by
    intro k hk hw
    cases k with
    | unmap v' vs k =>
      cases hw
      exact hl.2 hk.2
    | newPage | kernel => exact nomatch hw
  cases hpc : s.pc p with
  | copyCount c i vs pa =>
    rw [hpc] at hok hp
    cases hp
    obtain ⟨-, ⟨hv, hs, hppn⟩, -, -, hppn', -⟩ := hok
    have hslot : (pool s).slot (.entry p v) = .shared (s.entry q v).pte.ppn := by
      rw [hppn', ← hppn]
      exact Entry.slot_counted hv hs
    refine ⟨.entry p v, ?_, .inr hslot⟩
    rw [hslot]
    exact Slot.refs_shared_self _
  | kfree pa k | kfreeCount pa k | kfreeFill pa k | kfreePush pa k =>
    rw [hpc] at hok hp
    exact (hfree k hok hp).elim
  | unmapClear v' vs k =>
    rw [hpc] at hok hp
    cases hp
    exact absurd hok.2 hl.2
  | _ =>
    rw [hpc] at hp
    exact nomatch hp

theorem Writes.unique (h : Inv s) {q' : Fin n} {v' : Fin m} (hw : Writes s p pa)
    (hl : (s.entry q v).Live) (hl' : (s.entry q' v').Live) (hpa : (s.entry q v).pte.ppn = pa)
    (hpa' : (s.entry q' v').pte.ppn = pa) : q = q' ∧ v = v' := by
  have hloc : ∀ (q : Fin n) (v : Fin m), (s.entry q v).Live → (s.entry q v).pte.ppn = pa →
      (pool s).slot (.entry q v) = .sole pa := by
    intro q v hl hpa
    obtain ⟨l, hrefs, hcase⟩ := live_refs h hl
    rw [hpa] at hrefs hcase
    have hsole := (hw.sole h hrefs).2
    rcases hcase with rfl | hshared
    · exact hsole
    · exact absurd (hsole.symm.trans hshared) nofun
  have hsole := hloc q v hl hpa
  have hrefs : ((pool s).slot (.entry q' v')).refs pa = true := by
    rw [hloc q' v' hl' hpa']
    exact Slot.refs_sole_self pa
  have heq : Loc.entry q' v' = .entry q v := h.pool.eq_of_sole hsole hrefs
  cases heq
  exact ⟨rfl, rfl⟩

/-- What copy-on-write promises in a state, whatever the other threads do next. -/
structure Safe (s : State n m) : Prop where
  /-- A page with a live entry is counted and not free. -/
  counted : ∀ q v, (s.entry q v).Live →
    1 ≤ s.kmem.referenceCounter (s.entry q v).pte.ppn ∧ (s.entry q v).pte.ppn ∉ s.kmem.freelist
  /-- A page is not put on the free list again before it is allocated. -/
  pushedOnce : PushedOnce s.log
  /-- No two processes have writable mappings of one page. -/
  writable : ∀ q v q' v', (s.entry q v).Live → (s.entry q' v').Live → (s.entry q v).pte.w = true →
    (s.entry q' v').pte.w = true → (s.entry q v).pte.ppn = (s.entry q' v').pte.ppn → q = q'
  /-- A page with two live entries does not change. -/
  unchanged : ∀ q v q' v', (s.entry q v).Live → (s.entry q' v').Live → (q, v) ≠ (q', v') →
    (s.entry q v).pte.ppn = (s.entry q' v').pte.ppn → ∀ a s', next s a = some s' →
    s'.kmem.mem (s.entry q v).pte.ppn = s.kmem.mem (s.entry q v).pte.ppn
  /-- What a thread has copied is what the page has. -/
  copied : ∀ p f v pa newPage flags off, s.pc p = .memmove f v pa newPage flags off →
    ∀ j < off, s.kmem.mem newPage j = s.kmem.mem pa j

theorem Inv.safe (h : Inv s) : Safe s where
  counted q v hl := by
    obtain ⟨l, hrefs, -⟩ := live_refs h hl
    have hpos : 0 < s.kmem.referenceCounter (s.entry q v).pte.ppn := h.pool.count_pos hrefs
    exact ⟨hpos, h.pool.not_mem_free (h.pool.slot_valid l _ (.inl hrefs)) hpos⟩
  pushedOnce := h.pool.once
  writable q v q' v' hl hl' hw _ hppn := by
    have hs : (s.entry q v).share = .sole := (h.w q v hl.1 hw).resolve_right hl.2
    exact ((Writes.ofEntry hl.1 hs).unique h hl hl' rfl hppn.symm).1
  unchanged q v q' v' hl hl' hne hppn a s' hs := by
    refine ((next_effect h hs).writes _).resolve_right fun hw => hne ?_
    obtain ⟨rfl, rfl⟩ := hw.unique h hl hl' rfl hppn.symm
    rfl
  copied p f v pa newPage flags off hpc := (h.ok hpc).2.2

/-- **Copy-on-write is safe under every interleaving.** -/
theorem cow_interleaving_safe (mem : ℕ → ℕ → UInt8) {s : State (n + 1) m}
    (h : Reach next (boot mem) s) : Safe s :=
  (h.invariant (fun _ _ _ hi hs => (next_effect hi hs).inv hi) (inv_boot mem)).safe

/-- A process with one page forks, and parent and child share the page. -/
def forkActs : List (Act 2 1) :=
  .grow 0 true false :: List.replicate 5 (.go 0) ++ .fork 0 1 :: List.replicate 6 (.go 0)

omit [Layout] in
theorem cow_interleaving_safe_fork :
    letI := smallLayout
    ∃ s : State 2 1, (s.entry 0 0).Live ∧ (s.entry 1 0).Live ∧
      (s.entry 0 0).pte.ppn = (s.entry 1 0).pte.ppn ∧ Safe s := by
  let := smallLayout
  obtain ⟨s, hs, h0, h1, hppn⟩ : ∃ s ∈ runActs next (boot fun _ _ => 0 : State 2 1) forkActs,
      ((s.entry 0 0).pte.v = true ∧ (s.entry 0 0).share ≠ .freed) ∧
      ((s.entry 1 0).pte.v = true ∧ (s.entry 1 0).share ≠ .freed) ∧
        (s.entry 0 0).pte.ppn = (s.entry 1 0).pte.ppn := by decide +kernel
  exact ⟨s, h0, h1, hppn, cow_interleaving_safe _ (reach_of_runActs hs)⟩

end LazyXv6.Kernel.Threads
