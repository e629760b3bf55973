import LazyXv6.Virtio.Steps

/-!
# Requests and their completion

The steps of the device and of the interrupt handler, and what holds in every run of the driver.
-/

namespace LazyXv6.Virtio

open Lib Function

variable {Proc Buf : Type} {s s' : State Proc Buf} {av us : List (ℕ × ℕ)} {start : ℕ} {p : Proc}
    {c : Call Buf}
variable {e : ℕ × ℕ}

/-! ## The device -/

theorem Good.fetch (h : Good s av us start) (hs : s.fetch = some s') :
    ∃ av', Good s' av' us start := by
  unfold State.fetch at hs
  split at hs
  · exact nomatch hs
  case isFalse hne =>
  cases hs
  cases av with
  | nil => exact absurd ((h.avail.lo_eq_hi (by decide)).mpr rfl) hne
  | cons e av =>
  have hhead : s.avail (s.seen.toNat % NUM) = e.1 := h.avail.head
  obtain ⟨hk, hserials⟩ : e.2 = s.fetched ∧
    av.map Prod.snd = List.range' (s.fetched + 1) av.length := by
    have hser := h.serials
    rw [List.map_cons, List.length_cons, List.range'_succ] at hser
    exact List.cons.inj hser
  have he : (s.avail (s.seen.toNat % NUM), s.fetched) = e := by rw [hhead, ← hk]
  rw [he]
  refine ⟨av, h.panic, h.lock, h.locked,
    h.chains.frame (fun _ => .refl _) rfl (fun _ _ => rfl) rfl fun _ => rfl, h.avail.pop, ?_,
    hserials, h.used, h.requests.frame (fun _ => .refl _) ?_ rfl rfl rfl rfl
    (fun _ hx => hx) h.requests.done fun _ _ _ hx => hx⟩
  · show s.published = s.fetched + 1 + av.length
    rw [h.published, List.length_cons]
    omega
  · exact List.perm_middle

theorem Good.serve (h : Good s av us start) (hs : s.serve e = some s') :
    Good s' av us start := by
  obtain ⟨he, hs⟩ := Option.ite_none_right_eq_some.mp hs
  have hmem : e ∈ s.flight av us := List.mem_append_right _ (List.mem_append_left _ he)
  obtain ⟨p, idx, hp, hk, hi⟩ := h.requests.owner e hmem
  obtain ⟨c, hc, hform⟩ := h.chains.formatted hp
  have hd0 : s.desc e.1 = State.desc0 idx := hi ▸ hform.desc0
  have hd1 : s.desc (s.desc e.1).next = State.desc1 c idx := by
    rw [hd0]
    exact hform.desc1
  have hd2 : s.desc (s.desc (s.desc e.1).next).next = State.desc2 idx := by
    rw [hd1]
    exact hform.desc2
  have hr := h.requests
  dsimp only at hs
  rw [hd2, hd1, hd0] at hs
  cases hs
  have hops : s.ops idx.i0 = c.req := hform.ops
  refine ⟨h.panic, h.lock, h.locked,
    h.chains.frame (fun _ => .refl _) rfl (fun _ _ => rfl) rfl fun i => ?_, h.avail, h.published,
    h.serials, h.used, hr.frame (fun _ => .refl _) ?_ rfl rfl rfl rfl
    (fun _ hx => List.mem_cons_of_mem _ hx)
      (fun e' he' => ⟨?_, fun q d hd hk' => ?_⟩) fun _ _ _ hx =>
      (List.mem_cons.mp hx).resolve_left nofun⟩
  · show (update s.info idx.i0 _ i).b = _
    rcases eq_or_ne i idx.i0 with rfl | hne
    · rw [update_self]
    · rw [update_of_ne hne]
  · refine List.Perm.append_left av ?_
    show (s.working.erase e ++ e :: (s.served ++ us)).Perm _
    refine List.perm_middle.trans ?_
    rw [← List.cons_append]
    exact (List.perm_cons_erase he).symm.append_right _
  · show (update s.info idx.i0 _ e'.1).status = 0
    rcases eq_or_ne e'.1 idx.i0 with h0 | hne
    · rw [h0, update_self]
    · rw [update_of_ne hne]
      rcases List.mem_cons.mp he' with rfl | he'
      · exact absurd hi.symm hne
      · exact (hr.done e' he').1
  · rcases List.mem_cons.mp he' with rfl | he'
    · obtain rfl := hr.serial q p e'.2 hk' hk
      obtain rfl := Option.some.inj (hd.symm.trans hc)
      rw [← hops]
      exact List.mem_cons_self
    · exact List.mem_cons_of_mem _ ((hr.done e' he').2 q d hd hk')

theorem Good.post (h : Good s av us start) (hs : s.post e = some s') :
    Good s' av (us ++ [e]) start := by
  obtain ⟨he, hs⟩ := Option.ite_none_right_eq_some.mp hs
  cases hs
  have hperm : (s.served.erase e ++ (us ++ [e])).Perm (s.served ++ us) := by
    rw [← List.append_assoc]
    refine List.perm_append_comm.trans ?_
    rw [List.singleton_append, ← List.cons_append]
    exact (List.perm_cons_erase he).symm.append_right us
  refine ⟨h.panic, h.lock, h.locked,
    h.chains.frame (fun _ => .refl _) rfl (fun _ _ => rfl) rfl fun _ => rfl, h.avail, h.published,
      h.serials, ?_, h.requests.frame (fun _ => .refl _) ?_ rfl rfl rfl rfl (fun _ hx => hx)
      (fun e' he' => h.requests.done e' (hperm.mem_iff.mp he')) fun _ _ _ hx => hx⟩
  · rw [List.map_append]
    exact (h.used.update_end (by simpa using h.us_length) e.1).concat (update_self ..)
  · exact (hperm.append_left s.working).append_left av

/-! ## Interrupts -/

theorem Good.done [DecidableEq Buf] (h : Good s av (e :: us) start) {idx : Chain}
    (hp : (s.pc p).idx = some idx) (hk : (s.pc p).serial = some e.2) (hi : idx.i0 = e.1)
    (hc : (s.pc p).call = some c) :
    Good { s with disk := update s.disk c.b false, usedIdx := s.usedIdx + 1 } av us
    (start + 1) := by
  have hr := h.requests
  have hperm : (s.flight av (e :: us)).Perm (e :: s.flight av us) := by
    have hserved : (s.served ++ e :: us).Perm (e :: (s.served ++ us)) := List.perm_middle
    apply ((hserved.append_left s.working).append_left av).trans
    exact (List.perm_middle.append_left av).trans List.perm_middle
  have hmem : e ∈ s.flight av (e :: us) := hperm.mem_iff.mpr List.mem_cons_self
  have hin : ∀ {e'}, e' ∈ s.flight av us → e' ∈ s.flight av (e :: us) := fun he' =>
    hperm.mem_iff.mpr (List.mem_cons_of_mem _ he')
  obtain ⟨hnot, hheads⟩ := List.nodup_cons.mp ((hperm.map Prod.fst).nodup_iff.mp hr.heads)
  obtain ⟨-, hdone⟩ := hr.done e (List.mem_append_right _ List.mem_cons_self)
  refine ⟨h.panic, h.lock, h.locked,
    h.chains.frame (fun _ => .refl _) rfl (fun _ _ => rfl) rfl fun _ => rfl, h.avail, h.published,
    h.serials, h.used.pop, ⟨hheads, fun e' he' => hr.owner e' (hin he'), fun q d jdx hd hq hj => ?_,
      hr.serial_lt, fun q d jdx j hd hq hj => ?_, hr.serial, fun e' he' => hr.done e' ?_,
    hr.returned⟩⟩
  · have hqp : q ≠ p := by
      rintro rfl
      exact absurd (hk.symm.trans hj) nofun
    show update s.disk c.b false d.b = true ∧ _
    rw [update_of_ne (h.buf_ne hc hd hqp)]
    exact hr.publish q d jdx hd hq hj
  · show _ ∧ update s.disk c.b false d.b = true ∨ _ ∧ update s.disk c.b false d.b = false ∧ _
    rcases eq_or_ne q p with rfl | hqp
    · obtain rfl := Option.some.inj (hq.symm.trans hp)
      obtain rfl := Option.some.inj (hj.symm.trans hk)
      obtain rfl := Option.some.inj (hd.symm.trans hc)
      rw [update_self]
      refine .inr ⟨fun hfl => hnot ?_, rfl, hdone q d hd hj⟩
      rw [← hi]
      exact List.mem_map_of_mem hfl
    · rw [update_of_ne (h.buf_ne hc hd hqp)]
      have hne : (jdx.i0, j) ≠ e := by
        rintro rfl
        exact hqp (hr.serial q p j hj hk)
      refine (hr.waits q d jdx j hd hq hj).imp (fun ⟨hfl, hd⟩ => ⟨?_, hd⟩) fun ⟨hfl, hd⟩ =>
        ⟨fun hmem => ?_, hd⟩
      · exact (List.mem_cons.mp (hperm.mem_iff.mp hfl)).resolve_left hne
      · exact hfl (hin hmem)
  · rcases List.mem_append.mp he' with hserved | hus
    · exact List.mem_append_left _ hserved
    · exact List.mem_append_right _ (List.mem_cons_of_mem _ hus)

/-- A step keeps what holds, and writes only the slots after the last entries of the rings. -/
def Keeps (s s' : State Proc Buf) : Prop :=
  Inv s' ∧ (∀ i, i ≠ s.availIdx.toNat % NUM → s'.avail i = s.avail i) ∧
    ∀ i, i ≠ s.usedEnd.toNat % NUM → s'.used i = s.used i

theorem Good.keeps {s' : State Proc Buf} {av' us' : List (ℕ × ℕ)} {start' : ℕ}
    (h : Good s' av' us' start') (havail : s'.avail = s.avail) (hused : s'.used = s.used) :
    Keeps s s' :=
  ⟨⟨av', us', start', h⟩, fun i _ => congrFun havail i, fun i _ => congrFun hused i⟩

theorem Good.intr [DecidableEq Proc] [DecidableEq Buf] (h : Good s av us start)
    (hs : s.intr = some s') : Keeps s s' := by
  obtain ⟨hlock, hs⟩ := Option.ite_none_right_eq_some.mp hs
  split at hs
  · cases hs
    refine (h.move (fun q => .refl (s.pc q)) (fun _ _ => rfl) h.locked fun q hq => ?_).keeps rfl rfl
    exact absurd ((h.lock q hq).symm.trans hlock) nofun
  case isFalse hne =>
  cases us with
  | nil => exact absurd ((h.used.lo_eq_hi (by decide)).mpr rfl) hne
  | cons e us =>
  have hhead : s.used (s.usedIdx.toNat % NUM) = e.1 := h.used.head
  have hfront : e ∈ s.served ++ e :: us := List.mem_append_right _ List.mem_cons_self
  obtain ⟨hstatus, -⟩ := h.requests.done e hfront
  obtain ⟨p, idx, hp, hk, hi⟩ :=
    h.requests.owner e (List.mem_append_right _ (List.mem_append_right _ hfront))
  obtain ⟨c, hc, hform⟩ := h.chains.formatted hp
  have hb : (s.info e.1).b = some c.b := hi ▸ hform.info
  dsimp only at hs
  rw [hhead, if_neg (not_not.mpr hstatus), hb] at hs
  cases hs
  exact ((h.done hp hk hi hc).wakeup (.buf c.b)).keeps rfl rfl

/-! ## All steps -/

section

variable [DecidableEq Proc] [DecidableEq Buf]

theorem Good.goAlloc (h : Good s av us start) (hp : s.pc p = .alloc c) :
    Keeps s (s.orPanic (s.allocStep p c)) := by
  unfold State.allocStep
  rcases alloc3Desc_spec s with ⟨idx, hok, htakes⟩ | ⟨desc', pc', hok, hdesc, hpc⟩
  · rw [hok]
    exact ⟨⟨av, us, start, h.alloc hp htakes⟩, fun i hi => update_of_ne hi .., fun _ _ => rfl⟩
  · rw [hok]
    exact (h.allocFails hp hdesc hpc).keeps rfl rfl

theorem Good.goFinish (h : Good s av us start) {idx : Chain} {k : ℕ} (hp : s.pc p = .wait c idx k)
    (hdisk : s.disk c.b = false) : Keeps s (s.orPanic (s.finishStep p c idx k)) := by
  unfold State.finishStep
  obtain ⟨desc', pc', hok, hdesc, hpc⟩ :=
    freeChain_spec (h.chains.form p c idx (hp ▸ rfl) (hp ▸ rfl))
    (update s.info idx.i0 { s.info idx.i0 with b := none })
  rw [hok]
  -- First some processes are woken, and then the chain is gone.
  have hwoken : Good { s with pc := pc' } av us start :=
    h.move (fun q => (hpc.same q).1) (fun _ _ => rfl)
      (fun q d hd => h.locked q d ((hpc.same q).2.1.symm.trans hd))
      fun q hq => h.lock q ((hpc.same q).2.2 hq ▸ hq)
  have hp' : pc' p = .wait c idx k := by
    rcases hpc p with hq | ⟨d, hq, -⟩
    · exact hq.trans hp
    · exact absurd (hp.symm.trans hq) nofun
  exact (hwoken.finish hp' hdisk hdesc).keeps rfl rfl

theorem Good.go (h : Good s av us start) (hs : s.go p = some s') : Keeps s s' := by
  unfold State.go at hs
  split at hs
  case h_1 | h_2 | h_3 => exact nomatch hs
  case h_4 c hp =>
    have hgood := h.acquire (y := .alloc c) hp ⟨rfl, rfl, fun _ => rfl⟩ rfl hs
    obtain ⟨-, he⟩ := Option.ite_none_right_eq_some.mp hs
    cases he
    exact hgood.keeps rfl rfl
  case h_5 c hp =>
    cases hs
    exact h.goAlloc hp
  case h_6 c idx hp =>
    cases hs
    exact (h.publish hp).keeps rfl rfl
  case h_7 c idx k hp =>
    split at hs
    · cases hs
      exact (h.releaseLock (y := .sleepBuf c idx k) hp rfl ⟨rfl, rfl, fun _ => rfl⟩ rfl rfl).keeps
        rfl rfl
    case isFalse hdisk =>
      cases hs
      exact h.goFinish hp (Bool.eq_false_iff.mpr hdisk)
  case h_8 c idx k hp =>
    have hgood := h.acquire (y := .wait c idx k) hp ⟨rfl, rfl, fun _ => rfl⟩ rfl hs
    obtain ⟨-, he⟩ := Option.ite_none_right_eq_some.mp hs
    cases he
    exact hgood.keeps rfl rfl

theorem Inv.step {a : Act Proc Buf} (h : Inv s) (hs : step s a = some s') : Keeps s s' := by
  obtain ⟨av, us, start, h⟩ := h
  cases a with
  | acquiresleep p b =>
    obtain ⟨⟨-, hb⟩, he⟩ := Option.ite_none_right_eq_some.mp hs
    cases he
    exact (h.acquiresleep hb).keeps rfl rfl
  | releasesleep p b =>
    obtain ⟨⟨hp, hb⟩, he⟩ := Option.ite_none_right_eq_some.mp hs
    cases he
    exact (h.releasesleep hp hb).keeps rfl rfl
  | rw p c =>
    obtain ⟨⟨hp, hb⟩, he⟩ := Option.ite_none_right_eq_some.mp hs
    cases he
    exact (h.rw hp hb).keeps rfl rfl
  | go p => exact h.go hs
  | kill p =>
    obtain ⟨hp, he⟩ := Option.ite_none_left_eq_some.mp hs
    cases he
    exact (h.kill hp).keeps rfl rfl
  | interrupt =>
    obtain ⟨hlock, he⟩ := Option.ite_none_right_eq_some.mp hs
    cases he
    refine (h.move (fun q => .refl (s.pc q)) (fun _ _ => rfl) h.locked fun q hq => ?_).keeps rfl rfl
    exact absurd ((h.lock q hq).symm.trans hlock) nofun
  | intr => exact h.intr hs
  | fetch =>
    obtain ⟨av', hgood⟩ := h.fetch hs
    obtain ⟨-, he⟩ := Option.ite_none_left_eq_some.mp hs
    cases he
    exact hgood.keeps rfl rfl
  | serve e =>
    have hgood := h.serve hs
    obtain ⟨-, hs⟩ := Option.ite_none_right_eq_some.mp hs
    split at hs
    · cases hs
      exact hgood.keeps rfl rfl
    · exact nomatch hs
  | post e =>
    have hgood := h.post hs
    obtain ⟨-, he⟩ := Option.ite_none_right_eq_some.mp hs
    cases he
    exact ⟨⟨av, us ++ [e], start, hgood⟩, fun _ _ => rfl, fun i hi => update_of_ne hi ..⟩

theorem Inv.next {a : Act Proc Buf} (h : Inv s) (hs : next s a = some s') : Keeps s s' :=
  h.step (Option.ite_none_right_eq_some.mp hs).2

end

theorem inv_boot : Inv (boot : State Proc Buf) := by
  refine ⟨[], [], 0, rfl, nofun, nofun, ⟨nofun, nofun, nofun⟩, ⟨rfl, rfl, ringHolds_nil⟩, rfl, rfl,
    ⟨rfl, rfl, ringHolds_nil⟩, ⟨List.nodup_nil, nofun, nofun, nofun, nofun, nofun, nofun, nofun⟩⟩

/-! ## Bookkeeping -/

structure Bookkeeping [DecidableEq Proc] [DecidableEq Buf] (s : State Proc Buf) : Prop where
  panic : s.panic = none
  /-- A descriptor is free, or in the chain of exactly one process. -/
  descriptors : ∀ i, i < NUM → s.free i = true ∧
    (∀ p idx, (s.pc p).idx = some idx → i ∉ idx.toList) ∨ s.free i = false ∧
    ∃! p, ∃ idx, (s.pc p).idx = some idx ∧ i ∈ idx.toList
  /-- A chain has three descriptors, linked in memory. -/
  chains : ∀ p idx, (s.pc p).idx = some idx → idx.toList.Nodup ∧ (∀ i ∈ idx.toList, i < NUM) ∧
    (s.desc idx.i0).next = idx.i1 ∧ (s.desc idx.i1).next = idx.i2
  /-- A step writes the slot after the last entry of a ring at most, and no entry that waits has
  it. -/
  avail : (∀ j, j < (s.availIdx - s.seen).toNat →
    (s.seen + .ofNat j).toNat % NUM ≠ s.availIdx.toNat % NUM) ∧ ∀ a s', next s a = some s' →
    ∀ i, i ≠ s.availIdx.toNat % NUM → s'.avail i = s.avail i
  used : (∀ j, j < (s.usedEnd - s.usedIdx).toNat →
    (s.usedIdx + .ofNat j).toNat % NUM ≠ s.usedEnd.toNat % NUM) ∧
    ∀ a s', next s a = some s' → ∀ i, i ≠ s.usedEnd.toNat % NUM → s'.used i = s.used i
  /-- Two calls wait for different requests, and a call that has returned has had its request
  served. -/
  own : ∀ p q k, (s.pc p).serial = some k → (s.pc q).serial = some k → p = q
  returned : ∀ p k c, .returned p k c ∈ s.log → .completed k c.req c.b ∈ s.log

theorem Ring16.free_slot {cell : ℕ → ℕ} {lo hi : UInt16} {l : List ℕ}
    (h : Ring16 cell lo hi start l) (hl : l.length < NUM) {j : ℕ} (hj : j < (hi - lo).toNat) :
    (lo + .ofNat j).toNat % NUM ≠ hi.toNat % NUM := by
  have hl : l.length < 8 := hl
  have hlen : (hi - lo).toNat = l.length := by
    rw [h.lo, h.hi, UInt16.toNat_sub, UInt16.toNat_ofNat', UInt16.toNat_ofNat']
    omega
  rw [h.lo, h.hi, ← UInt16.ofNat_add, toNat_ofNat_mod, toNat_ofNat_mod]
  exact ring_cell_ne (by omega) (by omega)

section

variable [DecidableEq Proc] [DecidableEq Buf]

theorem bookkeeping_of_inv (h : Inv s) : Bookkeeping s := by
  have hnext : ∀ a s', next s a = some s' → Keeps s s' := fun a s' hs => h.next hs
  obtain ⟨av, us, start, h⟩ := h
  refine ⟨h.panic, fun i hi => ?_, fun p idx hp => ?_,
    ⟨fun j hj => ?_, fun a s' hs => (hnext a s' hs).2.1⟩,
    ⟨fun j hj => ?_, fun a s' hs => (hnext a s' hs).2.2⟩, h.requests.serial, h.requests.returned⟩
  · cases hfree : s.free i with
    | true =>
      refine .inl ⟨rfl, fun p idx hp hmem => ?_⟩
      obtain ⟨c, -, hform⟩ := h.chains.formatted hp
      exact absurd (hfree.symm.trans (hform.busy i hmem)) nofun
    | false =>
      obtain ⟨p, idx, hp, hmem⟩ := h.chains.owned i hi hfree
      refine .inr ⟨rfl, p, ⟨idx, hp, hmem⟩, fun q ⟨jdx, hq, hmem'⟩ => ?_⟩
      exact h.chains.disjoint q p jdx idx i hq hp hmem' hmem
  · obtain ⟨c, -, hform⟩ := h.chains.formatted hp
    rw [hform.desc0, hform.desc1]
    exact ⟨hform.nodup, hform.lt, rfl, rfl⟩
  · exact h.avail.free_slot (by simpa using h.av_length) hj
  · exact h.used.free_slot (by simpa using h.us_length) hj

/-- **The driver keeps track of its requests**, however processes, interrupts and the device take
turns. -/
theorem virtio_bookkeeping (h : Reach next boot s) : Bookkeeping s :=
  bookkeeping_of_inv (h.invariant (I := Inv) (fun _ _ _ hs ha => (hs.next ha).1) inv_boot)

end

/-- Two processes have requests at the same time, and the device completes the later one first. -/
theorem virtio_bookkeeping_outOfOrder :
    ∃ s : State (Fin 2) (Fin 2), Reach next boot s ∧ Bookkeeping s ∧
    s.log = [.returned 1 1 ⟨1, 7, true⟩, .completed 1 ⟨.output, 14⟩ 1] ∧ s.working = [(0, 0)] := by
  obtain ⟨s, hs, hprop⟩ : ∃ s ∈ runActs next (boot : State (Fin 2) (Fin 2))
      [.acquiresleep 0 0, .rw 0 ⟨0, 5, false⟩, .go 0, .go 0, .go 0, .go 0,
        .acquiresleep 1 1, .rw 1 ⟨1, 7, true⟩, .go 1, .go 1, .go 1, .go 1,
        .fetch, .fetch, .serve (3, 1), .post (3, 1), .interrupt, .intr, .intr, .go 1, .go 1],
      s.log = [.returned 1 1 ⟨1, 7, true⟩, .completed 1 ⟨.output, 14⟩ 1] ∧ s.working = [(0, 0)] := by
    decide +kernel
  have hreach := reach_of_runActs hs
  exact ⟨s, hreach, virtio_bookkeeping hreach, hprop⟩

end LazyXv6.Virtio
