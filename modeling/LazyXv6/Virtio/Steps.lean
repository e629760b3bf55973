import LazyXv6.Virtio.Protocol

/-!
# The steps of `virtio_disk_rw`

Most of them only move a process (`Good.move`). Three do more: a chain is formatted, its head is
published, and it is freed.
-/

namespace LazyXv6.Virtio

open Lib Function

variable {Proc Buf : Type} {s s' : State Proc Buf} {av us : List (ℕ × ℕ)} {start : ℕ} {p q : Proc}
    {c : Call Buf} {idx : Chain}
variable {k : ℕ} {e : ℕ × ℕ}

theorem ne_of_some {α : Type} {pc : Proc → Pc Buf} {x : Pc Buf} {g : Pc Buf → Option α} {a : α}
    (hp : pc p = x) (hx : g x = none) (hq : g (pc q) = some a) : q ≠ p := by
  rintro rfl
  rw [hp, hx] at hq
  cases hq

/-! ## Processes that only move -/

section

variable [DecidableEq Proc]

/-- A process moves from `x` to `y`, and some others are woken. -/
theorem Good.movePc (h : Good s av us start) {x y : Pc Buf} {desc' : ℕ → Desc Buf}
    {pc' : Proc → Pc Buf} {lock' : Option (Holder Proc)} (hx : s.pc p = x) (hsame : x.Same y)
    (hcall : ∀ d, y.call = some d → s.locked d.b = some p) (hdesc : KeepsBusy s desc')
    (hpc : WokenFree s.pc pc')
    (hlock : ∀ q, q ≠ p → s.lock = some (.proc q) → lock' = some (.proc q))
    (hy : y.holds = true → lock' = some (.proc p)) :
    Good ({ s with desc := desc', pc := pc', lock := lock' }.setPc p y) av us start := by
  refine h.move (fun q => ?_) hdesc (fun q d hd => ?_) fun q hq => ?_
  · rcases eq_or_ne q p with rfl | hqp
    · rwa [update_self, hx]
    · rw [update_of_ne hqp]
      exact (hpc.same q).1
  · rcases eq_or_ne q p with rfl | hqp
    · rw [update_self] at hd
      exact hcall d hd
    · rw [update_of_ne hqp, (hpc.same q).2.1] at hd
      exact h.locked q d hd
  · rcases eq_or_ne q p with rfl | hqp
    · rw [update_self] at hq
      exact hy hq
    · rw [update_of_ne hqp] at hq
      have hq' : (pc' q).holds = true := hq
      rw [(hpc.same q).2.2 hq] at hq'
      exact hlock q hqp (h.lock q hq')

theorem Good.setPc (h : Good s av us start) {x y : Pc Buf} (hx : s.pc p = x) (hsame : x.Same y)
    (hcall : y.call = x.call) {lock' : Option (Holder Proc)}
    (hlock : ∀ q, q ≠ p → s.lock = some (.proc q) → lock' = some (.proc q))
    (hy : y.holds = true → lock' = some (.proc p)) :
    Good ({ s with lock := lock' }.setPc p y) av us start := by
  refine h.movePc hx hsame (fun d hd => h.locked p d ?_) (fun _ _ => rfl) (.refl _) hlock hy
  rw [hx, ← hcall, hd]

theorem Good.acquire (h : Good s av us start) {x y : Pc Buf} (hx : s.pc p = x) (hsame : x.Same y)
    (hcall : y.call = x.call) (hs : s.acquire p y = some s') : Good s' av us start := by
  obtain ⟨hnone, he⟩ := Option.ite_none_right_eq_some.mp hs
  cases he
  refine h.setPc hx hsame hcall (fun q _ hq => ?_) fun _ => rfl
  exact absurd (hnone.symm.trans hq) nofun

theorem Good.releaseLock (h : Good s av us start) {x y : Pc Buf} (hx : s.pc p = x)
    (hholds : x.holds = true) (hsame : x.Same y) (hcall : y.call = x.call) (hy : y.holds = false) :
    Good ({ s with lock := none }.setPc p y) av us start := by
  refine h.setPc hx hsame hcall (fun q hqp hq => ?_) fun hh => absurd (hy.symm.trans hh) nofun
  have hp := h.lock p (hx ▸ hholds)
  exact absurd (Holder.proc.inj (Option.some.inj (hq.symm.trans hp))) hqp

theorem Good.rw (h : Good s av us start) (hp : s.pc p = .idle) (hb : s.locked c.b = some p) :
    Good (s.setPc p (.lock c)) av us start := by
  refine h.movePc hp ⟨rfl, rfl, fun hno => absurd rfl hno⟩ (fun d hd => ?_)
    (fun _ _ => rfl) (.refl _) (fun _ _ hq => hq) nofun
  cases hd
  exact hb

theorem Good.kill (h : Good s av us start) (hp : (s.pc p).chan ≠ none) :
    Good (s.setPc p (s.pc p).wake) av us start := by
  refine h.setPc rfl (Pc.same_wake _) (Pc.call_wake _) (fun _ _ hq => hq) fun hholds => ?_
  cases hx : s.pc p with
  | sleepFree | sleepBuf =>
    rw [hx] at hholds
    exact nomatch hholds
  | _ =>
    rw [hx] at hp
    exact absurd rfl hp

theorem Good.allocFails (h : Good s av us start) (hp : s.pc p = .alloc c) {desc' : ℕ → Desc Buf}
    {pc' : Proc → Pc Buf} (hdesc : KeepsBusy s desc') (hpc : WokenFree s.pc pc') :
    Good ({ s with desc := desc', pc := pc', lock := none }.setPc p (.sleepFree c)) av us
    start := by
  refine h.movePc hp ⟨rfl, rfl, fun hno => absurd rfl hno⟩ (fun d hd => ?_) hdesc hpc
    (fun q hqp hq => ?_) nofun
  · cases hd
    exact h.locked p c (hp ▸ rfl)
  · have hlock := h.lock p (hp ▸ rfl)
    exact absurd (Holder.proc.inj (Option.some.inj (hq.symm.trans hlock))) hqp

end

section

variable [DecidableEq Buf]

theorem Good.wakeup (h : Good s av us start) (chan : Chan Buf) :
    Good (s.wakeup chan) av us start := by
  have hpc : ∀ q, (s.wakeup chan).pc q = s.pc q ∨ (s.wakeup chan).pc q = (s.pc q).wake := by
    intro q
    show (if _ then _ else _) = _ ∨ (if _ then _ else _) = _
    split
    · exact .inr rfl
    · exact .inl rfl
  refine h.move (fun q => ?_) (fun _ _ => rfl) (fun q d hd => ?_) fun q hq => ?_
  · show (s.pc q).Same ((s.wakeup chan).pc q)
    rcases hpc q with hq | hq
    · rw [hq]
      exact .refl _
    · rw [hq]
      exact Pc.same_wake _
  · rcases hpc q with hq | hq
    · exact h.locked q d (hq ▸ hd)
    · exact h.locked q d ((Pc.call_wake _).symm.trans (hq ▸ hd))
  · refine h.lock q ?_
    rcases hpc q with hq' | hq'
    · exact hq' ▸ hq
    · have hq : ((s.wakeup chan).pc q).holds = true := hq
      rw [hq'] at hq
      cases hx : s.pc q with
      | alloc | publish | wait => rfl
      | _ =>
        rw [hx] at hq
        exact nomatch hq

/-! ## Sleep-locks -/

theorem Good.acquiresleep (h : Good s av us start) {b : Buf} (hb : s.locked b = none) :
    Good { s with locked := update s.locked b (some p) } av us start := by
  refine h.relocked fun q c hc => ?_
  have hq := h.locked q c hc
  have hne : c.b ≠ b := ne_of_apply_ne s.locked (by simp [hb, hq])
  rw [update_of_ne hne]
  exact hq

theorem Good.releasesleep (h : Good s av us start) {b : Buf} (hp : s.pc p = .idle)
    (hb : s.locked b = some p) : Good { s with locked := update s.locked b none } av us start := by
  refine h.relocked fun q c hc => ?_
  have hq := h.locked q c hc
  have hne : c.b ≠ b := by
    rintro rfl
    obtain rfl := Option.some.inj (hb.symm.trans hq)
    rw [hp] at hc
    exact nomatch hc
  rw [update_of_ne hne]
  exact hq

end

variable [DecidableEq Proc]

/-! ## Allocation -/

section

variable [DecidableEq Buf]

def State.formatted (s : State Proc Buf) (p : Proc) (c : Call Buf) (idx : Chain) : State Proc Buf :=
  ({ s with free := without s.free idx.toList }.format c idx).setPc p (.publish c idx)

theorem Takes.formatted (h : Takes s idx.toList) : Formatted (s.formatted p c idx) c idx := by
  obtain ⟨h01, h02, h12⟩ := Chain.ne_of_nodup h.nodup
  refine ⟨h.nodup, h.lt, fun i hi => ?_, ?_, ?_, update_self .., update_self .., ?_⟩
  · show without s.free idx.toList i = false
    simp [without, hi]
  · show update (update (update s.desc idx.i0 _) idx.i1 _) idx.i2 _ idx.i0 = _
    rw [update_of_ne h02, update_of_ne h01, update_self]
  · show update (update (update s.desc idx.i0 _) idx.i1 _) idx.i2 _ idx.i1 = _
    rw [update_of_ne h12, update_self]
  · show (update s.info idx.i0 _ idx.i0).b = _
    rw [update_self]

theorem Takes.formatted_other (h : Takes s idx.toList) {d : Call Buf} {jdx : Chain}
    (hd : Formatted s d jdx) : Formatted (s.formatted p c idx) d jdx := by
  have hout : ∀ i ∈ jdx.toList, i ≠ idx.i0 ∧ i ≠ idx.i1 ∧ i ≠ idx.i2 := by
    intro i hi
    refine Chain.ne_of_not_mem fun hmem => ?_
    exact absurd ((hd.busy i hi).symm.trans (h.free i hmem)) nofun
  have hdesc : ∀ i ∈ jdx.toList, (s.formatted p c idx).desc i = s.desc i := by
    intro i hi
    obtain ⟨h0, h1, h2⟩ := hout i hi
    show update (update (update s.desc idx.i0 _) idx.i1 _) idx.i2 _ i = _
    rw [update_of_ne h2, update_of_ne h1, update_of_ne h0]
  have hmem0 : jdx.i0 ∈ jdx.toList := List.mem_cons_self
  have hmem1 : jdx.i1 ∈ jdx.toList := List.mem_cons_of_mem _ List.mem_cons_self
  have hmem2 : jdx.i2 ∈ jdx.toList :=
    List.mem_cons_of_mem _ (List.mem_cons_of_mem _ List.mem_cons_self)
  have hj0 := (hout _ hmem0).1
  refine ⟨hd.nodup, hd.lt, fun i hi => without_of_false _ (hd.busy i hi),
    (hdesc _ hmem0).trans hd.desc0, (hdesc _ hmem1).trans hd.desc1, (hdesc _ hmem2).trans hd.desc2,
    (update_of_ne hj0 ..).trans hd.ops, ?_⟩
  show (update s.info idx.i0 _ jdx.i0).b = _
  rw [update_of_ne hj0]
  exact hd.info

section

variable (h : Good s av us start) (hp : s.pc p = .alloc c) (ht : Takes s idx.toList)

include h hp ht

theorem formatted_chains : Chains (s.formatted p c idx) := by
  have hself : (s.formatted p c idx).pc p = .publish c idx := update_self ..
  have hother : ∀ q, q ≠ p → (s.formatted p c idx).pc q = s.pc q := fun q hq => update_of_ne hq ..
  -- Nobody had one of the new descriptors before.
  have hfresh : ∀ q jdx i, (s.pc q).idx = some jdx → i ∈ idx.toList → i ∉ jdx.toList := by
    intro q jdx i hq hi hj
    obtain ⟨d, -, hd⟩ := h.chains.formatted hq
    exact absurd ((hd.busy i hj).symm.trans (ht.free i hi)) nofun
  refine ⟨fun q d jdx hd hq => ?_, fun q r jdx rdx i hq hr hi hi' => ?_, fun i hi hbusy => ?_⟩
  · rcases eq_or_ne q p with rfl | hqp
    · rw [hself] at hd hq
      cases hd
      cases hq
      exact ht.formatted
    · rw [hother q hqp] at hd hq
      exact ht.formatted_other (h.chains.form q d jdx hd hq)
  · rcases eq_or_ne q p with rfl | hqp
    · rcases eq_or_ne r q with rfl | hrq
      · rfl
      · rw [hself] at hq
        cases hq
        rw [hother r hrq] at hr
        exact absurd hi' (hfresh r rdx i hr hi)
    · rw [hother q hqp] at hq
      rcases eq_or_ne r p with rfl | hrp
      · rw [hself] at hr
        cases hr
        exact absurd hi (hfresh q jdx i hq hi')
      · rw [hother r hrp] at hr
        exact h.chains.disjoint q r jdx rdx i hq hr hi hi'
  · rcases without_eq_false hbusy with hb | hmem
    · obtain ⟨q, jdx, hq, hj⟩ := h.chains.owned i hi hb
      have hqp : q ≠ p := ne_of_some hp rfl hq
      exact ⟨q, jdx, (hother q hqp).symm ▸ hq, hj⟩
    · exact ⟨p, idx, hself ▸ rfl, hmem⟩

theorem formatted_requests : Requests (s.formatted p c idx) av us := by
  have hself : (s.formatted p c idx).pc p = .publish c idx := update_self ..
  have hother : ∀ q, q ≠ p → (s.formatted p c idx).pc q = s.pc q := fun q hq => update_of_ne hq ..
  have hcall : (s.pc p).call = some c := hp ▸ rfl
  have hserial : ∀ q k, ((s.formatted p c idx).pc q).serial = some k → q ≠ p ∧
    (s.pc q).serial = some k := by
    intro q k hk
    have hqp : q ≠ p := ne_of_some hself rfl hk
    rw [hother q hqp] at hk
    exact ⟨hqp, hk⟩
  have hr := h.requests
  refine ⟨hr.heads, fun e he => ?_, fun q d jdx hd hq hk => ?_, fun q k hk => ?_,
    fun q d jdx k hd hq hk => ?_, fun q r k hq hk => ?_, fun e he => ⟨?_, fun q d hd hk => ?_⟩,
    hr.returned⟩
  · obtain ⟨q, jdx, hq, hk, hj⟩ := hr.owner e he
    have hqp : q ≠ p := ne_of_some hp rfl hq
    exact ⟨q, jdx, hother q hqp ▸ hq, hother q hqp ▸ hk, hj⟩
  · rcases eq_or_ne q p with rfl | hqp
    · rw [hself] at hd hq
      cases hd
      cases hq
      exact ⟨update_self .., update_self ..⟩
    · rw [hother q hqp] at hq hk
      -- Another process that is about to publish would have the lock.
      exact absurd (h.lock_eq (Pc.holds_of_publish hq hk) (hp ▸ rfl)) hqp
  · exact hr.serial_lt q k (hserial q k hk).2
  · obtain ⟨hqp, hk⟩ := hserial q k hk
    rw [hother q hqp] at hd hq
    show _ ∧ update s.disk c.b true d.b = true ∨ _ ∧ update s.disk c.b true d.b = false ∧ _
    rw [update_of_ne (h.buf_ne hcall hd hqp)]
    exact hr.waits q d jdx k hd hq hk
  · exact hr.serial q r k (hserial q k hq).2 (hserial r k hk).2
  · have hmem : e ∈ s.flight av us := List.mem_append_right _ (List.mem_append_right _ he)
    obtain ⟨q, jdx, hq, -, hj⟩ := hr.owner e hmem
    obtain ⟨d, -, hform⟩ := h.chains.formatted hq
    have hne : e.1 ≠ idx.i0 := by
      intro h0
      have hb := hform.busy e.1 (hj ▸ List.mem_cons_self)
      rw [h0, ht.free idx.i0 List.mem_cons_self] at hb
      exact nomatch hb
    show (update s.info idx.i0 _ e.1).status = 0
    rw [update_of_ne hne]
    exact (hr.done e he).1
  · obtain ⟨hqp, hk⟩ := hserial q e.2 hk
    rw [hother q hqp] at hd
    exact (hr.done e he).2 q d hd hk

theorem Good.alloc : Good (s.formatted p c idx) av us start := by
  have hself : (s.formatted p c idx).pc p = .publish c idx := update_self ..
  have hother : ∀ q, q ≠ p → (s.formatted p c idx).pc q = s.pc q := fun q hq => update_of_ne hq ..
  refine ⟨h.panic, fun q hq => ?_, fun q d hd => ?_, formatted_chains h hp ht, ?_, h.published,
    h.serials, h.used, formatted_requests h hp ht⟩
  · rcases eq_or_ne q p with rfl | hqp
    · exact h.lock q (hp ▸ rfl)
    · rw [hother q hqp] at hq
      exact h.lock q hq
  · rcases eq_or_ne q p with rfl | hqp
    · rw [hself] at hd
      cases hd
      exact h.locked q c (hp ▸ rfl)
    · rw [hother q hqp] at hd
      exact h.locked q d hd
  · exact h.avail.update_end (by simpa using h.av_length) idx.i0

end

end

/-! ## Publishing -/

def State.publishes (s : State Proc Buf) (p : Proc) (c : Call Buf) (idx : Chain) : State Proc Buf :=
  { s with availIdx := s.availIdx + 1, published := s.published + 1 }.setPc p
    (.wait c idx s.published)

section

variable (h : Good s av us start) (hp : s.pc p = .publish c idx)

include h hp

theorem publishes_requests : Requests (s.publishes p c idx) (av ++ [(idx.i0, s.published)]) us := by
  have hself : (s.publishes p c idx).pc p = .wait c idx s.published := update_self ..
  have hother : ∀ q, q ≠ p → (s.publishes p c idx).pc q = s.pc q := fun q hq => update_of_ne hq ..
  have hr := h.requests
  have hidx : (s.pc p).idx = some idx := hp ▸ rfl
  have hperm : ((s.publishes p c idx).flight (av ++ [(idx.i0, s.published)]) us).Perm
      ((idx.i0, s.published) :: s.flight av us) := by
    unfold State.flight
    rw [List.append_assoc]
    exact List.perm_middle
  -- The new request is not on its way yet: its process is the one that is about to publish it.
  have hnot : idx.i0 ∉ (s.flight av us).map Prod.fst := by
    intro hmem
    obtain ⟨e, he, hi⟩ := List.mem_map.mp hmem
    have hk := (hr.owner_eq h.chains he hidx (hi ▸ List.mem_cons_self)).1
    rw [hp] at hk
    exact nomatch hk
  have hnew : ∀ q, (s.pc q).serial ≠ some s.published :=
    fun q hq => lt_irrefl _ (hr.serial_lt q _ hq)
  refine ⟨?_, fun e he => ?_, fun q d jdx hd hq hk => ?_, fun q k hk => ?_,
    fun q d jdx k hd hq hk => ?_, fun q r k hq hk => ?_,
    fun e he => ⟨(hr.done e he).1, fun q d hd hk => ?_⟩, hr.returned⟩
  · exact (hperm.map Prod.fst).nodup_iff.mpr (List.nodup_cons.mpr ⟨hnot, hr.heads⟩)
  · rcases List.mem_cons.mp (hperm.mem_iff.mp he) with rfl | he
    · exact ⟨p, idx, hself ▸ rfl, hself ▸ rfl, rfl⟩
    · obtain ⟨q, jdx, hq, hk, hj⟩ := hr.owner e he
      have hqp : q ≠ p := ne_of_some hp rfl hk
      exact ⟨q, jdx, hother q hqp ▸ hq, hother q hqp ▸ hk, hj⟩
  · rcases eq_or_ne q p with rfl | hqp
    · rw [hself] at hk
      exact nomatch hk
    · rw [hother q hqp] at hq hk
      exact absurd (h.lock_eq (Pc.holds_of_publish hq hk) (hp ▸ rfl)) hqp
  · rcases eq_or_ne q p with rfl | hqp
    · rw [hself] at hk
      cases hk
      exact Nat.lt_succ_self _
    · rw [hother q hqp] at hk
      exact Nat.lt_succ_of_lt (hr.serial_lt q k hk)
  · rw [hperm.mem_iff]
    rcases eq_or_ne q p with rfl | hqp
    · rw [hself] at hk hd hq
      cases hk
      cases hd
      cases hq
      exact .inl ⟨List.mem_cons_self, (hr.publish q c idx (hp ▸ rfl) hidx (hp ▸ rfl)).1⟩
    · rw [hother q hqp] at hk hd hq
      have hne : (jdx.i0, k) ≠ (idx.i0, s.published) := by
        intro he
        exact hnew q ((Prod.mk.inj he).2 ▸ hk)
      rw [List.mem_cons, or_iff_right hne]
      exact hr.waits q d jdx k hd hq hk
  · rcases eq_or_ne q p with rfl | hqp
    · rcases eq_or_ne r q with rfl | hrq
      · rfl
      · rw [hself] at hq
        cases hq
        rw [hother r hrq] at hk
        exact absurd hk (hnew r)
    · rw [hother q hqp] at hq
      rcases eq_or_ne r p with rfl | hrp
      · rw [hself] at hk
        cases hk
        exact absurd hq (hnew q)
      · rw [hother r hrp] at hk
        exact hr.serial q r k hq hk
  · rcases eq_or_ne q p with rfl | hqp
    · rw [hself] at hk
      obtain ⟨r, -, -, hr', -⟩ := hr.owner e (List.mem_append_right _ (List.mem_append_right _ he))
      exact absurd (hr'.trans hk.symm) (hnew r)
    · rw [hother q hqp] at hd hk
      exact (hr.done e he).2 q d hd hk

theorem Good.publish : Good (s.publishes p c idx) (av ++ [(idx.i0, s.published)]) us start := by
  have hsame : ∀ q, ((s.publishes p c idx).pc q).idx = (s.pc q).idx ∧
      ((s.publishes p c idx).pc q).call = (s.pc q).call ∧
      ((s.publishes p c idx).pc q).holds = (s.pc q).holds := by
    intro q
    show (update s.pc p _ q).idx = _ ∧ (update s.pc p _ q).call = _ ∧ (update s.pc p _ q).holds = _
    rcases eq_or_ne q p with rfl | hqp
    · rw [update_self, hp]
      exact ⟨rfl, rfl, rfl⟩
    · rw [update_of_ne hqp]
      exact ⟨rfl, rfl, rfl⟩
  refine ⟨h.panic, fun q hq => ?_, fun q d hd => ?_,
    ⟨fun q d jdx hd hq => ?_, fun q r jdx rdx i hq hr => ?_, fun i hi hb => ?_⟩, ?_, ?_, ?_, h.used,
    publishes_requests h hp⟩
  · exact h.lock q ((hsame q).2.2.symm.trans hq)
  · exact h.locked q d ((hsame q).2.1.symm.trans hd)
  · obtain ⟨h1, h2, h3, h4, h5, h6, h7, h8⟩ :=
      h.chains.form q d jdx ((hsame q).2.1.symm.trans hd) ((hsame q).1.symm.trans hq)
    exact ⟨h1, h2, h3, h4, h5, h6, h7, h8⟩
  · exact h.chains.disjoint q r jdx rdx i ((hsame q).1.symm.trans hq) ((hsame r).1.symm.trans hr)
  · obtain ⟨q, jdx, hq, hmem⟩ := h.chains.owned i hi hb
    exact ⟨q, jdx, (hsame q).1.trans hq, hmem⟩
  · rw [List.map_append]
    exact h.avail.concat (h.requests.publish p c idx (hp ▸ rfl) (hp ▸ rfl) (hp ▸ rfl)).2
  · show s.published + 1 = s.fetched + (av ++ [_]).length
    rw [h.published, List.length_append, List.length_singleton]
    rfl
  · show (av ++ [_]).map Prod.snd = List.range' s.fetched (av ++ [_]).length
    rw [List.map_append, List.length_append, List.length_singleton, List.range'_1_concat, h.serials,
      List.map_singleton, h.published]

end

/-! ## The end of a call -/

def State.finished (s : State Proc Buf) (p : Proc) (c : Call Buf) (idx : Chain) (k : ℕ)
    (desc' : ℕ → Desc Buf) : State Proc Buf :=
  { s with
    info := update s.info idx.i0 { s.info idx.i0 with b := none }
    desc := desc'
    free := update (update (update s.free idx.i0 true) idx.i1 true) idx.i2 true
    lock := none
    log := .returned p k c :: s.log }.setPc p .idle

section

variable {desc' : ℕ → Desc Buf}

theorem finished_free {i : ℕ} (hi : i ∉ idx.toList) :
    (s.finished p c idx k desc').free i = s.free i := by
  obtain ⟨h0, h1, h2⟩ := Chain.ne_of_not_mem hi
  show update (update (update s.free idx.i0 true) idx.i1 true) idx.i2 true i = _
  rw [update_of_ne h2, update_of_ne h1, update_of_ne h0]

theorem Formatted.finished {d : Call Buf} {jdx : Chain} (hd : Formatted s d jdx)
    (hdesc : ∀ i, i ∉ idx.toList → desc' i = s.desc i) (hout : ∀ i ∈ jdx.toList, i ∉ idx.toList) :
    Formatted (s.finished p c idx k desc') d jdx := by
  have hmem0 : jdx.i0 ∈ jdx.toList := List.mem_cons_self
  have hmem1 : jdx.i1 ∈ jdx.toList := List.mem_cons_of_mem _ List.mem_cons_self
  have hmem2 : jdx.i2 ∈ jdx.toList :=
    List.mem_cons_of_mem _ (List.mem_cons_of_mem _ List.mem_cons_self)
  refine ⟨hd.nodup, hd.lt, fun i hi => (finished_free (hout i hi)).trans (hd.busy i hi),
    (hdesc _ (hout _ hmem0)).trans hd.desc0, (hdesc _ (hout _ hmem1)).trans hd.desc1,
    (hdesc _ (hout _ hmem2)).trans hd.desc2, hd.ops, ?_⟩
  show (update s.info idx.i0 _ jdx.i0).b = _
  rw [update_of_ne (Chain.ne_of_not_mem (hout _ hmem0)).1]
  exact hd.info

theorem Good.finish (h : Good s av us start) (hp : s.pc p = .wait c idx k)
    (hdisk : s.disk c.b = false) (hdesc : ∀ i, i ∉ idx.toList → desc' i = s.desc i) :
    Good (s.finished p c idx k desc') av us start := by
  have hself : (s.finished p c idx k desc').pc p = .idle := update_self ..
  have hother : ∀ q, q ≠ p → (s.finished p c idx k desc').pc q = s.pc q :=
    fun q hq => update_of_ne hq ..
  have hidx : (s.pc p).idx = some idx := hp ▸ rfl
  have hr := h.requests
  obtain ⟨hno, -, hdone⟩ := (hr.waits p c idx k (hp ▸ rfl) hidx (hp ▸ rfl)).resolve_left
    fun hfl => absurd (hfl.2.symm.trans hdisk) nofun
  have hne : ∀ q jdx, ((s.finished p c idx k desc').pc q).idx = some jdx → q ≠ p ∧
    (s.pc q).idx = some jdx := by
    intro q jdx hq
    have hqp : q ≠ p := ne_of_some hself rfl hq
    exact ⟨hqp, hother q hqp ▸ hq⟩
  have hserial : ∀ q j, ((s.finished p c idx k desc').pc q).serial = some j →
    (s.pc q).serial = some j := by
    intro q j hq
    have hqp : q ≠ p := ne_of_some hself rfl hq
    exact hother q hqp ▸ hq
  have hcall : ∀ q d, ((s.finished p c idx k desc').pc q).call = some d →
    (s.pc q).call = some d := by
    intro q d hq
    have hqp : q ≠ p := ne_of_some hself rfl hq
    exact hother q hqp ▸ hq
  have howner : ∀ e ∈ s.flight av us, ∀ q jdx, (s.pc q).idx = some jdx →
    (s.pc q).serial = some e.2 →
      jdx.i0 = e.1 → q ≠ p := by
    rintro e he q jdx hq hk hj rfl
    rw [hp] at hq hk
    cases hq
    cases hk
    exact hno (hj ▸ he)
  refine ⟨h.panic, fun q hq => ?_, fun q d hd => h.locked q d (hcall q d hd),
    ⟨fun q d jdx hd hq => ?_, fun q r jdx rdx i hq hr => ?_, fun i hi hb => ?_⟩, h.avail,
    h.published, h.serials, h.used, ⟨hr.heads, fun e he => ?_, fun q d jdx hd hq hk => ?_,
      fun q j hj => hr.serial_lt q j (hserial q j hj),
    fun q d jdx j hd hq hj => ?_,
    fun q r j hq hj => hr.serial q r j (hserial q j hq) (hserial r j hj),
    fun e he => ⟨?_, fun q d hd hk => ?_⟩, fun q j d hmem => ?_⟩⟩
  · rcases eq_or_ne q p with rfl | hqp
    · rw [hself] at hq
      exact nomatch hq
    · rw [hother q hqp] at hq
      exact absurd (h.lock_eq hq (hp ▸ rfl)) hqp
  · obtain ⟨hqp, hq⟩ := hne q jdx hq
    refine (h.chains.form q d jdx (hcall q d hd) hq).finished hdesc fun i hi hi' => ?_
    exact hqp (h.chains.disjoint q p jdx idx i hq hidx hi hi')
  · exact h.chains.disjoint q r jdx rdx i (hne q jdx hq).2 (hne r rdx hr).2
  · have hout : i ∉ idx.toList := by
      intro hmem
      have hfree : ∀ i ∈ idx.toList, (s.finished p c idx k desc').free i = true := by
        obtain ⟨h01, h02, h12⟩ := Chain.ne_of_nodup (h.chains.form p c idx (hp ▸ rfl) hidx).nodup
        show ∀ i ∈ [idx.i0, idx.i1, idx.i2],
          update (update (update s.free idx.i0 true) idx.i1 true) idx.i2 true i = _
        simp [h01, h02, h12]
      exact absurd ((hfree i hmem).symm.trans hb) nofun
    rw [finished_free hout] at hb
    obtain ⟨q, jdx, hq, hmem⟩ := h.chains.owned i hi hb
    have hqp : q ≠ p := by
      rintro rfl
      obtain rfl := Option.some.inj (hq.symm.trans hidx)
      exact hout hmem
    exact ⟨q, jdx, hother q hqp ▸ hq, hmem⟩
  · obtain ⟨q, jdx, hq, hk, hj⟩ := hr.owner e he
    have hqp := howner e he q jdx hq hk hj
    exact ⟨q, jdx, hother q hqp ▸ hq, hother q hqp ▸ hk, hj⟩
  · obtain ⟨hqp, hq⟩ := hne q jdx hq
    rw [hother q hqp] at hk
    exact hr.publish q d jdx (hcall q d hd) hq hk
  · refine (hr.waits q d jdx j (hcall q d hd) (hne q jdx hq).2 (hserial q j hj)).imp_right ?_
    exact fun ⟨h1, h2, h3⟩ => ⟨h1, h2, List.mem_cons_of_mem _ h3⟩
  · show (update s.info idx.i0 _ e.1).status = 0
    rcases eq_or_ne e.1 idx.i0 with h0 | h0
    · rw [h0, update_self, ← h0]
      exact (hr.done e he).1
    · rw [update_of_ne h0]
      exact (hr.done e he).1
  · exact List.mem_cons_of_mem _ ((hr.done e he).2 q d (hcall q d hd) (hserial q e.2 hk))
  · rcases List.mem_cons.mp hmem with he | hmem
    · cases he
      exact List.mem_cons_of_mem _ hdone
    · exact List.mem_cons_of_mem _ (hr.returned q j d hmem)

end

end LazyXv6.Virtio
