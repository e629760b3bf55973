import LazyXv6.Virtio.Model

/-!
# Allocating and freeing descriptors

`alloc3_desc` gives three free descriptors or changes nothing but the contents of free ones;
`free_chain` frees the three descriptors of a formatted chain.
-/

namespace LazyXv6.Virtio

open Lib Function

variable {Proc Buf : Type} [DecidableEq Buf] {s : State Proc Buf}

/-- Some of the processes that wait for descriptors are woken. -/
def WokenFree (pc pc' : Proc → Pc Buf) : Prop :=
  ∀ q, pc' q = pc q ∨ ∃ c, pc q = .sleepFree c ∧ pc' q = .lock c

omit [DecidableEq Buf] in
theorem WokenFree.refl (pc : Proc → Pc Buf) : WokenFree pc pc := fun _ => .inl rfl

omit [DecidableEq Buf] in
theorem WokenFree.trans {pc pc' pc'' : Proc → Pc Buf} (h : WokenFree pc pc')
    (h' : WokenFree pc' pc'') : WokenFree pc pc'' := by
  intro q
  rcases h' q with hq' | ⟨c, hq', hq''⟩
  · rw [hq']
    exact h q
  · rcases h q with hq | ⟨c', -, hq⟩
    · exact .inr ⟨c, hq ▸ hq', hq''⟩
    · exact absurd (hq.symm.trans hq') nofun

theorem wakeup_free0 (s : State Proc Buf) : WokenFree s.pc (s.wakeup .free0).pc := by
  intro q
  show (if (s.pc q).chan = some .free0 then (s.pc q).wake else s.pc q) = _ ∨ _
  cases hq : s.pc q with
  | sleepFree c =>
    refine .inr ⟨c, rfl, ?_⟩
    show (if (s.pc q).chan = some .free0 then (s.pc q).wake else s.pc q) = _
    rw [hq]
    rfl
  | sleepBuf => exact .inl (if_neg nofun)
  | _ => exact .inl rfl

theorem freeDesc_spec {i : ℕ} (hi : i < NUM) (hfree : s.free i = false) :
    ∃ pc', s.freeDesc i = .ok { s with desc := update s.desc i ⟨.null, 0, 0, 0⟩
                                       free := update s.free i true
                                       pc := pc' } ∧ WokenFree s.pc pc' := by
  refine ⟨_, ?_, wakeup_free0 { s with desc := update s.desc i ⟨.null, 0, 0, 0⟩
                                       free := update s.free i true }⟩
  unfold State.freeDesc
  rw [if_neg hi.not_ge, hfree]
  rfl

/-- The descriptors that are not free are as before. -/
def KeepsBusy (s : State Proc Buf) (desc' : ℕ → Desc Buf) : Prop :=
  ∀ i, s.free i = false → desc' i = s.desc i

/-- Free descriptors, all different. -/
structure Takes (s : State Proc Buf) (l : List ℕ) : Prop where
  nodup : l.Nodup
  lt : ∀ i ∈ l, i < NUM
  free : ∀ i ∈ l, s.free i = true

/-- The free descriptors without those in `l`. -/
def without (free : ℕ → Bool) (l : List ℕ) (i : ℕ) : Bool := free i && !decide (i ∈ l)

section

variable {free : ℕ → Bool} {l : List ℕ} {i : ℕ}

theorem without_nil : without free [] = free := by
  funext i
  simp [without]

theorem without_append : update (without free l) i false = without free (l ++ [i]) := by
  funext j
  rcases eq_or_ne j i with rfl | hj
  · simp [without]
  · simp [without, hj]

theorem without_cons (hi : free i = true) (hl : i ∉ l) :
    update (without free (i :: l)) i true = without free l := by
  funext j
  rcases eq_or_ne j i with rfl | hj
  · simp [without, hi, hl]
  · simp [without, hj]

theorem without_eq_false (h : without free l i = false) : free i = false ∨ i ∈ l := by
  unfold without at h
  rcases Bool.and_eq_false_iff.mp h with hf | hl
  · exact .inl hf
  · exact .inr (by simpa using hl)

theorem without_of_false (l : List ℕ) (h : free i = false) : without free l i = false := by
  unfold without
  rw [h]
  rfl

end

theorem rollback_spec {l : List ℕ} (h : Takes s l) :
    ∀ {desc : ℕ → Desc Buf} {pc : Proc → Pc Buf}, KeepsBusy s desc → WokenFree s.pc pc →
    ∃ desc' pc',
      l.foldlM State.freeDesc { s with free := without s.free l, desc := desc, pc := pc } =
        .ok { s with desc := desc', pc := pc' } ∧ KeepsBusy s desc' ∧ WokenFree s.pc pc' := by
  induction l with
  | nil =>
    intro desc pc hdesc hpc
    rw [without_nil]
    exact ⟨desc, pc, rfl, hdesc, hpc⟩
  | cons i l ih =>
    intro desc pc hdesc hpc
    obtain ⟨hi, hl⟩ := List.nodup_cons.mp h.nodup
    have hfree : s.free i = true := h.free i List.mem_cons_self
    obtain ⟨pc₁, hok, hpc₁⟩ :=
      freeDesc_spec (s := { s with free := without s.free (i :: l), desc := desc, pc := pc })
      (h.lt i List.mem_cons_self) (by simp [without])
    have hdesc₁ : KeepsBusy s (update desc i ⟨.null, 0, 0, 0⟩) := by
      intro j hj
      have hji : j ≠ i := by
        rintro rfl
        exact absurd (hfree.symm.trans hj) nofun
      exact (update_of_ne hji ..).trans (hdesc j hj)
    obtain ⟨desc', pc', hrest, hd, hp⟩ :=
      ih ⟨hl, fun j hj => h.lt j (List.mem_cons_of_mem _ hj),
        fun j hj => h.free j (List.mem_cons_of_mem _ hj)⟩ hdesc₁ (hpc.trans hpc₁)
    refine ⟨desc', pc', ?_, hd, hp⟩
    rw [List.foldlM_cons, hok, without_cons hfree hi]
    exact hrest

omit [DecidableEq Buf] in
theorem allocDesc_spec {l : List ℕ} {i : ℕ} {s' : State Proc Buf} (h : Takes s l)
    (ha : { s with free := without s.free l }.allocDesc = some (i, s')) :
    Takes s (l ++ [i]) ∧ s' = { s with free := without s.free (l ++ [i]) } := by
  obtain ⟨j, hj, he⟩ := Option.map_eq_some_iff.mp ha
  cases he
  have hlt := List.mem_range.mp (List.mem_of_find?_eq_some hj)
  have hfound : without s.free l i = true := List.find?_some hj
  obtain ⟨hfree, hl⟩ : s.free i = true ∧ i ∉ l := by simpa [without] using hfound
  refine ⟨⟨?_, ?_, ?_⟩, by rw [← without_append]⟩
  · refine List.nodup_append.mpr ⟨h.nodup, List.pairwise_singleton _ i, fun a ha b hb => ?_⟩
    rintro rfl
    exact hl (List.mem_singleton.mp hb ▸ ha)
  · simpa [or_imp, forall_and] using ⟨h.lt, hlt⟩
  · simpa [or_imp, forall_and] using ⟨h.free, hfree⟩

theorem alloc3Loop_spec : ∀ (n i : ℕ) (idx : ℕ → ℕ), Takes s ((List.range i).map idx) →
    (∃ idx', State.alloc3Loop n i idx { s with free := without s.free ((List.range i).map idx) } =
        .ok (some idx', { s with free := without s.free ((List.range (i + n)).map idx') }) ∧
      Takes s ((List.range (i + n)).map idx')) ∨
    ∃ desc' pc', State.alloc3Loop n i idx { s with free := without s.free ((List.range i).map idx) } =
        .ok (none, { s with desc := desc', pc := pc' }) ∧ KeepsBusy s desc' ∧ WokenFree s.pc pc'
  | 0, i, idx, h => .inl ⟨idx, rfl, h⟩
  | n + 1, i, idx, h => by
    unfold State.alloc3Loop
    cases ha : ({ s with free := without s.free ((List.range i).map idx) } :
      State Proc Buf).allocDesc with
    | none =>
      obtain ⟨desc', pc', hok, hrest⟩ := rollback_spec h (fun _ _ => rfl) (.refl s.pc)
      rw [List.foldlM_map] at hok
      refine .inr ⟨desc', pc', ?_, hrest⟩
      exact congrArg (fun r => r >>= fun s => .ok (none, s)) hok
    | some r =>
      obtain ⟨d, s'⟩ := r
      obtain ⟨htakes, rfl⟩ := allocDesc_spec h ha
      have hidx : (List.range i).map idx ++ [d] = (List.range (i + 1)).map (update idx i d) := by
        rw [List.range_succ, List.map_append, List.map_singleton, update_self]
        congr 1
        refine List.map_congr_left fun j hj => ?_
        rw [update_of_ne (List.mem_range.mp hj).ne]
      rw [hidx] at htakes ⊢
      have hrest := alloc3Loop_spec n (i + 1) (update idx i d) htakes
      rw [show i + 1 + n = i + (n + 1) by omega] at hrest
      exact hrest

/-- `alloc3_desc` takes three free descriptors, or leaves which ones are free as it is. -/
theorem alloc3Desc_spec (s : State Proc Buf) :
    (∃ idx : Chain, s.alloc3Desc = .ok (some idx, { s with free := without s.free idx.toList }) ∧
      Takes s idx.toList) ∨
    ∃ desc' pc', s.alloc3Desc = .ok (none, { s with desc := desc', pc := pc' }) ∧
      KeepsBusy s desc' ∧ WokenFree s.pc pc' := by
  have hs : s = { s with free := without s.free ((List.range 0).map fun _ => 0) } := by
    show s = { s with free := without s.free [] }
    rw [without_nil]
  rcases alloc3Loop_spec (s := s) 3 0 (fun _ => 0) ⟨List.nodup_nil, nofun, nofun⟩ with
    ⟨idx, hok, htakes⟩ | ⟨desc', pc', hok, hrest⟩
  · rw [← hs] at hok
    refine .inl ⟨⟨idx 0, idx 1, idx 2⟩, ?_, htakes⟩
    unfold State.alloc3Desc
    rw [hok]
    rfl
  · rw [← hs] at hok
    refine .inr ⟨desc', pc', ?_, hrest⟩
    unfold State.alloc3Desc
    rw [hok]
    rfl

/-! ## Chains -/

section

variable {idx : Chain}

theorem Chain.ne_of_nodup (h : idx.toList.Nodup) :
    idx.i0 ≠ idx.i1 ∧ idx.i0 ≠ idx.i2 ∧ idx.i1 ≠ idx.i2 := by
  obtain ⟨⟨h01, h02⟩, h12⟩ : (idx.i0 ≠ idx.i1 ∧ idx.i0 ≠ idx.i2) ∧ idx.i1 ≠ idx.i2 := by
    simpa [Chain.toList] using h
  exact ⟨h01, h02, h12⟩

theorem Chain.ne_of_not_mem {i : ℕ} (h : i ∉ idx.toList) :
    i ≠ idx.i0 ∧ i ≠ idx.i1 ∧ i ≠ idx.i2 := by
  simpa [Chain.toList] using h

end

/-- The descriptors of a request are in memory. -/
structure Formatted (s : State Proc Buf) (c : Call Buf) (idx : Chain) : Prop where
  nodup : idx.toList.Nodup
  lt : ∀ i ∈ idx.toList, i < NUM
  busy : ∀ i ∈ idx.toList, s.free i = false
  desc0 : s.desc idx.i0 = State.desc0 idx
  desc1 : s.desc idx.i1 = State.desc1 c idx
  desc2 : s.desc idx.i2 = State.desc2 idx
  ops : s.ops idx.i0 = c.req
  info : (s.info idx.i0).b = some c.b

omit [DecidableEq Buf] in
theorem desc1_next (c : Call Buf) (idx : Chain) :
    (State.desc1 c idx).flags &&& VRING_DESC_F_NEXT ≠ 0 := by
  show ((if c.write then 0 else VRING_DESC_F_WRITE) ||| VRING_DESC_F_NEXT) &&& VRING_DESC_F_NEXT ≠ 0
  cases c.write
  · decide
  · decide

section

variable {i : ℕ} {d : Desc Buf}

theorem freeChain_next (fuel : ℕ) (hi : i < NUM) (hbusy : s.free i = false) (hd : s.desc i = d)
    (hflag : d.flags &&& VRING_DESC_F_NEXT ≠ 0) :
    ∃ pc', State.freeChain (fuel + 1) s i =
        State.freeChain fuel { s with desc := update s.desc i ⟨.null, 0, 0, 0⟩
                                      free := update s.free i true
                                      pc := pc' } d.next ∧ WokenFree s.pc pc' := by
  obtain ⟨pc', hok, hpc⟩ := freeDesc_spec hi hbusy
  refine ⟨pc', ?_, hpc⟩
  rw [State.freeChain, hok, hd]
  exact if_pos hflag

theorem freeChain_last (fuel : ℕ) (hi : i < NUM) (hbusy : s.free i = false) (hd : s.desc i = d)
    (hflag : d.flags &&& VRING_DESC_F_NEXT = 0) :
    ∃ pc', State.freeChain (fuel + 1) s i = .ok { s with desc := update s.desc i ⟨.null, 0, 0, 0⟩
                                                         free := update s.free i true
                                                         pc := pc' } ∧ WokenFree s.pc pc' := by
  obtain ⟨pc', hok, hpc⟩ := freeDesc_spec hi hbusy
  refine ⟨pc', ?_, hpc⟩
  rw [State.freeChain, hok, hd]
  exact if_neg (not_not.mpr hflag)

end

/-- `free_chain` frees the chain of a request. -/
theorem freeChain_spec {c : Call Buf} {idx : Chain} (h : Formatted s c idx) (info : ℕ → Info Buf) :
    ∃ desc' pc', State.freeChain (NUM + 1) { s with info := info } idx.i0 =
        .ok { s with info := info
                     desc := desc'
                     free := update (update (update s.free idx.i0 true) idx.i1 true) idx.i2 true
                     pc := pc' } ∧
      (∀ i, i ∉ idx.toList → desc' i = s.desc i) ∧ WokenFree s.pc pc' := by
  obtain ⟨h01, h02, h12⟩ := Chain.ne_of_nodup h.nodup
  obtain ⟨hlt0, hlt1, hlt2⟩ : idx.i0 < NUM ∧ idx.i1 < NUM ∧ idx.i2 < NUM := by
    simpa [Chain.toList] using h.lt
  obtain ⟨hb0, hb1, hb2⟩ : s.free idx.i0 = false ∧ s.free idx.i1 = false ∧
    s.free idx.i2 = false := by
    simpa [Chain.toList] using h.busy
  obtain ⟨pc₀, hok₀, hpc₀⟩ := freeChain_next (s := { s with info := info }) NUM hlt0 hb0 h.desc0
    (show VRING_DESC_F_NEXT &&& VRING_DESC_F_NEXT ≠ 0 by decide)
  obtain ⟨pc₁, hok₁, hpc₁⟩ := freeChain_next
    (s := { s with info := info
                   desc := update s.desc idx.i0 ⟨.null, 0, 0, 0⟩
                   free := update s.free idx.i0 true
                   pc := pc₀ }) 7 hlt1
    ((update_of_ne h01.symm ..).trans hb1) ((update_of_ne h01.symm ..).trans h.desc1) (desc1_next c idx)
  obtain ⟨pc₂, hok₂, hpc₂⟩ := freeChain_last
    (s := { s with info := info
                   desc := update (update s.desc idx.i0 ⟨.null, 0, 0, 0⟩) idx.i1 ⟨.null, 0, 0, 0⟩
                   free := update (update s.free idx.i0 true) idx.i1 true
                   pc := pc₁ }) 6 hlt2
    (((update_of_ne h12.symm ..).trans (update_of_ne h02.symm ..)).trans hb2)
    (((update_of_ne h12.symm ..).trans (update_of_ne h02.symm ..)).trans h.desc2)
    (show VRING_DESC_F_WRITE &&& VRING_DESC_F_NEXT = 0 by decide)
  refine ⟨_, pc₂, (hok₀.trans hok₁).trans hok₂, fun i hi => ?_, (hpc₀.trans hpc₁).trans hpc₂⟩
  obtain ⟨hi0, hi1, hi2⟩ := Chain.ne_of_not_mem hi
  show update (update (update s.desc idx.i0 _) idx.i1 _) idx.i2 _ i = _
  rw [update_of_ne hi2, update_of_ne hi1, update_of_ne hi0]

end LazyXv6.Virtio
