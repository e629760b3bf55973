import LazyXv6.Sort.MergeSort

/-!
# The tree of `merge_sort` threads sorts

`Ends t files ys n`: whatever the order of its threads, the tree `t` leaves `ys` in its range of
`files`, and it takes `n` steps. The predicate depends on the tree's own range of `files` only, so a
step of one thread keeps it for every other (`Ends.congr`), and it keeps it for itself with one step
fewer (`Ends.step`).
-/

namespace LazyXv6.Sort

open Function Lib

variable {Ptr : Type} {q : Qsort Ptr} {deref : Ptr → File} {sortColumnFlag sortWay : Column}
  {maxLevel : ℤ} {files files' : ℕ → Ptr} {s e : ℕ} {level : ℤ}

/-! ## `merge` -/

theorem mergeLe_iff {p r : Ptr} :
    mergeLe deref sortWay p r ↔ KeyLe sortWay (deref p) (deref r) := by
  cases sortWay <;> simp [mergeLe, KeyLe, Int32.le_iff_toInt_le]

theorem mergeIter_cases (deref : Ptr → File) (sortWay : Column) (files : ℕ → Ptr)
    (e1 e2 s1 s2 : ℕ) : (mergeIter deref sortWay files e1 e2 s1 s2 = none ∧ e1 < s1 ∧ e2 < s2) ∨
    (mergeIter deref sortWay files e1 e2 s1 s2 = some (s1 + 1, s2, files s1) ∧ s1 ≤ e1 ∧
      List.merge (slice files s1 e1) (slice files s2 e2) (mergeLe deref sortWay) =
        files s1 :: List.merge (slice files (s1 + 1) e1) (slice files s2 e2) (mergeLe deref sortWay)) ∨
    (mergeIter deref sortWay files e1 e2 s1 s2 = some (s1, s2 + 1, files s2) ∧ s2 ≤ e2 ∧
      List.merge (slice files s1 e1) (slice files s2 e2) (mergeLe deref sortWay) =
        files s2 :: List.merge (slice files s1 e1) (slice files (s2 + 1) e2)
        (mergeLe deref sortWay)) := by
  by_cases h1 : s1 ≤ e1 <;> by_cases h2 : s2 ≤ e2
  · simp only [mergeIter, h1, h2, and_self, if_true]
    rw [slice_cons h1, slice_cons h2]
    by_cases hle : mergeLe deref sortWay (files s1) (files s2)
    · exact .inr (.inl ⟨if_pos hle, trivial, List.cons_merge_cons_pos _ _ _ hle⟩)
    · exact .inr (.inr ⟨if_neg hle, trivial, List.cons_merge_cons_neg _ _ _ hle⟩)
  · refine .inr (.inl ⟨by simp [mergeIter, h1, h2], h1, ?_⟩)
    rw [slice_eq_nil (not_le.mp h2), List.merge_right, List.merge_right, slice_cons h1]
  · refine .inr (.inr ⟨by simp [mergeIter, h1, h2], h2, ?_⟩)
    rw [slice_eq_nil (not_le.mp h1), List.nil_merge, List.nil_merge, slice_cons h2]
  · exact .inl ⟨by simp [mergeIter, h1, h2], not_le.mp h1, not_le.mp h2⟩

theorem mergeLoop_eq {e1 e2 fuel s1 s2 : ℕ} (h : e1 + 1 - s1 + (e2 + 1 - s2) ≤ fuel) :
    mergeLoop deref sortWay files e1 e2 fuel s1 s2 =
      List.merge (slice files s1 e1) (slice files s2 e2) (mergeLe deref sortWay) := by
  induction fuel generalizing s1 s2 with
  | zero =>
    rw [slice_eq_nil (show e1 < s1 by omega), slice_eq_nil (show e2 < s2 by omega)]
    simp [mergeLoop]
  | succ fuel ih =>
    rcases mergeIter_cases deref sortWay files e1 e2 s1 s2 with ⟨he, h1, h2⟩ | ⟨he, h1, hm⟩ |
      ⟨he, h1, hm⟩
    · simp [mergeLoop, he, slice_eq_nil h1, slice_eq_nil h2]
    · rw [hm, mergeLoop, he]
      exact congrArg _ (ih (by omega))
    · rw [hm, mergeLoop, he]
      exact congrArg _ (ih (by omega))

theorem slice_merge (h : s < e) : slice (merge deref sortWay s e files) s e =
      List.merge (slice files s ((s + e) / 2)) (slice files ((s + e) / 2 + 1) e)
      (mergeLe deref sortWay) := by
  have hfuel : (s + e) / 2 + 1 - s + (e + 1 - ((s + e) / 2 + 1)) ≤ e + 1 - s := by omega
  rw [merge, mergeLoop_eq hfuel]
  exact slice_overwrite (by simp; omega)

theorem merge_other (h : s < e) {i : ℕ} (hi : i < s ∨ e < i) :
    merge deref sortWay s e files i = files i := by
  have hfuel : (s + e) / 2 + 1 - s + (e + 1 - ((s + e) / 2 + 1)) ≤ e + 1 - s := by omega
  rw [merge, mergeLoop_eq hfuel]
  rcases hi with hi | hi
  · exact overwrite_of_lt hi
  · exact overwrite_of_ge (by simp; omega)

def Sorted (deref : Ptr → File) (c : Column) (xs : List Ptr) : Prop :=
  xs.Pairwise fun a b => KeyLe c (deref a) (deref b)

theorem Sorted.merge {xs ys : List Ptr} (hx : Sorted deref sortWay xs)
    (hy : Sorted deref sortWay ys) :
    Sorted deref sortWay (List.merge xs ys (mergeLe deref sortWay)) := by
  have hmerge : (List.merge xs ys (mergeLe deref sortWay)).Pairwise
      fun a b => mergeLe deref sortWay a b = true := by
    refine List.pairwise_merge (fun a b c h h' => ?_) (fun a b => ?_) xs ys
      (hx.imp mergeLe_iff.mpr) (hy.imp mergeLe_iff.mpr)
    · exact mergeLe_iff.mpr ((mergeLe_iff.mp h).trans (mergeLe_iff.mp h'))
    · rw [Bool.or_eq_true, mergeLe_iff, mergeLe_iff]
      exact KeyLe.total _ _ _
  exact hmerge.imp mergeLe_iff.mp

/-- **`merge_sort_non_distributed` sorts its range and touches nothing else.** -/
theorem mergeSortNonDistributed_sorts (deref : Ptr → File) (sortWay : Column) (h : s ≤ e)
    (files : ℕ → Ptr) : (slice (mergeSortNonDistributed deref sortWay s e files) s e).Perm
    (slice files s e) ∧ Sorted deref sortWay
    (slice (mergeSortNonDistributed deref sortWay s e files) s e) ∧
    ∀ i, i < s ∨ e < i → mergeSortNonDistributed deref sortWay s e files i = files i := by
  induction hn : e - s using Nat.strong_induction_on generalizing s e files with
  | _ n ih =>
    rw [mergeSortNonDistributed]
    split
    · next hle =>
      obtain rfl : s = e := by omega
      refine ⟨.refl _, ?_, fun _ _ => rfl⟩
      rw [slice_self]
      exact List.pairwise_singleton _ _
    · next hlt =>
      have hse : s < e := by omega
      dsimp only
      obtain ⟨hp1, hs1, hf1⟩ := ih ((s + e) / 2 - s) (by omega) (by omega) files rfl
      generalize mergeSortNonDistributed deref sortWay s ((s + e) / 2) files = files₁ at *
      obtain ⟨hp2, hs2, hf2⟩ := ih (e - ((s + e) / 2 + 1)) (by omega) (by omega) files₁ rfl
      generalize mergeSortNonDistributed deref sortWay ((s + e) / 2 + 1) e files₁ = files₂ at *
      -- the second call leaves the first half, the first one has left the second half
      have hl : slice files₂ s ((s + e) / 2) = slice files₁ s ((s + e) / 2) :=
        slice_congr fun i _ _ => hf2 i (by omega)
      have hr : slice files₁ ((s + e) / 2 + 1) e = slice files ((s + e) / 2 + 1) e :=
        slice_congr fun i _ _ => hf1 i (by omega)
      simp only [slice_merge hse]
      refine ⟨?_, Sorted.merge (hl ▸ hs1) hs2, fun i hi => ?_⟩
      · have hsplit := slice_append (a := files) (show s ≤ (s + e) / 2 + 1 by omega)
          (show (s + e) / 2 ≤ e by omega)
        rw [← hsplit, hl, ← hr]
        exact (List.merge_perm_append _).trans (hp1.append hp2)
      · rw [merge_other hse hi, hf2 i (by omega), hf1 i (by omega)]

/-! ## What a tree of threads leaves -/

def Thread.range {Local : Type} : Thread Ptr Local → ℕ × ℕ
  | .start s e _ | .join _ _ s e | .merging s e _ _ _ | .copying s e _ _ | .sorting s e _
  | .done s e => (s, e)

section Ends

variable (q deref sortColumnFlag sortWay maxLevel)

/-- The tree leaves `ys` in its range after `n` steps, in whatever order its threads run. -/
inductive Ends : Thread Ptr q.Local → (ℕ → Ptr) → List Ptr → ℕ → Prop where
  | single {files : ℕ → Ptr} {s : ℕ} {level : ℤ} : Ends (.start s s level) files [files s] 1
  | leaf {files : ℕ → Ptr} {s e n : ℕ} {level : ℤ} {ys : List Ptr} (hse : s < e)
      (hl : ¬level < maxLevel)
      (hq : Stores (q.next (comparator deref sortColumnFlag)) q.entry (slice files s e) ys n) :
      Ends (.start s e level) files ys (n + 2)
  | fork {files : ℕ → Ptr} {s e m n : ℕ} {level : ℤ} {ys zs : List Ptr} (hse : s < e)
      (hl : level < maxLevel) (hy : Ends (.start s ((s + e) / 2) (level + 1)) files ys m)
      (hz : Ends (.start ((s + e) / 2 + 1) e (level + 1)) files zs n) :
      Ends (.start s e level) files (List.merge ys zs (mergeLe deref sortWay))
      (m + n + 2 * (e + 1 - s) + 4)
  | join {files : ℕ → Ptr} {l r : Thread Ptr q.Local} {s e m n : ℕ} {ys zs : List Ptr} (hse : s < e)
      (hlr : l.range = (s, (s + e) / 2)) (hrr : r.range = ((s + e) / 2 + 1, e))
      (hy : Ends l files ys m) (hz : Ends r files zs n) :
      Ends (.join l r s e) files (List.merge ys zs (mergeLe deref sortWay))
      (m + n + 2 * (e + 1 - s) + 3)
  | merging {files : ℕ → Ptr} {s e s1 s2 : ℕ} {temp ys : List Ptr}
      (hs1 : s ≤ s1) (h1 : s1 ≤ (s + e) / 2 + 1) (hs2 : s ≤ s2) (h2 : s2 ≤ e + 1)
      (hys : ys = temp ++ List.merge (slice files s1 ((s + e) / 2)) (slice files s2 e)
      (mergeLe deref sortWay)) (hlen : ys.length = e + 1 - s) :
      Ends (.merging s e s1 s2 temp) files ys ((s + e) / 2 + 1 - s1 + (e + 1 - s2) + (e + 1 - s) + 2)
  | copying {files : ℕ → Ptr} {s e i : ℕ} {ys : List Ptr} (hs : s ≤ i) (hi : i ≤ e + 1)
      (hlen : ys.length = e + 1 - s) (hys : ∀ j, s ≤ j → j < i → ys[j - s]? = some (files j)) :
      Ends (.copying s e i ys) files ys (e + 1 - i + 1)
  | sorting {files : ℕ → Ptr} {s e n : ℕ} {l : q.Local} {ys : List Ptr}
      (hq : Stores (q.next (comparator deref sortColumnFlag)) l (slice files s e) ys n) :
      Ends (.sorting s e l) files ys (n + 1)
  | done {files : ℕ → Ptr} {s e : ℕ} : Ends (.done s e) files (slice files s e) 0

end Ends

variable {t t' : Thread Ptr q.Local} {ys : List Ptr} {n : ℕ}

theorem Ends.congr (h : Ends q deref sortColumnFlag sortWay maxLevel t files ys n)
    (hf : ∀ i, t.range.1 ≤ i → i ≤ t.range.2 → files i = files' i) :
    Ends q deref sortColumnFlag sortWay maxLevel t files' ys n := by
  induction h with simp only [Thread.range] at hf
  | single =>
    rw [hf _ (Nat.le_refl _) (Nat.le_refl _)]
    exact .single
  | leaf hse hl hq => exact .leaf hse hl (slice_congr hf ▸ hq)
  | fork hse hl _ _ ihy ihz =>
    simp only [Thread.range] at ihy ihz
    refine .fork hse hl (ihy fun i h1 h2 => hf i h1 ?_) (ihz fun i h1 h2 => hf i ?_ h2) <;> omega
  | join hse hlr hrr _ _ ihy ihz =>
    rw [hlr] at ihy
    rw [hrr] at ihz
    refine .join hse hlr hrr (ihy fun i h1 h2 => hf i h1 ?_) (ihz fun i h1 h2 => hf i ?_ h2)
    · dsimp only at h2; omega
    · dsimp only at h1; omega
  | merging hs1 h1 hs2 h2 hys hlen =>
    refine .merging hs1 h1 hs2 h2 ?_ hlen
    rw [hys, slice_congr fun i h3 h4 => hf i (hs1.trans h3) (by omega),
      slice_congr fun i h3 h4 => hf i (hs2.trans h3) h4]
  | copying hs hi hlen hys =>
    refine .copying hs hi hlen fun j h1 h2 => ?_
    rw [hys j h1 h2, hf j h1 (by omega)]
  | sorting hq => exact .sorting (slice_congr hf ▸ hq)
  | done =>
    rw [slice_congr hf]
    exact .done

theorem Thread.step_join_nil {l r : Thread Ptr q.Local}
    (hs : (Thread.join l r s e).step deref sortColumnFlag sortWay maxLevel files
      [] = some (t', files')) : ∃ s₁ e₁ s₂ e₂, l = .done s₁ e₁ ∧ r = .done s₂ e₂ ∧
    t' = .merging s e s ((s + e) / 2 + 1) [] ∧ files' = files := by
  cases l <;> cases r <;> simp only [Thread.step, reduceCtorEq] at hs
  cases hs
  exact ⟨_, _, _, _, rfl, rfl, rfl, rfl⟩

/-- **One step of any thread** keeps what the tree leaves, takes one step off the count, and stays
inside the tree's range. -/
theorem Ends.step (h : Ends q deref sortColumnFlag sortWay maxLevel t files ys n) {path : List Bool}
    (hs : t.step deref sortColumnFlag sortWay maxLevel files path = some (t', files')) :
    (∃ k, n = k + 1 ∧ Ends q deref sortColumnFlag sortWay maxLevel t' files' ys k) ∧
      t'.range = t.range ∧ ∀ i, i < t.range.1 ∨ t.range.2 < i → files' i = files i := by
  induction h generalizing path t' files' with
  | @single files s level =>
    cases path with
    | cons _ _ => simp [Thread.step] at hs
    | nil =>
      simp only [Thread.step, if_true, Option.some.injEq, Prod.mk.injEq] at hs
      obtain ⟨rfl, rfl⟩ := hs
      refine ⟨⟨0, rfl, ?_⟩, rfl, fun _ _ => rfl⟩
      rw [← slice_self]
      exact .done
  | @leaf files s e n level ys hse hl hq =>
    cases path with
    | cons _ _ => simp [Thread.step] at hs
    | nil =>
      simp only [Thread.step, if_neg hse.ne, if_neg hl, Option.some.injEq, Prod.mk.injEq] at hs
      obtain ⟨rfl, rfl⟩ := hs
      exact ⟨⟨n + 1, rfl, .sorting hq⟩, rfl, fun _ _ => rfl⟩
  | @fork files s e m n level ys zs hse hl hy hz _ _ =>
    cases path with
    | cons _ _ => simp [Thread.step] at hs
    | nil =>
      simp only [Thread.step, if_neg hse.ne, if_pos hl, Option.some.injEq, Prod.mk.injEq] at hs
      obtain ⟨rfl, rfl⟩ := hs
      exact ⟨⟨_, rfl, .join hse rfl rfl hy hz⟩, rfl, fun _ _ => rfl⟩
  | @join files l r s e m n ys zs hse hlr hrr hy hz ihy ihz =>
    rcases path with _ | ⟨_ | _, path⟩
    · obtain ⟨_, _, _, _, rfl, rfl, rfl, rfl⟩ := Thread.step_join_nil hs
      cases hlr
      cases hrr
      cases hy
      cases hz
      refine ⟨⟨_, ?_, .merging (Nat.le_refl s) (by omega) (by omega) (by omega)
        (List.nil_append _).symm (by simp; omega)⟩, rfl, fun _ _ => rfl⟩
      omega
    · simp only [Thread.step, Option.map_eq_some_iff, Prod.mk.injEq] at hs
      obtain ⟨⟨l', f⟩, hl, rfl, rfl⟩ := hs
      obtain ⟨⟨k, rfl, hk⟩, hr, hf⟩ := ihy hl
      rw [hlr] at hf
      refine ⟨⟨k + n + 2 * (e + 1 - s) + 3, by omega, .join hse (hr.trans hlr) hrr hk
        (hz.congr fun i h1 _ => (hf i (.inr ?_)).symm)⟩, rfl, fun i hi => hf i ?_⟩
      · rw [hrr] at h1; exact h1
      · simp only [Thread.range] at hi; dsimp only; omega
    · simp only [Thread.step, Option.map_eq_some_iff, Prod.mk.injEq] at hs
      obtain ⟨⟨r', f⟩, hr, rfl, rfl⟩ := hs
      obtain ⟨⟨k, rfl, hk⟩, hr', hf⟩ := ihz hr
      rw [hrr] at hf
      refine ⟨⟨m + k + 2 * (e + 1 - s) + 3, by omega, .join hse hlr (hr'.trans hrr)
        (hy.congr fun i _ h2 => (hf i (.inl ?_)).symm) hk⟩, rfl, fun i hi => hf i ?_⟩
      · rw [hlr] at h2; dsimp only at *; omega
      · simp only [Thread.range] at hi; dsimp only; omega
  | @merging files s e s1 s2 temp ys hs1 h1 hs2 h2 hys hlen =>
    cases path with
    | cons _ _ => simp [Thread.step] at hs
    | nil =>
      rcases mergeIter_cases deref sortWay files ((s + e) / 2) e s1 s2 with ⟨he, h3, h4⟩ |
        ⟨he, h3, hm⟩ | ⟨he, h3, hm⟩
      all_goals
        simp only [Thread.step, he, Option.some.injEq, Prod.mk.injEq] at hs
        obtain ⟨rfl, rfl⟩ := hs
      · rw [slice_eq_nil h3, slice_eq_nil h4, List.nil_merge, List.append_nil] at hys
        subst hys
        refine ⟨⟨_, ?_, .copying (Nat.le_refl s) (by omega) hlen fun j h5 h6 => by omega⟩, rfl,
          fun _ _ => rfl⟩
        omega
      · refine ⟨⟨_, ?_, .merging (by omega) (by omega) hs2 h2 ?_ hlen⟩, rfl, fun _ _ => rfl⟩
        · omega
        · rw [hys, hm, List.append_assoc, List.singleton_append]
      · refine ⟨⟨_, ?_, .merging hs1 h1 (by omega) (by omega) ?_ hlen⟩, rfl, fun _ _ => rfl⟩
        · omega
        · rw [hys, hm, List.append_assoc, List.singleton_append]
  | @copying files s e i ys hsi hi hlen hys =>
    cases path with
    | cons _ _ => simp [Thread.step] at hs
    | nil =>
      by_cases hie : i ≤ e
      · have hlt : i - s < ys.length := by omega
        simp only [Thread.step, if_pos hie, List.getElem?_eq_getElem hlt, Option.map_some,
          Option.some.injEq, Prod.mk.injEq] at hs
        obtain ⟨rfl, rfl⟩ := hs
        refine ⟨⟨e + 1 - (i + 1) + 1, by omega, .copying (by omega) (by omega) hlen
          fun j h1 h2 => ?_⟩, rfl, fun j hj => update_of_ne ?_ _ _⟩
        · rcases Nat.lt_or_eq_of_le (Nat.lt_succ_iff.mp h2) with hji | rfl
          · rw [update_of_ne hji.ne, hys j h1 hji]
          · rw [update_self, List.getElem?_eq_getElem hlt]
        · simp only [Thread.range] at hj; omega
      · simp only [Thread.step, if_neg hie, Option.some.injEq, Prod.mk.injEq] at hs
        obtain ⟨rfl, rfl⟩ := hs
        refine ⟨⟨0, by omega, ?_⟩, rfl, fun _ _ => rfl⟩
        have hslice : slice files s e = ys := by
          refine List.ext_getElem (by simp [hlen]) fun j h1 h2 => ?_
          have := hys (s + j) (by omega) (by omega)
          rw [Nat.add_sub_cancel_left, List.getElem?_eq_getElem h2, Option.some.injEq] at this
          rw [getElem_slice, this]
        exact hslice ▸ .done
  | @sorting files s e n l ys hq =>
    cases path with
    | cons _ _ => simp [Thread.step] at hs
    | nil =>
      simp only [Thread.step] at hs
      cases hq with
      | ret hret =>
        rw [hret] at hs
        cases hs
        exact ⟨⟨0, rfl, .done⟩, rfl, fun _ _ => rfl⟩
      | @store _ l' _ _ k n p hstore hrest =>
        rw [hstore] at hs
        cases hs
        have hk := q.inRange hstore
        rw [length_slice] at hk
        rw [← slice_update] at hrest
        refine ⟨⟨n + 1, rfl, .sorting hrest⟩, rfl, fun i hi => update_of_ne ?_ _ _⟩
        simp only [Thread.range] at hi
        omega
  | done => cases path <;> simp [Thread.step] at hs

theorem Ends.done_of_stuck (h : Ends q deref sortColumnFlag sortWay maxLevel t files ys n)
    (hstuck : ∀ path, t.step deref sortColumnFlag sortWay maxLevel files path = none) :
    t = .done t.range.1 t.range.2 ∧ ys = slice files t.range.1 t.range.2 := by
  induction h with
  | single => simpa [Thread.step] using hstuck []
  | leaf hse hl | fork hse hl => simpa [Thread.step, hse.ne, hl] using hstuck []
  | join _ _ _ _ _ ihy ihz =>
    have hl := (ihy fun path => by simpa [Thread.step] using hstuck (false :: path)).1
    have hr := (ihz fun path => by simpa [Thread.step] using hstuck (true :: path)).1
    have := hstuck []
    rw [hl, hr] at this
    simp [Thread.step] at this
  | @merging files s e s1 s2 =>
    have := hstuck []
    rcases mergeIter_cases deref sortWay files ((s + e) / 2) e s1 s2 with ⟨he, -⟩ | ⟨he, -⟩ | ⟨he, -⟩
    all_goals simp [Thread.step, he] at this
  | @copying files s e i ys _ _ hlen _ =>
    have := hstuck []
    by_cases hie : i ≤ e
    · simp [Thread.step, hie] at this
      omega
    · simp [Thread.step, hie] at this
  | @sorting files s e _ l _ _ =>
    have := hstuck []
    cases hq : q.next (comparator deref sortColumnFlag) l (slice files s e) with
    | none | some => simp [Thread.step, hq] at this
  | done => exact ⟨rfl, rfl⟩

/-- **Every interleaving ends with the list the tree leaves**, and with the rest of the array as it
was. -/
theorem Ends.alwaysEnds (h : Ends q deref sortColumnFlag sortWay maxLevel t files ys n) :
    AlwaysEnds (State.step deref sortColumnFlag sortWay maxLevel) (fun st =>
      st.thread = .done t.range.1 t.range.2 ∧ slice st.files t.range.1 t.range.2 = ys ∧
      ∀ i, i < t.range.1 ∨ t.range.2 < i → st.files i = files i) ⟨t, files⟩ := by
  refine alwaysEnds_of_measure
    (M := fun st k => Ends q deref sortColumnFlag sortWay maxLevel st.thread st.files ys k ∧
      st.thread.range = t.range ∧ ∀ i, i < t.range.1 ∨ t.range.2 < i → st.files i = files i)
    (fun st k path st' hM hs => ?_) (fun st k hM hstuck => ?_) ⟨h, rfl, fun _ _ => rfl⟩
  · obtain ⟨hE, hr, hf⟩ := hM
    obtain ⟨⟨t', files'⟩, ht, rfl⟩ := Option.map_eq_some_iff.mp hs
    obtain ⟨⟨j, rfl, hE'⟩, hr', hf'⟩ := hE.step ht
    rw [hr] at hf'
    exact ⟨j, Nat.lt_succ_self j, hE', hr'.trans hr, fun i hi => (hf' i hi).trans (hf i hi)⟩
  · obtain ⟨hE, hr, hf⟩ := hM
    obtain ⟨hd, hys⟩ := hE.done_of_stuck fun path => by simpa [State.step] using hstuck path
    rw [hr] at hd hys
    exact ⟨hd, hys.symm, hf⟩

/-! ## What the list is -/

/-- The ranges that reach `qsort`, with `k` levels of threads left. -/
def leaves : ℕ → ℕ → ℕ → List (ℕ × ℕ)
  | 0, s, e => if s = e then [] else [(s, e)]
  | k + 1, s, e =>
    if s = e then [] else leaves k s ((s + e) / 2) ++ leaves k ((s + e) / 2 + 1) e

theorem leaves_subset {k : ℕ} {r : ℕ × ℕ} (hse : s ≤ e) (h : r ∈ leaves k s e) :
    s ≤ r.1 ∧ r.2 ≤ e := by
  induction k generalizing s e with
  | zero =>
    unfold leaves at h
    split at h
    · cases h
    · rw [List.mem_singleton] at h
      exact h ▸ ⟨Nat.le_refl s, Nat.le_refl e⟩
  | succ k ih =>
    unfold leaves at h
    split at h
    · cases h
    · rcases List.mem_append.mp h with h | h
      · have := ih (by omega) h; omega
      · have := ih (by omega) h; omega

/-- Every range handed to `qsort` is one its comparison function can sort by the key. -/
def LeavesOk (deref : Ptr → File) (c : Column) (files : ℕ → Ptr) (k s e : ℕ) : Prop :=
  c = .id → ∀ r ∈ leaves k s e, ∀ i j, r.1 ≤ i → i ≤ r.2 → r.1 ≤ j → j ≤ r.2 →
    IdsClose (deref (files i)) (deref (files j))

theorem comparator_consistent (deref : Ptr → File) (c : Column) {xs : List Ptr}
    (h : c = .id → ∀ a ∈ xs, ∀ b ∈ xs, IdsClose (deref a) (deref b)) :
    Consistent (comparator deref c) xs ∧
      ∀ a ∈ xs, ∀ b ∈ xs, comparator deref c a b ≤ 0 ↔ KeyLe c (deref a) (deref b) := by
  have hsign : ∀ a ∈ xs, ∀ b ∈ xs, _ := fun a ha b hb =>
    getComparisonFunction_sign (c := c) (a := deref a) (b := deref b) fun hc => h hc a ha b hb
  refine ⟨⟨fun a ha b hb => ?_, fun x hx y hy z hz h1 h2 => ?_⟩,
    fun a ha b hb => (hsign a ha b hb).1⟩
  · exact (hsign a ha b hb).1.trans (hsign b hb a ha).2.symm
  · exact (hsign x hx z hz).1.mpr (((hsign x hx y hy).1.mp h1).trans ((hsign y hy z hz).1.mp h2))

theorem exists_ends (q : Qsort Ptr) (deref : Ptr → File) (c : Column) (maxLevel : ℤ)
    (files : ℕ → Ptr) (hse : s ≤ e) (level : ℤ) :
    ∃ ys n, Ends q deref c c maxLevel (.start s e level) files ys n ∧ ys.Perm (slice files s e) ∧
      (LeavesOk deref c files (maxLevel - level).toNat s e → Sorted deref c ys) := by
  induction hk : (maxLevel - level).toNat generalizing s e level with
  | zero =>
    rcases Nat.eq_or_lt_of_le hse with rfl | hlt
    · exact ⟨_, _, .single, by rw [slice_self], fun _ => List.pairwise_singleton _ _⟩
    · obtain ⟨ys, n, hq, hperm, hsort⟩ := q.returns (comparator deref c) (slice files s e)
      refine ⟨ys, n + 2, .leaf hlt (by omega) hq, hperm, fun hok => ?_⟩
      have hclose : c = .id → ∀ a ∈ slice files s e, ∀ b ∈ slice files s e,
        IdsClose (deref a) (deref b) := by
        intro hc a ha b hb
        obtain ⟨i, h1, h2, rfl⟩ := mem_slice.mp ha
        obtain ⟨j, h3, h4, rfl⟩ := mem_slice.mp hb
        exact hok hc (s, e) (by simp [leaves, hlt.ne]) i j h1 h2 h3 h4
      obtain ⟨hcons, hkey⟩ := comparator_consistent deref c hclose
      refine (hsort hcons).imp_of_mem fun {a b} ha hb hle => ?_
      exact (hkey a (hperm.mem_iff.mp ha) b (hperm.mem_iff.mp hb)).mp hle
  | succ k ih =>
    rcases Nat.eq_or_lt_of_le hse with rfl | hlt
    · exact ⟨_, _, .single, by rw [slice_self], fun _ => List.pairwise_singleton _ _⟩
    · have hk' : (maxLevel - (level + 1)).toNat = k := by omega
      obtain ⟨ys, m, hy, hpy, hsy⟩ := ih (show s ≤ (s + e) / 2 by omega) (level + 1) hk'
      obtain ⟨zs, n, hz, hpz, hsz⟩ := ih (show (s + e) / 2 + 1 ≤ e by omega) (level + 1) hk'
      refine ⟨_, _, .fork hlt (by omega) hy hz, ?_, fun hok => Sorted.merge (hsy ?_) (hsz ?_)⟩
      · have hsplit := slice_append (a := files) (show s ≤ (s + e) / 2 + 1 by omega)
          (show (s + e) / 2 ≤ e by omega)
        rw [← hsplit]
        exact (List.merge_perm_append _).trans (hpy.append hpz)
      · intro hc r hr
        exact hok hc r (by simp [leaves, hlt.ne, hr])
      · intro hc r hr
        exact hok hc r (by simp [leaves, hlt.ne, hr])

/-- **`merge_sort` sorts.** For every array of `n ≥ 1` files, every column (ids less than `2 ^ 31`
apart) and every number of levels, every interleaving of the threads ends, and it leaves a
permutation of the pointers that is sorted by the column's key. -/
theorem merge_sort_sorts (q : Qsort Ptr) (deref : Ptr → File) (c : Column) (maxLevel : ℤ)
    (files : ℕ → Ptr) (n : ℕ) (hn : 1 ≤ n)
    (hid : c = .id → ∀ i j, i < n → j < n → IdsClose (deref (files i)) (deref (files j))) :
    AlwaysEnds (State.step deref c c maxLevel) (fun st =>
      st.thread = .done 0 (n - 1) ∧
      (slice st.files 0 (n - 1)).Perm (slice files 0 (n - 1)) ∧
      (slice st.files 0 (n - 1)).Pairwise (fun a b => KeyLe c (deref a) (deref b)) ∧
      ∀ i, n ≤ i → st.files i = files i) (initial q n files) := by
  obtain ⟨ys, m, hE, hperm, hsort⟩ := exists_ends q deref c maxLevel files (Nat.zero_le (n - 1)) 0
  have hsorted : Sorted deref c ys := hsort fun hc r hr i j _ h2 _ h4 => by
    have := leaves_subset (Nat.zero_le (n - 1)) hr
    exact hid hc i j (by omega) (by omega)
  refine hE.alwaysEnds.mono fun st hst => ?_
  obtain ⟨hd, hys, hf⟩ := hst
  simp only [Thread.range] at hd hys hf
  rw [hys]
  exact ⟨hd, hperm, hsorted, fun i hi => hf i (.inr (by omega))⟩

/-- File `i` has id `9 - i`. -/
def descendingIds (i : ℕ) : File := ⟨['f'], Int32.ofInt (9 - (i % 10 : ℕ)), []⟩

theorem merge_sort_sorts_descendingIds : AlwaysEnds (State.step descendingIds .id .id 2) (fun st =>
      st.thread = .done 0 6 ∧ (slice st.files 0 6).Perm (slice id 0 6) ∧
      (slice st.files 0 6).Pairwise (fun a b => KeyLe .id (descendingIds a) (descendingIds b)) ∧
      ∀ i, 7 ≤ i → st.files i = i) (initial (.ofFun sortBy sortBy_perm sortBy_sorts) 7 id) := by
  refine merge_sort_sorts _ descendingIds .id 2 id 7 (by decide) fun _ i j _ _ => ?_
  have hmod : ∀ m < 10, ∀ n < 10, IdsClose ⟨['f'], Int32.ofInt (9 - (m : ℕ)), []⟩
      ⟨['f'], Int32.ofInt (9 - (n : ℕ)), []⟩ := by decide
  exact hmod _ (Nat.mod_lt i (by decide)) _ (Nat.mod_lt j (by decide))

end LazyXv6.Sort
