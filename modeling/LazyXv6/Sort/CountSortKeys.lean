import LazyXv6.Sort.CountSortCorrect
import LazyXv6.Sort.Timestamp

/-!
# Count sort by id and by timestamp

`get_max_min_values` finds the least and the greatest key of the files. Ids within a range of 100000
and timestamps within 15 days then have indices between 0 and `max_value - min_value`, and the
indices grow with the keys, so grouping by index is sorting by key.
-/

namespace LazyXv6.Sort

open Lib

variable {Ptr : Type} {index : Ptr → ℤ} {buckets n : ℕ} {as : List Ptr} {files junk : ℕ → Ptr}
    {R : Ptr → Ptr → Prop}

/-! ## Sorted by groups -/

theorem mem_group {p : Ptr} {k : ℕ} : p ∈ group index as k ↔ p ∈ as ∧ index p = k := by
  simp [group]

theorem pairwise_countingSort_iff (hin : InRange index buckets as) :
    (countingSort index buckets as).Pairwise R ↔
      (∀ k, (group index as k).Pairwise R) ∧ ∀ a ∈ as, ∀ b ∈ as, index a < index b → R a b := by
  rw [countingSort, List.pairwise_flatMap]
  constructor
  · rintro ⟨hgroup, hcross⟩
    refine ⟨fun k => ?_, fun a ha b hb hlt => ?_⟩
    · by_cases hk : k < buckets
      · exact hgroup k (List.mem_range.mpr hk)
      · have hnil : group index as k = [] := by
          refine List.filter_eq_nil_iff.mpr fun p hp => ?_
          have := hin p hp
          simp only [decide_eq_true_eq]
          omega
        rw [hnil]
        exact .nil
    · obtain ⟨i, hi⟩ := Int.eq_ofNat_of_zero_le (hin a ha).1
      obtain ⟨j, hj⟩ := Int.eq_ofNat_of_zero_le (hin b hb).1
      have hj' := (hin b hb).2
      have hlt' : i < j := by omega
      have hsub : [i, j].Sublist (List.range buckets) := by
        have : [i, j].Sublist (List.range (j + 1)) := by
          rw [List.range_succ]
          exact (List.singleton_sublist.mpr (List.mem_range.mpr hlt')).append (.refl [j])
        exact this.trans (List.range_sublist.mpr (by omega))
      exact (List.pairwise_iff_forall_sublist.mp hcross) hsub a (mem_group.mpr ⟨ha, hi⟩) b
        (mem_group.mpr ⟨hb, hj⟩)
  · rintro ⟨hgroup, hcross⟩
    refine ⟨fun k _ => hgroup k, List.pairwise_lt_range.imp fun {i j} hij a ha b hb => ?_⟩
    obtain ⟨ha, hi⟩ := mem_group.mp ha
    obtain ⟨hb, hj⟩ := mem_group.mp hb
    exact hcross a ha b hb (by omega)

/-- The run has ended with a permutation of the `n` files in the order `R`, and nothing behind
them has changed. -/
def Sorts (R : Ptr → Ptr → Prop) (n : ℕ) (files : ℕ → Ptr) (st : CountState Ptr) : Prop :=
  ∃ files', st = .done files' ∧ (slice files' 0 (n - 1)).Perm (slice files 0 (n - 1)) ∧
    (slice files' 0 (n - 1)).Pairwise R ∧ ∀ i, n ≤ i → files' i = files i

theorem sorts_finish_iff (hn : 1 ≤ n) (has : Interleaves (chunks files 0 (workerSizes n)) as) :
    Sorts R n files (finish index buckets files as) ↔
      InRange index buckets as ∧ (∀ k, (group index as k).Pairwise R) ∧
        ∀ a ∈ as, ∀ b ∈ as, index a < index b → R a b := by
  have hperm := has.perm
  rw [flatten_chunks_workerSizes files hn] at hperm
  unfold finish
  split
  · next hin =>
    have hlen : (countingSort index buckets as).length = n := by
      rw [(countingSort_perm hin).length_eq, hperm.length_eq, length_slice]
      omega
    have hslice : slice (overwrite files 0 (countingSort index buckets as)) 0 (n - 1) =
        countingSort index buckets as := slice_overwrite (by omega)
    rw [← pairwise_countingSort_iff hin]
    constructor
    · rintro ⟨files', he, -, hR, -⟩
      cases he
      exact ⟨hin, hslice ▸ hR⟩
    · rintro ⟨-, hR⟩
      refine ⟨_, rfl, ?_, hslice.symm ▸ hR, fun i hi => overwrite_of_ge (by omega)⟩
      rw [hslice]
      exact (countingSort_perm hin).trans hperm
  · next hin =>
    constructor
    · rintro ⟨_, he, -⟩
      cases he
    · exact fun h => absurd h.1 hin

/-! ## The least and the greatest key -/

/-- `lo` and `hi` are the least and the greatest key of the list. -/
structure Bounds {γ : Type} [LE γ] (key : Ptr → γ) (xs : List Ptr) (lo hi : γ) : Prop where
  lower : ∀ p ∈ xs, lo ≤ key p
  upper : ∀ p ∈ xs, key p ≤ hi
  least : ∃ p ∈ xs, key p = lo
  greatest : ∃ p ∈ xs, key p = hi

section Bounds

variable {γ : Type} [LinearOrder γ] {key : Ptr → γ} {xs : List Ptr} {lo hi : γ}

theorem Bounds.singleton (p : Ptr) : Bounds key [p] (key p) (key p) := by
  constructor <;> simp

theorem Bounds.snoc (h : Bounds key xs lo hi) (p : Ptr) [Decidable (key p < lo)]
    [Decidable (hi < key p)] : Bounds key (xs ++ [p]) (if key p < lo then key p else lo)
    (if hi < key p then key p else hi) := by
  obtain ⟨hl, hu, ⟨q, hq, rfl⟩, ⟨r, hr, rfl⟩⟩ := h
  constructor
  · intro x hx
    rcases List.mem_append.mp hx with hx | hx
    · split
      · next hlt => exact hlt.le.trans (hl x hx)
      · exact hl x hx
    · rw [List.mem_singleton.mp hx]
      split
      · exact le_rfl
      · next hge => exact not_lt.mp hge
  · intro x hx
    rcases List.mem_append.mp hx with hx | hx
    · split
      · next hlt => exact (hu x hx).trans hlt.le
      · exact hu x hx
    · rw [List.mem_singleton.mp hx]
      split
      · exact le_rfl
      · next hge => exact not_lt.mp hge
  · split
    · exact ⟨p, by simp, rfl⟩
    · exact ⟨q, List.mem_append_left _ hq, rfl⟩
  · split
    · exact ⟨p, by simp, rfl⟩
    · exact ⟨r, List.mem_append_left _ hr, rfl⟩

end Bounds

variable {deref : Ptr → File}

theorem slice_zero_cons (files : ℕ → Ptr) (n : ℕ) :
    slice files 0 (n - 1) = files 0 :: slice files 1 (n - 1) := slice_cons (Nat.zero_le _)

theorem scanAll_id (deref : Ptr → File) (files : ℕ → Ptr) (n : ℕ) :
    Bounds (fun p => (deref p).id.toInt) (slice files 0 (n - 1))
      (scanAll deref .id files n).minValue (scanAll deref .id files n).maxValue := by
  rw [slice_zero_cons, scanAll]
  induction slice files 1 (n - 1) using List.reverseRecOn with
  | nil => exact .singleton (files 0)
  | append_singleton xs p ih =>
    rw [List.foldl_append, ← List.cons_append]
    exact ih.snoc p

theorem scanAll_name (deref : Ptr → File) (files : ℕ → Ptr) (n : ℕ) :
    Bounds (fun p => (deref p).name) (slice files 0 (n - 1))
      (scanAll deref .name files n).minFilename (scanAll deref .name files n).maxFilename := by
  rw [slice_zero_cons, scanAll]
  induction slice files 1 (n - 1) using List.reverseRecOn with
  | nil => exact .singleton (files 0)
  | append_singleton xs p ih =>
    rw [List.foldl_append, ← List.cons_append]
    generalize List.foldl _ _ xs = ex at ih ⊢
    simp only [List.foldl_cons, List.foldl_nil, Extremes.scan, strcmp_neg, gt_iff_lt, strcmp_pos]
    exact ih.snoc p

theorem scanAll_timestamp (deref : Ptr → File) (files : ℕ → Ptr) (n : ℕ) :
    Bounds (fun p => (deref p).timestamp) (slice files 0 (n - 1))
      (scanAll deref .timestamp files n).minTimestamp
      (scanAll deref .timestamp files n).maxTimestamp := by
  rw [slice_zero_cons, scanAll]
  induction slice files 1 (n - 1) using List.reverseRecOn with
  | nil => exact .singleton (files 0)
  | append_singleton xs p ih =>
    rw [List.foldl_append, ← List.cons_append]
    generalize List.foldl _ _ xs = ex at ih ⊢
    simp only [List.foldl_cons, List.foldl_nil, Extremes.scan, strcmp_neg, gt_iff_lt, strcmp_pos]
    exact ih.snoc p

/-! ## Ids and timestamps -/

theorem wrap_of_close {x : ℤ} (h1 : -2 ^ 31 ≤ x) (h2 : x < 2 ^ 31) : wrap x = x :=
  Int.bmod_eq_of_le (by omega) (by omega)

theorem index_of_bounds {xs : List Ptr} {value : Ptr → ℤ} {lo hi : ℤ}
    (h : Bounds value xs lo hi) (hclose : ∀ p ∈ xs, ∀ q ∈ xs, value p - value q < 2 ^ 31) :
    InRange (fun p => wrap (value p - lo)) (wrap (hi - lo) + 1).toNat xs ∧
      ∀ p ∈ xs, wrap (value p - lo) = value p - lo := by
  obtain ⟨q, hq, rfl⟩ := h.least
  obtain ⟨r, hr, rfl⟩ := h.greatest
  have hval : ∀ p ∈ xs, wrap (value p - value q) = value p - value q := fun p hp =>
    wrap_of_close (by have := h.lower p hp; omega) (hclose p hp q hq)
  refine ⟨fun p hp => ?_, hval⟩
  have h1 := h.lower p hp
  have h2 := h.upper p hp
  simp only [hval p hp, hval r hr]
  omega

/-- "file", one to four letters, ".txt". -/
def FileName (name : List Char) : Prop :=
  ∃ letters, name = ['f', 'i', 'l', 'e'] ++ letters ++ ['.', 't', 'x', 't'] ∧
    1 ≤ letters.length ∧ letters.length ≤ 4 ∧ ∀ c ∈ letters, c.isAlpha

/-- What the README assumes of the files, by column. -/
def Readme (deref : Ptr → File) (xs : List Ptr) : Column → Prop
  | .name => ∀ p ∈ xs, FileName (deref p).name
  | .id => ∀ p ∈ xs, ∀ q ∈ xs, (deref p).id.toInt - (deref q).id.toInt ≤ 100000
  | .timestamp => ∃ t : Ptr → Timestamp, (∀ p ∈ xs, (deref p).timestamp = (t p).format) ∧
      ∀ p ∈ xs, ∀ q ∈ xs, (t p).seconds ≤ (t q).seconds + 15 * 24 * 60 * 60

/-- `strptime` and `mktime` give a valid timestamp its second count in a time zone of a fixed
offset. -/
def FixedOffset (mktime : List Char → ℤ) : Prop :=
  ∃ offset : ℤ, ∀ t : Timestamp, mktime t.format = t.seconds + offset

theorem index_spec {mktime : List Char → ℤ} (hmk : FixedOffset mktime) {flag : Column}
    (hflag : flag ≠ .name) (files : ℕ → Ptr) (n : ℕ)
    (h : Readme deref (slice files 0 (n - 1)) flag) :
    let ex := getMaxMinValues mktime deref flag files n
    InRange (bucketIndex mktime deref flag ex) ex.buckets (slice files 0 (n - 1)) ∧
      ∀ p ∈ slice files 0 (n - 1), ∀ q ∈ slice files 0 (n - 1),
        bucketIndex mktime deref flag ex p ≤ bucketIndex mktime deref flag ex q →
        KeyLe flag (deref p) (deref q) := by
  cases flag with
  | name => exact absurd rfl hflag
  | id =>
    obtain ⟨hin, hval⟩ := index_of_bounds (scanAll_id deref files n) fun p hp q hq => by
      have := h p hp q hq
      omega
    refine ⟨hin, fun p hp q hq hle => ?_⟩
    simp only [bucketIndex, getMaxMinValues, hval p hp, hval q hq] at hle
    simp only [KeyLe]
    omega
  | timestamp =>
    obtain ⟨t, hts, hclose⟩ := h
    obtain ⟨offset, hoff⟩ := hmk
    have hle : ∀ p ∈ slice files 0 (n - 1), ∀ q ∈ slice files 0 (n - 1), (deref p).timestamp ≤
      (deref q).timestamp ↔
          mktime (deref p).timestamp ≤ mktime (deref q).timestamp := by
      intro p hp q hq
      rw [hts p hp, hts q hq, Timestamp.format_le_iff, hoff, hoff]
      omega
    have hb := scanAll_timestamp deref files n
    obtain ⟨q, hq, hqmin⟩ := hb.least
    obtain ⟨r, hr, hrmax⟩ := hb.greatest
    -- the least and the greatest text have the least and the greatest second count
    have hbounds : Bounds (fun p => mktime (deref p).timestamp) (slice files 0 (n - 1))
        (mktime (deref q).timestamp) (mktime (deref r).timestamp) :=
      ⟨fun p hp => (hle q hq p hp).mp (hqmin ▸ hb.lower p hp),
        fun p hp => (hle p hp r hr).mp (hrmax ▸ hb.upper p hp), ⟨q, hq, rfl⟩, ⟨r, hr, rfl⟩⟩
    obtain ⟨hin, hval⟩ := index_of_bounds hbounds fun p hp q hq => by
      have := hclose p hp q hq
      simp only [hts p hp, hts q hq, hoff]
      omega
    have hzero : wrap 0 = 0 := by decide
    simp only [bucketIndex, getMaxMinValues, convertTimestampToSeconds, Extremes.buckets, ← hqmin,
      ← hrmax, sub_self, hzero, sub_zero, hval r hr] at hin ⊢
    refine ⟨hin, fun p hp p' hp' hpp => ?_⟩
    rw [hval p hp, hval p' hp'] at hpp
    exact strcmp_nonpos.mpr ((hle p hp p' hp').mpr (by omega))

/-- **Parallel count sort sorts by id and by timestamp**, for every order of its workers. -/
theorem count_sort_sorts (mktime : List Char → ℤ) (hmk : FixedOffset mktime) (deref : Ptr → File)
    (flag : Column) (hflag : flag ≠ .name) (files junk : ℕ → Ptr) (n : ℕ) (hn : 1 ≤ n)
    (h : Readme deref (slice files 0 (n - 1)) flag) :
    AlwaysEnds (distributedCountSort mktime deref flag 0 n files junk)
      (Sorts (fun p q => KeyLe flag (deref p) (deref q)) n files) (.initial n files) := by
  obtain ⟨hin, hkey⟩ := index_spec hmk hflag files n h
  refine (alwaysEnds_iff hn).mpr fun as has => ?_
  have hmem : ∀ p, p ∈ as ↔ p ∈ slice files 0 (n - 1) := fun p => by
    rw [has.perm.mem_iff, flatten_chunks_workerSizes files hn]
  refine (sorts_finish_iff hn has).mpr ⟨fun p hp => hin p ((hmem p).mp hp), fun k => ?_,
    fun p hp q hq hlt => hkey p ((hmem p).mp hp) q ((hmem q).mp hq) hlt.le⟩
  refine List.pairwise_iff_forall_sublist.mpr fun {p q} hsub => ?_
  obtain ⟨hp, hpk⟩ := mem_group.mp (hsub.subset List.mem_cons_self)
  obtain ⟨hq, hqk⟩ := mem_group.mp
    (hsub.subset (List.mem_cons_of_mem p (List.mem_singleton_self q)))
  exact hkey p ((hmem p).mp hp) q ((hmem q).mp hq) (hpk.trans hqk.symm).le

/-- Noon of one of the first ten days of 2023. -/
def noon (i : ℕ) : Timestamp :=
  ⟨2023, 1, 10 - i % 10, 12, 0, 0, by decide, by decide, by decide, by omega,
    show 10 - i % 10 ≤ 31 by omega, by decide, by decide, by decide⟩

theorem count_sort_sorts_noon : AlwaysEnds (distributedCountSort (fun s => readSeconds s)
        (fun i => ⟨['f'], 7, (noon i).format⟩) .timestamp 0 11 id id)
      (Sorts (fun p q => KeyLe .timestamp ⟨['f'], 7, (noon p).format⟩ ⟨['f'], 7, (noon q).format⟩)
        11 id) (.initial 11 id) := by
  refine count_sort_sorts _ ⟨0, fun t => ?_⟩ _ .timestamp (by decide) id id 11 (by decide)
    ⟨noon, fun _ _ => rfl, fun p _ q _ => ?_⟩
  · rw [Timestamp.readSeconds_format, add_zero]
  · simp only [Timestamp.seconds, Timestamp.days, noon]
    omega

end LazyXv6.Sort
