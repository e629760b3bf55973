import LazyXv6.Sort.CountSort

/-!
# What parallel count sort leaves

The first round inserts the files in some interleaving `as` of the chunks. Whatever the second round
does, the run then ends in `finish as`: the files grouped by index, the groups in ascending order
and each group in the order of `as` (bucket lists are built in reverse and copied backwards).

The stores of the second round are read as one list, bucket after bucket. `AtPos N curr covered r`
says that the pair `(curr, covered)` of the main thread stands for the rest `r` of that list;
`advance` moves it and `populateOutput` takes stores from its front.
-/

namespace LazyXv6.Sort

open Function Lib

variable {Ptr : Type} {index : Ptr → ℤ} {buckets n : ℕ} {as : List Ptr}

/-! ## The first round -/

/-- The files of index `k`, in the order of insertion. -/
def group (index : Ptr → ℤ) (as : List Ptr) (k : ℕ) : List Ptr :=
  as.filter fun p => index p = k

def InRange (index : Ptr → ℤ) (buckets : ℕ) (as : List Ptr) : Prop :=
  ∀ p ∈ as, 0 ≤ index p ∧ index p < buckets

/-- The buckets after the insertions `as`. -/
def counted (index : Ptr → ℤ) (as : List Ptr) (k : ℕ) : Bucket Ptr :=
  ⟨(group index as k).length, (group index as k).reverse, 0⟩

theorem foldl_insert (h : InRange index buckets as) :
    as.foldl (insert index buckets) (some initGlobalCount) = some (counted index as) := by
  induction as using List.reverseRecOn with
  | nil => rfl
  | append_singleton as p ih =>
    rw [List.foldl_append, ih fun q hq => h q (List.mem_append_left _ hq)]
    have hp := h p (by simp)
    simp only [List.foldl_cons, List.foldl_nil, insert, Option.bind_some, if_pos hp]
    congr 1
    funext k
    obtain ⟨m, hm⟩ := Int.eq_ofNat_of_zero_le hp.1
    rw [hm, Int.toNat_natCast]
    rcases eq_or_ne k m with rfl | hk
    · simp [counted, group, hm]
    · have hk' : ¬((m : ℤ) = k) := by omega
      simp [counted, group, hm, update_of_ne hk, hk']

theorem foldl_insert_none (as : List Ptr) : as.foldl (insert index buckets) none = none := by
  induction as with
  | nil => rfl
  | cons p as ih => exact ih

/-- An index without a bucket makes the round crash, whatever its order. -/
theorem foldl_insert_of_not_inRange (h : ¬InRange index buckets as) (g : ℕ → Bucket Ptr) :
    as.foldl (insert index buckets) (some g) = none := by
  induction as generalizing g with
  | nil => exact absurd (fun p hp => by cases hp) h
  | cons p as ih =>
    by_cases hp : 0 ≤ index p ∧ index p < buckets
    · simp only [List.foldl_cons, insert, Option.bind_some, if_pos hp]
      refine ih (fun has => h fun q hq => ?_) _
      rcases List.mem_cons.mp hq with rfl | hq
      · exact hp
      · exact has q hq
    · simp only [List.foldl_cons, insert, Option.bind_some, if_neg hp]
      exact foldl_insert_none as

/-! ## Between the rounds -/

def summed : ℕ → List (Bucket Ptr) → List (Bucket Ptr)
  | _, [] => []
  | total, b :: bs =>
    ⟨total + b.frequency, b.head, b.frequency⟩ :: summed (total + b.frequency) bs

theorem prefixSums_eq (total : ℕ) (bs : List (Bucket Ptr)) :
    prefixSums bs.length total bs = some (summed total bs) := by
  induction bs generalizing total with
  | nil => rfl
  | cons b bs ih => simp [prefixSums, summed, ih]

/-- The stores of a bucket list, from index `i` down. -/
def stores : List Ptr → ℤ → List (ℤ × Ptr)
  | [], _ => []
  | p :: head, i => (i, p) :: stores head (i - 1)

@[simp] theorem length_stores (head : List Ptr) (i : ℤ) : (stores head i).length = head.length := by
  induction head generalizing i with
  | nil => rfl
  | cons p head ih => simp [stores, ih]

theorem stores_drop (head : List Ptr) (i : ℤ) (k : ℕ) :
    (stores head i).drop k = stores (head.drop k) (i - k) := by
  induction head generalizing i k with
  | nil => simp [stores]
  | cons p head ih =>
    cases k with
    | zero => simp
    | succ k =>
      rw [stores, List.drop_succ_cons, List.drop_succ_cons, ih]
      congr 1
      omega

theorem writeList_eq (head : List Ptr) (m : ℕ) (i : ℤ) :
    writeList head m i = ((stores head i).take m, m - head.length) := by
  induction head generalizing m i with
  | nil => simp [writeList, stores]
  | cons p head ih =>
    cases m with
    | zero => simp [writeList]
    | succ m => simp [writeList, stores, ih]

def allStores (N : List (Bucket Ptr)) : List (ℤ × Ptr) :=
  N.flatMap fun b => stores b.head (b.frequency - 1)

/-- The lists are as long as the sizes say, and not empty. -/
def Sized (N : List (Bucket Ptr)) : Prop := ∀ b ∈ N, b.size = b.head.length ∧ 0 < b.size

/-- The pair of the main thread stands for the stores `r`. -/
structure AtPos (N : List (Bucket Ptr)) (curr covered : ℕ) (r : List (ℤ × Ptr)) : Prop where
  rest : (allStores (N.drop curr)).drop covered = r
  inside : covered = 0 ∨ ∃ b bs, N.drop curr = b :: bs ∧ covered < b.size

variable {N : List (Bucket Ptr)} {curr covered : ℕ} {r : List (ℤ × Ptr)}

theorem allStores_cons {b : Bucket Ptr} {bs : List (Bucket Ptr)} :
    allStores (b :: bs) = stores b.head (b.frequency - 1) ++ allStores bs := rfl

theorem AtPos.eq_nil (h : AtPos N curr covered r) (hL : N.drop curr = []) : r = [] := by
  rw [← h.rest, hL]
  simp [allStores]

theorem AtPos.cons (hN : Sized N) (h : AtPos N curr covered r) {b : Bucket Ptr}
    {bs : List (Bucket Ptr)} (hL : N.drop curr = b :: bs) :
    b.size = b.head.length ∧ covered < b.size ∧ N.drop (curr + 1) = bs ∧
      r = (stores b.head (b.frequency - 1)).drop covered ++ allStores bs := by
  obtain ⟨hsize, hpos⟩ := hN b (List.mem_of_mem_drop (hL ▸ List.mem_cons_self))
  have hcov : covered < b.size := by
    rcases h.inside with rfl | ⟨b', bs', he, hlt⟩
    · exact hpos
    · rw [hL] at he
      cases he
      exact hlt
  refine ⟨hsize, hcov, by rw [← List.drop_drop, hL]; rfl, ?_⟩
  rw [← h.rest, hL, allStores_cons, List.drop_append_of_le_length (by simp; omega)]

theorem advance_spec (hN : Sized N) (h : AtPos N curr covered r) {c : ℕ} (hc : c ≤ r.length) :
    ∃ curr' covered', advance (N.drop curr) c curr covered = some (curr', covered') ∧
      AtPos N curr' covered' (r.drop c) := by
  induction hL : N.drop curr generalizing curr covered r c with
  | nil =>
    obtain rfl := h.eq_nil hL
    obtain rfl : c = 0 := Nat.le_zero.mp hc
    exact ⟨curr, covered, rfl, h⟩
  | cons b bs ih =>
    obtain ⟨hsize, hcov, hbs, hr⟩ := h.cons hN hL
    cases c with
    | zero => exact ⟨curr, covered, rfl, h⟩
    | succ c =>
      unfold advance
      split
      · next hlt =>
        refine ⟨curr, covered + (c + 1), rfl, ?_, .inr ⟨b, bs, hL, by omega⟩⟩
        rw [← h.rest, List.drop_drop]
      · next hge =>
        have hpos : AtPos N (curr + 1) 0 (r.drop (b.size - covered)) := by
          refine ⟨?_, .inl rfl⟩
          rw [hr, hbs, List.drop_zero, List.drop_left']
          simp [hsize]
        obtain ⟨curr', covered', he, hp⟩ := ih hpos (c := c + 1 - (b.size - covered))
          (by rw [List.length_drop]; omega) hbs
        refine ⟨curr', covered', he, ?_⟩
        rwa [List.drop_drop, show b.size - covered + (c + 1 - (b.size - covered)) = c + 1 by omega]
          at hp

theorem populateOutput_spec (hN : Sized N) (h : AtPos N curr covered r) {c : ℕ}
    (hc : c ≤ r.length) : populateOutput (N.drop curr) c covered covered = some (r.take c) := by
  induction hL : N.drop curr generalizing curr covered r c with
  | nil =>
    obtain rfl := h.eq_nil hL
    obtain rfl : c = 0 := Nat.le_zero.mp hc
    simp [populateOutput]
  | cons b bs ih =>
    obtain ⟨hsize, hcov, hbs, hr⟩ := h.cons hN hL
    cases c with
    | zero => simp [populateOutput]
    | succ c =>
      have hpos : AtPos N (curr + 1) 0 (allStores bs) := ⟨by rw [hbs, List.drop_zero], .inl rfl⟩
      have hrest := ih hpos (c := c + 1 - (b.head.length - covered)) (by simp [hr] at hc; omega) hbs
      rw [populateOutput, writeList_eq, ← stores_drop, List.length_drop,
        show covered - b.head.length = 0 by omega]
      simp only [hrest, Option.map_some, Option.some.injEq]
      rw [hr, List.take_append]
      simp

/-- The workers take all stores, each of them once and in their order. -/
theorem processArgs_spec (hN : Sized N) (h : AtPos N curr covered r) {cs : List ℕ}
    (hcs : cs.sum = r.length) : ∃ args todo, processArgs N cs curr covered = some args ∧
      args.mapM (fun arg => populateOutput (N.drop arg.1) arg.2.1 arg.2.2 arg.2.2) = some todo ∧
      todo.flatten = r := by
  induction cs generalizing curr covered r with
  | nil =>
    obtain rfl := List.length_eq_zero_iff.mp hcs.symm
    exact ⟨[], [], rfl, rfl, rfl⟩
  | cons c cs ih =>
    rw [List.sum_cons] at hcs
    have hc : c ≤ r.length := by omega
    obtain ⟨curr', covered', hadv, hpos⟩ := advance_spec hN h hc
    obtain ⟨args, todo, hargs, htodo, hflat⟩ := ih hpos (by rw [List.length_drop]; omega)
    refine ⟨(curr, c, covered) :: args, r.take c :: todo, ?_, ?_, ?_⟩
    · simp [processArgs, hadv, hargs]
    · rw [List.mapM_cons, populateOutput_spec hN h hc, htodo]
      rfl
    · rw [List.flatten_cons, hflat, List.take_append_drop]

/-! ## The sizes of the chunks -/

theorem sum_chunckSizes (baseSize : ℕ) {leftOver k : ℕ} (h : leftOver ≤ k) :
    (chunckSizes baseSize leftOver k).sum = baseSize * k + leftOver := by
  induction k generalizing leftOver with
  | zero => simp [chunckSizes]; omega
  | succ k ih =>
    rw [chunckSizes, List.sum_cons, ih (by omega), Nat.mul_succ]
    split <;> omega

theorem sum_threadSizes (covered : ℕ) (cs : List ℕ) (h : covered + cs.sum = n) :
    covered + (threadSizes n covered cs).sum = n := by
  induction cs generalizing covered with
  | nil => exact h
  | cons c cs ih =>
    rw [List.sum_cons, ← Nat.add_assoc] at h
    rw [threadSizes, List.sum_cons, ← Nat.add_assoc]
    split
    · next he => simpa using he
    · exact ih _ h

theorem sum_workerSizes (n : ℕ) : (workerSizes n).sum = n := by
  have hmod : n % numProcesses < numProcesses := Nat.mod_lt n (by decide)
  have hsum := sum_chunckSizes (n / numProcesses) (Nat.le_of_lt hmod)
  rw [Nat.mul_comm, Nat.div_add_mod] at hsum
  have := sum_threadSizes 0 _ ((Nat.zero_add _).trans hsum)
  rwa [Nat.zero_add] at this

theorem flatten_chunks (files : ℕ → Ptr) (covered : ℕ) (cs : List ℕ) :
    (chunks files covered cs).flatten = (List.range' covered cs.sum).map files := by
  induction cs generalizing covered with
  | nil => rfl
  | cons c cs ih =>
    rw [chunks, List.flatten_cons, ih, ← List.map_append, List.range'_append_1, List.sum_cons]

theorem flatten_chunks_workerSizes (files : ℕ → Ptr) (hn : 1 ≤ n) :
    (chunks files 0 (workerSizes n)).flatten = slice files 0 (n - 1) := by
  rw [flatten_chunks, sum_workerSizes, slice, Nat.sub_zero, Nat.sub_add_cancel hn]

/-! ## The sorted list -/

def countingSort (index : Ptr → ℤ) (buckets : ℕ) (as : List Ptr) : List Ptr :=
  (List.range buckets).flatMap (group index as)

theorem flatMap_group_cons (index : Ptr → ℤ) (as : List Ptr) (p : Ptr) (m : ℕ) :
    ((List.range m).flatMap (group index (p :: as))).Perm
      (if 0 ≤ index p ∧ index p < m then p :: (List.range m).flatMap (group index as)
       else (List.range m).flatMap (group index as)) := by
  induction m with
  | zero => rw [if_neg (by omega)]; exact .refl _
  | succ m ih =>
    simp only [List.range_succ, List.flatMap_append, List.flatMap_singleton]
    by_cases hm : index p = m
    · rw [if_neg (by omega)] at ih
      rw [if_pos (by omega), show group index (p :: as) m = p :: group index as m from by
        simp [group, hm]]
      exact (ih.append_right _).trans List.perm_middle
    · rw [show group index (p :: as) m = group index as m from by simp [group, hm]]
      by_cases hp : 0 ≤ index p ∧ index p < m
      · rw [if_pos hp] at ih
        rw [if_pos (by omega)]
        exact ih.append_right _
      · rw [if_neg hp] at ih
        rw [if_neg (by omega)]
        exact ih.append_right _

theorem countingSort_perm (h : InRange index buckets as) :
    (countingSort index buckets as).Perm as := by
  induction as with
  | nil => simp [countingSort, group]
  | cons p as ih =>
    have hp := flatMap_group_cons index as p buckets
    rw [if_pos (h p List.mem_cons_self)] at hp
    exact hp.trans ((ih fun q hq => h q (List.mem_cons_of_mem p hq)).cons p)

theorem flatMap_compact (index : Ptr → ℤ) (buckets : ℕ) (as : List Ptr) :
    (compact buckets (counted index as)).flatMap (fun b => b.head.reverse) =
      countingSort index buckets as := by
  unfold compact countingSort
  induction List.range buckets with
  | nil => rfl
  | cons k ks ih =>
    rw [List.map_cons, List.filter_cons, List.flatMap_cons, ← ih]
    by_cases hk : group index as k = []
    · simp [counted, hk]
    · simp [counted, hk]

/-! ## The second round -/

theorem mem_stores {head : List Ptr} {i : ℤ} {w : ℤ × Ptr} :
    w ∈ stores head i ↔ ∃ j : ℕ, head[j]? = some w.2 ∧ w.1 = i - j := by
  induction head generalizing i with
  | nil => simp [stores]
  | cons p head ih =>
    rw [stores, List.mem_cons, ih]
    constructor
    · rintro (rfl | ⟨j, hj, hw⟩)
      · exact ⟨0, rfl, by simp⟩
      · exact ⟨j + 1, hj, by omega⟩
    · rintro ⟨_ | j, hj, hw⟩
      · left
        simp only [List.getElem?_cons_zero, Option.some.injEq] at hj
        exact Prod.ext (by simpa using hw) hj.symm
      · exact .inr ⟨j, by simpa using hj, by omega⟩

def Counted (bs : List (Bucket Ptr)) : Prop := ∀ b ∈ bs, b.frequency = b.head.length

theorem mem_allStores_summed {bs : List (Bucket Ptr)} (hbs : Counted bs) (total : ℕ) {w : ℤ × Ptr} :
    w ∈ allStores (summed total bs) ↔ total ≤ w.1 ∧
      (bs.flatMap fun b => b.head.reverse)[(w.1 - total).toNat]? = some w.2 := by
  induction bs generalizing total with
  | nil => simp [summed, allStores]
  | cons b bs ih =>
    have hb := hbs b List.mem_cons_self
    rw [summed, allStores_cons, List.mem_append, mem_stores,
      ih (fun b' hb' => hbs b' (List.mem_cons_of_mem b hb')), List.flatMap_cons]
    dsimp only
    constructor
    · rintro (⟨j, hj, hw⟩ | ⟨hle, hget⟩)
      · have hlt := (List.getElem?_eq_some_iff.mp hj).1
        refine ⟨by push_cast at hw; omega, ?_⟩
        rw [List.getElem?_append_left (by simp; omega), List.getElem?_reverse (by omega), ← hj]
        congr 1
        omega
      · refine ⟨by omega, ?_⟩
        rw [List.getElem?_append_right (by simp; omega), ← hget]
        congr 1
        simp
        omega
    · rintro ⟨hle, hget⟩
      by_cases hlt : (w.1 - total).toNat < b.head.length
      · left
        rw [List.getElem?_append_left (by simpa using hlt), List.getElem?_reverse hlt] at hget
        exact ⟨_, hget, by push_cast; omega⟩
      · right
        rw [List.getElem?_append_right (by simpa using hlt)] at hget
        refine ⟨by push_cast; omega, ?_⟩
        rw [← hget]
        congr 1
        simp
        omega

/-- Stores that agree with a list leave that list, in whatever order they are made. -/
theorem foldl_store {spec : List Ptr} (ws : List (ℤ × Ptr))
    (hws : ∀ w ∈ ws, 0 ≤ w.1 ∧ spec[w.1.toNat]? = some w.2) (o : ℕ → Ptr) :
    ∃ o', ws.foldl (store spec.length) (some o) = some o' ∧
      ∀ k : ℕ, (∃ w ∈ ws, w.1 = k) ∨ spec[k]? = some (o k) → spec[k]? = some (o' k) := by
  induction ws generalizing o with
  | nil => exact ⟨o, rfl, fun k hk => hk.resolve_left (by simp)⟩
  | cons w ws ih =>
    obtain ⟨h0, hget⟩ := hws w List.mem_cons_self
    have hlt := (List.getElem?_eq_some_iff.mp hget).1
    obtain ⟨o', ho', hk⟩ := ih (fun w' hw' => hws w' (List.mem_cons_of_mem w hw'))
      (update o w.1.toNat w.2)
    refine ⟨o', ?_, fun k hor => hk k ?_⟩
    · rw [List.foldl_cons, ← ho', store, Option.bind_some, if_pos ⟨h0, by omega⟩]
    · rcases eq_or_ne k w.1.toNat with rfl | hne
      · right
        rw [update_self, hget]
      · rw [update_of_ne hne]
        refine hor.imp_left ?_
        rintro ⟨w', hw', he⟩
        rcases List.mem_cons.mp hw' with rfl | hw'
        · exact absurd (by rw [he, Int.toNat_natCast]) hne
        · exact ⟨w', hw', he⟩

theorem summed_sized {bs : List (Bucket Ptr)} (hbs : Counted bs) (hpos : ∀ b ∈ bs, b.frequency ≠ 0)
    (total : ℕ) : Sized (summed total bs) := by
  induction bs generalizing total with
  | nil => intro b hb; cases hb
  | cons b bs ih =>
    intro b' hb'
    rcases List.mem_cons.mp hb' with rfl | hb'
    · have hf := hbs b List.mem_cons_self
      have hp := hpos b List.mem_cons_self
      exact ⟨hf, Nat.pos_of_ne_zero hp⟩
    · exact ih (fun c hc => hbs c (List.mem_cons_of_mem b hc))
        (fun c hc => hpos c (List.mem_cons_of_mem b hc)) _ b' hb'

theorem length_allStores_summed (bs : List (Bucket Ptr)) (total : ℕ) :
    (allStores (summed total bs)).length = (bs.flatMap fun b => b.head.reverse).length := by
  induction bs generalizing total with
  | nil => rfl
  | cons b bs ih =>
    rw [summed, allStores_cons, List.length_append, ih, List.flatMap_cons, List.length_append,
      length_stores, List.length_reverse]

theorem secondRound_spec (hin : InRange index buckets as) (hlen : as.length = n) :
    ∃ todo, secondRound 0 n buckets (counted index as) = some todo ∧
      todo.flatten = allStores (summed 0 (compact buckets (counted index as))) := by
  have hmem : ∀ b ∈ compact buckets (counted index as), b.frequency = b.head.length ∧
    b.frequency ≠ 0 := by
    intro b hb
    obtain ⟨hb, hf⟩ := List.mem_filter.mp hb
    obtain ⟨k, -, rfl⟩ := List.mem_map.mp hb
    exact ⟨by simp [counted], by simpa using hf⟩
  have hsized := summed_sized (fun b hb => (hmem b hb).1) (fun b hb => (hmem b hb).2) 0
  have hlen' : (allStores (summed 0 (compact buckets (counted index as)))).length = n := by
    rw [length_allStores_summed, flatMap_compact, (countingSort_perm hin).length_eq, hlen]
  have hpos : AtPos (summed 0 (compact buckets (counted index as))) 0 0
      (allStores (summed 0 (compact buckets (counted index as)))) := ⟨rfl, .inl rfl⟩
  obtain ⟨args, todo, hargs, htodo, hflat⟩ :=
    processArgs_spec hsized hpos ((sum_workerSizes n).trans hlen'.symm)
  refine ⟨todo, ?_, hflat⟩
  simp only [secondRound, Nat.zero_add, prefixSums_eq, Option.bind_some, hargs, htodo]

theorem foldl_store_perm (hin : InRange index buckets as) (hlen : as.length = n) (hn : 1 ≤ n)
    {ws : List (ℤ × Ptr)} (hws : ws.Perm
      (allStores (summed 0 (compact buckets (counted index as)))))
    (junk : ℕ → Ptr) :
    ∃ o, ws.foldl (store n) (some junk) = some o ∧
    slice o 0 (n - 1) = countingSort index buckets as := by
  have hcounted : Counted (compact buckets (counted index as)) := by
    intro b hb
    obtain ⟨k, -, rfl⟩ := List.mem_map.mp (List.mem_filter.mp hb).1
    simp [counted]
  have hmem : ∀ w : ℤ × Ptr, w ∈ ws ↔ 0 ≤ w.1 ∧
    (countingSort index buckets as)[w.1.toNat]? = some w.2 := by
    intro w
    rw [hws.mem_iff, mem_allStores_summed hcounted, flatMap_compact]
    simp
  have hlen' : (countingSort index buckets as).length = n := by
    rw [(countingSort_perm hin).length_eq, hlen]
  obtain ⟨o, ho, hk⟩ := foldl_store ws (fun w hw => (hmem w).mp hw) junk
  rw [hlen'] at ho
  refine ⟨o, ho, List.ext_getElem (by simp [hlen']; omega) fun k h1 h2 => ?_⟩
  have hget := List.getElem?_eq_getElem h2
  have := hk k (.inl ⟨(k, (countingSort index buckets as)[k]),
    (hmem _).mpr ⟨by simp, by simp⟩, rfl⟩)
  rw [hget, Option.some.injEq] at this
  rw [getElem_slice, this, Nat.zero_add]

/-! ## Whole runs -/

variable {files junk : ℕ → Ptr}

instance (index : Ptr → ℤ) (buckets : ℕ) (as : List Ptr) : Decidable (InRange index buckets as) :=
  inferInstanceAs (Decidable (∀ p ∈ as, _))

/-- Where a run ends that inserts the files in the order `as`. -/
def finish (index : Ptr → ℤ) (buckets : ℕ) (files : ℕ → Ptr) (as : List Ptr) : CountState Ptr :=
  if InRange index buckets as then .done (overwrite files 0 (countingSort index buckets as))
  else .crashed

theorem alwaysEnds_finish (hn : 1 ≤ n) (hlen : as.length = n) {T : List (List Ptr)} (hT : Idle T) :
    AlwaysEnds (CountState.step 0 n files junk index buckets) (· = finish index buckets files as)
      (.counting ⟨as.foldl (insert index buckets) (some initGlobalCount), T⟩) := by
  by_cases hin : InRange index buckets as
  · obtain ⟨todo, htodo, hflat⟩ := secondRound_spec hin hlen
    rw [foldl_insert hin]
    refine alwaysEnds_idle CountState.counting (fun _ _ => rfl) hT
      (t := .populating ⟨some junk, todo⟩) (by simp [CountState.step, hT, htodo]) ?_
    refine alwaysEnds_round CountState.populating (fun _ _ => rfl)
      (fun p hp => by simp [CountState.step, hp]) fun ws U hU hidle => ?_
    obtain ⟨o, ho, hslice⟩ :=
      foldl_store_perm hin hlen hn (hflat ▸ Interleaves.perm ⟨U, hU, hidle⟩) junk
    rw [ho]
    refine alwaysEnds_idle CountState.populating (fun _ _ => rfl) hidle
      (t := .done (overwrite files 0 (slice o 0 (n - 1)))) (by simp [CountState.step, hidle])
      (.intro (fun _ => ?_) fun _ _ h => by cases h)
    rw [finish, if_pos hin, hslice]
  · rw [foldl_insert_of_not_inRange hin]
    refine alwaysEnds_idle CountState.counting (fun _ _ => rfl) hT (t := .crashed)
      (by simp [CountState.step, hT]) (.intro (fun _ => ?_) fun _ _ h => by cases h)
    rw [finish, if_neg hin]

/-- **A property of all runs is one of all interleavings of the insertions.** -/
theorem alwaysEnds_iff (hn : 1 ≤ n) {P : CountState Ptr → Prop} :
    AlwaysEnds (CountState.step 0 n files junk index buckets) P (.initial n files) ↔
      ∀ as, Interleaves (chunks files 0 (workerSizes n)) as → P (finish index buckets files as) := by
  have hlen : ∀ as, Interleaves (chunks files 0 (workerSizes n)) as → as.length = n := by
    intro as has
    rw [has.perm.length_eq, flatten_chunks_workerSizes files hn, length_slice]
    omega
  constructor
  · rintro h as ⟨T, hT, hidle⟩
    have hreach : Reach (CountState.step 0 n files junk index buckets) (.initial n files)
        (.counting ⟨as.foldl (insert index buckets) (some initGlobalCount), T⟩) :=
      reach_round CountState.counting (fun _ _ => rfl) hT
    have hend := (h.of_reach hreach).and (alwaysEnds_finish hn (hlen as ⟨T, hT, hidle⟩) hidle)
    obtain ⟨st, -, -, hP, rfl⟩ := hend.exists_end
    exact hP
  · intro h
    refine alwaysEnds_round CountState.counting (fun _ _ => rfl)
      (fun p hp => by simp [CountState.step, hp]) fun as T hT hidle => ?_
    refine (alwaysEnds_finish hn (hlen as ⟨T, hT, hidle⟩) hidle).mono fun st hst => ?_
    rw [hst]
    exact h as ⟨T, hT, hidle⟩

end LazyXv6.Sort
