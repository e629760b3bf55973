import LazyXv6.Sort.CountSortCorrect

/-!
# How the workers of the second round share the output

The main thread cuts the output into chunks and the buckets into what is left of them, and each
worker of `populate_output` keeps its own count of both. `Tiles` says that they agree: every entry
of every bucket list is copied once, to an index of its own.
-/

namespace LazyXv6.Sort

variable {Ptr : Type} {n total covered curr : ℕ}

/-- A bucket with the list `head`, as `count_local` leaves it. -/
def ofList (head : List Ptr) : Bucket Ptr := ⟨head.length, head, 0⟩

/-- What the workers have been told (`args`) and what they store (`todo`). -/
structure Tiles (lists : List (List Ptr)) (args : List (ℕ × ℕ × ℕ)) (todo : List (List (ℤ × Ptr))) :
    Prop where
  workers : args.length ≤ numProcesses
  /-- The offset of a worker lies inside its first list. -/
  offsets : ∀ arg ∈ args, ∃ head, lists[arg.1]? = some head ∧ arg.2.2 < head.length
  indices : (todo.flatten.map Prod.fst).Perm ((List.range lists.flatten.length).map Int.ofNat)
  entries : todo.flatten.map Prod.snd = lists.flatten

/-! ## The chunks -/

theorem length_chunckSizes (baseSize leftOver k : ℕ) :
    (chunckSizes baseSize leftOver k).length = k := by
  induction k generalizing leftOver with
  | zero => rfl
  | succ k ih => rw [chunckSizes, List.length_cons, ih]

theorem length_threadSizes (cs : List ℕ) : (threadSizes n covered cs).length ≤ cs.length := by
  induction cs generalizing covered with
  | nil => exact le_rfl
  | cons c cs ih =>
    rw [threadSizes]
    split
    · simp
    · simpa using ih

/-- No thread is created for a chunk without files. -/
theorem threadSizes_pos {baseSize leftOver k : ℕ} (hlt : covered < n)
    (hsum : covered + (chunckSizes baseSize leftOver k).sum = n) {c : ℕ}
    (hc : c ∈ threadSizes n covered (chunckSizes baseSize leftOver k)) : 0 < c := by
  induction k generalizing covered leftOver with
  | zero => cases hc
  | succ k ih =>
    have hzero := sum_chunckSizes 0 (Nat.zero_le k)
    rw [chunckSizes, List.sum_cons] at hsum
    rw [chunckSizes, threadSizes] at hc
    generalize hhead : (if leftOver ≠ 0 then baseSize + 1 else baseSize) = head at hsum hc
    have hpos : 0 < head := by
      by_contra hno
      split at hhead
      · omega
      · obtain rfl : baseSize = 0 := by omega
        obtain rfl : leftOver = 0 := by omega
        rw [Nat.zero_sub, hzero] at hsum
        omega
    rcases List.mem_cons.mp hc with rfl | hc
    · exact hpos
    · split at hc
      · cases hc
      · exact ih (by omega) (by omega) hc

theorem workerSizes_pos (hn : 1 ≤ n) {c : ℕ} (hc : c ∈ workerSizes n) : 0 < c := by
  refine threadSizes_pos hn ?_ hc
  rw [sum_chunckSizes _ (Nat.mod_lt n (by decide)).le, Nat.zero_add, Nat.mul_comm]
  exact Nat.div_add_mod n numProcesses

theorem length_workerSizes (n : ℕ) : (workerSizes n).length ≤ numProcesses :=
  (length_threadSizes _).trans (length_chunckSizes ..).le

theorem processArgs_offsets {N : List (Bucket Ptr)} {r : List (ℤ × Ptr)} {cs : List ℕ}
    {args : List (ℕ × ℕ × ℕ)} (hN : Sized N) (h : AtPos N curr covered r) (hcs : cs.sum = r.length)
    (hpos : ∀ c ∈ cs, 0 < c) (hargs : processArgs N cs curr covered = some args) :
    args.length = cs.length ∧ ∀ arg ∈ args, ∃ b, N[arg.1]? = some b ∧ arg.2.2 < b.size := by
  induction cs generalizing curr covered r args with
  | nil =>
    cases hargs
    exact ⟨rfl, nofun⟩
  | cons c cs ih =>
    rw [List.sum_cons] at hcs
    have hc := hpos c List.mem_cons_self
    obtain ⟨curr', covered', hadv, hnext⟩ := advance_spec hN h (show c ≤ r.length by omega)
    rw [processArgs, hadv, Option.bind_some] at hargs
    obtain ⟨rest, hrest, rfl⟩ := Option.map_eq_some_iff.mp hargs
    obtain ⟨hlen, hoffs⟩ := ih hnext (by rw [List.length_drop]; omega)
      (fun c' hc' => hpos c' (List.mem_cons_of_mem c hc')) hrest
    refine ⟨by rw [List.length_cons, hlen, List.length_cons], fun arg harg => ?_⟩
    rcases List.mem_cons.mp harg with rfl | harg
    · cases hL : N.drop curr with
      | nil =>
        obtain rfl := h.eq_nil hL
        rw [List.length_nil] at hcs
        omega
      | cons b bs =>
        refine ⟨b, ?_, (h.cons hN hL).2.1⟩
        rw [← List.head?_drop, hL]
        rfl
    · exact hoffs arg harg

/-! ## The stores -/

theorem map_snd_stores (head : List Ptr) (i : ℤ) : (stores head i).map Prod.snd = head := by
  induction head generalizing i with
  | nil => rfl
  | cons p head ih => rw [stores, List.map_cons, ih]

theorem map_fst_stores (head : List Ptr) (total : ℕ) :
    (stores head (((total + head.length : ℕ) : ℤ) - 1)).map Prod.fst =
      ((List.range' total head.length).map Int.ofNat).reverse := by
  induction head with
  | nil => rfl
  | cons p head ih =>
    rw [stores, List.map_cons, List.length_cons, List.range'_1_concat, List.map_append,
      List.reverse_append, List.map_singleton, List.reverse_singleton, List.singleton_append, ← ih]
    congr 3
    · rw [Int.ofNat_eq_natCast]
      omega
    · omega

theorem map_head_summed (lists : List (List Ptr)) (total : ℕ) :
    (summed total (lists.map ofList)).map Bucket.head = lists := by
  induction lists generalizing total with
  | nil => rfl
  | cons head lists ih =>
    rw [List.map_cons, summed, List.map_cons, ih]
    rfl

theorem map_snd_allStores (lists : List (List Ptr)) (total : ℕ) :
    (allStores (summed total (lists.map ofList))).map Prod.snd = lists.flatten := by
  induction lists generalizing total with
  | nil => rfl
  | cons head lists ih =>
    rw [List.map_cons, summed, allStores_cons, List.map_append, map_snd_stores, ih]
    rfl

theorem map_fst_allStores (lists : List (List Ptr)) (total : ℕ) :
    ((allStores (summed total (lists.map ofList))).map Prod.fst).Perm
      ((List.range' total lists.flatten.length).map Int.ofNat) := by
  induction lists generalizing total with
  | nil => exact .refl _
  | cons head lists ih =>
    rw [List.map_cons, summed, allStores_cons, List.map_append, List.flatten_cons, List.length_append,
      ← List.range'_append_1, List.map_append]
    refine List.Perm.append ?_ (ih _)
    rw [show (ofList head).frequency = head.length from rfl, show (ofList head).head =
      head from rfl, map_fst_stores]
    exact List.reverse_perm _

/-- **The workers of the second round share the entries of the buckets.** -/
theorem workers_tile_output (lists : List (List Ptr)) (hlists : ∀ head ∈ lists, 0 < head.length)
    (hn : 1 ≤ n) (hsum : (lists.map List.length).sum = n) :
    ∃ newGlobalCount args todo, prefixSums lists.length 0 (lists.map ofList) = some newGlobalCount ∧
      processArgs newGlobalCount (workerSizes n) 0 0 = some args ∧
      args.mapM (fun arg => populateOutput (newGlobalCount.drop arg.1) arg.2.1 arg.2.2 arg.2.2) =
        some todo ∧ Tiles lists args todo := by
  have hcounted : Counted (lists.map ofList) := by
    intro b hb
    obtain ⟨head, -, rfl⟩ := List.mem_map.mp hb
    rfl
  have hsized : Sized (summed 0 (lists.map ofList)) := by
    refine summed_sized hcounted (fun b hb => ?_) 0
    obtain ⟨head, hhead, rfl⟩ := List.mem_map.mp hb
    exact (hlists head hhead).ne'
  have hpos : AtPos (summed 0 (lists.map ofList)) 0 0 (allStores (summed 0 (lists.map ofList))) :=
    ⟨rfl, .inl rfl⟩
  have hlen : (workerSizes n).sum = (allStores (summed 0 (lists.map ofList))).length := by
    rw [sum_workerSizes, ← hsum, ← List.length_flatten, ← map_snd_allStores lists 0, List.length_map]
  obtain ⟨args, todo, hargs, htodo, hflat⟩ := processArgs_spec hsized hpos hlen
  obtain ⟨hworkers, hoffs⟩ :=
    processArgs_offsets hsized hpos hlen (fun _ => workerSizes_pos hn) hargs
  have hprefix := prefixSums_eq 0 (lists.map ofList)
  rw [List.length_map] at hprefix
  refine ⟨_, args, todo, hprefix, hargs, htodo, ?_, fun arg harg => ?_, ?_, ?_⟩
  · rw [hworkers]
    exact length_workerSizes n
  · obtain ⟨b, hb, hlt⟩ := hoffs arg harg
    refine ⟨b.head, ?_, (hsized b (List.mem_of_getElem? hb)).1 ▸ hlt⟩
    conv_lhs => rw [← map_head_summed lists 0]
    rw [List.getElem?_map, hb, Option.map_some]
  · rw [hflat, List.range_eq_range']
    exact map_fst_allStores lists 0
  · rw [hflat]
    exact map_snd_allStores lists 0

theorem workers_tile_output_two : ∃ newGlobalCount args todo,
    prefixSums 2 0 ([[5, 6], [7]].map ofList) = some newGlobalCount ∧
    processArgs newGlobalCount (workerSizes 3) 0 0 = some args ∧
    args.mapM (fun arg => populateOutput (newGlobalCount.drop arg.1) arg.2.1 arg.2.2 arg.2.2) =
      some todo ∧ Tiles [[5, 6], [7]] args todo :=
  workers_tile_output (n := 3) [[5, 6], [7]] (by decide) (by decide) (by decide)

end LazyXv6.Sort
