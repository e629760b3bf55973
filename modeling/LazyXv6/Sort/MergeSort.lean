import LazyXv6.Lib.Runs
import LazyXv6.Lib.Segment
import LazyXv6.Sort.File

/-!
# Merge sort, by one thread and by a tree of threads

The global array `files` holds pointers; `deref` is the record behind a pointer. The tree of
`merge_sort` threads is a `Thread`: a thread that waits in `pthread_join` holds its two children.
One step runs one thread (a path in the tree) for one iteration of a loop: an entry taken by the
loops of `merge`, an entry copied back, a store of `qsort`. Every interleaving is a run of
`State.step`.

`main` refuses more than `MAX_FILES` = 100000000 files, so the indices and their sums are `int`s.
-/

namespace LazyXv6.Sort

open Function Lib

/-! ## The C library's `qsort` -/

/-- What C asks of a comparison function on the objects it sorts: a total preorder. -/
structure Consistent {Ptr : Type} (cmp : Ptr → Ptr → Int) (xs : List Ptr) : Prop where
  sign : ∀ a ∈ xs, ∀ b ∈ xs, cmp a b ≤ 0 ↔ 0 ≤ cmp b a
  trans : ∀ a ∈ xs, ∀ b ∈ xs, ∀ c ∈ xs, cmp a b ≤ 0 → cmp b c ≤ 0 → cmp a c ≤ 0

theorem Consistent.of_perm {Ptr : Type} {cmp : Ptr → Ptr → Int} {xs ys : List Ptr}
    (h : Consistent cmp xs) (hp : ys.Perm xs) : Consistent cmp ys := by
  refine ⟨fun a ha b hb => ?_, fun a ha b hb c hc => ?_⟩
  · exact h.sign a (hp.mem_iff.mp ha) b (hp.mem_iff.mp hb)
  · exact h.trans a (hp.mem_iff.mp ha) b (hp.mem_iff.mp hb) c (hp.mem_iff.mp hc)

/-- From the local state `l` and the range `xs`, the actions of `next` lead to `ys` and return,
after `n` stores. -/
inductive Stores {Ptr Local : Type} (next : Local → List Ptr → Option (Local × ℕ × Ptr)) :
    Local → List Ptr → List Ptr → ℕ → Prop where
  | ret {l : Local} {xs : List Ptr} : next l xs = none → Stores next l xs xs 0
  | store {l l' : Local} {xs ys : List Ptr} {k n : ℕ} {p : Ptr} : next l xs = some (l', k, p) →
      Stores next l' (xs.set k p) ys n → Stores next l xs ys (n + 1)

/-- A `qsort`: from its local state and the entries of its range, the next store (an offset and a
pointer), or the return. It stores inside its range, it returns a permutation, and it sorts if the
comparison function is consistent. -/
structure Qsort (Ptr : Type) where
  Local : Type
  entry : Local
  next : (Ptr → Ptr → Int) → Local → List Ptr → Option (Local × ℕ × Ptr)
  inRange : ∀ {cmp l xs l' k p}, next cmp l xs = some (l', k, p) → k < xs.length
  returns : ∀ cmp xs, ∃ ys n, Stores (next cmp) entry xs ys n ∧ ys.Perm xs ∧
    (Consistent cmp xs → ys.Pairwise fun a b => cmp a b ≤ 0)

theorem Stores.unique {Ptr Local : Type} {next : Local → List Ptr → Option (Local × ℕ × Ptr)}
    {l : Local} {xs ys zs : List Ptr} {m n : ℕ} (h : Stores next l xs ys m)
    (h' : Stores next l xs zs n) : ys = zs := by
  induction h generalizing zs n with
  | ret hret =>
    cases h' with
    | ret => rfl
    | store hs => rw [hret] at hs; cases hs
  | store hs _ ih =>
    cases h' with
    | ret hret => rw [hret] at hs; cases hs
    | store hs' hrest =>
      rw [hs] at hs'
      cases hs'
      exact ih hrest

/-- A `qsort` that stores the entries of a list one after the other: `none` at its entry, then the
offset and the entries that are left. -/
def nextStore {Ptr : Type} (f : List Ptr → List Ptr) :
    Option (ℕ × List Ptr) → List Ptr → Option (Option (ℕ × List Ptr) × ℕ × Ptr)
  | none, xs => nextStore.go 0 (f xs) xs.length
  | some (k, ys), xs => nextStore.go k ys xs.length
where
  go (k : ℕ) (ys : List Ptr) (size : ℕ) : Option (Option (ℕ × List Ptr) × ℕ × Ptr) :=
    match ys with
    | [] => none
    | y :: ys => if k < size then some (some (k + 1, ys), k, y) else none

theorem nextStore_go_inRange {Ptr : Type} {k size j : ℕ} {ys : List Ptr} {p : Ptr}
    {l : Option (ℕ × List Ptr)} (h : nextStore.go k ys size = some (l, j, p)) : j < size := by
  unfold nextStore.go at h
  split at h
  · cases h
  · split at h
    · next hk => cases h; exact hk
    · cases h

theorem stores_nextStore_go {Ptr : Type} (f : List Ptr → List Ptr) (l : Option (ℕ × List Ptr))
    (ys xs : List Ptr) (k : ℕ) (hk : k + ys.length = xs.length)
    (hl : nextStore f l xs = nextStore.go k ys xs.length) :
    ∃ n, Stores (nextStore f) l xs (xs.take k ++ ys) n := by
  induction ys generalizing k xs l with
  | nil =>
    rw [List.append_nil, List.take_of_length_le (by simp at hk; omega)]
    exact ⟨0, .ret hl⟩
  | cons y ys ih =>
    rw [List.length_cons] at hk
    have hlt : k < xs.length := by omega
    obtain ⟨n, hn⟩ := ih (some (k + 1, ys)) (xs.set k y) (k + 1) (by simp; omega) rfl
    refine ⟨n + 1, .store (hl.trans (if_pos hlt)) ?_⟩
    rw [List.take_succ_eq_append_getElem (by simpa using hlt), List.getElem_set_self,
      List.take_set_of_le (Nat.le_refl k), List.append_assoc, List.singleton_append] at hn
    exact hn

theorem stores_nextStore {Ptr : Type} (f : List Ptr → List Ptr) {xs : List Ptr}
    (h : (f xs).length = xs.length) : ∃ n, Stores (nextStore f) none xs (f xs) n := by
  simpa using stores_nextStore_go f none (f xs) xs 0 (by simpa using h) rfl

/-- The `qsort` that computes `f`. -/
def Qsort.ofFun {Ptr : Type} (f : (Ptr → Ptr → Int) → List Ptr → List Ptr)
    (hperm : ∀ cmp xs, (f cmp xs).Perm xs)
    (hsort : ∀ cmp xs, Consistent cmp xs → (f cmp xs).Pairwise fun a b => cmp a b ≤ 0) :
    Qsort Ptr where
  Local := Option (ℕ × List Ptr)
  entry := none
  next cmp := nextStore (f cmp)
  inRange {cmp l xs l' k p} h := by
    cases l with
    | none | some => exact nextStore_go_inRange h
  returns cmp xs := by
    obtain ⟨n, hn⟩ := stores_nextStore (f cmp) (hperm cmp xs).length_eq
    exact ⟨f cmp xs, n, hn, hperm cmp xs, hsort cmp xs⟩

/-- Sorted by a comparison function that is asked about entries of the list only. -/
def sortBy {Ptr : Type} (cmp : Ptr → Ptr → Int) (xs : List Ptr) : List Ptr :=
  (xs.attach.mergeSort fun a b => decide (cmp a b ≤ 0)).map Subtype.val

theorem sortBy_perm {Ptr : Type} (cmp : Ptr → Ptr → Int) (xs : List Ptr) :
    (sortBy cmp xs).Perm xs := by
  have := (List.mergeSort_perm xs.attach fun a b => decide (cmp a b ≤ 0)).map Subtype.val
  rwa [List.attach_map_subtype_val] at this

theorem sortBy_sorts {Ptr : Type} (cmp : Ptr → Ptr → Int) (xs : List Ptr)
    (h : Consistent cmp xs) : (sortBy cmp xs).Pairwise fun a b => cmp a b ≤ 0 := by
  unfold sortBy
  rw [List.pairwise_map]
  refine (List.pairwise_mergeSort (fun a b c hab hbc => ?_) (fun a b => ?_) xs.attach).imp
    fun hab => of_decide_eq_true hab
  · simp only [decide_eq_true_eq] at *
    exact h.trans a a.2 b b.2 c c.2 hab hbc
  · simp only [Bool.or_eq_true, decide_eq_true_eq]
    have := h.sign b b.2 a a.2
    omega

/-! ## `merge` and `merge_sort_non_distributed` -/

variable {Ptr : Type} (q : Qsort Ptr) (deref : Ptr → File) (sortColumnFlag sortWay : Column)
    (maxLevel : ℤ)

def mergeLe : Column → Ptr → Ptr → Bool
  | .name, p, r => decide (strcmp (deref p).name (deref r).name ≤ 0)
  | .id, p, r => decide ((deref p).id ≤ (deref r).id)
  | .timestamp, p, r => decide (strcmp (deref p).timestamp (deref r).timestamp ≤ 0)

/-- One iteration of the three loops of `merge`: the new `s1` and `s2` and the entry taken. -/
def mergeIter (files : ℕ → Ptr) (e1 e2 s1 s2 : ℕ) : Option (ℕ × ℕ × Ptr) :=
  if s1 ≤ e1 ∧ s2 ≤ e2 then
    if mergeLe deref sortWay (files s1) (files s2) then some (s1 + 1, s2, files s1)
    else some (s1, s2 + 1, files s2)
  else if s1 ≤ e1 then some (s1 + 1, s2, files s1)
  else if s2 ≤ e2 then some (s1, s2 + 1, files s2)
  else none

/-- The entries that the loops put into `tempfiles`, in `fuel` iterations at most. -/
def mergeLoop (files : ℕ → Ptr) (e1 e2 : ℕ) : ℕ → ℕ → ℕ → List Ptr
  | 0, _, _ => []
  | fuel + 1, s1, s2 =>
    match mergeIter deref sortWay files e1 e2 s1 s2 with
    | none => []
    | some (s1', s2', p) => p :: mergeLoop files e1 e2 fuel s1' s2'

def merge (s e : ℕ) (files : ℕ → Ptr) : ℕ → Ptr :=
  overwrite files s (mergeLoop deref sortWay files ((s + e) / 2) e (e + 1 - s) s ((s + e) / 2 + 1))

/-- The source tests `s == e`; it is never called with `e < s`. -/
def mergeSortNonDistributed (s e : ℕ) (files : ℕ → Ptr) : ℕ → Ptr :=
  if e ≤ s then files
  else
    let mid := (s + e) / 2
    merge deref sortWay s e (mergeSortNonDistributed (mid + 1) e (mergeSortNonDistributed s mid files))
termination_by e - s

/-! ## The threads of `merge_sort` -/

def comparator (a b : Ptr) : Int := getComparisonFunction sortColumnFlag (deref a) (deref b)

/-- A `merge_sort` thread on `files[s .. e]` and the threads below it. -/
inductive Thread (Ptr Local : Type) where
  | start (s e : ℕ) (level : ℤ)
  | join (l r : Thread Ptr Local) (s e : ℕ)
  | merging (s e s1 s2 : ℕ) (tempfiles : List Ptr)
  | copying (s e i : ℕ) (tempfiles : List Ptr)
  | sorting (s e : ℕ) (l : Local)
  | done (s e : ℕ)

variable {q} in
/-- One step of the thread at a path, `none` if it cannot run. -/
def Thread.step : Thread Ptr q.Local → (ℕ → Ptr) → List Bool →
    Option (Thread Ptr q.Local × (ℕ → Ptr))
  | .start s e level, files, [] =>
    if s = e then some (.done s e, files)
    else if level < maxLevel then
      some (.join (.start s ((s + e) / 2) (level + 1)) (.start ((s + e) / 2 + 1) e (level + 1)) s e,
        files)
    else some (.sorting s e q.entry, files)
  | .join l r s e, files, false :: path =>
    (l.step files path).map fun t => (.join t.1 r s e, t.2)
  | .join l r s e, files, true :: path =>
    (r.step files path).map fun t => (.join l t.1 s e, t.2)
  -- both `pthread_join` calls have returned
  | .join (.done _ _) (.done _ _) s e, files, [] =>
    some (.merging s e s ((s + e) / 2 + 1) [], files)
  | .merging s e s1 s2 tempfiles, files, [] =>
    match mergeIter deref sortWay files ((s + e) / 2) e s1 s2 with
    | none => some (.copying s e s tempfiles, files)
    | some (s1', s2', p) => some (.merging s e s1' s2' (tempfiles ++ [p]), files)
  | .copying s e i tempfiles, files, [] =>
    if i ≤ e then
      (tempfiles[i - s]?).map fun p => (.copying s e (i + 1) tempfiles, update files i p)
    else some (.done s e, files)
  | .sorting s e l, files, [] =>
    match q.next (comparator deref sortColumnFlag) l (slice files s e) with
    | none => some (.done s e, files)
    | some (l', k, p) => some (.sorting s e l', update files (s + k) p)
  | _, _, _ => none

structure State (Ptr Local : Type) where
  thread : Thread Ptr Local
  files : ℕ → Ptr

variable {q} in
def State.step (st : State Ptr q.Local) (path : List Bool) : Option (State Ptr q.Local) :=
  (st.thread.step deref sortColumnFlag sortWay maxLevel st.files path).map fun t => ⟨t.1, t.2⟩

def initial (n : ℕ) (files : ℕ → Ptr) : State Ptr q.Local := ⟨.start 0 (n - 1) 0, files⟩

end LazyXv6.Sort
