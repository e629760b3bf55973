import LazyXv6.FileTree.Lookup

/-!
# Path names

The elements of a path are the non-empty pieces between its slashes, each cut to `DIRSIZ` bytes
(`components`). `namei` looks them up one after another, from the root or from the current directory
(`Fs.walk`); `nameiparent` stops at the directory of the last one (`Fs.walkParent`).
-/

namespace LazyXv6.FileTree

open Lib

/-- The pieces between slashes, without the empty ones. -/
def pieces (s : List UInt8) : List (List UInt8) := (s.splitOn slash).filter (· ≠ [])

/-- The bytes of a C string, which ends at the first NUL. -/
def chars (s : List UInt8) : List UInt8 := s.takeWhile (· ≠ 0)

def components (path : List UInt8) : List (List UInt8) :=
  (pieces (chars path)).map (·.take dirSiz)

variable {ninodes : ℕ} {fs fs' : Fs} {held : List ℕ} {i dp ip cwd : ℕ} {name path rest : List UInt8}
  {names : List (List UInt8)} {parent : Bool} {E : FsPanic → Prop}

theorem pieces_nil : pieces [] = [] := rfl

theorem pieces_slash (s : List UInt8) : pieces (slash :: s) = pieces s := by
  unfold pieces
  rw [← List.nil_append (slash :: s), List.splitOn_append_cons_self_of_not_mem (by simp)]
  rfl

theorem pieces_dropWhile (s : List UInt8) : pieces (s.dropWhile (· = slash)) = pieces s := by
  induction s with
  | nil => rfl
  | cons c s ih =>
    by_cases hc : c = slash
    · rw [List.dropWhile_cons, if_pos (by simpa using hc), ih, hc, pieces_slash]
    · rw [List.dropWhile_cons, if_neg (by simpa using hc)]

theorem pieces_of_first {s : List UInt8} (hne : first s ≠ 0) (hs : first s ≠ slash) :
    pieces s = s.takeWhile (· ≠ slash) ::
    pieces ((s.dropWhile (· ≠ slash)).dropWhile (· = slash)) := by
  have hnot : slash ∉ s.takeWhile (· ≠ slash) := fun h => by
    simpa using List.mem_takeWhile_imp h
  have hsome : s.takeWhile (· ≠ slash) ≠ [] := by
    cases s with
    | nil => exact absurd rfl hne
    | cons c s => simpa [List.takeWhile_cons, first] using hs
  rw [pieces_dropWhile]
  conv_lhs => rw [← List.takeWhile_append_dropWhile (p := (· ≠ slash)) (l := s)]
  cases hrest : s.dropWhile (· ≠ slash) with
  | nil =>
    rw [List.append_nil, pieces_nil]
    unfold pieces
    rw [List.splitOn_eq_singleton hnot]
    simpa using hsome
  | cons c t =>
    have hc : c = slash := by
      have h := List.head_dropWhile_not (p := (· ≠ slash)) (l := s) (by rw [hrest]; nofun)
      simpa only [hrest, List.head_cons, decide_eq_false_iff_not, not_not] using h
    subst hc
    rw [pieces_slash]
    unfold pieces
    rw [List.splitOn_append_cons_self_of_not_mem hnot, List.filter_cons, if_pos (by simpa using hsome)]

theorem slash_ne_zero : slash ≠ 0 := by decide

theorem chars_cons (c : UInt8) (s : List UInt8) :
    chars (c :: s) = if c = 0 then [] else c :: chars s := by
  unfold chars
  rw [List.takeWhile_cons]
  by_cases hc : c = 0 <;> simp [hc]

theorem first_chars (s : List UInt8) : first (chars s) = first s := by
  cases s with
  | nil => rfl
  | cons c s =>
    rw [chars_cons]
    split
    · rename_i hc
      exact hc.symm
    · rfl

theorem chars_eq_nil {s : List UInt8} (h : first s = 0) : chars s = [] := by
  cases s with
  | nil => rfl
  | cons c s => exact (chars_cons c s).trans (if_pos h)

theorem chars_dropWhile_slash (s : List UInt8) :
    chars (s.dropWhile (· = slash)) = (chars s).dropWhile (· = slash) := by
  induction s with
  | nil => rfl
  | cons c s ih =>
    rw [List.dropWhile_cons]
    by_cases hc : c = slash
    · rw [if_pos (by simpa using hc), ih, chars_cons, if_neg (hc ▸ slash_ne_zero),
        List.dropWhile_cons, if_pos (by simpa using hc)]
    · rw [if_neg (by simpa using hc), chars_cons]
      split
      · rfl
      · rw [List.dropWhile_cons, if_neg (by simpa using hc)]

/-- What `skipelem` takes for an element: the bytes up to a slash or the end of the string. -/
theorem takeWhile_elem (s : List UInt8) :
    s.takeWhile (fun c => decide (c ≠ slash ∧ c ≠ 0)) = (chars s).takeWhile (· ≠ slash) := by
  induction s with
  | nil => rfl
  | cons c s ih =>
    rw [List.takeWhile_cons, chars_cons]
    by_cases hz : c = 0
    · simp [hz]
    · by_cases hc : c = slash
      · simp [hc, slash_ne_zero]
      · simpa [hc, hz] using ih

theorem chars_dropWhile_elem (s : List UInt8) :
    chars (s.dropWhile fun c => decide (c ≠ slash ∧ c ≠ 0)) = (chars s).dropWhile (· ≠ slash) := by
  induction s with
  | nil => rfl
  | cons c s ih =>
    rw [List.dropWhile_cons]
    by_cases hz : c = 0
    · simp [hz, chars_cons]
    · by_cases hc : c = slash
      · simp [hc, slash_ne_zero, chars_cons]
      · simpa [hc, hz, chars_cons] using ih

theorem first_dropWhile_slash (s : List UInt8) : first (s.dropWhile (· = slash)) ≠ slash := by
  cases h : s.dropWhile (· = slash) with
  | nil => decide
  | cons c t =>
    have hnot := List.head_dropWhile_not (p := (· = slash)) (l := s) (by rw [h]; nofun)
    simp only [h, List.head_cons, decide_eq_false_iff_not] at hnot
    exact hnot

theorem skipelem_eq (path : List UInt8) :
    skipelem path = if first (path.dropWhile (· = slash)) = 0 then none
      else some ((((path.dropWhile (· = slash)).takeWhile fun c => decide (c ≠ slash ∧ c ≠ 0)).take
        dirSiz), ((path.dropWhile (· = slash)).dropWhile fun c => decide (c ≠ slash ∧ c ≠ 0)).dropWhile
          (· = slash)) := rfl

theorem components_of_skipelem_none (h : skipelem path = none) : components path = [] := by
  rw [skipelem_eq] at h
  split at h
  · rename_i hz
    unfold components
    rw [← pieces_dropWhile, ← chars_dropWhile_slash, chars_eq_nil hz]
    rfl
  · exact nomatch h

theorem components_of_skipelem (h : skipelem path = some (name, rest)) :
    components path = name :: components rest := by
  rw [skipelem_eq] at h
  split at h
  · exact nomatch h
  · rename_i hne
    obtain ⟨rfl, rfl⟩ := Prod.mk.inj (Option.some.inj h)
    have hs := first_dropWhile_slash path
    unfold components
    rw [← pieces_dropWhile (chars path), ← chars_dropWhile_slash path]
    generalize path.dropWhile (· = slash) = q at hne hs ⊢
    rw [← first_chars] at hne hs
    rw [pieces_of_first hne hs, chars_dropWhile_slash, chars_dropWhile_elem, takeWhile_elem]
    rfl

/-- At the end of a string there is no element, and what follows one is not a slash. -/
theorem components_rest (h : skipelem path = some (name, rest)) :
    components rest = [] ↔ first rest = 0 := by
  rw [skipelem_eq] at h
  split at h
  · exact nomatch h
  · obtain ⟨-, rfl⟩ := Prod.mk.inj (Option.some.inj h)
    refine ⟨fun hnil => ?_, fun hz => ?_⟩
    · by_contra hne
      have hs := first_dropWhile_slash
        ((path.dropWhile (· = slash)).dropWhile fun c => decide (c ≠ slash ∧ c ≠ 0))
      rw [← first_chars] at hne hs
      unfold components at hnil
      rw [pieces_of_first hne hs] at hnil
      exact nomatch hnil
    · unfold components
      rw [chars_eq_nil hz]
      rfl

theorem length_of_skipelem {rest : List UInt8} (h : skipelem path = some (name, rest)) :
    rest.length < path.length := by
  unfold skipelem at h
  have hle : (path.dropWhile (· = slash)).length ≤ path.length :=
    (List.dropWhile_suffix _).length_le
  have hslash : ∀ c cs, path.dropWhile (· = slash) = c :: cs → c ≠ slash := by
    intro c cs hcs hc
    have hnot := List.head_dropWhile_not (p := (· = slash)) (l := path) (by rw [hcs]; nofun)
    simp [hcs, hc] at hnot
  generalize path.dropWhile (· = slash) = q at h hle hslash
  simp only at h
  split at h
  · exact nomatch h
  · rename_i hne
    cases q with
    | nil => exact absurd rfl hne
    | cons c cs =>
      obtain ⟨-, rfl⟩ := Prod.mk.inj (Option.some.inj h)
      have hc : decide (c ≠ slash ∧ c ≠ 0) = true :=
        decide_eq_true ⟨hslash c cs rfl, hne⟩
      rw [List.dropWhile_cons, if_pos hc]
      have h1 := (List.dropWhile_suffix (· = slash)
        (l := cs.dropWhile fun c => decide (c ≠ slash ∧ c ≠ 0))).length_le
      have h2 := (List.dropWhile_suffix (fun c => decide (c ≠ slash ∧ c ≠ 0)) (l := cs)).length_le
      simp only [List.length_cons] at hle
      omega


/-! ## Walking -/

/-- What a directory has under a name; nothing is found in an inode that is not a directory. -/
def Fs.child (fs : Fs) (dp : ℕ) (name : List UInt8) : Option ℕ :=
  if fs.type dp = .dir then (lookup name (fs.dirents dp) 0).map Prod.snd else none

def Fs.walk (fs : Fs) (ip : ℕ) (names : List (List UInt8)) : Option ℕ := names.foldlM fs.child ip

/-- All names but the last, up to a directory, and the last. -/
def Fs.walkParent (fs : Fs) (ip : ℕ) (names : List (List UInt8)) : Option (ℕ × List UInt8) := do
  let last ← names.getLast?
  let dp ← fs.walk ip names.dropLast
  if fs.type dp = .dir then some (dp, last) else none

theorem Fs.walkParent_congr (htype : fs'.type = fs.type) (hdirents : fs'.dirents = fs.dirents) :
    fs'.walkParent = fs.walkParent := by
  have hchild : fs'.child = fs.child := by
    unfold Fs.child
    rw [htype, hdirents]
  unfold Fs.walkParent Fs.walk
  rw [hchild, htype]

def start (cwd : ℕ) (path : List UInt8) : ℕ := if first path = slash then rootIno else cwd

def Fs.resolve (fs : Fs) (parent : Bool) (ip : ℕ) (names : List (List UInt8)) :
    Option (ℕ × List UInt8) :=
  if parent then fs.walkParent ip names else (fs.walk ip names).map (·, [])

theorem Fs.walk_cons (fs : Fs) (ip : ℕ) (name : List UInt8) (names : List (List UInt8)) :
    fs.walk ip (name :: names) = (fs.child ip name).bind (fs.walk · names) := List.foldlM_cons ..

theorem Fs.resolve_nil (fs : Fs) (parent : Bool) (ip : ℕ) :
    fs.resolve parent ip [] = if parent then none else some (ip, []) := by
  cases parent <;> rfl

theorem Fs.resolve_last (fs : Fs) (ip : ℕ) (name : List UInt8) (hdir : fs.type ip = .dir) :
    fs.resolve true ip [name] = some (ip, name) := if_pos hdir

theorem Fs.resolve_not_dir (hdir : fs.type ip ≠ .dir) (parent : Bool) :
    fs.resolve parent ip (name :: names) = none := by
  have hchild : fs.child ip name = none := if_neg hdir
  cases parent with
  | false => exact congrArg (Option.map _) ((fs.walk_cons ..).trans (by rw [hchild]))
  | true =>
    cases names with
    | nil => exact if_neg hdir
    | cons name' names =>
      show fs.walkParent ip (name :: name' :: names) = none
      unfold Fs.walkParent
      rw [List.dropLast_cons_cons, fs.walk_cons, hchild]
      simp

theorem Fs.resolve_cons (h : ¬ (parent = true ∧ names = [])) :
    fs.resolve parent ip (name :: names) =
      (fs.child ip name).bind (fs.resolve parent · names) := by
  cases parent with
  | false =>
    show ((fs.walk ip (name :: names)).map _) = _
    rw [fs.walk_cons, Option.map_bind]
    rfl
  | true =>
    cases names with
    | nil => exact absurd ⟨rfl, rfl⟩ h
    | cons name' names =>
      show fs.walkParent ip (name :: name' :: names) =
        (fs.child ip name).bind (fs.walkParent · (name' :: names))
      unfold Fs.walkParent
      rw [List.dropLast_cons_cons, fs.walk_cons, List.getLast?_cons_cons]
      cases fs.child ip name with
      | none => simp
      | some ip' => rfl

/-- `E` has the panics of `namex`. -/
structure WalkPanics (ninodes : ℕ) (fs : Fs) (held : List ℕ) (E : FsPanic → Prop) : Prop where
  noInodes : nInode ≤ fs.inUse ninodes + (held.length + 1) → E .igetNoInodes
  noType : ¬ fs.NoDangling → E .ilockNoType

theorem Panics.walk (h : Panics fs E) : WalkPanics ninodes fs held E :=
  ⟨fun _ => h.other _ nofun, h.noType⟩

/-- A path ends at an inode with a reference, or nowhere; `nameiparent` at a directory. -/
structure Resolved (fs : Fs) (held : List ℕ) (parent : Bool) (r : Option (ℕ × List UInt8))
    (fs' : Fs) : Prop where
  touched : Touched fs fs' ((r.map Prod.fst).toList ++ held)
  alloc : ∀ p, r = some p → fs.NoDangling → fs.Alloc p.1
  dir : ∀ p, r = some p → parent = true → fs.type p.1 = .dir

theorem Resolved.none {fs' : Fs} (h : Touched fs fs' held) : Resolved fs held parent none fs' :=
  ⟨h, nofun, nofun⟩

/-- **The loop of `namex`**, which holds one reference at a time. -/
theorem namexLoop_spec (hr : RefOk fs) (hE : WalkPanics ninodes fs held E) (parent : Bool)
    (fuel : ℕ) : ∀ (ip : ℕ) (path : List UInt8), path.length < fuel →
      (fs.NoDangling → fs.Alloc ip) →
      Ensures (Touched fs · (ip :: held)) (namexLoop ninodes parent fuel ip path)
        (fun r fs' => Resolved fs held parent r fs' ∧ r = fs.resolve parent ip (components path))
        E := by
  have hput : ∀ (ip : ℕ) (x : Option (ℕ × List UInt8)), x = none →
      Ensures (Touched fs · (ip :: held)) (iput ip >>= fun _ => pure none)
        (fun r fs' => Resolved fs held parent r fs' ∧ r = x) E := by
    rintro ip _ rfl
    exact .bind (iput_spec hr ip) fun _ => .pure fun fs' h => ⟨.none h, rfl⟩
  induction fuel with
  | zero => exact fun _ _ hlen => nomatch hlen
  | succ fuel ih =>
    intro ip path hlen hip
    unfold namexLoop
    cases hskip : skipelem path with
    | none =>
      rw [components_of_skipelem_none hskip, fs.resolve_nil]
      refine .ite (fun hp => hput ip _ (if_pos hp)) fun hp => .pure fun fs' h =>
        ⟨⟨h, fun p hp' => ?_, fun _ _ hp' => absurd hp' hp⟩, (if_neg hp).symm⟩
      cases hp'
      exact hip
    | some r =>
      obtain ⟨name, rest⟩ := r
      have hrest : rest.length < fuel := by
        have hlt := length_of_skipelem hskip
        omega
      have hheld : ¬ fs.ref ip + (ip :: held).count ip < 1 := by
        have hn := hr.nonneg ip
        rw [List.count_cons_self]
        omega
      rw [components_of_skipelem hskip]
      refine .bind (ilock_of_ref (absurd · hheld) fun ha => hE.noType fun hd => ha (hip hd))
        fun _ => .get ?_
      rintro fs' ⟨h, -, halloc⟩
      have hsame : ∀ t, t = fs' → Touched fs t (ip :: held) := by
        rintro t rfl
        exact h
      rw [h.type]
      refine .ite (fun hdir => (hput ip _ (fs.resolve_not_dir hdir parent)).pre hsame) fun hdir => ?_
      rw [not_not] at hdir
      refine .ite (fun hlast => .pure ?_) fun hmore => ?_
      · rintro fs' rfl
        rw [(components_rest hskip).mpr hlast.2, hlast.1, fs.resolve_last ip name hdir]
        refine ⟨⟨h, fun p hp _ => ?_, fun p hp _ => ?_⟩, rfl⟩ <;> cases hp
        · exact halloc
        · exact hdir
      · rw [← components_rest hskip] at hmore
        rw [fs.resolve_cons hmore]
        refine .bind ((dirlookup_of_room hr hE.noInodes (absurd hdir) name).pre hsame) fun r => ?_
        unfold Fs.child
        rw [if_pos hdir]
        refine .of_forall fun t ht => ?_
        obtain ⟨hl, -, ht⟩ := ht
        cases r with
        | none =>
          refine (hput ip _ ?_).pre ?_
          · rw [hl]
            rfl
          · rintro t rfl
            exact ht
        | some next =>
          rw [hl]
          -- the next inode is held before the last one is put
          refine .bind ((iput_spec hr ip).pre ?_) fun _ =>
            ih next.1 rest hrest (alloc_of_lookup hdir hl)
          rintro t rfl
          exact ht.perm (.swap ..)

theorem namexLoop_fuel (parent : Bool) {n m : ℕ} :
    ∀ (ip : ℕ) (path : List UInt8), path.length < n → path.length < m →
      namexLoop ninodes parent n ip path = namexLoop ninodes parent m ip path := by
  induction n generalizing m with
  | zero => exact fun _ _ h => nomatch h
  | succ n ih =>
    intro ip path hn hm
    cases m with
    | zero => exact nomatch hm
    | succ m =>
      unfold namexLoop
      cases hskip : skipelem path with
      | none => rfl
      | some r =>
        have hlt : r.2.length < path.length := length_of_skipelem hskip
        simp only [ih _ r.2 (by omega) (show r.2.length < m by omega)]

section Paths

variable (hr : RefOk fs) (hroot : fs.Alloc rootIno) (hcwd : 0 < fs.ref cwd) (hcwd' : fs.Alloc cwd)

include hr hroot hcwd hcwd'

theorem namex_resolves (hE : WalkPanics ninodes fs held E) (path : List UInt8) (parent : Bool) :
    Ensures (Touched fs · held) (namex ninodes cwd path parent)
        (fun r fs' => Resolved fs held parent r fs' ∧
        r = fs.resolve parent (start cwd path) (components path)) E := by
  unfold start
  refine .ite (fun habs => ?_) fun hrel => ?_
  · rw [if_pos habs]
    have hroom : nInode ≤ fs.inUse ninodes + held.length → E .igetNoInodes :=
      fun h => hE.noInodes (by omega)
    exact .bind (iget_of_room hr hroom rootIno) fun _ =>
      namexLoop_spec hr hE parent _ _ path (Nat.lt_succ_self _) fun _ => hroot
  · rw [if_neg hrel]
    exact .bind (idup_spec hcwd) fun _ =>
      namexLoop_spec hr hE parent _ _ path (Nat.lt_succ_self _) fun _ => hcwd'

theorem namei_resolves (hE : WalkPanics ninodes fs held E) (path : List UInt8) :
    Ensures (Touched fs · held) (namei ninodes cwd path)
        (fun r fs' => Resolved fs held false (r.map (·, [])) fs' ∧
        r = fs.walk (start cwd path) (components path)) E := by
  refine .bind (namex_resolves hr hroot hcwd hcwd' hE path false) fun r => .pure fun fs' h => ?_
  obtain ⟨h, rfl⟩ := h
  have heq : fs.resolve false (start cwd path) (components path) =
    (fs.walk (start cwd path) (components path)).map (·, []) := rfl
  rw [heq] at h ⊢
  cases hwalk : fs.walk (start cwd path) (components path) with
  | none | some => exact ⟨by rwa [hwalk] at h, rfl⟩

theorem namei_spec (hE : Panics fs E) (path : List UInt8) :
    Ensures (Touched fs · held) (namei ninodes cwd path)
      (fun r fs' => Touched fs fs' (r.toList ++ held) ∧
      (∀ i, r = some i → fs.NoDangling → fs.Alloc i) ∧
      r = fs.walk (start cwd path) (components path)) E := by
  refine (namei_resolves hr hroot hcwd hcwd' hE.walk path).post fun r fs' h => ⟨?_, ?_, h.2⟩
  · have ht := h.1.touched
    rwa [Option.map_map, show Prod.fst ∘ (·, ([] : List UInt8)) =
      (id : ℕ → ℕ) from rfl, Option.map_id] at ht
  · rintro i rfl
    exact h.1.alloc _ rfl

/-- **`namei` and `nameiparent` walk the tree** along the elements of the path. They come to an end
for every path; in a tree without dangling entries, and with room for two more inodes in the table,
they do not panic. -/
theorem namei_walks (path : List UInt8) :
    (∀ r fs', namei ninodes cwd path fs = .ok (r, fs') →
      r = fs.walk (start cwd path) (components path)) ∧
    (∀ r fs', nameiparent ninodes cwd path fs = .ok (r, fs') →
      r = fs.walkParent (start cwd path) (components path)) ∧
    (fs.NoDangling → fs.inUse ninodes + 1 < nInode →
      (∃ fs', namei ninodes cwd path fs =
        .ok (fs.walk (start cwd path) (components path), fs')) ∧
      ∃ fs', nameiparent ninodes cwd path fs =
        .ok (fs.walkParent (start cwd path) (components path), fs')) ∧
    ∀ parent ip fuel, path.length < fuel →
      namexLoop ninodes parent fuel ip path = namexLoop ninodes parent (path.length + 1) ip path := by
  have hany : WalkPanics ninodes fs [] fun _ => True := ⟨fun _ => trivial, fun _ => trivial⟩
  have hstart : Touched fs fs [] := .refl hr
  refine ⟨fun r fs' h => ?_, fun r fs' h => ?_, fun hd hroom => ?_, fun parent ip fuel hfuel => ?_⟩
  · exact ((namei_resolves hr hroot hcwd hcwd' hany path).ok hstart h).2
  · exact ((namex_resolves hr hroot hcwd hcwd' hany path true).ok hstart h).2
  · have hnone : WalkPanics ninodes fs [] fun _ => False :=
      ⟨fun h => absurd h (by simpa using hroom), fun h => h hd⟩
    refine ⟨?_, ?_⟩
    · have h := namei_resolves hr hroot hcwd hcwd' hnone path fs hstart
      split at h
      · rename_i r fs' heq
        exact ⟨fs', h.2 ▸ heq⟩
      · exact h.elim
    · have h := namex_resolves hr hroot hcwd hcwd' hnone path true fs hstart
      split at h
      · rename_i r fs' heq
        rw [h.2] at heq
        exact ⟨fs', heq⟩
      · exact h.elim
  · exact namexLoop_fuel parent ip path hfuel (Nat.lt_succ_self _)

end Paths

/-- The root, with a directory `d`, which has a file `f`. -/
def twoLevels : Fs where
  inode i :=
    if i = 1 then ⟨.dir, 0, 1, [⟨1, dot⟩, ⟨1, dotdot⟩, ⟨2, [100]⟩]⟩
    else if i = 2 then ⟨.dir, 0, 1, [⟨2, dot⟩, ⟨1, dotdot⟩, ⟨3, [102]⟩]⟩
    else if i = 3 then ⟨.file, 0, 1, []⟩
    else .zero
  ref i := if i = 1 then 1 else 0
  valid _ := false
  lost := []

theorem refOk_twoLevels : RefOk twoLevels where
  nonneg i := by
    show 0 ≤ if i = 1 then (1 : ℤ) else 0
    split <;> decide
  valid i _ h := nomatch h
  kept i halloc hn := by
    by_cases h1 : i = 1
    · subst h1
      decide
    · by_cases h2 : i = 2
      · subst h2
        exact nomatch hn
      · by_cases h3 : i = 3
        · subst h3
          exact nomatch hn
        · simp [Fs.Alloc, Fs.type, twoLevels, h1, h2, h3, Inode.zero] at halloc

theorem namei_walks_twoLevels :
    (∃ fs', namei 200 1 [47, 100, 47, 47, 102, 47] twoLevels = .ok (some 3, fs')) ∧
      ∃ fs', nameiparent 200 1 [47, 100, 47, 47, 102, 47] twoLevels = .ok (some (2, [102]), fs') := by
  have hdangling : twoLevels.NoDangling := by
    intro d hd de hde _
    by_cases h1 : d = 1
    · subst h1
      exact (show ∀ de ∈ twoLevels.dirents 1, twoLevels.type de.inum ≠ .free by decide) de hde
    · by_cases h2 : d = 2
      · subst h2
        exact (show ∀ de ∈ twoLevels.dirents 2, twoLevels.type de.inum ≠ .free by decide) de hde
      · simp only [Fs.type, twoLevels, if_neg h1, if_neg h2] at hd
        split at hd <;> exact nomatch hd
  have halloc : twoLevels.Alloc 1 := show twoLevels.type 1 ≠ .free by decide
  have hroom : twoLevels.inUse 200 + 1 < nInode := by decide +kernel
  exact (namei_walks refOk_twoLevels halloc (by decide) halloc [47, 100, 47, 47, 102, 47]).2.2.1
    hdangling hroom

end LazyXv6.FileTree
