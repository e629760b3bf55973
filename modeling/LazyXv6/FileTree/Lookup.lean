import LazyXv6.FileTree.Inode

/-!
# Looking up names

Resolving a path and looking up an entry takes references and reads inodes, and changes nothing else
(`Touched`). No inode is freed on the way: one that `iput` would free has no links, so that some
other reference keeps it (`RefOk`). The one panic of interest, "ilock: no type", needs an entry that
names a free inode (`NoDangling`).
-/

namespace LazyXv6.FileTree

open Function Lib

def Fs.Alloc (fs : Fs) (i : ℕ) : Prop := fs.type i ≠ .free

/-- Every entry in use, of every directory, names an inode in use. -/
def Fs.NoDangling (fs : Fs) : Prop :=
  ∀ d, fs.type d = .dir → ∀ de ∈ fs.dirents d, de.inum ≠ 0 → fs.Alloc de.inum

/-- What references are good for. -/
structure RefOk (fs : Fs) : Prop where
  nonneg : ∀ i, 0 ≤ fs.ref i
  valid : ∀ i, 0 < fs.ref i → fs.valid i = true → fs.Alloc i
  kept : ∀ i, fs.Alloc i → fs.nlink i = 0 → 0 < fs.ref i

/-- The references `held` were taken, and inodes read. -/
structure Touched (fs fs' : Fs) (held : List ℕ) : Prop where
  inode : fs'.inode = fs.inode
  lost : fs'.lost = fs.lost
  ref : ∀ i, fs'.ref i = fs.ref i + held.count i
  keeps : ∀ i, 0 < fs.ref i → fs.valid i = true → fs'.valid i = true
  valid : ∀ i, 0 < fs'.ref i → fs'.valid i = true → fs.Alloc i

variable {ninodes : ℕ} {fs fs' : Fs} {held : List ℕ} {i dp cwd : ℕ} {name path : List UInt8}
  {parent : Bool} {E : FsPanic → Prop}

theorem Touched.refl (h : RefOk fs) : Touched fs fs [] :=
  ⟨rfl, rfl, fun _ => (add_zero _).symm, fun _ _ hv => hv, h.valid⟩

theorem Touched.type (h : Touched fs fs' held) : fs'.type = fs.type := by
  unfold Fs.type
  rw [h.inode]

theorem Touched.nlink (h : Touched fs fs' held) : fs'.nlink = fs.nlink := by
  unfold Fs.nlink
  rw [h.inode]

theorem Touched.dirents (h : Touched fs fs' held) : fs'.dirents = fs.dirents := by
  unfold Fs.dirents
  rw [h.inode]

theorem Touched.alloc (h : Touched fs fs' held) : fs'.Alloc = fs.Alloc := by
  unfold Fs.Alloc
  rw [h.type]

theorem Touched.refOk (h : Touched fs fs' held) (hr : RefOk fs) : RefOk fs' where
  nonneg i := by
    rw [h.ref]
    have hi := hr.nonneg i
    omega
  valid i hi hv := h.alloc ▸ h.valid i hi hv
  kept i ha hn := by
    rw [h.alloc] at ha
    rw [h.nlink] at hn
    rw [h.ref]
    have hi := hr.kept i ha hn
    omega

theorem Touched.trans {fs'' : Fs} {taken : List ℕ} (h : Touched fs fs' held)
    (h' : Touched fs' fs'' taken) : Touched fs fs'' (taken ++ held) where
  inode := h'.inode.trans h.inode
  lost := h'.lost.trans h.lost
  ref i := by
    rw [h'.ref, h.ref, List.count_append]
    push_cast
    ring
  keeps i hi hv := by
    refine h'.keeps i ?_ (h.keeps i hi hv)
    rw [h.ref]
    omega
  valid i hi hv := h.alloc ▸ h'.valid i hi hv

theorem Touched.perm (h : Touched fs fs' held) {held' : List ℕ} (hp : held.Perm held') :
    Touched fs fs' held' :=
  ⟨h.inode, h.lost, fun i => hp.count_eq i ▸ h.ref i, h.keeps, h.valid⟩

theorem count_cons_update (f : ℕ → ℤ) (i j : ℕ) (held : List ℕ) :
    f j + ((i :: held).count j : ℤ) = f j + held.count j + if j = i then 1 else 0 := by
  rw [List.count_cons]
  rcases eq_or_ne j i with rfl | hne
  · simp
    ring
  · simp [hne, hne.symm]

theorem Touched.take (h : Touched fs fs' held) {v : ℕ → Bool}
    (hkeeps : ∀ j, 0 < fs.ref j → fs'.valid j = true → v j = true)
    (hvalid : ∀ j, v j = true → (j = i ∨ 0 < fs'.ref j) → fs.Alloc j) :
    Touched fs { fs' with ref := update fs'.ref i (fs'.ref i + 1), valid := v } (i :: held) where
  inode := h.inode
  lost := h.lost
  ref j := by
    rw [count_cons_update, ← h.ref]
    rcases eq_or_ne j i with rfl | hne
    · simp
    · simp [hne]
  keeps j hj hv := hkeeps j hj (h.keeps j hj hv)
  valid j hj hv := by
    refine hvalid j hv ?_
    rcases eq_or_ne j i with rfl | hne
    · exact .inl rfl
    · exact .inr (by simpa [hne] using hj)

/-- `E` has all panics but that of `ilock` on a free inode. -/
def Others (E : FsPanic → Prop) : Prop := ∀ e, e ≠ .ilockNoType → E e

/-- `E` has this one too if an entry dangles. -/
structure Panics (fs : Fs) (E : FsPanic → Prop) : Prop where
  other : Others E
  noType : ¬ fs.NoDangling → E .ilockNoType

theorem Touched.inUse_le (h : Touched fs fs' held) (ninodes : ℕ) :
    fs'.inUse ninodes ≤ fs.inUse ninodes + held.length := by
  have hin : ((List.range ninodes).filter (· ∈ held)).length ≤ held.length := by
    refine (List.subperm_of_subset (List.nodup_range.filter _) fun i hi => ?_).length_le
    simpa using (List.mem_filter.mp hi).2
  have hsplit : fs'.inUse ninodes ≤ (List.range ninodes).countP fun i =>
      decide (0 < fs.ref i) || decide (i ∈ held) := by
    refine List.countP_mono_left fun i _ hi => ?_
    by_cases hmem : i ∈ held
    · simp [hmem]
    · have heq := h.ref i
      rw [List.count_eq_zero.mpr hmem] at heq
      simpa [hmem, heq] using hi
  have hor : ∀ l : List ℕ, (l.countP fun i => decide (0 < fs.ref i) || decide (i ∈ held)) ≤
      (l.countP fun i => decide (0 < fs.ref i)) + (l.filter (· ∈ held)).length := by
    intro l
    induction l with
    | nil => exact le_rfl
    | cons i l ih =>
      rw [List.countP_cons, List.countP_cons, List.filter_cons]
      by_cases hi : 0 < fs.ref i <;> by_cases hmem : i ∈ held <;> simp [hi, hmem] <;> omega
  exact hsplit.trans ((hor _).trans (by simpa [Fs.inUse] using hin))

theorem iget_of_room (hr : RefOk fs)
    (hE : nInode ≤ fs.inUse ninodes + held.length → E .igetNoInodes) (i : ℕ) :
    Ensures (Touched fs · held) (iget ninodes i) (fun _ => (Touched fs · (i :: held))) E := by
  refine .get fun fs' h => .ite (fun hpos => .modify ?_) fun hpos =>
    .ite (fun hfull => .throw fun _ _ => hE (hfull.trans (h.inUse_le ninodes))) fun _ => .modify ?_
  · rintro fs' rfl
    refine h.take (fun j _ hv => hv) fun j hv hj => ?_
    rcases hj with rfl | hj
    · exact h.valid j hpos hv
    · exact h.valid j hj hv
  · rintro fs' rfl
    have hzero : fs'.ref i = 0 := le_antisymm (not_lt.mp hpos) ((h.refOk hr).nonneg i)
    have hbase : fs.ref i = 0 := by
      have heq := h.ref i
      have hn := hr.nonneg i
      omega
    have htake := h.take (i := i) (v := update fs'.valid i false) ?_ ?_
    · rwa [hzero, zero_add] at htake
    · intro j hj hv
      rcases eq_or_ne j i with rfl | hne
      · omega
      · rwa [update_of_ne hne]
    · intro j hv hj
      rcases eq_or_ne j i with rfl | hne
      · rw [update_self] at hv
        exact nomatch hv
      · rw [update_of_ne hne] at hv
        exact h.valid j (hj.resolve_left hne) hv

theorem idup_spec (hi : 0 < fs.ref i) :
    Ensures (Touched fs · held) (idup i) (fun _ => (Touched fs · (i :: held))) E := by
  refine .modify fun fs' h => h.take (fun j _ hv => hv) fun j hv hj => ?_
  rcases hj with rfl | hj
  · have heq := h.ref j
    exact h.valid j (by omega) hv
  · exact h.valid j hj hv

theorem ilock_of_ref (hE : fs.ref i + held.count i < 1 → E .ilock)
    (hi : ¬ fs.Alloc i → E .ilockNoType) : Ensures (Touched fs · held) (ilock i)
    (fun _ fs' => Touched fs fs' held ∧ fs'.valid i = true ∧ fs.Alloc i) E := by
  refine .get fun fs' h => .ite (fun hlt => .throw fun _ _ => hE (h.ref i ▸ hlt)) fun hpos =>
    .ite (fun hv => ?_) fun hv => .ite (fun hfree => .throw fun _ _ => hi fun ha => ?_)
      fun hfree => .modify ?_
  · refine .pure ?_
    rintro fs' rfl
    exact ⟨h, hv, h.valid i (by omega) hv⟩
  · rw [← h.alloc] at ha
    exact ha hfree
  · rintro fs' rfl
    have halloc : fs.Alloc i := h.alloc ▸ hfree
    refine ⟨⟨h.inode, h.lost, h.ref, fun j hj hvj => ?_, fun j hj hvj => ?_⟩, update_self .., halloc⟩
    · rcases eq_or_ne j i with rfl | hne
      · exact update_self ..
      · exact (update_of_ne hne ..).trans (h.keeps j hj hvj)
    · rcases eq_or_ne j i with rfl | hne
      · exact halloc
      · exact h.valid j hj ((update_of_ne hne ..).symm.trans hvj)

theorem ilock_spec (hE : Others E) (hi : ¬ fs.Alloc i → E .ilockNoType) :
    Ensures (Touched fs · held) (ilock i)
      (fun _ fs' => Touched fs fs' held ∧ fs'.valid i = true ∧ fs.Alloc i) E :=
  ilock_of_ref (fun _ => hE _ nofun) hi

theorem Touched.iput (h : Touched fs fs' held) (hr : RefOk fs) (hi : i ∈ held) :
    Touched fs (fs'.iput i) (held.erase i) := by
  have hcount : 0 < held.count i := List.count_pos_iff.mpr hi
  have hnot : ¬ (fs'.ref i = 1 ∧ fs'.valid i = true ∧ fs'.nlink i = 0) := by
    rintro ⟨hone, hv, hn⟩
    have hk := hr.kept i (h.valid i (by omega) hv) (h.nlink ▸ hn)
    have heq := h.ref i
    omega
  unfold Fs.iput
  rw [if_neg hnot]
  refine ⟨h.inode, h.lost, fun j => ?_, h.keeps, fun j hj hv => h.valid j ?_ hv⟩
  · show update fs'.ref i (fs'.ref i - 1) j = _
    rcases eq_or_ne j i with rfl | hne
    · rw [update_self, h.ref, List.count_erase_self]
      omega
    · rw [update_of_ne hne, h.ref, List.count_erase_of_ne hne]
  · rcases eq_or_ne j i with rfl | hne
    · have heq := h.ref j
      have hn := hr.nonneg j
      omega
    · have hj' : 0 < update fs'.ref i (fs'.ref i - 1) j := hj
      rwa [update_of_ne hne] at hj'

theorem iput_spec (hr : RefOk fs) (i : ℕ) :
    Ensures (Touched fs · (i :: held)) (iput i) (fun _ => (Touched fs · held)) E := by
  refine .modify fun fs' h => ?_
  have hput := h.iput hr List.mem_cons_self
  rwa [List.erase_cons_head] at hput

theorem dirlookup_of_room (hr : RefOk fs)
    (hroom : nInode ≤ fs.inUse ninodes + held.length → E .igetNoInodes)
    (hE : fs.type dp ≠ .dir → E .dirlookupNotDir) (name : List UInt8) :
    Ensures (Touched fs · held) (dirlookup ninodes dp name)
      (fun r fs' => lookup name (fs.dirents dp) 0 = r.map Prod.swap ∧ fs.type dp = .dir ∧
        Touched fs fs' ((r.map Prod.fst).toList ++ held)) E := by
  refine .get fun fs' h => .ite (fun hnot => .throw fun _ _ => hE (h.type ▸ hnot)) fun hdir => ?_
  have hdir' : fs.type dp = .dir := h.type ▸ not_not.mp hdir
  rw [h.dirents]
  cases hl : lookup name (fs.dirents dp) 0 with
  | none =>
    refine .pure ?_
    rintro fs' rfl
    exact ⟨rfl, hdir', h⟩
  | some r =>
    refine .bind ((iget_of_room hr hroom r.2).pre ?_) fun _ => .pure fun fs'' h' =>
      ⟨rfl, hdir', h'⟩
    rintro fs' rfl
    exact h

theorem dirlookup_spec (hr : RefOk fs) (hE : Others E) (dp : ℕ) (name : List UInt8) :
    Ensures (Touched fs · held) (dirlookup ninodes dp name)
      (fun r fs' => lookup name (fs.dirents dp) 0 = r.map Prod.swap ∧ fs.type dp = .dir ∧
        Touched fs fs' ((r.map Prod.fst).toList ++ held)) E :=
  dirlookup_of_room hr (fun _ => hE _ nofun) (fun _ => hE _ nofun) name

theorem mem_of_lookup {des : List Dirent} {off k : ℕ} (h : lookup name des k = some (off, i)) :
    ∃ de ∈ des, de.inum = i ∧ i ≠ 0 := by
  induction des generalizing k with
  | nil => exact nomatch h
  | cons de des ih =>
    rw [lookup] at h
    split at h
    · obtain ⟨de', hde', hi⟩ := ih h
      exact ⟨de', List.mem_cons_of_mem _ hde', hi⟩
    · rename_i hne
      split at h
      · cases h
        exact ⟨de, List.mem_cons_self, rfl, hne⟩
      · obtain ⟨de', hde', hi⟩ := ih h
        exact ⟨de', List.mem_cons_of_mem _ hde', hi⟩

theorem alloc_of_lookup {off k : ℕ} (hdir : fs.type dp = .dir)
    (h : lookup name (fs.dirents dp) k = some (off, i)) (hd : fs.NoDangling) : fs.Alloc i := by
  obtain ⟨de, hde, hi, hne⟩ := mem_of_lookup h
  exact hi ▸ hd dp hdir de hde (hi.symm ▸ hne)

/-- `dirlink` adds an entry under a name that is not there, or changes nothing. -/
theorem dirlink_spec (hr : RefOk fs) (hE : Others E) (dp : ℕ) (name : List UInt8) (inum : ℕ)
    (room : Bool) : Ensures (Touched fs · held) (dirlink ninodes dp name inum room)
    (fun r fs' => match r with
        | false => Touched fs fs' held
        | true => ∃ des t, lookup name (fs.dirents dp) 0 = none ∧ fs.type dp = .dir ∧
            writeDirent (fs.dirents dp) (emptyDirent (fs.dirents dp))
              ⟨inum % 2 ^ 16, strncpy name dirSiz⟩ room = some des ∧
            Touched fs t held ∧ fs' = t.setDirents dp des) E := by
  refine .bind (dirlookup_spec hr hE dp name) fun r => ?_
  cases r with
  | some r =>
    exact .bind ((iput_spec hr r.1).pre fun t ht => ht.2.2) fun _ => .pure fun t ht => ht
  | none =>
    refine .get fun t ht => ?_
    obtain ⟨hl, hdir, ht⟩ := ht
    rw [ht.dirents]
    cases hw : writeDirent (fs.dirents dp) (emptyDirent (fs.dirents dp))
      ⟨inum % 2 ^ 16, strncpy name dirSiz⟩ room with
    | none =>
      exact .ret ht
    | some des =>
      refine .bind (Q := fun _ t' => t' = t.setDirents dp des) (.modify ?_) fun _ => .pure ?_
      · rintro t rfl
        rfl
      · rintro t' rfl
        exact ⟨des, t, hl, hdir, rfl, ht, rfl⟩

end LazyXv6.FileTree
