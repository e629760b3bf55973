import LazyXv6.Lib.LinkGraph
import LazyXv6.FileTree.Paths

/-!
# Directories and link counts

The directories on disk make a link graph. `DiskInv` says that it is well formed, and that each
`nlink` is the number of links plus what a call under way has yet to settle: `owed` are the links
counted in advance or not yet taken off, and `fresh` is an inode that a call has allocated and not
yet entered in a directory. `I` is what else is to be kept of the graph and of the entries that were
lost.
-/

namespace LazyXv6.FileTree

open Function Lib

/-! ## Entries -/

/-- The inode that the second entry names. -/
def parentOf (des : List Dirent) : ℕ := (des.getD 1 ⟨0, []⟩).inum

/-- The name is neither `.` nor `..`. -/
def Plain (name : List UInt8) : Prop := namecmp name dot ≠ 0 ∧ namecmp name dotdot ≠ 0

/-- The first two entries of a directory `d` are `.` and `..`, and no other has these names. -/
inductive DirWf (d : ℕ) : List Dirent → Prop where
  | intro {n m : List UInt8} {p : ℕ} {rest : List Dirent} (hd : d ≠ 0) (hp : p ≠ 0)
      (hn : namecmp dot n = 0) (hm : namecmp dotdot m = 0)
      (hrest : ∀ de ∈ rest, de.inum ≠ 0 → Plain de.name) : DirWf d (⟨d, n⟩ :: ⟨p, m⟩ :: rest)

theorem DirWf.ne_zero {d : ℕ} {des : List Dirent} (h : DirWf d des) : d ≠ 0 := by
  obtain ⟨hd, -⟩ := h
  exact hd

theorem namecmp_eq_zero_iff {s t : List UInt8} :
    namecmp s t = 0 ↔ key s dirSiz = key t dirSiz := strncmp_eq_zero_iff s t dirSiz

theorem namecmp_comm {s t : List UInt8} (h : namecmp s t = 0) : namecmp t s = 0 :=
  namecmp_eq_zero_iff.mpr (namecmp_eq_zero_iff.mp h).symm

theorem namecmp_trans {s t u : List UInt8} (h : namecmp s t = 0) (h' : namecmp t u = 0) :
    namecmp s u = 0 :=
  namecmp_eq_zero_iff.mpr ((namecmp_eq_zero_iff.mp h).trans (namecmp_eq_zero_iff.mp h'))

theorem Plain.strncpy {name : List UInt8} (h : Plain name) : Plain (strncpy name dirSiz) := by
  unfold Plain at h ⊢
  simp only [ne_eq, namecmp_eq_zero_iff, key_strncpy] at h ⊢
  exact h

section Entries

variable {d i off k : ℕ} {name : List UInt8} {des des' rest : List Dirent} {de : Dirent}
    {room : Bool}

theorem kids_eq (e e' : Dirent) (rest : List Dirent) :
    kids (e :: e' :: rest) = rest.filterMap kid :=
  rfl

theorem filterMap_set_perm (h : k < rest.length) (de : Dirent) :
    ((rest.set k de).filterMap kid).Perm ((kid de).toList ++ (rest.eraseIdx k).filterMap kid) := by
  refine ((List.set_perm_cons_eraseIdx h de).filterMap kid).trans ?_
  rw [List.filterMap_cons]
  cases kid de <;> exact .refl _

theorem filterMap_perm (h : k < rest.length) :
    (rest.filterMap kid).Perm ((kid rest[k]).toList ++ (rest.eraseIdx k).filterMap kid) := by
  refine ((List.getElem_cons_eraseIdx_perm h).symm.filterMap kid).trans ?_
  rw [List.filterMap_cons]
  cases kid rest[k] <;> exact .refl _

theorem lookup_eq_some (h : lookup name des k = some (off, i)) :
    ∃ j de, off = k + j ∧ des[j]? = some de ∧ de.inum = i ∧ i ≠ 0 ∧ namecmp name de.name = 0 := by
  induction des generalizing k with
  | nil => exact nomatch h
  | cons de des ih =>
    rw [lookup] at h
    have hskip : lookup name des (k + 1) = some (off, i) → ∃ j de', off = k + j ∧
        (de :: des)[j]? = some de' ∧ de'.inum = i ∧ i ≠ 0 ∧ namecmp name de'.name = 0 := by
      intro h'
      obtain ⟨j, de', hoff, hde', hrest⟩ := ih h'
      exact ⟨j + 1, de', by omega, hde', hrest⟩
    split at h
    · exact hskip h
    · rename_i hne
      split at h
      · rename_i hcmp
        cases h
        exact ⟨0, de, rfl, rfl, rfl, hne, hcmp⟩
      · exact hskip h

theorem lookup_eq_none (h : lookup name des k = none) (hde : de ∈ des) (hne : de.inum ≠ 0) :
    namecmp name de.name ≠ 0 := by
  induction des generalizing k with
  | nil => cases hde
  | cons e des ih =>
    rw [lookup] at h
    rcases List.mem_cons.mp hde with rfl | hde
    · rw [if_neg hne] at h
      intro hcmp
      rw [if_pos hcmp] at h
      cases h
    · split at h
      · exact ih h hde
      · split at h
        · cases h
        · exact ih h hde

theorem DirWf.plain (hw : DirWf d des) (h : lookup name des k = none) : Plain name := by
  obtain ⟨hd, hp, hn, hm, -⟩ := hw
  have h0 := lookup_eq_none h List.mem_cons_self hd
  have h1 := lookup_eq_none h (List.mem_cons_of_mem _ List.mem_cons_self) hp
  exact ⟨fun hdot => h0 (namecmp_trans hdot hn), fun hdot => h1 (namecmp_trans hdot hm)⟩

/-- **A new entry** in a directory. -/
theorem DirWf.add (hw : DirWf d des) (hl : lookup name des k = none) (hi : i ≠ 0)
    (hwrite : writeDirent des (emptyDirent des) ⟨i, strncpy name dirSiz⟩ room = some des') :
    DirWf d des' ∧ (kids des').Perm (i :: kids des) ∧ parentOf des' = parentOf des := by
  have hplain := (hw.plain hl).strncpy
  obtain @⟨n, m, p, rest, hd, hp, hn, hm, hrest⟩ := hw
  have hoff : emptyDirent (⟨d, n⟩ :: ⟨p, m⟩ :: rest) = rest.findIdx (·.inum = 0) + 2 := by
    simp [emptyDirent, List.findIdx_cons, hd, hp]
  have hkid : kid ⟨i, strncpy name dirSiz⟩ = some i := if_neg hi
  rw [hoff] at hwrite
  unfold writeDirent at hwrite
  split at hwrite
  · exact nomatch hwrite
  split at hwrite
  · -- an entry that was not in use
    rename_i hlt
    have hlt' : rest.findIdx (·.inum = 0) < rest.length := by simpa using hlt
    have hfree : kid rest[rest.findIdx (·.inum = 0)] = none := by
      have hz := List.findIdx_getElem (w := hlt')
      exact if_pos (of_decide_eq_true hz)
    cases hwrite
    refine ⟨.intro hd hp hn hm fun de hde hne => ?_, ?_, rfl⟩
    · rcases List.mem_or_eq_of_mem_set hde with hde | rfl
      · exact hrest de hde hne
      · exact hplain
    · have hset := filterMap_set_perm hlt' ⟨i, strncpy name dirSiz⟩
      have hold := filterMap_perm hlt'
      rw [hkid] at hset
      rw [hfree] at hold
      exact hset.trans (hold.symm.cons i)
  · split at hwrite
    · exact nomatch hwrite
    · cases hwrite
      refine ⟨.intro hd hp hn hm fun de hde hne => ?_, ?_, rfl⟩
      · rcases List.mem_append.mp hde with hde | hde
        · exact hrest de hde hne
        · rw [List.mem_singleton.mp hde]
          exact hplain
      · show ((rest ++ [_]).filterMap kid).Perm (i :: rest.filterMap kid)
        rw [List.filterMap_append, List.filterMap_cons, hkid]
        exact List.perm_append_singleton i _

/-- A name other than `.` and `..` is found after their entries. -/
theorem DirWf.lookup_rest {e e' : Dirent} (hw : DirWf d (e :: e' :: rest))
    (hl : lookup name (e :: e' :: rest) 0 = some (off, i)) (hname : Plain name) :
    ∃ k de, off = k + 2 ∧ rest[k]? = some de ∧ de.inum = i ∧ kid de = some i := by
  obtain ⟨j, de, hoff, hde, rfl, hne, hcmp⟩ := lookup_eq_some hl
  obtain ⟨-, -, hn, hm, -⟩ := hw
  match j, hde with
  | 0, hde =>
    cases hde
    exact absurd (namecmp_trans hcmp (namecmp_comm hn)) hname.1
  | 1, hde =>
    cases hde
    exact absurd (namecmp_trans hcmp (namecmp_comm hm)) hname.2
  | k + 2, hde => exact ⟨k, de, by omega, hde, rfl, if_neg hne⟩

/-- **An entry is erased**, as `sys_unlink` does it. -/
theorem DirWf.erase (hw : DirWf d des) (hl : lookup name des 0 = some (off, i)) (hname : Plain name)
    (hwrite : writeDirent des off ⟨0, List.replicate dirSiz 0⟩ room = some des') :
    DirWf d des' ∧ (kids des).Perm (i :: kids des') ∧ parentOf des' = parentOf des := by
  have hlookup := hw
  obtain @⟨n, m, p, rest, hd, hp, hn, hm, hrest⟩ := hw
  obtain ⟨k, de, rfl, hde, rfl, hkid⟩ := hlookup.lookup_rest hl hname
  obtain ⟨hlt, hget⟩ := List.getElem?_eq_some_iff.mp hde
  unfold writeDirent at hwrite
  split at hwrite
  · exact nomatch hwrite
  rw [if_pos (by simpa using hlt)] at hwrite
  cases hwrite
  refine ⟨.intro hd hp hn hm fun e he hne' => ?_, ?_, rfl⟩
  · rcases List.mem_or_eq_of_mem_set he with he | rfl
    · exact hrest e he hne'
    · exact absurd rfl hne'
  · have hold := filterMap_perm hlt
    have hset := filterMap_set_perm hlt ⟨0, List.replicate dirSiz 0⟩
    rw [hget, hkid] at hold
    exact hold.trans (hset.symm.cons de.inum)

theorem DirWf.mem_kids_of_lookup (hw : DirWf d des) (hl : lookup name des 0 = some (off, i))
    (hname : Plain name) : i ∈ kids des := by
  have hlookup := hw
  obtain ⟨-⟩ := hw
  obtain ⟨k, de, -, hde, -, hkid⟩ := hlookup.lookup_rest hl hname
  exact List.mem_filterMap.mpr ⟨de, List.mem_of_getElem? hde, hkid⟩

theorem kids_eq_nil_of_isdirempty (hw : DirWf d des) (h : isdirempty des = true) :
    kids des = [] := by
  obtain @⟨n, m, p, rest, -, -, -, -, -⟩ := hw
  rw [kids_eq, List.filterMap_eq_nil_iff]
  intro de hde
  have hz := List.all_eq_true.mp h de hde
  exact if_pos (of_decide_eq_true hz)

end Entries

/-! ## The graph -/

section Disk

variable {ninodes : ℕ} {I : LinkGraph ℕ → List ℕ → Prop} {fresh : Option ℕ} {owed : List ℕ}
  {fs fs' : Fs} {d i y dp off : ℕ} {name : List UInt8} {des : List Dirent} {room : Bool} {ip : Inode}

def Fs.Dir (fs : Fs) (fresh : Option ℕ) (d : ℕ) : Prop := fs.type d = .dir ∧ fresh ≠ some d

instance (fs : Fs) (fresh : Option ℕ) (d : ℕ) : Decidable (fs.Dir fresh d) :=
  inferInstanceAs (Decidable (_ ∧ _))

def Fs.Settled (fs : Fs) (fresh : Option ℕ) (i : ℕ) : Prop := fs.Alloc i ∧ fresh ≠ some i

theorem Fs.alloc_of_dir (h : fs.type d = .dir) :
    fs.Alloc d := fun hfree => absurd (h.symm.trans hfree) nofun

theorem Fs.Dir.settled (h : fs.Dir fresh d) : fs.Settled fresh d := ⟨Fs.alloc_of_dir h.1, h.2⟩

def Fs.graph (fs : Fs) (ninodes : ℕ) (fresh : Option ℕ) : LinkGraph ℕ where
  root := rootIno
  dirs := {d ∈ Finset.range ninodes | fs.Dir fresh d}
  kids d := kids (fs.dirents d)
  parent d := parentOf (fs.dirents d)

/-- The links to an inode, with those that were lost or are owed. -/
def Fs.total (fs : Fs) (ninodes : ℕ) (fresh : Option ℕ) (owed : List ℕ) (i : ℕ) : ℕ :=
  (fs.graph ninodes fresh).links i + (fs.lost ++ owed).count i

/-- What holds of the inodes on disk in the course of a call. -/
structure DiskInv (ninodes : ℕ) (I : LinkGraph ℕ → List ℕ → Prop) (fresh : Option ℕ)
    (owed : List ℕ) (fs : Fs) : Prop where
  range : ∀ i, fs.Alloc i → 0 < i ∧ i < ninodes
  wf : (fs.graph ninodes fresh).Wf
  dir : ∀ d, fs.Dir fresh d → DirWf d (fs.dirents d)
  kids : ∀ d, fs.Dir fresh d → ∀ y ∈ kids (fs.dirents d), fs.Settled fresh y
  lost : ∀ y ∈ fs.lost ++ owed, fs.Settled fresh y
  nlink : ∀ i, fs.Settled fresh i → fs.nlink i = fs.total ninodes fresh owed i
  bound : ∀ i, fs.Settled fresh i → fs.total ninodes fresh owed i < 2 ^ 15
  keeps : I (fs.graph ninodes fresh) fs.lost

/-- What it says of a directory in place, -/
def Fs.DirOk (fs : Fs) (fresh : Option ℕ) (d : ℕ) : Prop :=
  DirWf d (fs.dirents d) ∧ ∀ y ∈ kids (fs.dirents d), fs.Settled fresh y

/-- and of the links to an inode in place. -/
def Fs.Counted (fs : Fs) (ninodes : ℕ) (fresh : Option ℕ) (owed : List ℕ) (i : ℕ) : Prop :=
  fs.nlink i = fs.total ninodes fresh owed i ∧ fs.total ninodes fresh owed i < 2 ^ 15

theorem DiskInv.of (range : ∀ i, fs.Alloc i → 0 < i ∧ i < ninodes)
    (wf : (fs.graph ninodes fresh).Wf) (dir : ∀ d, fs.Dir fresh d → fs.DirOk fresh d)
    (lost : ∀ y ∈ fs.lost ++ owed, fs.Settled fresh y)
    (link : ∀ i, fs.Settled fresh i → fs.Counted ninodes fresh owed i)
    (keeps : I (fs.graph ninodes fresh) fs.lost) : DiskInv ninodes I fresh owed fs :=
  ⟨range, wf, fun d hd => (dir d hd).1, fun d hd => (dir d hd).2, lost, fun i hi => (link i hi).1,
    fun i hi => (link i hi).2, keeps⟩

theorem DiskInv.imp {J : LinkGraph ℕ → List ℕ → Prop} (h : DiskInv ninodes I fresh owed fs)
    (hJ : I (fs.graph ninodes fresh) fs.lost → J (fs.graph ninodes fresh) fs.lost) :
    DiskInv ninodes J fresh owed fs :=
  ⟨h.range, h.wf, h.dir, h.kids, h.lost, h.nlink, h.bound, hJ h.keeps⟩

theorem DiskInv.dirOk (h : DiskInv ninodes I fresh owed fs) (hd : fs.Dir fresh d) :
    fs.DirOk fresh d :=
  ⟨h.dir d hd, h.kids d hd⟩

theorem DiskInv.counted (h : DiskInv ninodes I fresh owed fs) (hi : fs.Settled fresh i) :
    fs.Counted ninodes fresh owed i :=
  ⟨h.nlink i hi, h.bound i hi⟩

theorem Fs.alloc_congr (h : fs'.type = fs.type) : fs'.Alloc = fs.Alloc := by
  unfold Fs.Alloc
  rw [h]

theorem Fs.settled_congr (h : fs'.type = fs.type) : fs'.Settled = fs.Settled := by
  unfold Fs.Settled
  rw [Fs.alloc_congr h]

theorem Fs.dir_congr (h : fs'.type = fs.type) : fs'.Dir = fs.Dir := by
  unfold Fs.Dir
  rw [h]

theorem DiskInv.mem_dirs (h : DiskInv ninodes I fresh owed fs) :
    d ∈ (fs.graph ninodes fresh).dirs ↔ fs.Dir fresh d := by
  unfold Fs.graph
  rw [Finset.mem_filter, Finset.mem_range]
  exact ⟨fun hd => hd.2, fun hd => ⟨(h.range d hd.settled.1).2, hd⟩⟩

theorem DiskInv.congr (h : DiskInv ninodes I fresh owed fs) (hinode : fs'.inode = fs.inode)
    (hlost : fs'.lost = fs.lost) : DiskInv ninodes I fresh owed fs' := by
  obtain ⟨inode, ref, valid, lost⟩ := fs
  obtain ⟨inode', ref', valid', lost'⟩ := fs'
  obtain rfl : inode' = inode := hinode
  obtain rfl : lost' = lost := hlost
  exact ⟨h.range, h.wf, h.dir, h.kids, h.lost, h.nlink, h.bound, h.keeps⟩

theorem DiskInv.root (h : DiskInv ninodes I fresh owed fs) : fs.Dir fresh rootIno :=
  h.mem_dirs.mp h.wf.root_mem

theorem DiskInv.total_eq_zero (h : DiskInv ninodes I fresh owed fs) (hi : fs.Settled fresh i)
    (h0 : fs.nlink i = 0) : fs.total ninodes fresh owed i = 0 := by
  have hn := h.nlink i hi
  omega

/-! ## Writes that keep the graph -/

structure SameGraph (fs fs' : Fs) : Prop where
  type : fs'.type = fs.type
  dirents : fs'.dirents = fs.dirents
  lost : fs'.lost = fs.lost

theorem SameGraph.graph_eq (h : SameGraph fs fs') :
    fs'.graph ninodes fresh = fs.graph ninodes fresh := by
  have hdirs : {d ∈ Finset.range ninodes | fs'.Dir fresh d} =
      {d ∈ Finset.range ninodes | fs.Dir fresh d} :=
      Finset.filter_congr fun d _ => by rw [Fs.dir_congr h.type]
  unfold Fs.graph
  rw [hdirs, h.dirents]

/-- What an inode has in common with the one that it is replaced by. -/
theorem Fs.field_setInode {β : Type} (F : Inode → β) (hF : F ip = F (fs.inode i)) (j : ℕ) :
    F ((fs.setInode i ip).inode j) = F (fs.inode j) := by
  rcases eq_or_ne j i with rfl | hne
  · rw [Fs.inode_setInode_self, hF]
  · rw [Fs.inode_setInode_of_ne fs hne]

theorem sameGraph_setNlink (fs : Fs) (i : ℕ) (n : ℤ) : SameGraph fs (fs.setNlink i n) :=
  ⟨funext (Fs.field_setInode (·.type) rfl), funext (Fs.field_setInode (·.dirents) rfl), rfl⟩

theorem nlink_setNlink (fs : Fs) (i : ℕ) (n : ℤ) (j : ℕ) :
    (fs.setNlink i n).nlink j = if j = i then toShort n else fs.nlink j := by
  unfold Fs.setNlink Fs.nlink
  split_ifs with he
  · rw [he, Fs.inode_setInode_self]
  · rw [Fs.inode_setInode_of_ne fs he]

/-- **`nlink` moves with what is owed.** -/
theorem DiskInv.setNlink {owed' : List ℕ} {n : ℤ} (h : DiskInv ninodes I fresh owed fs)
    (hlost : ∀ y ∈ owed', fs.Settled fresh y) (hother : ∀ j, j ≠ i → owed'.count j = owed.count j)
    (hn : toShort n = fs.total ninodes fresh owed' i)
    (hb : fs.total ninodes fresh owed' i < 2 ^ 15) :
    DiskInv ninodes I fresh owed' (fs.setNlink i n) := by
  have hsame := sameGraph_setNlink fs i n
  have htotal : ∀ o j, (fs.setNlink i n).total ninodes fresh o j = fs.total ninodes fresh o j := by
    intro o j
    unfold Fs.total
    rw [hsame.graph_eq, hsame.lost]
  have hcount : ∀ j, j ≠ i → fs.total ninodes fresh owed' j = fs.total ninodes fresh owed j := by
    intro j hj
    unfold Fs.total
    rw [List.count_append, List.count_append, hother j hj]
  refine .of ?_ ?_ ?_ ?_ ?_ ?_
  · rw [Fs.alloc_congr hsame.type]
    exact h.range
  · rw [hsame.graph_eq]
    exact h.wf
  · unfold Fs.DirOk
    rw [Fs.dir_congr hsame.type, hsame.dirents, Fs.settled_congr hsame.type]
    exact fun d hd => h.dirOk hd
  · rw [hsame.lost, Fs.settled_congr hsame.type]
    intro y hy
    rcases List.mem_append.mp hy with hy | hy
    · exact h.lost y (List.mem_append_left _ hy)
    · exact hlost y hy
  · rw [Fs.settled_congr hsame.type]
    intro j hj
    unfold Fs.Counted
    rw [htotal, nlink_setNlink]
    split_ifs with he
    · rw [he]
      exact ⟨hn, hb⟩
    · rw [hcount j he]
      exact h.counted hj
  · rw [hsame.graph_eq, hsame.lost]
    exact h.keeps

theorem total_cons (fs : Fs) (ninodes : ℕ) (fresh : Option ℕ) (owed : List ℕ) (i j : ℕ) :
    fs.total ninodes fresh (i :: owed) j = fs.total ninodes fresh owed j + [i].count j := by
  unfold Fs.total
  rw [← List.singleton_append, List.count_append, List.count_append, List.count_append]
  omega

theorem DiskInv.incNlink (h : DiskInv ninodes I fresh owed fs) (hi : fs.Settled fresh i)
    (hlt : fs.nlink i < shortMax) :
    DiskInv ninodes I fresh (i :: owed) (fs.setNlink i (fs.nlink i + 1)) := by
  have hn := h.nlink i hi
  unfold shortMax at hlt
  have htotal := total_cons fs ninodes fresh owed i i
  rw [List.count_singleton_self] at htotal
  refine h.setNlink ?_ (fun j hj => List.count_cons_of_ne hj.symm ..) ?_ (by omega)
  · rintro y (_ | ⟨_, hy⟩)
    · exact hi
    · exact h.lost y (List.mem_append_right _ hy)
  · unfold toShort
    omega

theorem DiskInv.decNlink (h : DiskInv ninodes I fresh (i :: owed) fs) :
    DiskInv ninodes I fresh owed (fs.setNlink i (fs.nlink i - 1)) := by
  have hi := h.lost i (List.mem_append_right _ List.mem_cons_self)
  have hn := h.nlink i hi
  have hb := h.bound i hi
  have htotal := total_cons fs ninodes fresh owed i i
  rw [List.count_singleton_self] at htotal
  refine h.setNlink (fun y hy => h.lost y ?_) (fun j hj => (List.count_cons_of_ne hj.symm ..).symm)
    ?_ (by omega)
  · exact List.mem_append_right _ (List.mem_cons_of_mem _ hy)
  · unfold toShort
    omega

/-! ## Entries that come and go -/

theorem Fs.type_setDirents (fs : Fs) (dp : ℕ) (des : List Dirent) :
    (fs.setDirents dp des).type = fs.type := funext (Fs.field_setInode (·.type) rfl)

theorem Fs.nlink_setDirents (fs : Fs) (dp : ℕ) (des : List Dirent) :
    (fs.setDirents dp des).nlink = fs.nlink := funext (Fs.field_setInode (·.nlink) rfl)

theorem Fs.dirents_setDirents_self (fs : Fs) (dp : ℕ) (des : List Dirent) :
    (fs.setDirents dp des).dirents dp = des := by
  unfold Fs.setDirents Fs.dirents
  rw [Fs.inode_setInode_self]

theorem Fs.dirents_setDirents_of_ne (fs : Fs) (hne : d ≠ dp) (des : List Dirent) :
    (fs.setDirents dp des).dirents d = fs.dirents d := by
  unfold Fs.setDirents Fs.dirents
  rw [Fs.inode_setInode_of_ne fs hne]

theorem Fs.settled_setDirents (fs : Fs) (dp : ℕ) (des : List Dirent) :
    (fs.setDirents dp des).Settled = fs.Settled := Fs.settled_congr (Fs.type_setDirents ..)

theorem Fs.dir_setDirents (fs : Fs) (dp : ℕ) (des : List Dirent) :
    (fs.setDirents dp des).Dir = fs.Dir :=
  Fs.dir_congr (Fs.type_setDirents ..)

theorem edits_setDirents (ninodes : ℕ) (fresh : Option ℕ)
    (hparent : parentOf des = parentOf (fs.dirents dp)) :
    LinkGraph.Edits (fs.graph ninodes fresh) ((fs.setDirents dp des).graph ninodes fresh) dp where
  root := rfl
  dirs := Finset.filter_congr fun d _ => by rw [Fs.dir_setDirents]
  kids z _ hne := congrArg FileTree.kids (Fs.dirents_setDirents_of_ne fs hne des)
  parent z _ := by
    show parentOf ((fs.setDirents dp des).dirents z) = parentOf (fs.dirents z)
    rcases eq_or_ne z dp with rfl | hne
    · rw [Fs.dirents_setDirents_self, hparent]
    · rw [Fs.dirents_setDirents_of_ne fs hne]

theorem kids_setDirents :
    ((fs.setDirents dp des).graph ninodes fresh).kids dp = FileTree.kids des :=
  congrArg FileTree.kids (Fs.dirents_setDirents_self fs dp des)

theorem DiskInv.edit {owed' : List ℕ} (h : DiskInv ninodes I fresh owed fs) (hdes : DirWf dp des)
    (hkids : ∀ y ∈ FileTree.kids des, fs.Settled fresh y)
    (hwf : ((fs.setDirents dp des).graph ninodes fresh).Wf)
    (howed : ∀ y ∈ owed', fs.Settled fresh y)
    (htotal : ∀ i, (fs.setDirents dp des).total ninodes fresh owed' i =
      fs.total ninodes fresh owed i)
    (hkeeps : I ((fs.setDirents dp des).graph ninodes fresh) fs.lost) :
    DiskInv ninodes I fresh owed' (fs.setDirents dp des) := by
  refine .of ?_ hwf (fun d hd => ?_) (fun y hy => ?_) ?_ hkeeps
  · rw [Fs.alloc_congr (Fs.type_setDirents ..)]
    exact h.range
  · rw [Fs.dir_setDirents] at hd
    unfold Fs.DirOk
    rw [Fs.settled_setDirents]
    rcases eq_or_ne d dp with rfl | hne
    · rw [Fs.dirents_setDirents_self]
      exact ⟨hdes, hkids⟩
    · rw [Fs.dirents_setDirents_of_ne fs hne]
      exact h.dirOk hd
  · rw [Fs.settled_setDirents]
    rcases List.mem_append.mp hy with hy | hy
    · exact h.lost y (List.mem_append_left _ hy)
    · exact howed y hy
  · rw [Fs.settled_setDirents]
    intro j hj
    unfold Fs.Counted
    rw [htotal, Fs.nlink_setDirents]
    exact h.counted hj

/-- **`dirlink` of an inode that is no directory**, whose link is owed. -/
theorem DiskInv.addEntry {k : ℕ} (h : DiskInv ninodes I fresh (y :: owed) fs)
    (hadd : LinkGraph.Adds I dp) (hdp : fs.Dir fresh dp) (hy : fs.type y ≠ .dir)
    (hl : lookup name (fs.dirents dp) k = none) (hwrite : writeDirent (fs.dirents dp)
      (emptyDirent (fs.dirents dp)) ⟨y, strncpy name dirSiz⟩ room
      = some des) : DiskInv ninodes I fresh owed (fs.setDirents dp des) := by
  have hsettled := h.lost y (List.mem_append_right _ List.mem_cons_self)
  obtain ⟨hdes, hperm, hparent⟩ := (h.dir dp hdp).add hl (h.range y hsettled.1).1.ne' hwrite
  have hedits := edits_setDirents ninodes fresh hparent
  have hmem := h.mem_dirs.mpr hdp
  have hynot : y ∉ (fs.graph ninodes fresh).dirs := fun hyd => hy (h.mem_dirs.mp hyd).1
  have hperm' : (((fs.setDirents dp des).graph ninodes fresh).kids dp).Perm
      (y :: (fs.graph ninodes fresh).kids dp) := kids_setDirents ▸ hperm
  refine h.edit hdes (fun z hz => ?_) ((hedits.wf_cons_iff hmem hperm' hynot).mpr h.wf)
    (fun z hz => h.lost z ?_) (fun i => ?_) (hadd.entry hedits hperm' hynot hmem h.keeps)
  · rcases List.mem_cons.mp (hperm.mem_iff.mp hz) with rfl | hz
    · exact hsettled
    · exact h.kids dp hdp z hz
  · exact List.mem_append_right _ (List.mem_cons_of_mem _ hz)
  · rw [total_cons]
    unfold Fs.total
    rw [hedits.links_cons hmem hperm' hynot]
    show _ + (fs.lost ++ owed).count i = _
    omega

section

variable (h : DiskInv ninodes I fresh owed fs) (hdp : fs.Dir fresh dp)
  (hl : lookup name (fs.dirents dp) 0 = some (off, y)) (hname : Plain name)
  (hwrite : writeDirent (fs.dirents dp) off ⟨0, List.replicate dirSiz 0⟩ room = some des)

include h hdp hl hname hwrite

/-- What is left when `sys_unlink` has erased an entry, if the links add up. -/
theorem DiskInv.erased {owed' : List ℕ} (hwf : ((fs.setDirents dp des).graph ninodes fresh).Wf)
    (howed : ∀ z ∈ owed', z = dp ∨ z = y ∨ z ∈ owed)
    (htotal : ∀ i, (fs.setDirents dp des).total ninodes fresh owed' i =
      fs.total ninodes fresh owed i)
    (hkeeps : I ((fs.setDirents dp des).graph ninodes fresh) fs.lost) :
    DiskInv ninodes I fresh owed' (fs.setDirents dp des) := by
  obtain ⟨hdes, hperm, -⟩ := (h.dir dp hdp).erase hl hname hwrite
  refine h.edit hdes (fun z hz => h.kids dp hdp z ?_) hwf (fun z hz => ?_) htotal hkeeps
  · exact hperm.mem_iff.mpr (List.mem_cons_of_mem _ hz)
  · rcases howed z hz with rfl | rfl | hz
    · exact hdp.settled
    · exact h.kids dp hdp z (hperm.mem_iff.mpr List.mem_cons_self)
    · exact h.lost z (List.mem_append_right _ hz)

theorem DiskInv.eraseEntry (hI : LinkGraph.Steady I) (hy : fs.type y ≠ .dir) :
    DiskInv ninodes I fresh (y :: owed) (fs.setDirents dp des) := by
  obtain ⟨-, hperm, hparent⟩ := (h.dir dp hdp).erase hl hname hwrite
  have hedits := edits_setDirents ninodes fresh hparent
  have hold : y ∉ (fs.graph ninodes fresh).dirs := fun hyd => hy (h.mem_dirs.mp hyd).1
  have hmem : dp ∈ ((fs.setDirents dp des).graph ninodes fresh).dirs :=
    hedits.dirs ▸ h.mem_dirs.mpr hdp
  have hynot : y ∉ ((fs.setDirents dp des).graph ninodes fresh).dirs := by rwa [hedits.dirs]
  have hperm' : ((fs.graph ninodes fresh).kids dp).Perm
      (y :: ((fs.setDirents dp des).graph ninodes fresh).kids dp) := kids_setDirents.symm ▸ hperm
  refine h.erased hdp hl hname hwrite ((hedits.symm.wf_cons_iff hmem hperm' hynot).mp h.wf)
    (fun z hz => .inr (List.mem_cons.mp hz)) (fun i => ?_)
    (hI.erase hedits (h.mem_dirs.mpr hdp) hperm' hold h.keeps)
  rw [total_cons]
  unfold Fs.total
  rw [hedits.symm.links_cons hmem hperm' hynot]
  show _ + (fs.lost ++ owed).count i + _ = _
  omega

/-- **`sys_unlink` erases the entry of a directory**, which counted for both. -/
theorem DiskInv.eraseDir (hrem : LinkGraph.Removes I dp y) (hy : fs.type y = .dir)
    (hempty : FileTree.kids (fs.dirents y) = []) :
    DiskInv ninodes I fresh (dp :: y :: owed) (fs.setDirents dp des) := by
  obtain ⟨-, hperm, hparent⟩ := (h.dir dp hdp).erase hl hname hwrite
  have hsettled := h.kids dp hdp y (hperm.mem_iff.mpr List.mem_cons_self)
  have hedits := edits_setDirents ninodes fresh hparent
  have hmem := h.mem_dirs.mpr hdp
  have hymem : y ∈ (fs.graph ninodes fresh).dirs := h.mem_dirs.mpr ⟨hy, hsettled.2⟩
  have hperm' : ((fs.graph ninodes fresh).kids dp).Perm
      (y :: ((fs.setDirents dp des).graph ninodes fresh).kids dp) := kids_setDirents.symm ▸ hperm
  refine h.erased hdp hl hname hwrite (hedits.wf_erase_dir hmem h.wf hperm') (fun z hz => ?_)
    (fun i => ?_) (hrem hedits h.wf hmem hperm' hymem hempty h.keeps)
  · rwa [List.mem_cons, List.mem_cons] at hz
  · rw [total_cons, total_cons]
    unfold Fs.total
    rw [← hedits.links_erase_dir hmem h.wf hperm' hymem i, LinkGraph.count_pair]
    show _ + (fs.lost ++ owed).count i + _ + _ = _
    omega

end

/-! ## Inodes that come and go -/

theorem Fs.type_setInode_of_ne (fs : Fs) (hne : d ≠ i) (ip : Inode) :
    (fs.setInode i ip).type d = fs.type d := by
  unfold Fs.type
  rw [Fs.inode_setInode_of_ne fs hne]

theorem Fs.type_setInode_self (fs : Fs) (i : ℕ) (ip : Inode) :
    (fs.setInode i ip).type i = ip.type := by
  unfold Fs.type
  rw [Fs.inode_setInode_self]

theorem Fs.nlink_setInode_of_ne (fs : Fs) (hne : d ≠ i) (ip : Inode) :
    (fs.setInode i ip).nlink d = fs.nlink d := by
  unfold Fs.nlink
  rw [Fs.inode_setInode_of_ne fs hne]

/-- The record of an inode that is not in place, before and after. -/
structure Outside (fresh fresh' : Option ℕ) (i : ℕ) (fs fs' : Fs) : Prop where
  before : ¬ fs.Settled fresh i
  after : ¬ fs'.Settled fresh' i
  fresh : ∀ j, j ≠ i → (fresh' ≠ some j ↔ fresh ≠ some j)
  inode : ∀ j, j ≠ i → fs'.inode j = fs.inode j
  lost : fs'.lost = fs.lost

variable {fresh' : Option ℕ}

theorem Outside.dir_iff (h : Outside fresh fresh' i fs fs') :
    fs'.Dir fresh' d ↔ fs.Dir fresh d := by
  rcases eq_or_ne d i with rfl | hne
  · exact ⟨fun hd => absurd hd.settled h.after, fun hd => absurd hd.settled h.before⟩
  · unfold Fs.Dir Fs.type
    rw [h.inode d hne, h.fresh d hne]

theorem Outside.settled_iff (h : Outside fresh fresh' i fs fs') {j : ℕ} :
    fs'.Settled fresh' j ↔ fs.Settled fresh j := by
  rcases eq_or_ne j i with rfl | hne
  · exact ⟨fun hj => absurd hj h.after, fun hj => absurd hj h.before⟩
  · unfold Fs.Settled Fs.Alloc Fs.type
    rw [h.inode j hne, h.fresh j hne]

theorem Outside.dirents_eq (h : Outside fresh fresh' i fs fs') (hd : fs.Dir fresh d) :
    fs'.dirents d = fs.dirents d := by
  have hne : d ≠ i := by
    rintro rfl
    exact h.before hd.settled
  unfold Fs.dirents
  rw [h.inode d hne]

theorem Outside.agree (h : Outside fresh fresh' i fs fs') :
    LinkGraph.Agree (fs.graph ninodes fresh) (fs'.graph ninodes fresh') where
  root := rfl
  dirs := Finset.filter_congr fun _ _ => h.dir_iff
  kids _ hz := congrArg FileTree.kids (h.dirents_eq (Finset.mem_filter.mp hz).2)
  parent _ hz := congrArg parentOf (h.dirents_eq (Finset.mem_filter.mp hz).2)

/-- **An inode that is not in place does not count.** -/
theorem DiskInv.outside (hI : LinkGraph.Steady I) (h : DiskInv ninodes I fresh owed fs)
    (ho : Outside fresh fresh' i fs fs') (hi : fs'.Alloc i → 0 < i ∧ i < ninodes) :
    DiskInv ninodes I fresh' owed fs' := by
  have htotal : ∀ j, fs'.total ninodes fresh' owed j = fs.total ninodes fresh owed j := by
    intro j
    unfold Fs.total
    rw [ho.agree.links_eq, ho.lost]
  have hne : ∀ j, fs.Settled fresh j → j ≠ i := by
    rintro j hj rfl
    exact ho.before hj
  refine .of (fun j hj => ?_) (ho.agree.wf h.wf) (fun d hd => ?_) (fun y hy => ?_) (fun j hj => ?_)
    (ho.lost ▸ hI.agree ho.agree h.keeps)
  · rcases eq_or_ne j i with rfl | hji
    · exact hi hj
    · refine h.range j ?_
      unfold Fs.Alloc Fs.type at hj ⊢
      rwa [ho.inode j hji] at hj
  · have hd' := ho.dir_iff.mp hd
    unfold Fs.DirOk
    rw [ho.dirents_eq hd']
    exact ⟨h.dir d hd', fun y hy => ho.settled_iff.mpr (h.kids d hd' y hy)⟩
  · rw [ho.lost] at hy
    exact ho.settled_iff.mpr (h.lost y hy)
  · have hj' := ho.settled_iff.mp hj
    unfold Fs.Counted Fs.nlink
    rw [htotal, ho.inode j (hne j hj')]
    exact h.counted hj'

theorem DiskInv.alloc (hI : LinkGraph.Steady I) (h : DiskInv ninodes I none owed fs)
    (hfree : fs.type i = .free) (hi : 0 < i ∧ i < ninodes) (ip : Inode) :
    DiskInv ninodes I (some i) owed (fs.setInode i ip) := by
  refine h.outside hI (i := i)
    ⟨fun hs => hs.1 hfree, fun hs => hs.2 rfl, fun j hj => ?_, fun j hj => ?_,
    rfl⟩ fun _ => hi
  · exact ⟨fun _ => nofun, fun _ he => hj (Option.some.inj he).symm⟩
  · exact Fs.inode_setInode_of_ne fs hj ip

theorem DiskInv.setFresh (hI : LinkGraph.Steady I) (h : DiskInv ninodes I (some i) owed fs)
    (hi : 0 < i ∧ i < ninodes) (ip : Inode) : DiskInv ninodes I (some i) owed (fs.setInode i ip) :=
  h.outside hI (i := i) ⟨fun hs => hs.2 rfl, fun hs => hs.2 rfl, fun _ _ => Iff.rfl,
    fun _ hj => Fs.inode_setInode_of_ne fs hj ip, rfl⟩ fun _ => hi

theorem Fs.inode_free_of_ne (fs : Fs) (hne : d ≠ i) : (fs.free i).inode d = fs.inode d := by
  unfold Fs.free
  split <;> exact Fs.inode_setInode_of_ne fs hne _

theorem Fs.type_free_self (fs : Fs) (i : ℕ) : (fs.free i).type i = .free := by
  unfold Fs.free
  split <;> exact Fs.type_setInode_self fs i _

theorem Fs.lost_free (fs : Fs) (i : ℕ) : (fs.free i).lost =
    if fs.type i = .dir then FileTree.kids (fs.dirents i) ++ fs.lost else fs.lost := by
  unfold Fs.free
  split <;> rfl

theorem DiskInv.freeFresh (hI : LinkGraph.Steady I) (h : DiskInv ninodes I (some i) owed fs)
    (hkids : fs.type i = .dir → FileTree.kids (fs.dirents i) = []) :
    DiskInv ninodes I none owed (fs.free i) := by
  have hfree := fs.type_free_self i
  refine h.outside hI (i := i) ⟨fun hs => hs.2 rfl, fun hs => hs.1 hfree, fun j hj => ?_,
    fun _ hj => fs.inode_free_of_ne hj, ?_⟩ fun ha => absurd hfree ha
  · exact ⟨fun _ he => hj (Option.some.inj he).symm, fun _ => nofun⟩
  · rw [Fs.lost_free]
    split
    · rw [hkids ‹_›, List.nil_append]
    · rfl

theorem and_fresh_iff {P : ℕ → Prop} (hi : P i) (j : ℕ) :
    P j ∧ (none : Option ℕ) ≠ some j ↔ P j ∧ some i ≠ some j ∨ j = i := by
  rcases eq_or_ne j i with rfl | hj
  · exact ⟨fun _ => .inr rfl, fun _ => ⟨hi, nofun⟩⟩
  · exact ⟨fun hs => .inl ⟨hs.1, fun he => hj (Option.some.inj he).symm⟩,
      fun hs => ⟨(hs.resolve_right hj).1, nofun⟩⟩

theorem DiskInv.total_fresh (h : DiskInv ninodes I (some i) owed fs) :
    (fs.graph ninodes (some i)).links i = 0 ∧ fs.total ninodes (some i) owed i = 0 := by
  have hlinks : (fs.graph ninodes (some i)).links i = 0 := by
    refine h.wf.links_eq_zero (fun x hx hix => ?_) fun hi => (h.mem_dirs.mp hi).2 rfl
    exact (h.kids x (h.mem_dirs.mp hx) i hix).2 rfl
  have hcount : (fs.lost ++ owed).count i = 0 :=
    List.count_eq_zero_of_not_mem fun hi => (h.lost i hi).2 rfl
  refine ⟨hlinks, ?_⟩
  unfold Fs.total
  rw [hlinks, hcount]

theorem DiskInv.settle (hI : LinkGraph.Steady I) (h : DiskInv ninodes I (some i) owed fs)
    (hdir : fs.type i ≠ .dir) (halloc : fs.Alloc i) (hone : fs.nlink i = 1) :
    DiskInv ninodes I none (i :: owed) fs := by
  have hset : ∀ j, fs.Settled none j ↔ fs.Settled (some i) j ∨ j = i := and_fresh_iff halloc
  have hd : ∀ d, fs.Dir none d ↔ fs.Dir (some i) d := by
    intro d
    refine ⟨fun hd => ⟨hd.1, fun he => ?_⟩, fun hd => ⟨hd.1, nofun⟩⟩
    cases he
    exact hdir hd.1
  have hagree : LinkGraph.Agree (fs.graph ninodes (some i)) (fs.graph ninodes none) :=
    ⟨rfl, Finset.filter_congr fun d _ => hd d, fun _ _ => rfl, fun _ _ => rfl⟩
  have htotal : ∀ j, fs.total ninodes none (i :: owed) j = fs.total ninodes (some i) owed j +
    [i].count j := by
    intro j
    rw [total_cons]
    unfold Fs.total
    rw [hagree.links_eq]
  have hself := h.total_fresh.2
  refine .of h.range (hagree.wf h.wf) (fun d hd' => ?_) (fun y hy => ?_) (fun j hj => ?_)
    (hI.agree hagree h.keeps)
  · obtain ⟨hwf, hkids⟩ := h.dirOk ((hd d).mp hd')
    exact ⟨hwf, fun y hy => (hset y).mpr (.inl (hkids y hy))⟩
  · rw [List.mem_append, List.mem_cons] at hy
    rcases hy with hy | rfl | hy
    · exact (hset y).mpr (.inl (h.lost y (List.mem_append_left _ hy)))
    · exact (hset y).mpr (.inr rfl)
    · exact (hset y).mpr (.inl (h.lost y (List.mem_append_right _ hy)))
  · unfold Fs.Counted
    rw [htotal]
    rcases eq_or_ne j i with rfl | hne
    · rw [hself, List.count_singleton_self, hone]
      exact ⟨rfl, by decide⟩
    · rw [List.count_cons_of_ne hne.symm, List.count_nil, Nat.add_zero]
      exact h.counted (((hset j).mp hj).resolve_right hne)

/-- **A new directory is entered in its parent.** -/
theorem DiskInv.publishDir (h : DiskInv ninodes I (some i) owed fs) (hadd : LinkGraph.Adds I dp)
    (hi : i < ninodes) (htype : fs.type i = .dir) (hdots : DirWf i (fs.dirents i))
    (hempty : FileTree.kids (fs.dirents i) = []) (hup : parentOf (fs.dirents i) = dp)
    (hone : fs.nlink i = 1) (hdp : fs.Dir (some i) dp) (hlt : fs.nlink dp < shortMax) {k : ℕ}
    (hl : lookup name (fs.dirents dp) k = none)
    (hwrite : writeDirent (fs.dirents dp) (emptyDirent (fs.dirents dp)) ⟨i, strncpy name dirSiz⟩
      room = some des) : DiskInv ninodes I none owed
    ((fs.setDirents dp des).setNlink dp (fs.nlink dp + 1)) := by
  have hi0 : i ≠ 0 := hdots.ne_zero
  obtain ⟨hdes, hperm, hparent⟩ := (h.dir dp hdp).add hl hi0 hwrite
  have hne : i ≠ dp := fun he => hdp.2 (he ▸ rfl)
  have hsame := sameGraph_setNlink (fs.setDirents dp des) dp (fs.nlink dp + 1)
  have hnlink := nlink_setNlink (fs.setDirents dp des) dp (fs.nlink dp + 1)
  generalize (fs.setDirents dp des).setNlink dp (fs.nlink dp + 1) = fs' at hsame hnlink ⊢
  have htype' : fs'.type = fs.type := hsame.type.trans (Fs.type_setDirents ..)
  have hdirents : ∀ d, d ≠ dp → fs'.dirents d = fs.dirents d := by
    intro d hd
    rw [hsame.dirents]
    exact Fs.dirents_setDirents_of_ne fs hd des
  have hdirents' : fs'.dirents dp = des := by
    rw [hsame.dirents]
    exact Fs.dirents_setDirents_self ..
  have hdir : ∀ d, fs'.Dir none d ↔ fs.Dir (some i) d ∨ d = i := by
    rw [Fs.dir_congr htype']
    exact and_fresh_iff htype
  have hset : ∀ j, fs'.Settled none j ↔ fs.Settled (some i) j ∨ j = i := by
    rw [Fs.settled_congr htype']
    exact and_fresh_iff (Fs.alloc_of_dir htype)
  have hgrows : LinkGraph.Grows (fs.graph ninodes (some i)) (fs'.graph ninodes none) dp i := by
    refine ⟨rfl, ?_, fun hm => (h.mem_dirs.mp hm).2 rfl, fun z _ hz => ?_, ?_, ?_, fun z _ => ?_, ?_⟩
    · ext d
      rw [Finset.mem_insert, h.mem_dirs]
      show d ∈ ({d ∈ Finset.range ninodes | fs'.Dir none d} : Finset ℕ) ↔ _
      rw [Finset.mem_filter, Finset.mem_range, hdir]
      constructor
      · rintro ⟨-, hd⟩
        exact hd.symm
      · rintro (rfl | hd)
        · exact ⟨hi, .inr rfl⟩
        · exact ⟨(h.range d hd.settled.1).2, .inl hd⟩
    · exact congrArg FileTree.kids (hdirents z hz)
    · show (FileTree.kids (fs'.dirents dp)).Perm _
      rw [hdirents']
      exact hperm
    · show FileTree.kids (fs'.dirents i) = []
      rw [hdirents i hne]
      exact hempty
    · show parentOf (fs'.dirents z) = parentOf (fs.dirents z)
      rcases eq_or_ne z dp with rfl | hz
      · rw [hdirents', hparent]
      · rw [hdirents z hz]
    · show parentOf (fs'.dirents i) = dp
      rw [hdirents i hne]
      exact hup
  have hmem := h.mem_dirs.mpr hdp
  obtain ⟨hlinks, hself⟩ := h.total_fresh
  have hnamed : (fs.graph ninodes (some i)).named i = 0 := by
    unfold LinkGraph.links at hlinks
    omega
  have htotal : ∀ j, fs'.total ninodes none owed j =
      fs.total ninodes (some i) owed j + [i].count j + [dp].count j := by
    intro j
    unfold Fs.total
    rw [hgrows.links_eq hmem, LinkGraph.count_pair, hsame.lost]
    show _ + (fs.lost ++ owed).count j = _
    omega
  unfold shortMax at hlt
  refine .of ?_ (hgrows.wf hmem h.wf hnamed) (fun d hd => ?_) (fun y hy => ?_) (fun j hj => ?_)
    (hsame.lost ▸ hadd.dir hgrows hmem h.keeps)
  · rw [Fs.alloc_congr htype']
    exact h.range
  · unfold Fs.DirOk
    rcases eq_or_ne d i with rfl | hdi
    · rw [hdirents d hne, hempty]
      exact ⟨hdots, nofun⟩
    have hd' := ((hdir d).mp hd).resolve_right hdi
    obtain ⟨hwf, hkids⟩ := h.dirOk hd'
    rcases eq_or_ne d dp with rfl | hdd
    · rw [hdirents']
      refine ⟨hdes, fun y hy => (hset y).mpr ?_⟩
      exact (List.mem_cons.mp (hperm.mem_iff.mp hy)).symm.imp_left (hkids y)
    · rw [hdirents d hdd]
      exact ⟨hwf, fun y hy => (hset y).mpr (.inl (hkids y hy))⟩
  · rw [hsame.lost] at hy
    exact (hset y).mpr (.inl (h.lost y hy))
  · unfold Fs.Counted
    rw [htotal, hnlink, Fs.nlink_setDirents]
    rcases eq_or_ne j i with rfl | hji
    · rw [if_neg hne, hself, List.count_singleton_self, List.count_cons_of_ne hne.symm,
        List.count_nil, hone]
      exact ⟨rfl, by decide⟩
    obtain ⟨hn, hb⟩ := h.counted (((hset j).mp hj).resolve_right hji)
    rw [List.count_cons_of_ne hji.symm, List.count_nil, Nat.add_zero]
    rcases eq_or_ne j dp with rfl | hjd
    · rw [if_pos rfl, List.count_singleton_self]
      unfold toShort
      omega
    · rw [if_neg hjd, List.count_cons_of_ne hjd.symm, List.count_nil, Nat.add_zero]
      exact ⟨hn, hb⟩

theorem DiskInv.free (hI : LinkGraph.Steady I) (h : DiskInv ninodes I fresh owed fs)
    (hi : fs.Settled fresh i) (h0 : fs.nlink i = 0) : DiskInv ninodes I fresh owed (fs.free i) := by
  have htot := h.total_eq_zero hi h0
  have hlinks : (fs.graph ninodes fresh).links i = 0 := by
    unfold Fs.total at htot
    omega
  have hlost : i ∉ fs.lost ++ owed := by
    unfold Fs.total at htot
    exact List.count_eq_zero.mp (by omega)
  have hnamed : ∀ d, fs.Dir fresh d → ∀ y ∈ FileTree.kids (fs.dirents d), y ≠ i := by
    rintro d hd y hy rfl
    have hpos := LinkGraph.named_pos (h.mem_dirs.mpr hd) hy
    unfold LinkGraph.links at hlinks
    omega
  have hset : ∀ j, (fs.free i).Settled fresh j ↔ fs.Settled fresh j ∧ j ≠ i := by
    intro j
    rcases eq_or_ne j i with rfl | hj
    · exact ⟨fun hs => absurd (fs.type_free_self j) hs.1, fun hs => absurd rfl hs.2⟩
    · unfold Fs.Settled Fs.Alloc Fs.type
      rw [fs.inode_free_of_ne hj]
      exact ⟨fun hs => ⟨hs, hj⟩, fun hs => hs.1⟩
  have hdir : ∀ d, (fs.free i).Dir fresh d ↔ fs.Dir fresh d ∧ d ≠ i := by
    intro d
    rcases eq_or_ne d i with rfl | hd
    · exact ⟨fun hs => absurd (fs.type_free_self d) hs.settled.1, fun hs => absurd rfl hs.2⟩
    · unfold Fs.Dir Fs.type
      rw [fs.inode_free_of_ne hd]
      exact ⟨fun hs => ⟨hs, hd⟩, fun hs => hs.1⟩
  have hdirents : ∀ d, d ≠ i → (fs.free i).dirents d = fs.dirents d := by
    intro d hd
    unfold Fs.dirents
    rw [fs.inode_free_of_ne hd]
  have hgraph : ((fs.free i).graph ninodes fresh).Wf ∧
    I ((fs.free i).graph ninodes fresh) (fs.free i).lost ∧
      ∀ j, (fs.free i).total ninodes fresh owed j = fs.total ninodes fresh owed j := by
    by_cases hd : fs.type i = .dir
    · have hmem : i ∈ (fs.graph ninodes fresh).dirs := h.mem_dirs.mpr ⟨hd, hi.2⟩
      have hdrops : LinkGraph.Drops (fs.graph ninodes fresh) ((fs.free i).graph ninodes fresh) i := by
        refine ⟨rfl, ?_, fun z _ hz => congrArg FileTree.kids (hdirents z hz),
          fun z _ hz => congrArg parentOf (hdirents z hz)⟩
        ext d
        rw [Finset.mem_erase, h.mem_dirs]
        show d ∈ ({d ∈ Finset.range ninodes | (fs.free i).Dir fresh d} : Finset ℕ) ↔ _
        rw [Finset.mem_filter, Finset.mem_range, hdir]
        exact ⟨fun hs => ⟨hs.2.2, hs.2.1⟩, fun hs => ⟨(h.range d hs.2.settled.1).2, hs.2, hs.1⟩⟩
      refine ⟨hdrops.wf h.wf hmem hlinks, ?_, fun j => ?_⟩
      · rw [fs.lost_free, if_pos hd]
        exact hI.drop hdrops h.wf hmem hlinks h.keeps
      have hadd : _ + (FileTree.kids (fs.dirents i)).count j = _ :=
        hdrops.links_add h.wf hmem hlinks j
      unfold Fs.total
      rw [fs.lost_free, if_pos hd, List.append_assoc, List.count_append]
      omega
    · have hagree : LinkGraph.Agree (fs.graph ninodes fresh) ((fs.free i).graph ninodes fresh) := by
        have hne : ∀ z, fs.Dir fresh z → z ≠ i := by
          rintro z hz rfl
          exact hd hz.1
        refine ⟨rfl, ?_, fun z hz => ?_, fun z hz => ?_⟩
        · exact Finset.filter_congr fun d _ => (hdir d).trans ⟨fun hs => hs.1, fun hs => ⟨hs, hne d hs⟩⟩
        · exact congrArg FileTree.kids (hdirents z (hne z (h.mem_dirs.mp hz)))
        · exact congrArg parentOf (hdirents z (hne z (h.mem_dirs.mp hz)))
      refine ⟨hagree.wf h.wf, ?_, fun j => ?_⟩
      · rw [fs.lost_free, if_neg hd]
        exact hI.agree hagree h.keeps
      unfold Fs.total
      rw [hagree.links_eq, fs.lost_free, if_neg hd]
  obtain ⟨hwf, hkeeps, htotal⟩ := hgraph
  refine .of (fun j hj => ?_) hwf (fun d hd => ?_) (fun y hy => ?_) (fun j hj => ?_) hkeeps
  · rcases eq_or_ne j i with rfl | hne
    · exact absurd (fs.type_free_self j) hj
    · refine h.range j ?_
      unfold Fs.Alloc Fs.type at hj ⊢
      rwa [fs.inode_free_of_ne hne] at hj
  · obtain ⟨hd, hne⟩ := (hdir d).mp hd
    unfold Fs.DirOk
    rw [hdirents d hne]
    exact ⟨h.dir d hd, fun y hy => (hset y).mpr ⟨h.kids d hd y hy, hnamed d hd y hy⟩⟩
  · rw [fs.lost_free] at hy
    refine (hset y).mpr ?_
    have hold : y ∈ fs.lost ++ owed → fs.Settled fresh y ∧ y ≠ i := fun hy' =>
      ⟨h.lost y hy', fun he => hlost (he ▸ hy')⟩
    split_ifs at hy with hd
    · rw [List.append_assoc] at hy
      rcases List.mem_append.mp hy with hy | hy
      · have hd' : fs.Dir fresh i := ⟨hd, hi.2⟩
        exact ⟨h.kids i hd' y hy, hnamed i hd' y hy⟩
      · exact hold hy
    · exact hold hy
  · obtain ⟨hj, hne⟩ := (hset j).mp hj
    unfold Fs.Counted Fs.nlink
    rw [htotal, fs.inode_free_of_ne hne]
    exact h.counted hj

end Disk

end LazyXv6.FileTree
