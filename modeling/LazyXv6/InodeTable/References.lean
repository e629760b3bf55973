import LazyXv6.InodeTable.Model
import LazyXv6.FileTree.Paths

/-!
# References to entries of the inode table

`TableInv c fs`: the entry at `ip` has `c ip` references, and no two entries in use are for the same
inode. Every function of the file system changes the counts by what it hands back (`got`): one
reference for an entry that it returns, none where it fails. A run that panics does not complete,
and nothing is said of it (`Completes`).
-/

namespace LazyXv6.InodeTable

open Function Lib
open FileTree (FileType Inode lookup writeDirent emptyDirent skipelem length_of_skipelem
    nInode rootIno)

structure TableInv (c : Slot → ℤ) (fs : Fs) : Prop where
  ref : ∀ ip, (fs.itable ip).ref = c ip
  unique : ∀ ip jp, 0 < (fs.itable ip).ref → 0 < (fs.itable jp).ref →
    (fs.itable ip).key = (fs.itable jp).key → ip = jp

/-- From `P`, the program completes in `Q` or panics. -/
abbrev Completes {σ α : Type} (P : σ → Prop) (m : StateT σ (Except Panic) α)
    (Q : α → σ → Prop) : Prop := Ensures P m Q fun _ => True

def got {ι : Type} [DecidableEq ι] : Option ι → ι → ℤ
  | none => 0
  | some i => Pi.single i 1

@[simp] theorem got_none {ι : Type} [DecidableEq ι] : got (none : Option ι) = 0 := rfl

@[simp] theorem got_some {ι : Type} [DecidableEq ι] (i : ι) : got (some i) = Pi.single i 1 := rfl

section

variable {ninodes : ℕ} {c : Slot → ℤ} {fs : Fs} {ip dp cwd : Slot} {α : Type}

/-! ## Entries -/

theorem TableInv.setDisk (h : TableInv c fs) (disk : ℕ × ℕ → Inode) :
    TableInv c { fs with disk := disk } := ⟨h.ref, h.unique⟩

theorem TableInv.set (h : TableInv c fs) {e : Entry} {d : ℤ} (href : e.ref = c ip + d)
    (hnew : 0 < e.ref → ∀ jp, jp ≠ ip → 0 < (fs.itable jp).ref → (fs.itable jp).key ≠ e.key) :
    TableInv (c + Pi.single ip d) (fs.set ip e) := by
  have hself : (fs.set ip e).itable ip = e := update_self ..
  have hother : ∀ jp, jp ≠ ip → (fs.set ip e).itable jp = fs.itable jp :=
    fun jp hne => update_of_ne hne ..
  refine ⟨fun jp => ?_, fun jp kp hj hk hkey => ?_⟩
  · rcases eq_or_ne jp ip with rfl | hne
    · rw [hself, href]
      simp
    · rw [hother jp hne, h.ref]
      simp [hne]
  · by_cases hjp : jp = ip
    · by_cases hkp : kp = ip
      · rw [hjp, hkp]
      · subst hjp
        rw [hself] at hj hkey
        rw [hother kp hkp] at hk hkey
        exact absurd hkey.symm (hnew hj kp hkp hk)
    · rw [hother jp hjp] at hj hkey
      by_cases hkp : kp = ip
      · subst hkp
        rw [hself] at hk hkey
        exact absurd hkey (hnew hk jp hjp hj)
      · rw [hother kp hkp] at hk hkey
        exact h.unique jp kp hj hk hkey

theorem TableInv.setSame (h : TableInv c fs) {e : Entry} {d : ℤ} (href : e.ref = c ip + d)
    (hkey : e.key = (fs.itable ip).key) (hpos : 0 < e.ref → 0 < (fs.itable ip).ref) :
    TableInv (c + Pi.single ip d) (fs.set ip e) := by
  refine h.set href fun hp jp hne hj heq => hne ?_
  exact h.unique jp ip hj (hpos hp) (heq.trans hkey)

theorem TableInv.setKeep (h : TableInv c fs) {e : Entry} (href : e.ref = (fs.itable ip).ref)
    (hkey : e.key = (fs.itable ip).key) : TableInv c (fs.set ip e) := by
  have hset : TableInv (c + Pi.single ip 0) (fs.set ip e) := by
    apply h.setSame _ hkey
    · rw [href]
      exact id
    · rw [href, h.ref, add_zero]
  simpa using hset

theorem igetLoop_inl {itable : Slot → Entry} {dev inum : ℕ} {empty : Option Slot} {ips : List Slot}
    (h : igetLoop itable dev inum empty ips = .inl ip) :
    0 < (itable ip).ref ∧ (itable ip).key = (dev, inum) := by
  induction ips generalizing empty with
  | nil => exact nomatch h
  | cons jp ips ih =>
    rw [igetLoop] at h
    split at h
    · rename_i hfound
      cases h
      exact ⟨hfound.1, Prod.ext hfound.2.1 hfound.2.2⟩
    · exact ih h

theorem igetLoop_inr {itable : Slot → Entry} {dev inum : ℕ} {empty r : Option Slot}
    {ips : List Slot} (h : igetLoop itable dev inum empty ips = .inr r) :
    (∀ jp ∈ ips, 0 < (itable jp).ref → (itable jp).key ≠ (dev, inum)) ∧
      (r = empty ∨ ∃ jp, r = some jp ∧ (itable jp).ref = 0) := by
  induction ips generalizing empty with
  | nil =>
    cases h
    exact ⟨nofun, .inl rfl⟩
  | cons jp ips ih =>
    rw [igetLoop] at h
    split at h
    · exact nomatch h
    · rename_i hnot
      obtain ⟨hnone, hr⟩ := ih h
      refine ⟨fun kp hkp hpos hkey => ?_, ?_⟩
      · rcases List.mem_cons.mp hkp with rfl | hkp
        · exact hnot ⟨hpos, congrArg Prod.fst hkey, congrArg Prod.snd hkey⟩
        · exact hnone kp hkp hpos hkey
      · split at hr
        · rename_i hempty
          rcases hr with rfl | hr
          · exact .inr ⟨jp, rfl, hempty.2⟩
          · exact .inr hr
        · exact hr

/-- **`iget`** finds the entry of the inode, or takes one that is empty if there is none. -/
theorem iget_spec (dev inum : ℕ) :
    Completes (TableInv c) (iget dev inum) (fun ip => TableInv (c + Pi.single ip 1)) := by
  refine .get fun fs h => ?_
  cases hloop : igetLoop fs.itable dev inum none (List.finRange nInode) with
  | inl ip =>
    obtain ⟨hpos, -⟩ := igetLoop_inl hloop
    refine .bind (Q := fun _ => TableInv (c + Pi.single ip 1)) (.modify ?_) fun _ =>
      .pure fun _ h => h
    rintro fs rfl
    exact h.setSame (congrArg (· + 1) (h.ref ip)) rfl fun _ => hpos
  | inr r =>
    obtain ⟨hnone, hr⟩ := igetLoop_inr hloop
    cases r with
    | none => exact .throw fun _ _ => trivial
    | some ip =>
      refine .bind (Q := fun _ => TableInv (c + Pi.single ip 1)) (.modify ?_) fun _ =>
        .pure fun _ h => h
      rintro fs rfl
      have hzero : (fs.itable ip).ref = 0 := by
        rcases hr with hr | ⟨jp, hr, hzero⟩
        · exact nomatch hr
        · cases hr
          exact hzero
      refine h.set ?_ fun _ jp _ hj => hnone jp (List.mem_finRange jp) hj
      rw [← h.ref, hzero]
      rfl

theorem idup_spec (hip : 0 < c ip) :
    Completes (TableInv c) (idup ip) (fun _ => TableInv (c + Pi.single ip 1)) := by
  refine .modify fun fs h => h.setSame (congrArg (· + 1) (h.ref ip)) rfl fun _ => ?_
  rw [h.ref]
  exact hip

theorem change_spec (ip : Slot) (g : Inode → Inode) :
    Completes (TableInv c) (change ip g) (fun _ => TableInv c) :=
  .bind (Q := fun _ => TableInv c) (.modify fun _ h => h.setKeep rfl rfl) fun _ =>
    .modify fun _ h => h.setDisk _

theorem ilock_spec (ip : Slot) : Completes (TableInv c) (ilock ip) (fun _ => TableInv c) := by
  refine .get fun fs h => .ite (fun _ => .throw fun _ _ => trivial) fun _ =>
    .ite (fun _ => .pure ?_) fun _ => .bind (Q := fun _ => TableInv c) (.modify ?_) fun _ =>
      .ite (fun _ => .throw fun _ _ => trivial) fun _ => .pure fun _ h => h
  · rintro fs rfl
    exact h
  · rintro fs rfl
    exact h.setKeep rfl rfl

theorem iunlock_spec (ip : Slot) : Completes (TableInv c) (iunlock ip) (fun _ => TableInv c) := by
  exact .get fun fs h => .ite (fun _ => .throw fun _ _ => trivial) fun _ => .ret h

theorem freeLast_spec (ip : Slot) : Completes (TableInv c) (freeLast ip) (fun _ => TableInv c) := by
  refine .get fun fs h => .ite (fun _ => ?_) fun _ => .pure ?_
  · refine .bind ((change_spec ip _).pre ?_) fun _ => .modify fun _ h => h.setKeep rfl rfl
    rintro fs rfl
    exact h
  · rintro fs rfl
    exact h

theorem iput_spec (ip : Slot) :
    Completes (TableInv c) (iput ip) (fun _ => TableInv (c - Pi.single ip 1)) := by
  refine .bind (freeLast_spec ip) fun _ => .modify fun fs h => ?_
  rw [sub_eq_add_neg, ← Pi.single_neg]
  refine h.setSame ?_ rfl fun hpos => ?_
  · show (fs.itable ip).ref - 1 = c ip + -1
    rw [h.ref]
    ring
  · have hpos' : 0 < (fs.itable ip).ref - 1 := hpos
    omega

theorem iunlockput_spec (ip : Slot) :
    Completes (TableInv c) (iunlockput ip) (fun _ => TableInv (c - Pi.single ip 1)) :=
  .bind (iunlock_spec ip) fun _ => iput_spec ip

/-! ## Ways out -/

theorem TableInv.hold (h : TableInv c fs) : TableInv (c + got none) fs := by
  rwa [got_none, add_zero]

theorem iput_return {a : α} {Q : α → Fs → Prop} (hQ : ∀ fs, TableInv c fs → Q a fs) :
    Completes (TableInv (c + Pi.single ip 1)) (do iput ip; return a) Q := by
  refine .bind (iput_spec ip) fun _ => .pure fun fs h => hQ fs ?_
  rwa [add_sub_cancel_right] at h

theorem iunlockput_return {a : α} {Q : α → Fs → Prop} (hQ : ∀ fs, TableInv c fs → Q a fs) :
    Completes (TableInv (c + Pi.single ip 1)) (do iunlockput ip; return a) Q := by
  refine .bind (iunlockput_spec ip) fun _ => .pure fun fs h => hQ fs ?_
  rwa [add_sub_cancel_right] at h

theorem TableInv.read {k : Fs → Op α} {Q : α → Fs → Prop}
    (h : ∀ fs, Completes (TableInv c) (k fs) Q) : Completes (TableInv c) (get >>= k) Q := by
  refine .get fun fs hfs => (h fs).pre ?_
  rintro fs rfl
  exact hfs

theorem ialloc_spec (dev : ℕ) (type : FileType) :
    Completes (TableInv c) (ialloc ninodes dev type) (fun r => TableInv (c + got r)) := by
  refine TableInv.read fun fs => ?_
  cases (List.range' 1 (ninodes - 1)).find? fun inum => (fs.disk (dev, inum)).type = .free with
  | none => exact .pure fun _ h => h.hold
  | some inum =>
    exact .bind (Q := fun _ => TableInv c) (.modify fun _ h => h.setDisk _) fun _ =>
      .bind (iget_spec dev inum) fun _ => .pure fun _ h => h

/-! ## Directories and paths -/

theorem dirlookup_spec (dp : Slot) (name : List UInt8) : Completes (TableInv c) (dirlookup dp name)
      (fun r => TableInv (c + got (r.map Prod.fst))) := by
  refine TableInv.read fun fs => .ite (fun _ => .throw fun _ _ => trivial) fun _ => ?_
  cases lookup name (fs.dirents dp) 0 with
  | none => exact .pure fun _ h => h.hold
  | some r => exact .bind (iget_spec _ _) fun _ => .pure fun _ h => h

theorem dirlink_spec (dp : Slot) (name : List UInt8) (inum : ℕ) (room : Bool) :
    Completes (TableInv c) (dirlink dp name inum room) (fun _ => TableInv c) := by
  refine .bind (dirlookup_spec dp name) fun r => ?_
  cases r with
  | some r => exact iput_return fun _ h => h
  | none =>
    rw [Option.map_none, got_none, add_zero]
    refine TableInv.read fun fs => ?_
    cases writeDirent (fs.dirents dp) (emptyDirent (fs.dirents dp)) _ room with
    | none => exact .pure fun _ h => h
    | some des => exact .bind (change_spec dp _) fun _ => .pure fun _ h => h

/-- **The loop of `namex`** goes from entry to entry, with a reference to one at a time. -/
theorem namexLoop_spec (parent : Bool) (fuel : ℕ) :
    ∀ (ip : Slot) (path : List UInt8), path.length < fuel →
      Completes (TableInv (c + Pi.single ip 1)) (namexLoop parent fuel ip path)
        (fun r => TableInv (c + got (r.map Prod.fst))) := by
  induction fuel with
  | zero => exact fun _ _ hlen => nomatch hlen
  | succ fuel ih =>
    intro ip path hlen
    unfold namexLoop
    cases hskip : skipelem path with
    | none => exact .ite (fun _ => iput_return fun _ h => h.hold) fun _ => .pure fun _ h => h
    | some r =>
      obtain ⟨name, rest⟩ := r
      have hrest : rest.length < fuel := by
        have hlt := length_of_skipelem hskip
        omega
      refine .bind (ilock_spec ip) fun _ => TableInv.read fun fs =>
        .ite (fun _ => iunlockput_return fun _ h => h.hold) fun _ => .ite (fun _ => ?_) fun _ => ?_
      · exact .bind (iunlock_spec ip) fun _ => .pure fun _ h => h
      · refine .bind (dirlookup_spec ip name) fun r => ?_
        cases r with
        | none =>
          rw [Option.map_none, got_none, add_zero]
          exact iunlockput_return fun _ h => h.hold
        | some r =>
          -- the next entry is held before the last one is put
          refine .bind (iunlockput_spec ip) fun _ => (ih r.1 rest hrest).pre fun fs h => ?_
          rwa [Option.map_some, got_some, add_right_comm, add_sub_cancel_right] at h

theorem namex_spec (hcwd : 0 < c cwd) (path : List UInt8) (parent : Bool) :
    Completes (TableInv c) (namex cwd path parent)
    (fun r => TableInv (c + got (r.map Prod.fst))) := by
  refine .ite (fun _ => ?_) fun _ => ?_
  · exact .bind (iget_spec _ _) fun ip => namexLoop_spec parent _ ip path (Nat.lt_succ_self _)
  · exact .bind (idup_spec hcwd) fun _ => namexLoop_spec parent _ cwd path (Nat.lt_succ_self _)

theorem namei_spec (hcwd : 0 < c cwd) (path : List UInt8) :
    Completes (TableInv c) (namei cwd path) (fun r => TableInv (c + got r)) :=
  .bind (namex_spec hcwd path false) fun _ => .pure fun _ h => h

theorem nameiparent_spec (hcwd : 0 < c cwd) (path : List UInt8) :
    Completes (TableInv c) (nameiparent cwd path)
      (fun r => TableInv (c + got (r.map Prod.fst))) := namex_spec hcwd path true

theorem add_single_pos (hcwd : 0 < c cwd) (ip : Slot) :
    0 < (c + Pi.single ip 1 : Slot → ℤ) cwd := by
  rcases eq_or_ne cwd ip with rfl | hne
  · simp
    omega
  · simpa [hne] using hcwd

/-! ## Calls -/

theorem sysLinkBad_spec (ip : Slot) :
    Completes (TableInv (c + Pi.single ip 1)) (sysLinkBad ip) (fun _ => TableInv c) :=
  .bind (ilock_spec ip) fun _ => .bind (change_spec ip _) fun _ => iunlockput_return fun _ h => h

theorem linkAt_spec (dp ip : Slot) (name : List UInt8) (room : Bool) :
    Completes (TableInv c) (linkAt dp ip name room) (fun _ => TableInv c) :=
  TableInv.read fun _ => .ite (fun _ => .pure fun _ h => h) fun _ => dirlink_spec _ _ _ _

theorem sysLink_spec (hcwd : 0 < c cwd) (old new : List UInt8) (room : Bool) :
    Completes (TableInv c) (sysLink cwd old new room) (fun _ => TableInv c) := by
  refine .bind (namei_spec hcwd old) fun r => ?_
  cases r with
  | none => exact .pure fun _ h => by rwa [got_none, add_zero] at h
  | some ip =>
    refine .bind (ilock_spec ip) fun _ => TableInv.read fun fs =>
      .ite (fun _ => iunlockput_return fun _ h => h) fun _ => .bind (change_spec ip _) fun _ =>
        .bind (iunlock_spec ip) fun _ =>
          .bind (nameiparent_spec (add_single_pos hcwd ip) new) fun r => ?_
    cases r with
    | none =>
      rw [Option.map_none, got_none, add_zero]
      exact sysLinkBad_spec ip
    | some r =>
      obtain ⟨dp, name⟩ := r
      refine .bind (ilock_spec dp) fun _ => .bind (linkAt_spec dp ip name room) fun r =>
        .ite (fun _ => ?_) fun _ => ?_
      all_goals
        refine .bind (iunlockput_spec dp) fun _ => ?_
        rw [Option.map_some, got_some, add_sub_cancel_right]
      · exact iput_return fun _ h => h
      · exact sysLinkBad_spec ip

theorem dropParent_spec (dp : Slot) (type : FileType) :
    Completes (TableInv c) (dropParent dp type) (fun _ => TableInv c) :=
  .ite (fun _ => change_spec dp _) fun _ => .pure fun _ h => h

theorem unlinkAt_spec (dp ip : Slot) (off : ℕ) :
    Completes (TableInv (c + Pi.single dp 1 + Pi.single ip 1)) (unlinkAt dp ip off)
    (fun _ => TableInv c) := by
  refine .bind (ilock_spec ip) fun _ => TableInv.read fun fs =>
    .ite (fun _ => .throw fun _ _ => trivial) fun _ => .ite (fun _ => ?_) fun _ => ?_
  · refine .bind (iunlockput_spec ip) fun _ => ?_
    rw [add_sub_cancel_right]
    exact iunlockput_return fun _ h => h
  · cases writeDirent (fs.dirents dp) off _ true with
    | none => exact .throw fun _ _ => trivial
    | some des =>
      refine .bind (change_spec dp _) fun _ => .bind (dropParent_spec dp _) fun _ =>
        .bind (iunlockput_spec dp) fun _ => ?_
      rw [add_right_comm, add_sub_cancel_right]
      exact .bind (change_spec ip _) fun _ => iunlockput_return fun _ h => h

theorem sysUnlink_spec (hcwd : 0 < c cwd) (path : List UInt8) :
    Completes (TableInv c) (sysUnlink cwd path) (fun _ => TableInv c) := by
  refine .bind (nameiparent_spec hcwd path) fun r => ?_
  cases r with
  | none => exact .pure fun _ h => by rwa [Option.map_none, got_none, add_zero] at h
  | some r =>
    obtain ⟨dp, name⟩ := r
    refine .bind (ilock_spec dp) fun _ => .ite (fun _ => iunlockput_return fun _ h => h) fun _ =>
      .bind (dirlookup_spec dp name) fun r => ?_
    cases r with
    | none =>
      rw [Option.map_none, got_none, add_zero]
      exact iunlockput_return fun _ h => h
    | some r => exact unlinkAt_spec dp r.1 r.2

theorem createFail_spec (dp ip : Slot) :
    Completes (TableInv (c + Pi.single dp 1 + Pi.single ip 1)) (createFail dp ip)
      (fun r => TableInv (c + got r)) := by
  refine .bind (change_spec ip _) fun _ => .bind (iunlockput_spec ip) fun _ => ?_
  rw [add_sub_cancel_right]
  exact iunlockput_return fun _ h => h.hold

theorem createDots_spec (dp ip : Slot) (room : Fin 3 → Bool) :
    Completes (TableInv c) (createDots dp ip room) (fun _ => TableInv c) :=
  TableInv.read fun _ => .bind (dirlink_spec _ _ _ _) fun _ =>
    .ite (fun _ => dirlink_spec _ _ _ _) fun _ => .pure fun _ h => h

theorem createEntries_spec (dp ip : Slot) (name : List UInt8) (type : FileType)
    (room : Fin 3 → Bool) : Completes (TableInv c) (createEntries dp ip name type room)
    (fun _ => TableInv c) := by
  refine .bind (Q := fun _ => TableInv c) ?_ fun r =>
    .ite (fun _ => TableInv.read fun _ => dirlink_spec _ _ _ _) fun _ => .pure fun _ h => h
  exact .ite (fun _ => createDots_spec dp ip room) fun _ => .pure fun _ h => h

theorem raiseParent_spec (dp : Slot) (type : FileType) :
    Completes (TableInv c) (raiseParent dp type) (fun _ => TableInv c) :=
  .ite (fun _ => change_spec dp _) fun _ => .pure fun _ h => h

theorem createAt_spec (dp ip : Slot) (name : List UInt8) (type : FileType) (major : ℤ)
    (room : Fin 3 → Bool) : Completes (TableInv (c + Pi.single dp 1 + Pi.single ip 1))
      (createAt dp ip name type major room) (fun r => TableInv (c + got r)) := by
  refine .bind (ilock_spec ip) fun _ => .bind (change_spec ip _) fun _ =>
    .bind (createEntries_spec dp ip name type room) fun r =>
      .ite (fun _ => ?_) fun _ => createFail_spec dp ip
  rw [add_right_comm]
  exact .bind (raiseParent_spec dp type) fun _ => iunlockput_return fun _ h => h

/-- **`create`** hands back a reference to the inode that it found or made. -/
theorem create_spec (hcwd : 0 < c cwd) (path : List UInt8) (type : FileType) (major : ℤ)
    (room : Fin 3 → Bool) : Completes (TableInv c) (create ninodes cwd path type major room)
    (fun r => TableInv (c + got r)) := by
  refine .bind (nameiparent_spec hcwd path) fun r => ?_
  cases r with
  | none => exact .pure fun _ h => h
  | some r =>
    obtain ⟨dp, name⟩ := r
    refine .bind (ilock_spec dp) fun _ => .bind (dirlookup_spec dp name) fun r => ?_
    cases r with
    | some r =>
      refine .bind (iunlockput_spec dp) fun _ => .bind (ilock_spec r.1) fun _ =>
        TableInv.read fun fs => ?_
      rw [Option.map_some, Option.map_some, got_some, got_some, add_right_comm, add_sub_cancel_right]
      exact .ite (fun _ => .pure fun _ h => h) fun _ => iunlockput_return fun _ h => h.hold
    | none =>
      rw [Option.map_none, got_none, add_zero]
      refine TableInv.read fun fs => .bind (ialloc_spec _ type) fun r => ?_
      cases r with
      | none =>
        rw [got_none, add_zero]
        exact iunlockput_return fun _ h => h.hold
      | some ip => exact createAt_spec dp ip name type major room

theorem sysMake_spec (hcwd : 0 < c cwd) (path : List UInt8) (type : FileType) (major : ℤ)
    (room : Fin 3 → Bool) : Completes (TableInv c) (sysMake ninodes cwd path type major room)
    (fun _ => TableInv c) := by
  refine .bind (create_spec hcwd path type major room) fun r => ?_
  cases r with
  | none => exact .pure fun _ h => by rwa [got_none, add_zero] at h
  | some ip => exact iunlockput_return fun _ h => h

theorem openExisting_spec (hcwd : 0 < c cwd) (path : List UInt8) (omode : ℕ) :
    Completes (TableInv c) (openExisting cwd path omode) (fun r => TableInv (c + got r)) := by
  refine .bind (namei_spec hcwd path) fun r => ?_
  cases r with
  | none => exact .pure fun _ h => h
  | some ip =>
    exact .bind (ilock_spec ip) fun _ => TableInv.read fun _ =>
      .ite (fun _ => iunlockput_return fun _ h => h.hold) fun _ => .pure fun _ h => h

theorem openInode_spec (hcwd : 0 < c cwd) (path : List UInt8) (omode : ℕ) (room : Fin 3 → Bool) :
    Completes (TableInv c) (openInode ninodes cwd path omode room)
    (fun r => TableInv (c + got r)) := by
  refine .bind (Q := fun r => TableInv (c + got r)) ?_ fun r => ?_
  · exact .ite (fun _ => create_spec hcwd path .file 0 room) fun _ => openExisting_spec hcwd path omode
  · cases r with
    | none => exact .pure fun _ h => h
    | some ip =>
      exact TableInv.read fun _ => .ite (fun _ => iunlockput_return fun _ h => h.hold) fun _ =>
        .pure fun _ h => h

theorem chdirInode_spec (hcwd : 0 < c cwd) (path : List UInt8) :
    Completes (TableInv c) (chdirInode cwd path) (fun r => TableInv (c + got r)) := by
  refine .bind (namei_spec hcwd path) fun r => ?_
  cases r with
  | none => exact .pure fun _ h => h
  | some ip =>
    exact .bind (ilock_spec ip) fun _ => TableInv.read fun _ =>
      .ite (fun _ => iunlockput_return fun _ h => h.hold) fun _ =>
        .bind (iunlock_spec ip) fun _ => .pure fun _ h => h

theorem exec_spec (hcwd : 0 < c cwd) (path : List UInt8) (loaded pushed : Bool) :
    Completes (TableInv c) (exec cwd path loaded pushed) (fun _ => TableInv c) := by
  refine .bind (namei_spec hcwd path) fun r => ?_
  cases r with
  | none => exact .pure fun _ h => by rwa [got_none, add_zero] at h
  | some ip =>
    exact .bind (ilock_spec ip) fun _ => .ite (fun _ => iunlockput_return fun _ h => h) fun _ =>
      iunlockput_return fun _ h => h

end

end LazyXv6.InodeTable
