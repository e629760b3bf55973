import LazyXv6.FileTree.LinkCount

/-!
# Entries that dangle

Of the entries of a directory only `..` can name a free inode: `.` names the directory itself, and
the others are counted in the `nlink` of what they name. A `..` is counted while its directory is
linked. Once that is unlinked, nothing keeps its parent, and a process whose current directory it
still is walks into a free inode with `..` (`dotdot_dangles`).
-/

namespace LazyXv6.FileTree

open Lib Lib.SmallFin

section

variable {ninodes n d : ℕ} {I : LinkGraph ℕ → List ℕ → Prop} {fs : Fs} {image : ℕ → Inode}
    {s s' : State n}

theorem DirWf.exists_parent {des : List Dirent} (h : DirWf d des) :
    ∃ de ∈ des, de.inum = parentOf des ∧ de.inum ≠ 0 := by
  obtain @⟨n, m, p, rest, hd, hp, hn, hm, hrest⟩ := h
  exact ⟨⟨p, m⟩, by simp, rfl, hp⟩

theorem DirWf.inum_cases {des : List Dirent} (h : DirWf d des) {de : Dirent} (hde : de ∈ des)
    (hne : de.inum ≠ 0) : de.inum = d ∨ de.inum = parentOf des ∨ de.inum ∈ kids des := by
  obtain @⟨n, m, p, rest, hd, hp, hn, hm, hrest⟩ := h
  rw [List.mem_cons, List.mem_cons] at hde
  rcases hde with rfl | rfl | hde
  · exact .inl rfl
  · exact .inr (.inl rfl)
  · rw [kids_eq]
    exact .inr (.inr (List.mem_filterMap.mpr ⟨de, hde, if_neg hne⟩))

theorem DiskInv.noDangling_iff (h : DiskInv ninodes I none [] fs) :
    fs.NoDangling ↔ ∀ d, fs.type d = .dir → fs.Alloc (parentOf (fs.dirents d)) := by
  constructor
  · intro hdang d hd
    obtain ⟨de, hde, hp, hne⟩ := (h.dir d ⟨hd, nofun⟩).exists_parent
    rw [← hp]
    exact hdang d hd de hde hne
  · intro hparent d hd de hde hne
    rcases (h.dir d ⟨hd, nofun⟩).inum_cases hde hne with hi | hi | hi
    · rw [hi]
      exact fun hf => absurd (hd.symm.trans hf) nofun
    · rw [hi]
      exact hparent d hd
    · exact (h.kids d ⟨hd, nofun⟩ _ hi).1

theorem DiskInv.alloc_parent (h : DiskInv ninodes I none [] fs) (hd : fs.type d = .dir)
    (hl : (fs.graph ninodes none).Linked d) : fs.Alloc (parentOf (fs.dirents d)) :=
  (h.mem_dirs.mp (h.wf.parent_mem (h.mem_dirs.mpr ⟨hd, nofun⟩) hl)).settled.1

/-- The call erases the entry of a directory only in a directory that is linked, and only if it is
the `..` of no directory that is not. -/
def UnlinksFree (ninodes : ℕ) (s : State n) (a : Fin n × Call n) : Prop :=
  ∀ pr ∈ s.proc a.1, ∀ e ∈ s.fs.unlinked pr.cwd a.2, s.fs.type e.2 = .dir →
    s.fs.LinkedDir ninodes e.1 ∧ ∀ d < ninodes, s.fs.type d = .dir → ¬ s.fs.LinkedDir ninodes d →
      parentOf (s.fs.dirents d) ≠ e.2

instance (s : State n) (a : Fin n × Call n) :
    Decidable (NlinkFits s a ∧ UnlinksFree ninodes s a) := by
  unfold NlinkFits UnlinksFree
  infer_instance

theorem StateInv.rooted_lift (h : StateInv ninodes (LinkGraph.Rooted fun _ _ => False) s)
    {a : Fin n × Call n} (hfree : UnlinksFree ninodes s a) : StateInv ninodes
      (LinkGraph.Rooted fun x y => ∃ pr ∈ s.proc a.1, (x, y) ∈ s.fs.unlinked pr.cwd a.2) s := by
  have hok := h.inv.disk.dirsOk
  refine h.imp fun hr => ⟨hr.parent, ?_⟩
  rintro x - y hy ⟨pr, hpr, he⟩ -
  obtain ⟨hx, hrest⟩ := hfree pr hpr (x, y) he (hok.mem_dirs.mp hy)
  refine ⟨hok.linkedDir_iff.mp hx, fun d hd hl => ?_⟩
  have hdir := hok.mem_dirs.mp hd
  exact hrest d (hok.range d (Fs.alloc_of_dir hdir)) hdir (mt hok.linkedDir_iff.mp hl)

section

variable {a : Fin n × Call n}

theorem rooted_adds {pr : Proc} {dp : ℕ} (hdp : dp ∈ s.fs.entered pr.cwd a.2) :
    LinkGraph.Adds (LinkGraph.Rooted fun x y => ∃ pr ∈ s.proc a.1, (x, y) ∈
      s.fs.unlinked pr.cwd a.2) dp := by
  refine LinkGraph.adds_rooted ?_
  rintro x y ⟨pr', -, he⟩
  cases hc : a.2 with
  | unlink path =>
    rw [hc] at hdp
    exact absurd hdp (Option.not_mem_none dp)
  | _ =>
    rw [hc] at he
    exact absurd he (Option.not_mem_none _)

theorem rooted_removes {pr : Proc} (hpr : pr ∈ s.proc a.1) {e : ℕ × ℕ}
    (he : e ∈ s.fs.unlinked pr.cwd a.2) : LinkGraph.Removes
      (LinkGraph.Rooted fun x y => ∃ pr ∈ s.proc a.1, (x, y) ∈ s.fs.unlinked pr.cwd a.2)
      e.1 e.2 := by
  refine LinkGraph.removes_rooted ?_ ⟨pr, hpr, he⟩
  rintro x y ⟨pr', hpr', hxy⟩
  cases Option.mem_unique hpr hpr'
  cases Option.mem_unique he hxy
  exact ⟨rfl, rfl⟩

end

theorem DiskInv.noDangling (h : DiskInv ninodes (LinkGraph.Rooted fun _ _ => False) none [] fs) :
    fs.NoDangling := by
  rw [h.noDangling_iff]
  intro d hd
  by_cases hl : (fs.graph ninodes none).Linked d
  · exact h.alloc_parent hd hl
  · exact (h.mem_dirs.mp (h.keeps.parent d (h.mem_dirs.mpr ⟨hd, nofun⟩) hl).1).settled.1

/-- **No entry dangles** after calls that raise no `nlink` beyond a `short`, and that erase the
entry of a directory only where its parent is linked and it is the parent of no directory that is
not; and none of them makes `ilock` panic for want of a type. -/
theorem no_dangling (ninodes : ℕ) (image : ℕ → Inode) (h : WfImage ninodes image) (n : ℕ)
    (s : State (n + 1)) (hs : ReachIf (next ninodes)
      (fun t a => NlinkFits t a ∧ UnlinksFree ninodes t a) (boot image) s) :
    s.fs.NoDangling ∧ ∀ a, NlinkFits s a → call ninodes s a ≠ some (.error .ilockNoType) := by
  have hinv := hs.invariant (I := StateInv ninodes (LinkGraph.Rooted fun _ _ => False))
    (fun t a t' ht ha hstep => ((ht.rooted_lift ha.2).step LinkGraph.steady_rooted h.ninodes_le ha.1
      (fun _ _ _ => rooted_adds) (fun _ hpr _ => rooted_removes hpr) hstep).imp
        fun hr => ⟨hr.parent, nofun⟩)
    (h.stateInv ⟨fun d hd hl => absurd (h.linked_dirs hd) hl, nofun⟩)
  have hdang := hinv.inv.disk.noDangling
  have hany : LinkGraph.Steady fun (_ : LinkGraph ℕ) (_ : List ℕ) => True :=
    ⟨fun _ _ => trivial, fun _ _ _ _ _ => trivial, fun _ _ _ _ _ => trivial⟩
  refine ⟨hdang, fun a ha hpanic => (hinv.imp fun _ => trivial).panic hany h.ninodes_le ha
    (fun _ _ _ _ => ⟨fun _ _ _ _ _ => trivial, fun _ _ _ => trivial⟩)
    (fun _ _ _ _ => ?_) hpanic hdang⟩
  exact fun _ _ _ _ _ _ _ => trivial

end

/-! ## Runs from an image -/

/-- `a`. -/
def pathA : List UInt8 := [97]

/-- `/a`. -/
def pathSlashA : List UInt8 := [47, 97]

/-- `a/b`. -/
def pathAB : List UInt8 := [97, 47, 98]

/-- `/a/b`. -/
def pathSlashAB : List UInt8 := [47, 97, 47, 98]

/-- A current directory and then its parent are removed. -/
def danglingActs : List (Fin 1 × Call 1) :=
  [(0, .mkdir pathA fun _ => true), (0, .mkdir pathAB fun _ => true), (0, .chdir pathAB),
    (0, .unlink pathSlashAB), (0, .unlink pathSlashA)]

/-- The current directory is removed, and its parent is not. -/
theorem no_dangling_rmdir : ∃ s : State 1,
    ReachIf (next nInodes) (fun t a => NlinkFits t a ∧ UnlinksFree nInodes t a) (boot rootImage) s ∧
    s.fs.type 3 = .dir ∧ s.fs.nlink 3 = 0 ∧ s.fs.NoDangling := by
  obtain ⟨s, hs, hdir, hn⟩ :
    ∃ s ∈ runActsIf (next nInodes) (fun t a => NlinkFits t a ∧ UnlinksFree nInodes t a)
      (boot rootImage) (danglingActs.take 4), s.fs.type 3 = .dir ∧ s.fs.nlink 3 = 0 := by decide +kernel
  have hreach := reachIf_of_runActsIf hs
  exact ⟨s, hreach, hdir, hn, (no_dangling nInodes rootImage wfImage_rootImage 0 s hreach).1⟩

/-- **The `..` of the current directory dangles**, and a `chdir` to it panics. -/
theorem dotdot_dangles : WfImage nInodes rootImage ∧ ∃ s : State 1,
    runActs (next nInodes) (boot rootImage) danglingActs = some s ∧
    (s.proc 0).map Proc.cwd = some 3 ∧ s.fs.type 3 = .dir ∧
    ¬ s.fs.Alloc (parentOf (s.fs.dirents 3)) ∧ ¬ s.fs.NoDangling ∧
    call nInodes s (0, .chdir dotdot) = some (.error .ilockNoType) := by
  obtain ⟨s, hs, hcall, hcwd, hdir, hparent, de, hde, hne, hfree⟩ :
      ∃ s ∈ runActs (next nInodes) (boot rootImage) danglingActs,
      (call nInodes s (0, .chdir dotdot)).map (·.map fun _ => ()) = some (.error .ilockNoType) ∧
      (s.proc 0).map Proc.cwd = some 3 ∧ s.fs.type 3 = .dir ∧ ¬ s.fs.Alloc (parentOf (s.fs.dirents 3)) ∧
      ∃ de ∈ s.fs.dirents 3, de.inum ≠ 0 ∧ ¬ s.fs.Alloc de.inum := by decide +kernel
  refine ⟨wfImage_rootImage, s, hs, hcwd, hdir, hparent, fun hd => hfree (hd 3 hdir de hde hne), ?_⟩
  obtain ⟨r, hr, hpanic⟩ := Option.map_eq_some_iff.mp hcall
  cases r with
  | error e =>
    cases hpanic
    exact hr
  | ok s => cases hpanic

end LazyXv6.FileTree
