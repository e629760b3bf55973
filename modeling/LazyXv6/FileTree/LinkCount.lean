import LazyXv6.FileTree.Steps

/-!
# Link counts

`nlink` is meant to be the number of entries that name an inode: those of `.` apart, and those of
`..` counted while their directory is linked (`entryCount`). Two things make them wrong: a `short`
overflows at 32768 links, and a process can create files in its current directory after that was
unlinked.
-/

namespace LazyXv6.FileTree

open Function Lib Lib.SmallFin

instance (name : List UInt8) : Decidable (Plain name) := inferInstanceAs (Decidable (_ ∧ _))

instance (fs : Fs) (i : ℕ) : Decidable (fs.Alloc i) := inferInstanceAs (Decidable (¬ _))

/-- The inode is the root, or an entry other than `.` and `..` names it. -/
def Fs.LinkedDir (fs : Fs) (ninodes d : ℕ) : Prop :=
  d = rootIno ∨ ∃ x, x < ninodes ∧ fs.type x = .dir ∧ ∃ de ∈ fs.dirents x, de.inum = d ∧
    de.inum ≠ 0 ∧ Plain de.name

instance (fs : Fs) (ninodes d : ℕ) : Decidable (fs.LinkedDir ninodes d) :=
  inferInstanceAs (Decidable (_ ∨ _))

/-- The entry `de` of directory `d` counts as a link to `i`. -/
def Fs.Counts (fs : Fs) (ninodes d i : ℕ) (de : Dirent) : Prop :=
  de.inum = i ∧ de.inum ≠ 0 ∧ namecmp de.name dot ≠ 0 ∧
    (namecmp de.name dotdot = 0 → fs.LinkedDir ninodes d)

instance (fs : Fs) (ninodes d i : ℕ) (de : Dirent) : Decidable (fs.Counts ninodes d i de) :=
  inferInstanceAs (Decidable (_ ∧ _))

def Fs.entryCount (fs : Fs) (ninodes i : ℕ) : ℕ :=
  ∑ d ∈ Finset.range ninodes with fs.type d = .dir,
    (fs.dirents d).countP fun de => fs.Counts ninodes d i de

def Fs.Exact (fs : Fs) (ninodes : ℕ) : Prop :=
  ∀ i, fs.Alloc i → fs.nlink i = fs.entryCount ninodes i

/-- An image as `mkfs` makes them: inode numbers that a `ushort` can hold, directories named once,
by their parent, no inode that is not linked, and exact link counts. -/
structure WfImage (ninodes : ℕ) (image : ℕ → Inode) : Prop where
  ninodes_le : ninodes ≤ 2 ^ 16
  range : ∀ i, (mount image).Alloc i → 0 < i ∧ i < ninodes
  dir : ∀ d, (mount image).type d = .dir → DirWf d (image d).dirents
  kids : ∀ d, (mount image).type d = .dir → ∀ y ∈ kids (image d).dirents, (mount image).Alloc y
  wf : ((mount image).graph ninodes none).Wf
  exact : (mount image).Exact ninodes
  linked : ∀ i, (mount image).Alloc i → (mount image).LinkedDir ninodes i
  short : ∀ i, (mount image).nlink i < 2 ^ 15

section

variable {ninodes n d i : ℕ} {I : LinkGraph ℕ → List ℕ → Prop} {owed : List ℕ} {fs : Fs}
    {image : ℕ → Inode}

theorem not_namecmp_dots {m : List UInt8} (hm : namecmp dotdot m = 0) : namecmp m dot ≠ 0 :=
  fun h => absurd (namecmp_trans hm h) (by decide)

theorem DirWf.mem_kids_iff {des : List Dirent} (h : DirWf d des) :
    i ∈ kids des ↔ ∃ de ∈ des, de.inum = i ∧ de.inum ≠ 0 ∧ Plain de.name := by
  obtain @⟨n, m, p, rest, hd, hp, hn, hm, hrest⟩ := h
  rw [kids_eq, List.mem_filterMap]
  constructor
  · rintro ⟨de, hde, hkid⟩
    unfold kid at hkid
    split at hkid
    · exact nomatch hkid
    · rename_i hne
      cases hkid
      exact ⟨de, List.mem_cons_of_mem _ (List.mem_cons_of_mem _ hde), rfl, hne, hrest de hde hne⟩
  · rintro ⟨de, hde, hi, hne, hplain⟩
    rw [List.mem_cons, List.mem_cons] at hde
    rcases hde with rfl | rfl | hde
    · exact absurd (namecmp_comm hn) hplain.1
    · exact absurd (namecmp_comm hm) hplain.2
    · exact ⟨de, hde, by rw [← hi]; exact if_neg hne⟩

theorem DirWf.countP_eq {des : List Dirent} (h : DirWf d des) (fs : Fs) :
    (des.countP fun de => fs.Counts ninodes d i de) =
      (kids des).count i + if fs.LinkedDir ninodes d ∧ parentOf des = i then 1 else 0 := by
  obtain @⟨n, m, p, rest, hd, hp, hn, hm, hrest⟩ := h
  have hfirst : ¬ fs.Counts ninodes d i ⟨d, n⟩ := fun hc => hc.2.2.1 (namecmp_comm hn)
  have hsecond : fs.Counts ninodes d i ⟨p, m⟩ ↔ fs.LinkedDir ninodes d ∧ p = i :=
    ⟨fun hc => ⟨hc.2.2.2 (namecmp_comm hm), hc.1⟩,
      fun hc => ⟨hc.2, hp, not_namecmp_dots hm, fun _ => hc.1⟩⟩
  have htail : (rest.countP fun de => fs.Counts ninodes d i de) = (rest.filterMap kid).count i := by
    rw [List.count, List.countP_filterMap]
    refine List.countP_congr fun de hde => ?_
    unfold kid
    by_cases hne : de.inum = 0
    · simp [hne, Fs.Counts]
    · have hplain := hrest de hde hne
      simp only [hne, if_false, Option.map_some, Option.getD_some, beq_iff_eq, decide_eq_true_eq]
      exact ⟨fun hc => hc.1, fun hc => ⟨hc, hne, hplain.1, fun h0 => absurd h0 hplain.2⟩⟩
  rw [kids_eq, List.countP_cons, List.countP_cons, htail]
  simp only [hfirst, hsecond, decide_false]
  show _ + _ + 0 = _ + (if fs.LinkedDir ninodes d ∧ p = i then 1 else 0)
  simp

structure DirsOk (ninodes : ℕ) (fs : Fs) : Prop where
  range : ∀ i, fs.Alloc i → i < ninodes
  dir : ∀ d, fs.type d = .dir → DirWf d (fs.dirents d)

theorem DiskInv.dirsOk (h : DiskInv ninodes I none owed fs) : DirsOk ninodes fs :=
  ⟨fun i hi => (h.range i hi).2, fun d hd => h.dir d ⟨hd, nofun⟩⟩

theorem DirsOk.mem_dirs (h : DirsOk ninodes fs) :
    d ∈ (fs.graph ninodes none).dirs ↔ fs.type d = .dir := by
  unfold Fs.graph
  rw [Finset.mem_filter, Finset.mem_range]
  refine ⟨fun hd => hd.2.1, fun hd => ⟨h.range d fun hf => ?_, hd, nofun⟩⟩
  exact absurd (hd.symm.trans hf) nofun

theorem DirsOk.linkedDir_iff (h : DirsOk ninodes fs) :
    fs.LinkedDir ninodes d ↔ (fs.graph ninodes none).Linked d := by
  unfold Fs.LinkedDir LinkGraph.Linked
  refine or_congr_right (exists_congr fun x => ?_)
  rw [h.mem_dirs]
  constructor
  · rintro ⟨-, hx, hde⟩
    exact ⟨hx, (h.dir x hx).mem_kids_iff.mpr hde⟩
  · rintro ⟨hx, hd⟩
    refine ⟨h.range x fun hf => ?_, hx, (h.dir x hx).mem_kids_iff.mp hd⟩
    exact absurd (hx.symm.trans hf) nofun

/-- **The entries that name an inode are its links in the graph.** -/
theorem DirsOk.entryCount_eq (h : DirsOk ninodes fs) :
    fs.entryCount ninodes i = (fs.graph ninodes none).links i := by
  have hdirs : (fs.graph ninodes none).dirs = {d ∈ Finset.range ninodes | fs.type d = .dir} :=
    Finset.filter_congr fun d _ => ⟨fun hd => hd.1, fun hd => ⟨hd, nofun⟩⟩
  have hcard : ((fs.graph ninodes none).ups i).card = ∑ d ∈ (fs.graph ninodes none).dirs,
      if fs.LinkedDir ninodes d ∧ parentOf (fs.dirents d) = i then 1 else 0 := by
    unfold LinkGraph.ups
    rw [Finset.card_filter]
    refine Finset.sum_congr rfl fun d _ => ?_
    simp only [h.linkedDir_iff]
    rfl
  unfold Fs.entryCount LinkGraph.links LinkGraph.named
  rw [hcard, ← Finset.sum_add_distrib, hdirs]
  refine Finset.sum_congr rfl fun d hd => ?_
  exact (h.dir d (Finset.mem_filter.mp hd).2).countP_eq fs

/-- **Link counts are exact** where no entry was lost. -/
theorem DiskInv.exact (h : DiskInv ninodes I none [] fs) (hlost : fs.lost = []) :
    fs.Exact ninodes := by
  intro i hi
  rw [h.nlink i ⟨hi, nofun⟩, h.dirsOk.entryCount_eq]
  unfold Fs.total
  rw [hlost, List.append_nil, List.count_nil, Nat.add_zero]

/-! ## Runs -/

theorem WfImage.dirsOk (h : WfImage ninodes image) : DirsOk ninodes (mount image) :=
  ⟨fun i hi => (h.range i hi).2, h.dir⟩

theorem WfImage.nlink_pos (h : WfImage ninodes image) (hi : (mount image).Alloc i) :
    0 < (mount image).nlink i := by
  have hlinks : 0 < ((mount image).graph ninodes none).links i := by
    rcases eq_or_ne i rootIno with rfl | hne
    · exact h.wf.root_links
    · have hl := h.dirsOk.linkedDir_iff.mp (h.linked i hi)
      exact Nat.add_pos_left (LinkGraph.named_pos_of_linked hl hne) _
  rw [h.exact i hi, h.dirsOk.entryCount_eq]
  exact_mod_cast hlinks

theorem WfImage.diskInv (h : WfImage ninodes image) (hI : I ((mount image).graph ninodes none) []) :
    DiskInv ninodes I none [] (mount image) := by
  have htotal : ∀ i, (mount image).Alloc i →
    (mount image).nlink i = ((mount image).total ninodes none [] i : ℕ) := by
    intro i hi
    rw [h.exact i hi, h.dirsOk.entryCount_eq]
    rfl
  refine ⟨h.range, h.wf, fun d hd => h.dir d hd.1,
    fun d hd y hy => ⟨h.kids d hd.1 y hy, nofun⟩, nofun, fun i hi => htotal i hi.1,
    fun i hi => ?_, hI⟩
  have ht := htotal i hi.1
  have hs := h.short i
  omega

theorem WfImage.linked_dirs (h : WfImage ninodes image)
    (hd : d ∈ ((mount image).graph ninodes none).dirs) :
    ((mount image).graph ninodes none).Linked d :=
  h.dirsOk.linkedDir_iff.mp (h.linked d (Fs.alloc_of_dir (h.dirsOk.mem_dirs.mp hd)))

theorem holders_boot (i : ℕ) :
    holders (boot image : State (n + 1)).file (boot image : State (n + 1)).proc i =
      if i = rootIno then 1 else 0 := by
  have hfile : tally (fun _ f => File.holds i f) (boot image : State (n + 1)).file = 0 :=
    Finset.sum_eq_zero fun f _ => congrArg unit (holds_eq_false (.inl le_rfl) i)
  have hnone : tally (fun _ p => cwdIs i p) (fun _ : Fin (n + 1) => (none : Option Proc)) = 0 :=
    Finset.sum_eq_zero fun _ _ => rfl
  unfold holders
  rw [hfile]
  show 0 + tally (fun _ p => cwdIs i p)
    (update (fun _ : Fin (n + 1) => none) 0 (some ⟨rootIno, fun _ => none⟩)) = _
  rw [tally_update, hnone, unit_cwdIs]
  rcases eq_or_ne i rootIno with rfl | hne
  · simp [cwdIs]
  · simp [cwdIs, hne, hne.symm]

theorem WfImage.stateInv (h : WfImage ninodes image)
    (hI : I ((mount image).graph ninodes none) []) : StateInv ninodes I
    (boot image : State (n + 1)) := by
  refine ⟨⟨h.diskInv hI, fun i => holders_nonneg .., fun i => ?_, nofun, fun i hi => ?_,
    fun i hi h0 => ?_, nofun⟩, fun _ _ => rfl⟩
  · rw [holders_boot]
    show update (fun _ => (0 : ℤ)) rootIno 1 i = _
    rcases eq_or_ne i rootIno with rfl | hne
    · simp
    · simp [hne]
  · rw [holders_boot] at hi
    split at hi
    · rename_i he
      rw [he]
      exact (h.diskInv hI).root.settled
    · exact absurd hi (lt_irrefl _)
  · exact absurd h0 (h.nlink_pos hi.1).ne'

/-- The call makes no entry in a directory whose `nlink` is 0. -/
def EntersLinked (s : State n) (a : Fin n × Call n) : Prop :=
  ∀ pr ∈ s.proc a.1, ∀ dp ∈ s.fs.entered pr.cwd a.2, s.fs.nlink dp ≠ 0

instance (s : State n) (a : Fin n × Call n) : Decidable (NlinkFits s a ∧ EntersLinked s a) := by
  unfold NlinkFits EntersLinked
  infer_instance

/-- **One call.** While it runs, the directory that it may enter something in is linked. -/
theorem StateInv.barren_step {s s' : State n} {a : Fin n × Call n} (hN : ninodes ≤ 2 ^ 16)
    (h : StateInv ninodes (LinkGraph.Barren fun _ => False) s) (hfit : NlinkFits s a)
    (hlinked : EntersLinked s a) (hs : next ninodes s a = some s') :
    StateInv ninodes (LinkGraph.Barren fun _ => False) s' := by
  have hdisk := h.inv.disk
  have hall : StateInv ninodes
    (LinkGraph.Barren fun d => ∃ pr ∈ s.proc a.1, d ∈ s.fs.entered pr.cwd a.2) s := by
    refine h.imp fun hb => ⟨hb.empty, fun d hd ⟨pr, hpr, he⟩ => ?_, hb.lost⟩
    refine hb.linked_of_links hdisk.wf hd fun h0 => hlinked pr hpr d he ?_
    rw [hdisk.nlink d (hdisk.mem_dirs.mp hd).settled]
    unfold Fs.total
    rw [h0, hb.lost, List.append_nil, List.count_nil]
    rfl
  refine (hall.step LinkGraph.steady_barren hN hfit (fun pr hpr dp hdp => ?_)
    (fun pr hpr e he => ?_) hs).imp fun hb => ⟨hb.empty, nofun, hb.lost⟩
  · exact LinkGraph.adds_barren ⟨pr, hpr, hdp⟩
  · refine LinkGraph.removes_barren ?_
    rintro d ⟨pr', hpr', hd⟩
    cases hc : a.2 with
    | unlink path =>
      rw [hc] at hd
      exact absurd hd (Option.not_mem_none d)
    | _ =>
      rw [hc] at he
      exact absurd he (Option.not_mem_none e)

/-- **Link counts are exact** after calls that raise no `nlink` beyond a `short` and make no entry
in a directory whose `nlink` is 0, and an inode without entries is kept by a reference. -/
theorem link_counts_exact (ninodes : ℕ) (image : ℕ → Inode) (h : WfImage ninodes image) (n : ℕ)
    (s : State (n + 1))
    (hs : ReachIf (next ninodes) (fun t a => NlinkFits t a ∧ EntersLinked t a) (boot image) s) :
    s.fs.Exact ninodes ∧
    ∀ i, s.fs.Alloc i → s.fs.entryCount ninodes i = 0 → s.fs.nlink i = 0 ∧ 0 < s.fs.ref i := by
  have hinv := hs.invariant (I := StateInv ninodes (LinkGraph.Barren fun _ => False))
    (fun t a t' ht ha hstep => ht.barren_step h.ninodes_le ha.1 ha.2 hstep)
    (h.stateInv ⟨fun d hd hl => absurd (h.linked_dirs hd) hl, nofun, rfl⟩)
  have hexact := hinv.inv.disk.exact hinv.inv.disk.keeps.lost
  refine ⟨hexact, fun i hi h0 => ?_⟩
  have hn : s.fs.nlink i = 0 := by
    rw [hexact i hi, h0]
    rfl
  exact ⟨hn, hinv.inv.refOk.kept i hi hn⟩

end

/-! ## An image -/

/-- An image with nothing but the root directory. -/
def rootImage (i : ℕ) : Inode :=
  if i = rootIno then ⟨.dir, 0, 1,
    [⟨rootIno, strncpy dot dirSiz⟩, ⟨rootIno, strncpy dotdot dirSiz⟩]⟩
  else .zero

def nInodes : ℕ := 200

theorem rootImage_of_ne {i : ℕ} (h : i ≠ rootIno) : rootImage i = .zero := if_neg h

theorem rootImage_alloc {i : ℕ} (h : (mount rootImage).Alloc i) : i = rootIno := by
  by_contra hne
  exact h (congrArg Inode.type (rootImage_of_ne hne))

theorem rootImage_dir {d : ℕ} (h : (mount rootImage).type d = .dir) : d = rootIno :=
  rootImage_alloc fun hf => absurd (h.symm.trans hf) nofun

theorem rootImage_kids {d : ℕ} (h : (mount rootImage).type d = .dir) :
    kids (rootImage d).dirents = [] := by
  rw [rootImage_dir h]
  rfl

theorem wfImage_rootImage : WfImage nInodes rootImage := by
  have hgraph : ∀ d ∈ ((mount rootImage).graph nInodes none).dirs,
    (mount rootImage).type d = .dir :=
    fun d hd => (Finset.mem_filter.mp hd).2.1
  refine ⟨by decide, fun i hi => ?_, fun d hd => ?_, fun d hd y hy => ?_,
    ⟨by decide, by decide, by decide +kernel, fun d hd => ?_, fun x hx y hy => ?_⟩,
    fun i hi => ?_, fun i hi => ?_, fun i => ?_⟩
  · rw [rootImage_alloc hi]
    decide
  · rw [rootImage_dir hd]
    exact .intro (by decide) (by decide) (by decide) (by decide) nofun
  · rw [rootImage_kids hd] at hy
    exact nomatch hy
  · rw [rootImage_dir (hgraph d hd)]
    decide +kernel
  · replace hy : y ∈ kids (rootImage x).dirents := hy
    rw [rootImage_kids (hgraph x hx)] at hy
    exact nomatch hy
  · rw [rootImage_alloc hi]
    decide +kernel
  · exact .inl (rootImage_alloc hi)
  · rcases eq_or_ne i rootIno with rfl | hne
    · decide
    · show (rootImage i).nlink < 2 ^ 15
      rw [rootImage_of_ne hne]
      decide

/-! ## Runs from the image -/

/-- `d`. -/
def pathD : List UInt8 := [100]

/-- `/d`. -/
def pathSlashD : List UInt8 := [47, 100]

/-- `f`. -/
def pathF : List UInt8 := [102]

/-- `/`. -/
def pathRoot : List UInt8 := [47]

/-- `d/f`. -/
def pathDF : List UInt8 := [100, 47, 102]

/-- A file is created in a new directory, gets a second name and loses the first. -/
def renameActs : List (Fin 1 × Call 1) :=
  [(0, .mkdir pathD fun _ => true), (0, .open pathDF 0x201 fun _ => true),
    (0, .link pathDF pathF true), (0, .unlink pathDF)]

/-- The root has two links then, its own `..` and that of `d`, and the file one. -/
theorem link_counts_exact_rename : ∃ s : State 1,
    ReachIf (next nInodes) (fun t a => NlinkFits t a ∧ EntersLinked t a) (boot rootImage) s ∧
    s.fs.nlink rootIno = 2 ∧ s.fs.nlink 3 = 1 ∧ s.fs.Exact nInodes := by
  obtain ⟨s, hs, hroot, hfile⟩ :
    ∃ s ∈ runActsIf (next nInodes) (fun t a => NlinkFits t a ∧ EntersLinked t a)
      (boot rootImage) renameActs, s.fs.nlink rootIno = 2 ∧ s.fs.nlink 3 = 1 := by decide +kernel
  have hreach := reachIf_of_runActsIf hs
  exact ⟨s, hreach, hroot, hfile,
    (link_counts_exact nInodes rootImage wfImage_rootImage 0 s hreach).1⟩

/-- A file is created in a current directory that is no longer linked, and closed again; then the
process leaves. -/
def orphanActs : List (Fin 1 × Call 1) :=
  [(0, .mkdir pathD fun _ => true), (0, .chdir pathD), (0, .unlink pathSlashD),
    (0, .open pathF 0x201 fun _ => true), (0, .close ⟨0, nOfile_pos⟩), (0, .chdir pathRoot)]

/-- **The file keeps its link count**, with no entry that names it and no reference: it is never
freed. -/
theorem nlink_without_entry : WfImage nInodes rootImage ∧ ∃ s : State 1,
    runActs (next nInodes) (boot rootImage) orphanActs = some s ∧
    s.fs.Alloc 3 ∧ s.fs.nlink 3 = 1 ∧ s.fs.entryCount nInodes 3 = 0 ∧ s.fs.ref 3 = 0 := by
  refine ⟨wfImage_rootImage, ?_⟩
  show ∃ s ∈ runActs (next nInodes) (boot rootImage) orphanActs, _
  decide +kernel

end LazyXv6.FileTree
