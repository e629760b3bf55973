import LazyXv6.FileTree.Invariant

/-!
# System calls as steps

The references to an inode are held by open files and by processes (`holders`). Every completed call
leads from a state with the invariant to one with it (`StateInv.step`), if the `nlink` that it
raises can be raised.
-/

namespace LazyXv6.FileTree

open Function Lib

variable {n : ℕ}

def File.holds (i : ℕ) (f : File) : Bool :=
  decide (0 < f.ref ∧ (f.type = .inode ∨ f.type = .device) ∧ f.ip = i)

def cwdIs (i : ℕ) (p : Option Proc) : Bool := p.any fun pr => pr.cwd = i

/-- How many open files and processes hold a reference. -/
def holders (file : Fin nFile → File) (proc : Fin n → Option Proc) (i : ℕ) : ℤ :=
  tally (fun _ f => f.holds i) file + tally (fun _ p => cwdIs i p) proc

/-- A file that is not in use has no type. -/
def FileOk (f : File) : Prop := f.ref = 0 → f.type = .none

theorem FileOk.update {file : Fin nFile → File} {f : Fin nFile} {ff : File}
    (h : ∀ g, FileOk (file g)) (hff : FileOk ff) (g : Fin nFile) :
    FileOk (Function.update file f ff g) := by
  rcases eq_or_ne g f with rfl | hne
  · rwa [update_self]
  · rw [update_of_ne hne]
    exact h g

/-- The invariant in the course of a call, with the processes `P`. -/
structure SInv (ninodes : ℕ) (I : LinkGraph ℕ → List ℕ → Prop) (held : List ℕ)
    (P : Fin n → Option Proc) (s : State n) : Prop where
  inv : FsInv ninodes (holders s.file s.proc) I none [] held s.fs
  files : ∀ f, FileOk (s.file f)
  proc : s.proc = P

/-- The invariant between calls. -/
structure StateInv (ninodes : ℕ) (I : LinkGraph ℕ → List ℕ → Prop) (s : State n) : Prop where
  inv : FsInv ninodes (holders s.file s.proc) I none [] [] s.fs
  files : ∀ f, FileOk (s.file f)

section

variable {ninodes : ℕ} {I : LinkGraph ℕ → List ℕ → Prop} {held held' : List ℕ}
    {P : Fin n → Option Proc}
  {s s' : State n} {E : FsPanic → Prop} {i : ℕ} {f : Fin nFile} {p q : Fin n} {pr pr' : Proc}
  {H H' : ℕ → ℤ} {fs : Fs} {file : Fin nFile → File} {α : Type}

theorem holders_nonneg (file : Fin nFile → File) (proc : Fin n → Option Proc) (i : ℕ) :
    0 ≤ holders file proc i := add_nonneg (tally_nonneg ..) (tally_nonneg ..)

theorem holders_setFile (file : Fin nFile → File) (proc : Fin n → Option Proc) (f : Fin nFile)
    (ff : File) (i : ℕ) : holders (update file f ff) proc i =
      holders file proc i - unit ((file f).holds i) + unit (ff.holds i) := by
  unfold holders
  rw [tally_update]
  ring

theorem holders_setProc (file : Fin nFile → File) (proc : Fin n → Option Proc) (p : Fin n)
    (pr : Option Proc) (i : ℕ) : holders file (update proc p pr) i =
      holders file proc i - unit (cwdIs i (proc p)) + unit (cwdIs i pr) := by
  unfold holders
  rw [tally_update]
  ring

theorem unit_cwdIs (pr : Proc) (i : ℕ) : unit (cwdIs i (some pr)) = [pr.cwd].count i := by
  unfold cwdIs
  rw [Option.any_some]
  rcases eq_or_ne pr.cwd i with rfl | hne
  · simp
  · simp [hne]

theorem unit_holds {ff : File} (hpos : 0 < ff.ref) (htype : ff.type = .inode ∨ ff.type = .device)
    (i : ℕ) : unit (ff.holds i) = [ff.ip].count i := by
  unfold File.holds
  rcases eq_or_ne ff.ip i with rfl | hne
  · simp [hpos, htype]
  · simp [hne]

theorem holds_eq_false {ff : File} (h : ff.ref ≤ 0 ∨ ¬ (ff.type = .inode ∨ ff.type = .device))
    (i : ℕ) : ff.holds i = false := by
  unfold File.holds
  rw [decide_eq_false_iff_not]
  rintro ⟨hpos, htype, -⟩
  rcases h with h | h
  · omega
  · exact h htype

theorem count_cons_add (i j : ℕ) (held : List ℕ) :
    ((i :: held).count j : ℤ) = [i].count j + held.count j := by
  have happend : ([i] ++ held).count j = [i].count j + held.count j := List.count_append
  exact_mod_cast happend

theorem FsInv.shift (h : FsInv ninodes H I none [] held fs)
    (hsum : ∀ j, H j + held.count j = H' j + held'.count j) (hn : ∀ j, 0 ≤ H' j)
    (hused : ∀ j, 0 < H' j → fs.Alloc j) : FsInv ninodes H' I none [] held' fs := by
  refine ⟨h.disk, hn, fun j => ?_, h.refs.valid, fun j hj => ⟨hused j hj, nofun⟩,
    fun j hj h0 => ?_, nofun⟩
  · rw [h.refs.ref, hsum]
  · obtain ⟨hk, hv⟩ := h.refs.kept j hj h0
    refine ⟨?_, hv⟩
    have hs := hsum j
    have hnj := hn j
    have hnj' := h.refs.nonneg j
    by_contra hno
    rw [not_or] at hno
    have hz : held'.count j = 0 := List.count_eq_zero_of_not_mem hno.2
    rcases hk with hk | hk
    · omega
    · have hpos : 0 < held.count j := List.count_pos_iff.mpr hk
      omega

theorem FsInv.alloc (h : FsInv ninodes H I none [] held fs) (hi : 0 < H i) : fs.Alloc i :=
  (h.refs.used i hi).1

theorem onFs_spec {m : Op α} {Q : α → State n → Prop}
    (h : Ensures (· = s.fs) m (fun a fs => Q a { s with fs := fs }) E) :
    Ensures (· = s) (onFs m) Q E := by
  rintro s rfl
  have hm := h s.fs rfl
  unfold onFs
  cases hr : m s.fs with
  | error | ok =>
    rw [hr] at hm
    exact hm

theorem SInv.setFs (h : SInv ninodes I held P s) {fs : Fs}
    (hk : FsInv ninodes (holders s.file s.proc) I none [] held' fs) :
    SInv ninodes I held' P { s with fs := fs } := ⟨hk, h.files, h.proc⟩

variable (hI : LinkGraph.Steady I)

include hI in
theorem onFs_iput (i : ℕ) : Ensures (SInv ninodes I (i :: held) P) (onFs (iput i) : Sys n Unit)
    (fun _ => SInv ninodes I held P) E := by
  refine .of_forall fun s h => onFs_spec (.modify ?_)
  rintro fs rfl
  exact h.setFs (h.inv.iput hI nofun)

theorem SInv.setFile (h : SInv ninodes I held P s) {ff : File} (hff : FileOk ff)
    (hholds : ∀ i, ff.holds i = (s.file f).holds i) :
    SInv ninodes I held P (s.setFile f ff) := by
  have heq : holders (update s.file f ff) s.proc = holders s.file s.proc := by
    funext i
    rw [holders_setFile, hholds]
    ring
  refine ⟨?_, FileOk.update h.files hff, h.proc⟩
  show FsInv ninodes (holders (update s.file f ff) s.proc) I none [] held s.fs
  rw [heq]
  exact h.inv

theorem SInv.setCount (h : SInv ninodes I held P s) (hpos : 0 < (s.file f).ref) {r : ℤ}
    (hr : 0 < r) : SInv ninodes I held P (s.setFile f { s.file f with ref := r }) := by
  refine h.setFile (fun h0 => absurd h0 hr.ne') fun i => ?_
  unfold File.holds
  rw [decide_eq_decide]
  exact and_congr_left' ⟨fun _ => hpos, fun _ => hr⟩

def Blank (f : Fin nFile) (s : State n) : Prop := (s.file f).ref = 1 ∧ (s.file f).type = .none

theorem filealloc_spec (h : SInv ninodes I held P s) :
    Ensures (· = s) (filealloc : Sys n _) (fun r s' => SInv ninodes I held P s' ∧ s'.fs = s.fs ∧
      (∀ g, 0 < (s.file g).ref → s'.file g = s.file g) ∧ ∀ f, r = some f → Blank f s') E := by
  refine .get ?_
  rintro s rfl
  cases hfind : (List.finRange nFile).find? fun f => (s.file f).ref = 0 with
  | none =>
    exact .ret ⟨h, rfl, fun _ _ => rfl, nofun⟩
  | some f =>
    have hzero : (s.file f).ref = 0 := by simpa using List.find?_some hfind
    have hnone := h.files f hzero
    refine .bind (Q := fun _ s' => s' = s.setFile f { s.file f with ref := 1 }) (.modify ?_) fun _ =>
      .pure ?_
    · rintro s rfl
      rfl
    rintro s' rfl
    refine ⟨h.setFile (fun _ => hnone) fun i => ?_, rfl, fun g hg => ?_, fun g hg => ?_⟩
    · rw [holds_eq_false (.inr (by simp [hnone])), holds_eq_false (.inl hzero.le)]
    · refine update_of_ne ?_ ..
      rintro rfl
      omega
    · cases hg
      unfold Blank State.setFile
      simp only [update_self]
      exact ⟨trivial, hnone⟩

theorem filedup_spec (hE : Others E) (f : Fin nFile) :
    Ensures (SInv ninodes I held P) (filedup f : Sys n Unit)
      (fun _ => SInv ninodes I held P) E := by
  refine .get fun s h => .ite (fun _ => .throw fun _ _ => hE _ nofun) fun hpos => .modify ?_
  rintro s rfl
  exact h.setCount (by omega) (by omega)

include hI in
/-- **`fileclose`**, which puts the inode when it drops the last reference to the file. -/
theorem fileclose_spec (hE : Others E) (f : Fin nFile) :
    Ensures (SInv ninodes I held P) (fileclose f : Sys n Unit)
      (fun _ => SInv ninodes I held P) E := by
  refine .get fun s h => .ite (fun _ => .throw fun _ _ => hE _ nofun) fun hpos =>
    .ite (fun hmany => ?_) fun hlast => ?_
  · refine .modify ?_
    rintro s rfl
    exact h.setCount (by omega) (by omega)
  · have hone : 0 < (s.file f).ref := by omega
    by_cases htype : (s.file f).type = .inode ∨ (s.file f).type = .device
    · simp only [htype, if_true]
      refine .bind (Q := fun _ => SInv ninodes I ((s.file f).ip :: held) P) (.modify ?_) fun _ =>
        onFs_iput hI _
      rintro s rfl
      have hsum : ∀ j, holders (update s.file f { s.file f with ref := 0, type := .none })
          s.proc j = holders s.file s.proc j - [(s.file f).ip].count j := by
        intro j
        rw [holders_setFile, unit_holds hone htype, holds_eq_false (.inl le_rfl), unit_false, add_zero]
      refine ⟨h.inv.shift (fun j => ?_) (holders_nonneg _ _) fun j hj => h.inv.alloc ?_,
        fun g => ?_, h.proc⟩
      · show _ = holders (update s.file f _) s.proc j + _
        have hcons := count_cons_add (s.file f).ip j held
        rw [hsum]
        omega
      · have hj' : 0 < holders (update s.file f { s.file f with ref := 0, type := .none })
          s.proc j := hj
        rw [hsum] at hj'
        omega
      · exact FileOk.update h.files (fun _ => rfl) g
    · simp only [htype, if_false]
      refine .modify ?_
      rintro s rfl
      refine h.setFile (fun _ => rfl) fun i => ?_
      rw [holds_eq_false (.inl le_rfl), holds_eq_false (.inr htype)]

theorem SInv.setProc (held' : List ℕ) (h : SInv ninodes I held P s) {r : Option Proc}
    (hsum : ∀ j, unit (cwdIs j (P p)) + held.count j = unit (cwdIs j r) + held'.count j)
    (halloc : ∀ pr, r = some pr → s.fs.Alloc pr.cwd) :
    SInv ninodes I held' (update P p r) (s.setProc p r) := by
  have hproc := h.proc
  refine ⟨h.inv.shift (fun j => ?_) (holders_nonneg _ _) fun j hj => ?_, h.files, ?_⟩
  · show _ = holders s.file (update s.proc p r) j + _
    have hj := hsum j
    rw [holders_setProc, hproc]
    omega
  · have hj' : 0 < holders s.file (update s.proc p r) j := hj
    rw [holders_setProc] at hj'
    cases hc : cwdIs j r with
    | false =>
      have hn := unit_nonneg (cwdIs j (s.proc p))
      rw [hc, unit_false] at hj'
      exact h.inv.alloc (by omega)
    | true =>
      obtain ⟨pr, hpr, hcwd⟩ := (Option.any_eq_true _ _).mp hc
      rw [← of_decide_eq_true hcwd]
      exact halloc pr hpr
  · show update s.proc p r = _
    rw [hproc]

theorem holders_cwd_pos {proc : Fin n → Option Proc} (hp : proc p = some pr) :
    0 < holders file proc pr.cwd := by
  have hone : 1 ≤ tally (fun _ r => cwdIs pr.cwd r) proc :=
    one_le_tally (i := p) (by simp [hp, cwdIs])
  have hn : 0 ≤ tally (fun _ f => File.holds pr.cwd f) file := tally_nonneg ..
  unfold holders
  omega

theorem SInv.setOfile (h : SInv ninodes I held P s) (hp : P p = some pr) (hcwd : pr'.cwd = pr.cwd) :
    SInv ninodes I held (update P p (some pr')) (s.setProc p (some pr')) := by
  refine h.setProc held (fun j => ?_) fun r hr => ?_
  · rw [hp, unit_cwdIs, unit_cwdIs, hcwd]
  · cases hr
    rw [hcwd]
    exact h.inv.alloc (holders_cwd_pos (h.proc.symm ▸ hp))

theorem SInv.openFile (h : SInv ninodes I (i :: held) P s) (hb : Blank f s) (ha : s.fs.Alloc i)
    (type : FdType) (htype : type = .inode ∨ type = .device) :
    SInv ninodes I held P (s.setFile f ⟨1, type, i⟩) := by
  have hsum : ∀ j, holders (update s.file f ⟨1, type, i⟩) s.proc j =
    holders s.file s.proc j + [i].count j := by
    intro j
    have hblank : (s.file f).holds j = false := holds_eq_false (.inr (by simp [hb.2])) j
    have hopen : unit (File.holds j ⟨1, type, i⟩) = [i].count j := unit_holds Int.one_pos htype j
    rw [holders_setFile, hblank, unit_false, sub_zero, hopen]
  refine ⟨h.inv.shift (fun j => ?_) (holders_nonneg _ _) fun j hj => ?_, fun g => ?_, h.proc⟩
  · show _ = holders (update s.file f _) s.proc j + _
    have hcons := count_cons_add i j held
    rw [hsum]
    omega
  · have hj' : 0 < holders (update s.file f ⟨1, type, i⟩) s.proc j := hj
    rw [hsum] at hj'
    rcases eq_or_ne i j with rfl | hne
    · exact ha
    · rw [List.count_cons_of_ne hne, List.count_nil] at hj'
      exact h.inv.alloc (by omega)
  · exact FileOk.update h.files (fun h0 => absurd h0 one_ne_zero) g

theorem cwd_of_fdalloc {fd : Fin nOfile} (h : pr.fdalloc f = some (fd, pr')) :
    pr'.cwd = pr.cwd := by
  obtain ⟨_, -, he⟩ := Option.map_eq_some_iff.mp h
  cases he
  rfl

theorem SInv.done (h : SInv ninodes I [] P s) : StateInv ninodes I s := ⟨h.inv, h.files⟩

include hI in
theorem onFs_iput_return (i : ℕ) {a : α} :
    Ensures (SInv ninodes I [i] P) (onFs (iput i) >>= fun _ => pure a : Sys n α)
      (fun _ => StateInv ninodes I) E :=
  .bind (onFs_iput hI i) fun _ => .pure fun _ h => h.done

/-! ## The calls -/

include hI in
theorem sysOpen_done (h : SInv ninodes I [] P s) (hE : Others E) (hp : P p = some pr)
    {path : List UInt8} {omode : ℕ} {room : Fin 3 → Bool}
    (hopen : Ensures (· = s.fs) (openInode ninodes pr.cwd path omode room)
      (Got ninodes (holders s.file s.proc) I) E) :
    Ensures (· = s) (sysOpen ninodes p pr path omode room) (fun _ => StateInv ninodes I) E := by
  refine .bind (onFs_spec (Q := fun r s' => SInv ninodes I r.toList P s' ∧
    ∀ i, r = some i → s'.fs.Alloc i) (hopen.post fun r fs ht => ⟨h.setFs ht.1, ht.2⟩)) fun r => ?_
  cases r with
  | none => exact .pure fun _ hs => hs.1.done
  | some i =>
    refine .of_forall fun s₁ h₁ => .bind (filealloc_spec h₁.1) fun r => .of_forall fun s₂ h₂ => ?_
    obtain ⟨hinv, hfs, -, hblank⟩ := h₂
    have hstart : ∀ t, t = s₂ → SInv ninodes I [i] P t := by
      rintro t rfl
      exact hinv
    cases r with
    | none => exact (onFs_iput_return hI i).pre hstart
    | some f =>
      have hb := hblank f rfl
      simp only
      cases hfd : pr.fdalloc f with
      | none => exact .bind ((fileclose_spec hI hE f).pre hstart) fun _ => onFs_iput_return hI i
      | some r =>
        obtain ⟨fd, pr'⟩ := r
        refine .get ?_
        rintro s₂ rfl
        refine .bind (Q := fun _ => StateInv ninodes I) (.modify ?_) fun _ => .pure fun _ hs => hs
        rintro s₂ rfl
        have hopened := hinv.openFile hb (hfs ▸ h₁.2 i rfl)
          (if s₂.fs.type i = .device then .device else .inode) (by split <;> simp)
        exact (hopened.setOfile hp (cwd_of_fdalloc hfd)).done

include hI in
theorem sysClose_done (h : SInv ninodes I [] P s) (hE : Others E) (hp : P p = some pr)
    (fd : Fin nOfile) : Ensures (· = s) (sysClose p pr fd) (fun _ => StateInv ninodes I) E := by
  unfold sysClose
  cases hfd : pr.ofile fd with
  | none =>
    exact .ret h.done
  | some f =>
    refine .bind (Q := fun _ => SInv ninodes I [] (update P p (some (pr.close fd))))
      (.modify ?_) fun _ => .bind (fileclose_spec hI hE f) fun _ => .pure fun _ hs => hs.done
    rintro s rfl
    exact h.setOfile hp rfl

theorem sysDup_done (h : SInv ninodes I [] P s) (hE : Others E) (hp : P p = some pr)
    (fd : Fin nOfile) : Ensures (· = s) (sysDup p pr fd) (fun _ => StateInv ninodes I) E := by
  unfold sysDup
  have hsame : ∀ t, t = s → StateInv ninodes I t := by
    rintro t rfl
    exact h.done
  cases hfd : pr.ofile fd with
  | none => exact .pure hsame
  | some f =>
    simp only
    cases halloc : pr.fdalloc f with
    | none => exact .pure hsame
    | some r =>
      refine .bind (Q := fun _ => SInv ninodes I [] (update P p (some r.2)))
        (.modify ?_) fun _ => .bind (filedup_spec hE f) fun _ => .pure fun _ hs => hs.done
      rintro s rfl
      exact h.setOfile hp (cwd_of_fdalloc halloc)

include hI in
theorem sysChdir_done (h : SInv ninodes I [] P s) (hp : P p = some pr) {path : List UInt8}
    (hchdir : Ensures (· = s.fs) (chdirInode ninodes pr.cwd path)
      (Got ninodes (holders s.file s.proc) I) E) : Ensures (· = s) (sysChdir ninodes p pr path)
    (fun _ => StateInv ninodes I) E := by
  refine .bind (onFs_spec (Q := fun r s' => SInv ninodes I r.toList P s' ∧
    ∀ i, r = some i → s'.fs.Alloc i) (hchdir.post fun r fs ht => ⟨h.setFs ht.1, ht.2⟩)) fun r => ?_
  cases r with
  | none => exact .pure fun _ hs => hs.1.done
  | some i =>
    refine .of_forall fun s₁ h₁ => ?_
    refine .bind (Q := fun _ t => t = { s₁ with fs := s₁.fs.iput pr.cwd }) (onFs_spec (.modify ?_))
      fun _ => .bind (Q := fun _ => StateInv ninodes I) (.modify ?_) fun _ => .pure fun _ hs => hs
    · rintro fs rfl
      rfl
    rintro t rfl
    -- the process holds the new directory, and the old one is put
    have hmoved : SInv ninodes I [pr.cwd] (update P p (some { pr with cwd := i }))
        (s₁.setProc p (some { pr with cwd := i })) := by
      refine h₁.1.setProc _ (fun j => ?_) fun r hr => ?_
      · rw [hp, unit_cwdIs, unit_cwdIs]
        exact add_comm ..
      · cases hr
        exact h₁.2 i rfl
    exact SInv.done (hmoved.setFs (hmoved.inv.iput hI nofun))

include hI in
theorem pipealloc_spec (h : SInv ninodes I held P s) (hE : Others E) (mem : Bool) :
    Ensures (· = s) (pipealloc mem) (fun _ => SInv ninodes I held P) E := by
  refine .bind (filealloc_spec h) fun r => .of_forall fun s₁ h₁ => ?_
  obtain ⟨hinv₁, -, -, hblank₁⟩ := h₁
  cases r with
  | none =>
    exact .ret hinv₁
  | some f0 =>
    have hb0 := hblank₁ f0 rfl
    refine .bind (filealloc_spec hinv₁) fun r => .of_forall fun s₂ h₂ => ?_
    obtain ⟨hinv₂, -, hkeep, hblank₂⟩ := h₂
    have hstart : ∀ t, t = s₂ → SInv ninodes I held P t := by
      rintro t rfl
      exact hinv₂
    cases r with
    | none =>
      exact .bind ((fileclose_spec hI hE f0).pre hstart) fun _ => .pure fun _ hs => hs
    | some f1 =>
      refine .ite (fun _ => ?_) fun _ => .bind ((fileclose_spec hI hE f0).pre hstart) fun _ =>
        .bind (fileclose_spec hI hE f1) fun _ => .pure fun _ hs => hs
      have hf0 : s₂.file f0 = s₁.file f0 := hkeep f0 (by rw [hb0.1]; exact Int.one_pos)
      have hpipe : ∀ (t : State n) (f : Fin nFile), SInv ninodes I held P t → (t.file f).ref = 1 →
          ¬ ((t.file f).type = .inode ∨ (t.file f).type = .device) →
          SInv ninodes I held P (t.setFile f { t.file f with type := .pipe }) := by
        intro t f ht hone hnot
        refine ht.setFile (fun h0 => ?_) fun i => ?_
        · exact absurd (hone.symm.trans h0) one_ne_zero
        · rw [holds_eq_false (.inr (by simp)), holds_eq_false (.inr hnot)]
      refine .bind (Q := fun _ t => t = s₂.setFile f0 { s₂.file f0 with type := .pipe }) (.modify ?_)
        fun _ => .bind (Q := fun _ => SInv ninodes I held P) (.modify ?_) fun _ => .pure fun _ hs => hs
      · rintro t rfl
        rfl
      rintro t rfl
      refine hpipe _ f1 (hpipe s₂ f0 hinv₂ (hf0 ▸ hb0.1) (by rw [hf0, hb0.2]; simp)) ?_ ?_
      · show (update s₂.file f0 _ f1).ref = 1
        rcases eq_or_ne f1 f0 with rfl | hne
        · rw [update_self]
          exact hf0 ▸ hb0.1
        · rw [update_of_ne hne]
          exact (hblank₂ f1 rfl).1
      · show ¬ ((update s₂.file f0 _ f1).type = .inode ∨ (update s₂.file f0 _ f1).type = .device)
        rcases eq_or_ne f1 f0 with rfl | hne
        · rw [update_self]
          simp
        · rw [update_of_ne hne, (hblank₂ f1 rfl).2]
          simp

include hI in
theorem sysPipe_done (h : SInv ninodes I [] P s) (hE : Others E) (hp : P p = some pr)
    (mem copied : Bool) : Ensures (· = s) (sysPipe p pr mem copied)
    (fun _ => StateInv ninodes I) E := by
  refine .bind (pipealloc_spec hI h hE mem) fun r => ?_
  cases r with
  | none => exact .pure fun _ hs => hs.done
  | some r =>
    obtain ⟨rf, wf⟩ := r
    have hclose : Ensures (SInv ninodes I [] P) (do fileclose rf; fileclose wf; return false)
        (fun _ => StateInv ninodes I) E :=
      .bind (fileclose_spec hI hE rf) fun _ => .bind (fileclose_spec hI hE wf) fun _ =>
        .pure fun _ hs => hs.done
    simp only
    cases hfd : (pr.fdalloc rf).bind fun r => r.2.fdalloc wf with
    | none => exact hclose
    | some r =>
      refine .ite (fun _ => ?_) fun _ => hclose
      obtain ⟨r', hr', hr⟩ := Option.bind_eq_some_iff.mp hfd
      refine .bind (Q := fun _ => StateInv ninodes I) (.modify fun t ht => ?_) fun _ =>
        .pure fun _ hs => hs
      exact (ht.setOfile hp ((cwd_of_fdalloc hr).trans (cwd_of_fdalloc hr'))).done

theorem dupFiles_spec (hE : Others E) (fds : List (Fin nOfile)) :
    Ensures (SInv ninodes I held P)
    (dupFiles pr fds : Sys n Unit) (fun _ => SInv ninodes I held P) E := by
  induction fds with
  | nil => exact .pure fun _ hs => hs
  | cons fd fds ih =>
    unfold dupFiles
    cases pr.ofile fd with
    | none => exact ih
    | some f => exact .bind (filedup_spec hE f) fun _ => ih

theorem sysFork_done (h : SInv ninodes I [] P s) (hE : Others E) (hp : P p = some pr)
    (hq : P q = none) : Ensures (· = s) (sysFork pr q) (fun _ => StateInv ninodes I) E := by
  have hstart : ∀ t, t = s → SInv ninodes I [] P t := by
    rintro t rfl
    exact h
  refine .bind ((dupFiles_spec hE _).pre hstart) fun _ => .of_forall fun s₁ h₁ => ?_
  have hpos : 0 < holders s₁.file s₁.proc pr.cwd := holders_cwd_pos (h₁.proc.symm ▸ hp)
  refine .bind (Q := fun _ => SInv ninodes I [pr.cwd] P) (onFs_spec ?_) fun _ =>
    .bind (Q := fun _ => StateInv ninodes I) (.modify fun t ht => ?_) fun _ => .pure fun _ hs => hs
  · have href : 0 < s₁.fs.ref pr.cwd := by
      rw [h₁.inv.refs.ref]
      omega
    exact ((idup_spec href).pre fun t ht => h₁.inv.same ht).post fun _ t ht =>
      h₁.setFs (h₁.inv.touch ht)
  · have halloc : t.fs.Alloc pr.cwd := ht.inv.alloc (holders_cwd_pos (ht.proc.symm ▸ hp))
    refine SInv.done (ht.setProc [] (fun j => ?_) fun r hr => ?_)
    · rw [hq, unit_cwdIs]
      exact add_comm ..
    · cases hr
      exact halloc

include hI in
theorem closeFiles_spec (hE : Others E) (p : Fin n) (fds : List (Fin nOfile)) :
    ∀ (P : Fin n → Option Proc) (pr : Proc), P p = some pr →
        Ensures (SInv ninodes I held P) (closeFiles p pr fds)
        (fun pr' s => pr'.cwd = pr.cwd ∧ ∃ P, P p = some pr' ∧ SInv ninodes I held P s) E := by
  induction fds with
  | nil => exact fun P pr hp => .pure fun _ hs => ⟨rfl, P, hp, hs⟩
  | cons fd fds ih =>
    intro P pr hp
    unfold closeFiles
    cases pr.ofile fd with
    | none => exact ih P pr hp
    | some f =>
      refine .bind (fileclose_spec hI hE f) fun _ =>
        .bind (Q := fun _ => SInv ninodes I held (update P p (some (pr.close fd))))
          (.modify fun s hs => hs.setOfile hp rfl) fun _ => ?_
      exact ih _ (pr.close fd) (update_self ..)

include hI in
theorem sysExit_done (h : SInv ninodes I [] P s) (hE : Others E) (hp : P p = some pr) :
    Ensures (· = s) (sysExit p pr) (fun _ => StateInv ninodes I) E := by
  have hstart : ∀ t, t = s → SInv ninodes I [] P t := by
    rintro t rfl
    exact h
  refine .bind ((closeFiles_spec hI hE p _ P pr hp).pre hstart) fun pr' =>
    .of_forall fun s₁ h₁ => ?_
  obtain ⟨-, P', hp', hs₁⟩ := h₁
  refine .bind (Q := fun _ t => t = { s₁ with fs := s₁.fs.iput pr'.cwd }) (onFs_spec (.modify ?_))
    fun _ => .bind (Q := fun _ => StateInv ninodes I) (.modify ?_) fun _ => .pure fun _ hs => hs
  · rintro fs rfl
    rfl
  rintro t rfl
  have hgone : SInv ninodes I [pr'.cwd] (update P' p none) (s₁.setProc p none) := by
    refine hs₁.setProc _ (fun j => ?_) nofun
    rw [hp', unit_cwdIs]
    exact add_comm ..
  exact SInv.done (hgone.setFs (hgone.inv.iput hI nofun))

/-! ## Steps -/

/-- The directory that a path would have its last element in. -/
def Fs.dirOf (fs : Fs) (cwd : ℕ) (path : List UInt8) : Option ℕ :=
  (fs.walkParent (start cwd path) (components path)).map Prod.fst

/-- The directory in which a call may make an entry. -/
def Fs.entered (fs : Fs) (cwd : ℕ) : Call n → Option ℕ
  | .open path omode _ => if oCreate omode then fs.dirOf cwd path else none
  | .mkdir path _ | .mknod path _ _ | .link _ path _ => fs.dirOf cwd path
  | _ => none

/-- The inode of which a call may raise `nlink`. -/
def Fs.raised (fs : Fs) (cwd : ℕ) : Call n → Option ℕ
  | .link old _ _ => fs.walk (start cwd old) (components old)
  | .mkdir path _ => fs.dirOf cwd path
  | _ => none

/-- The directory in which a call may erase an entry, and what that names. -/
def Fs.unlinked (fs : Fs) (cwd : ℕ) : Call n → Option (ℕ × ℕ)
  | .unlink path => (fs.walkParent (start cwd path) (components path)).bind fun r =>
      (fs.child r.1 r.2).map fun i => (r.1, i)
  | _ => none

/-- The call raises no `nlink` that is the largest `short`. -/
def NlinkFits (s : State n) (a : Fin n × Call n) : Prop :=
  ∀ pr ∈ s.proc a.1, ∀ i ∈ s.fs.raised pr.cwd a.2, s.fs.nlink i < shortMax

theorem StateInv.sInv (h : StateInv ninodes I s) :
    SInv ninodes I [] s.proc s := ⟨h.inv, h.files, rfl⟩

theorem StateInv.imp {J : LinkGraph ℕ → List ℕ → Prop} (h : StateInv ninodes I s)
    (hJ : I (s.fs.graph ninodes none) s.fs.lost → J (s.fs.graph ninodes none) s.fs.lost) :
    StateInv ninodes J s := ⟨h.inv.imp hJ, h.files⟩

include hI

/-- **Every call keeps the invariant**, if the `nlink` that it raises can be raised. -/
theorem Call.run_done (h : StateInv ninodes I s) (hN : ninodes ≤ 2 ^ 16) (hE : Panics s.fs E)
    (hp : s.proc p = some pr) (c : Call n) (hc : c.Enabled s)
    (hfit : ∀ i ∈ s.fs.raised pr.cwd c, s.fs.nlink i < shortMax)
    (hadd : ∀ dp ∈ s.fs.entered pr.cwd c, LinkGraph.Adds I dp)
    (hrem : ∀ e ∈ s.fs.unlinked pr.cwd c, LinkGraph.Removes I e.1 e.2) :
    Ensures (· = s) (c.run ninodes p pr) (fun _ => StateInv ninodes I) E := by
  have hs := h.sInv
  have hcwd : 0 < holders s.file s.proc pr.cwd := holders_cwd_pos hp
  have hfs : ∀ {m : Op Bool},
      Ensures (· = s.fs) m (fun _ => FsInv ninodes (holders s.file s.proc) I none [] []) E →
      Ensures (· = s) (onFs m) (fun _ => StateInv ninodes I) E := fun hm =>
    onFs_spec (hm.post fun _ _ hk => (hs.setFs hk).done)
  have hdir : ∀ {path : List UInt8} {dp name},
      s.fs.walkParent (start pr.cwd path) (components path) = some (dp, name) →
      s.fs.dirOf pr.cwd path = some dp := fun hw => congrArg (Option.map Prod.fst) hw
  cases c with
  | «open» path omode room =>
    exact sysOpen_done hI hs hE.other hp (openInode_got hI h.inv hE hcwd hN
      (fun hcreate dp name hw => hadd dp ((if_pos hcreate).trans (hdir hw))) room)
  | mkdir path room =>
    have htype : FileType.dir ≠ .free := nofun
    exact hfs (sysMake_inv hI <| create_inv hI h.inv hE hcwd hN htype (fun _ dp name hw => hfit dp (hdir hw))
      (fun dp name hw => hadd dp (hdir hw)) 0 room)
  | mknod path major room =>
    have hdevice : FileType.device ≠ .free := nofun
    exact hfs (sysMake_inv hI <| create_inv hI h.inv hE hcwd hN hdevice (fun hd => absurd hd nofun)
      (fun dp name hw => hadd dp (hdir hw)) major room)
  | link old new room =>
    exact hfs (sysLink_inv hI h.inv hE hcwd hN hfit (fun dp name hw => hadd dp (hdir hw)) room)
  | unlink path =>
    refine hfs (sysUnlink_inv hI h.inv hE hcwd fun dp name i hw hi => hrem (dp, i) ?_)
    simp [Fs.unlinked, hw, hi]
  | chdir path => exact sysChdir_done hI hs hp (chdirInode_got hI h.inv hE hcwd path)
  | exec path =>
    exact hfs (.bind (execInode_inv hI h.inv hE hcwd path) fun _ => .pure fun _ ht => ht)
  | close fd => exact sysClose_done hI hs hE.other hp fd
  | dup fd => exact sysDup_done hs hE.other hp fd
  | pipe mem copied => exact sysPipe_done hI hs hE.other hp mem copied
  | fork child => exact sysFork_done hs hE.other hp hc
  | exit => exact sysExit_done hI hs hE.other hp

omit hI in
theorem call_cases {a : Fin n × Call n} {r : Except FsPanic (State n)}
    (h : call ninodes s a = some r) : ∃ pr, s.proc a.1 = some pr ∧ a.2.Enabled s ∧
      r = (a.2.run ninodes a.1 pr s).map Prod.snd := by
  unfold call at h
  cases hp : s.proc a.1 with
  | none =>
    rw [hp] at h
    exact nomatch h
  | some pr =>
    rw [hp] at h
    obtain ⟨hc, h⟩ := Option.ite_none_right_eq_some.mp h
    cases h
    exact ⟨pr, rfl, hc, rfl⟩

section

variable {a : Fin n × Call n} (h : StateInv ninodes I s) (hN : ninodes ≤ 2 ^ 16)
  (hfit : NlinkFits s a) (hadd : ∀ pr ∈ s.proc a.1, ∀ dp ∈ s.fs.entered pr.cwd a.2,
  LinkGraph.Adds I dp) (hrem : ∀ pr ∈ s.proc a.1, ∀ e ∈ s.fs.unlinked pr.cwd a.2,
  LinkGraph.Removes I e.1 e.2)

include h hN hfit hadd hrem

theorem StateInv.step (hs : next ninodes s a = some s') : StateInv ninodes I s' := by
  obtain ⟨r, hr, hok⟩ := Option.bind_eq_some_iff.mp hs
  obtain ⟨pr, hp, hc, rfl⟩ := call_cases hr
  have hspec := Call.run_done (E := fun _ => True) hI h hN
    ⟨fun _ _ => trivial, fun _ => trivial⟩ hp a.2 hc (hfit pr hp) (hadd pr hp) (hrem pr hp)
  cases hm : a.2.run ninodes a.1 pr s with
  | error e =>
    rw [hm] at hok
    exact nomatch hok
  | ok r =>
    rw [hm] at hok
    cases hok
    exact hspec.ok rfl hm

theorem StateInv.panic (hs : call ninodes s a = some (.error .ilockNoType)) :
    ¬ s.fs.NoDangling := by
  obtain ⟨pr, hp, hc, hr⟩ := call_cases hs
  have hspec := Call.run_done (E := fun e => e = .ilockNoType → ¬ s.fs.NoDangling) hI h hN
    ⟨fun _ hne he => absurd he hne, fun hd _ => hd⟩ hp a.2 hc
    (hfit pr hp) (hadd pr hp) (hrem pr hp)
  cases hm : a.2.run ninodes a.1 pr s with
  | ok r =>
    rw [hm] at hr
    exact nomatch hr
  | error e =>
    rw [hm] at hr
    cases hr
    exact hspec.error rfl hm rfl

end

end

end LazyXv6.FileTree
