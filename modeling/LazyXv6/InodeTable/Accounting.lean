import LazyXv6.InodeTable.References

/-!
# Who holds the references

A file is held by descriptors (`slots`), an entry of the inode table by open files and as a current
directory (`holders`). `SysInv x y P s`: the counts are right but for the references `x` to files
and `y` to entries that the call under way has taken, or owes.
-/

namespace LazyXv6.InodeTable

open Function Lib Lib.SmallFin Finset
open FileTree (FdType nInode nFile nOfile)

variable {n : ℕ}

def File.held (f : File) : Slot → ℤ :=
  if f.type = .inode ∨ f.type = .device then Pi.single f.ip 1 else 0

def slots (proc : Fin n → Proc) : Fin nFile → ℤ :=
  ∑ x : Fin n × Fin nOfile, got ((proc x.1).ofile x.2)

/-- How many files and processes hold a reference to each entry. -/
def holders (file : Fin nFile → File) (proc : Fin n → Proc) : Slot → ℤ :=
  ∑ f, (file f).held + ∑ p, got (proc p).cwd

structure SysInv (x : Fin nFile → ℤ) (y : Slot → ℤ) (P : Fin n → Proc) (s : State n) : Prop where
  proc : s.proc = P
  file : ∀ f, (s.file f).ref = slots s.proc f + x f
  table : TableInv (holders s.file s.proc + y) s.fs
  none : ∀ f, (s.file f).ref = 0 → (s.file f).type = .none

/-- What is not a process has no descriptors. -/
def Idle (P : Fin n → Proc) : Prop := ∀ p, (P p).cwd = none → ∀ fd, (P p).ofile fd = none

structure Accounted (s : State n) : Prop where
  inv : SysInv 0 0 s.proc s
  idle : Idle s.proc

def withOfile (P : Fin n → Proc) (p : Fin n) (fd : Fin nOfile) (f : Option (Fin nFile)) :
    Fin n → Proc :=
  update P p { P p with ofile := update (P p).ofile fd f }

def withCwd (P : Fin n → Proc) (p : Fin n) (cwd : Option Slot) : Fin n → Proc :=
  update P p { P p with cwd := cwd }

section

variable {ninodes : ℕ} {x x' : Fin nFile → ℤ} {y y' : Slot → ℤ} {P : Fin n → Proc} {s s' : State n}
  {f : Fin nFile} {ff : File} {p q np : Fin n} {fd : Fin nOfile} {cwd ip : Slot} {α : Type}
  {file : Fin nFile → File}

theorem withOfile_cwd (P : Fin n → Proc) (p : Fin n) (fd : Fin nOfile) (g : Option (Fin nFile))
    (q : Fin n) : (withOfile P p fd g q).cwd = (P q).cwd := by
  unfold withOfile
  rcases eq_or_ne q p with rfl | hne
  · rw [update_self]
  · rw [update_of_ne hne]

theorem withOfile_ofile (P : Fin n → Proc) (p : Fin n) (fd : Fin nOfile) (g : Option (Fin nFile)) :
    (withOfile P p fd g p).ofile = update (P p).ofile fd g := by
  unfold withOfile
  rw [update_self]

theorem withOfile_of_ne (P : Fin n → Proc) (h : q ≠ p) (fd : Fin nOfile) (g : Option (Fin nFile)) :
    withOfile P p fd g q = P q := update_of_ne h ..

/-! ## Changes of the counts -/

theorem held_of_none (h : ff.type = .none) : ff.held = 0 := by
  unfold File.held
  simp [h]

theorem slots_withOfile (P : Fin n → Proc) (p : Fin n) (fd : Fin nOfile) (g : Option (Fin nFile)) :
    slots (withOfile P p fd g) = slots P - got ((P p).ofile fd) + got g := by
  have hupdate : (fun x : Fin n × Fin nOfile => (withOfile P p fd g x.1).ofile x.2) =
      update (fun x => (P x.1).ofile x.2) (p, fd) g := by
    funext ⟨q, k⟩
    unfold withOfile
    rcases eq_or_ne q p with rfl | hq
    · rcases eq_or_ne k fd with rfl | hk
      · simp
      · simp [hk]
    · simp [hq]
  have hsum := sum_update got (fun x : Fin n × Fin nOfile => (P x.1).ofile x.2) (p, fd) g
  rw [← hupdate] at hsum
  exact hsum

theorem slots_withCwd (P : Fin n → Proc) (p : Fin n) (cwd : Option Slot) :
    slots (withCwd P p cwd) = slots P := by
  refine sum_congr rfl fun x _ => ?_
  unfold withCwd
  rcases eq_or_ne x.1 p with hx | hx
  · rw [hx, update_self]
  · rw [update_of_ne hx]

theorem holders_setFile (file : Fin nFile → File) (P : Fin n → Proc) (f : Fin nFile) (ff : File) :
    holders (update file f ff) P = holders file P - (file f).held + ff.held := by
  unfold holders
  rw [sum_update]
  abel

theorem holders_withOfile (file : Fin nFile → File) (P : Fin n → Proc) (p : Fin n)
    (fd : Fin nOfile) (g : Option (Fin nFile)) :
    holders file (withOfile P p fd g) = holders file P := by
  unfold holders withOfile
  rw [sum_update fun pr : Proc => got pr.cwd]
  abel

theorem holders_withCwd (file : Fin nFile → File) (P : Fin n → Proc) (p : Fin n)
    (cwd : Option Slot) : holders file (withCwd P p cwd) = holders file P - got (P p).cwd +
    got cwd := by
  unfold holders withCwd
  rw [sum_update fun pr : Proc => got pr.cwd]
  abel

theorem got_nonneg {ι : Type} [DecidableEq ι] (o : Option ι) (i : ι) : 0 ≤ got o i := by
  cases o with
  | none => exact le_rfl
  | some j =>
    rw [got_some, Pi.single_apply]
    split <;> decide

theorem held_nonneg (ff : File) (ip : Slot) : 0 ≤ ff.held ip := by
  unfold File.held
  split
  · exact got_nonneg (some ff.ip) ip
  · exact le_rfl

theorem holders_cwd_pos (h : (P p).cwd = some cwd) : 0 < holders file P cwd := by
  unfold holders
  rw [Pi.add_apply, Finset.sum_apply, Finset.sum_apply]
  have hfiles : 0 ≤ ∑ f, (file f).held cwd := sum_nonneg fun f _ => held_nonneg _ _
  have hone : got (P p).cwd cwd ≤ ∑ q, got (P q).cwd cwd :=
    single_le_sum (f := fun q => got (P q).cwd cwd) (fun q _ => got_nonneg _ _) (mem_univ p)
  rw [h, got_some, Pi.single_eq_same] at hone
  omega

theorem SysInv.setFile (h : SysInv x y P s) (hx : x' = x + Pi.single f (ff.ref - (s.file f).ref))
    (hy : y' + ff.held = y + (s.file f).held) (hnone : ff.ref = 0 → ff.type = .none) :
    SysInv x' y' P (s.setFile f ff) := by
  refine ⟨h.proc, fun g => ?_, ?_, fun g => ?_⟩
  · have hg := h.file g
    show (update s.file f ff g).ref = slots s.proc g + x' g
    rcases eq_or_ne g f with rfl | hne
    · rw [update_self, hx, Pi.add_apply, Pi.single_eq_same]
      omega
    · rw [update_of_ne hne, hx, Pi.add_apply, Pi.single_eq_of_ne hne]
      omega
  · have hcounts : holders (update s.file f ff) s.proc + y' = holders s.file s.proc + y := by
      rw [holders_setFile, add_assoc, add_comm ff.held, hy]
      abel
    show TableInv (holders (update s.file f ff) s.proc + y') s.fs
    rw [hcounts]
    exact h.table
  · show (update s.file f ff g).ref = 0 → (update s.file f ff g).type = .none
    rcases eq_or_ne g f with rfl | hne
    · rwa [update_self]
    · rw [update_of_ne hne]
      exact h.none g

theorem SysInv.setOfile (h : SysInv x y P s) (p : Fin n) (fd : Fin nOfile) (g : Option (Fin nFile))
    (hx : x' + got g = x + got ((P p).ofile fd)) :
    SysInv x' y (withOfile P p fd g) (s.setOfile p fd g) := by
  obtain rfl := h.proc
  refine ⟨rfl, fun k => ?_, ?_, h.none⟩
  · have hk := congrFun hx k
    have hfile := h.file k
    show (s.file k).ref = slots (withOfile s.proc p fd g) k + x' k
    rw [slots_withOfile]
    simp only [Pi.add_apply, Pi.sub_apply] at hk ⊢
    omega
  · show TableInv (holders s.file (withOfile s.proc p fd g) + y) s.fs
    rw [holders_withOfile]
    exact h.table

theorem SysInv.setCwd (h : SysInv x y P s) (p : Fin n) (cwd : Option Slot)
    (hy : y' + got cwd = y + got (P p).cwd) : SysInv x y' (withCwd P p cwd) (s.setCwd p cwd) := by
  obtain rfl := h.proc
  refine ⟨rfl, fun k => ?_, ?_, h.none⟩
  · show (s.file k).ref = slots (withCwd s.proc p cwd) k + x k
    rw [slots_withCwd]
    exact h.file k
  · have hcounts : holders s.file (withCwd s.proc p cwd) + y' = holders s.file s.proc + y := by
      rw [holders_withCwd, add_assoc, add_comm (got cwd), hy]
      abel
    show TableInv (holders s.file (withCwd s.proc p cwd) + y') s.fs
    rw [hcounts]
    exact h.table

/-! ## Functions on files -/

theorem SysInv.read {k : State n → Sys n α} {Q : α → State n → Prop}
    (h : ∀ s, s.proc = P → Completes (SysInv x y P) (k s) Q) :
    Completes (SysInv x y P) (get >>= k) Q := by
  refine .get fun s hs => (h s hs.proc).pre ?_
  rintro s rfl
  exact hs

theorem onFs_spec {m : Op α} {d : α → Slot → ℤ} {N : (Slot → ℤ) → Prop}
    (hm : ∀ c, N c → Completes (TableInv c) m fun a => TableInv (c + d a))
    (hN : ∀ s : State n, SysInv x y P s → N (holders s.file s.proc + y)) :
    Completes (SysInv x y P) (onFs m) fun a => SysInv x (y + d a) P := by
  intro s h
  have hs := hm _ (hN s h) s.fs h.table
  unfold onFs
  cases hr : m s.fs with
  | error e => exact trivial
  | ok r =>
    rw [hr] at hs
    refine ⟨h.proc, h.file, ?_, h.none⟩
    rw [← add_assoc]
    exact hs

theorem onFs_iput (ip : Slot) : Completes (SysInv x y P) (onFs (iput ip) : Sys n Unit)
      fun _ => SysInv x (y - Pi.single ip 1) P := by
  rw [sub_eq_add_neg]
  refine onFs_spec (N := fun _ => True) (fun c _ => ?_) fun _ _ => trivial
  rw [← sub_eq_add_neg]
  exact iput_spec ip

theorem onFs_iunlockput (ip : Slot) : Completes (SysInv x y P) (onFs (iunlockput ip) : Sys n Unit)
      fun _ => SysInv x (y - Pi.single ip 1) P := by
  rw [sub_eq_add_neg]
  refine onFs_spec (N := fun _ => True) (fun c _ => ?_) fun _ _ => trivial
  rw [← sub_eq_add_neg]
  exact iunlockput_spec ip

theorem onFs_iunlock (ip : Slot) :
    Completes (SysInv x y P) (onFs (iunlock ip) : Sys n Unit) fun _ => SysInv x y P := by
  have hspec := onFs_spec (n := n) (x := x) (y := y) (P := P) (m := iunlock ip) (d := fun _ => 0)
    (N := fun _ => True) (fun c _ => ?_) fun _ _ => trivial
  · simpa only [add_zero] using hspec
  · simpa only [add_zero] using iunlock_spec ip

theorem onFs_cwd {m : Op α} {d : α → Slot → ℤ} (hcwd : (P p).cwd = some cwd)
    (hm : ∀ c : Slot → ℤ, 0 < c cwd → Completes (TableInv c) m fun a => TableInv (c + d a)) :
    Completes (SysInv x 0 P) (onFs m) fun a => SysInv x (d a) P := by
  have hspec := onFs_spec (n := n) (x := x) (y := 0) (P := P) (N := fun c => 0 < c cwd) hm
    fun s h => ?_
  · simpa only [zero_add] using hspec
  · rw [add_zero, h.proc]
    exact holders_cwd_pos hcwd

/-- A file in use that holds no entry. -/
structure Blank (f : Fin nFile) (file : Fin nFile → File) : Prop where
  ref : (file f).ref ≠ 0
  held : (file f).held = 0

theorem Blank.setFile {g : Fin nFile} (hself : g = f → ff.ref ≠ 0 ∧ ff.held = 0)
    (hother : g ≠ f → Blank g s.file) : Blank g (s.setFile f ff).file := by
  rcases eq_or_ne g f with rfl | hne
  · have hfile : (s.setFile g ff).file g = ff := update_self ..
    refine ⟨?_, ?_⟩ <;> rw [hfile]
    · exact (hself rfl).1
    · exact (hself rfl).2
  · have hfile : (s.setFile f ff).file g = s.file g := update_of_ne hne ..
    refine ⟨?_, ?_⟩ <;> rw [hfile]
    · exact (hother hne).ref
    · exact (hother hne).held

theorem filealloc_spec (B : List (Fin nFile)) :
    Completes (fun s => SysInv x y P s ∧ ∀ g ∈ B, Blank g s.file) (filealloc : Sys n _)
      fun r s => SysInv (x + got r) y P s ∧ ∀ g ∈ r.toList ++ B, Blank g s.file := by
  refine .get fun s h => ?_
  cases hfind : (List.finRange nFile).find? fun f => (s.file f).ref = 0 with
  | none =>
    refine .pure ?_
    rintro s rfl
    rwa [got_none, add_zero]
  | some f =>
    have hzero : (s.file f).ref = 0 := by simpa using List.find?_some hfind
    have hnone : (s.file f).type = .none := h.1.none f hzero
    refine .bind (Q := fun _ s' => s' = s.setFile f { s.file f with ref := 1 }) (.modify ?_) fun _ =>
      .pure ?_
    · rintro s rfl
      rfl
    rintro s' rfl
    refine ⟨h.1.setFile ?_ rfl fun h0 => absurd h0 one_ne_zero, fun g hg => ?_⟩
    · rw [hzero]
      rfl
    · refine Blank.setFile (fun _ => ⟨one_ne_zero, held_of_none hnone⟩) fun hne => h.2 g ?_
      exact (List.mem_cons.mp hg).resolve_left hne

theorem SysInv.setPipe (h : SysInv x y P s) (hf : Blank f s.file) :
    SysInv x y P (s.setFile f { s.file f with type := .pipe }) := by
  have hheld : File.held ⟨(s.file f).ref, .pipe, (s.file f).ip⟩ = 0 := if_neg (by simp)
  refine h.setFile ?_ ?_ fun h0 => absurd h0 hf.ref
  · rw [sub_self, Pi.single_zero, add_zero]
  · rw [hheld, hf.held]

theorem filedup_spec (f : Fin nFile) : Completes (SysInv x y P) (filedup f : Sys n Unit)
      fun _ => SysInv (x + Pi.single f 1) y P := by
  refine .get fun s h => .ite (fun _ => .throw fun _ _ => trivial) fun hpos => .modify ?_
  rintro s rfl
  refine h.setFile ?_ rfl fun h0 => ?_
  · rw [add_sub_cancel_left]
  · have h0' : (s.file f).ref + 1 = 0 := h0
    omega

/-- **`fileclose`** drops a reference to the file, and with the last one the reference of the
file. -/
theorem fileclose_spec (f : Fin nFile) : Completes (SysInv x y P) (fileclose f : Sys n Unit)
      fun _ => SysInv (x - Pi.single f 1) y P := by
  have hsub : ∀ r : ℤ, x - Pi.single f 1 = x + Pi.single f (r - 1 - r) := by
    intro r
    rw [sub_right_comm, sub_self, zero_sub, Pi.single_neg, sub_eq_add_neg]
  refine .get fun s h => .ite (fun _ => .throw fun _ _ => trivial) fun hpos =>
    .ite (fun hmany => ?_) fun hlast => ?_
  · refine .modify ?_
    rintro s rfl
    refine h.setFile (hsub _) rfl fun h0 => ?_
    have h0' : (s.file f).ref - 1 = 0 := h0
    omega
  · have hone : (s.file f).ref = 1 := by omega
    refine .bind (Q := fun _ => SysInv (x - Pi.single f 1) (y + (s.file f).held) P) (.modify ?_)
      fun _ => .ite (fun htype => ?_) fun htype => .pure fun t ht => ?_
    · rintro s rfl
      refine h.setFile ?_ ?_ fun _ => rfl
      · rw [hone]
        exact hsub 1
      · have hgone : File.held ⟨0, .none, (s.file f).ip⟩ = 0 := held_of_none rfl
        rw [hgone, add_zero]
    · have hheld : (s.file f).held = Pi.single (s.file f).ip 1 := if_pos htype
      refine (onFs_iput (s.file f).ip).post fun _ t ht => ?_
      rwa [hheld, add_sub_cancel_right] at ht
    · have hheld : (s.file f).held = 0 := if_neg htype
      rwa [hheld, add_zero] at ht

theorem fdalloc_spec (p : Fin n) (f : Fin nFile) {R : (Fin nFile → File) → Prop} :
    Completes (fun s => SysInv x y P s ∧ R s.file) (fdalloc p f : Sys n _)
      fun r s => R s.file ∧ match r with
        | none => SysInv x y P s
        | some fd => (P p).ofile fd = none ∧
            SysInv (x - Pi.single f 1) y (withOfile P p fd (some f)) s := by
  refine .get fun s h => ?_
  cases hfind : (List.finRange nOfile).find? fun fd => (s.proc p).ofile fd = none with
  | none =>
    exact .ret ⟨h.2, h.1⟩
  | some fd =>
    have hempty : (P p).ofile fd = none := by
      have hfd : (s.proc p).ofile fd = none := by simpa using List.find?_some hfind
      rwa [h.1.proc] at hfd
    refine .bind (Q := fun _ t => t = s.setOfile p fd (some f)) (.modify ?_) fun _ => .pure ?_
    · rintro s rfl
      rfl
    rintro t rfl
    refine ⟨h.2, hempty, h.1.setOfile p fd (some f) ?_⟩
    rw [hempty, got_some, got_none, sub_add_cancel, add_zero]

/-! ## Calls -/

def Done (s : State n) : Prop := ∃ P, Idle P ∧ SysInv 0 0 P s

theorem SysInv.done (h : SysInv 0 0 P s) (hidle : Idle P) : Done s := ⟨P, hidle, h⟩

theorem Idle.withOfile (h : Idle P) (hp : (P p).cwd = some cwd) (fd : Fin nOfile)
    (g : Option (Fin nFile)) : Idle (withOfile P p fd g) := by
  intro q hq k
  rw [withOfile_cwd] at hq
  have hne : q ≠ p := by
    rintro rfl
    rw [hp] at hq
    exact nomatch hq
  rw [withOfile_of_ne P hne]
  exact h q hq k

theorem Idle.withCwd (h : Idle P) (p : Fin n) (cwd : Slot) : Idle (withCwd P p (some cwd)) := by
  intro q hq k
  unfold InodeTable.withCwd at hq ⊢
  rcases eq_or_ne q p with rfl | hne
  · rw [update_self] at hq
    exact nomatch hq
  · rw [update_of_ne hne] at hq ⊢
    exact h q hq k

theorem iunlockput_done (hidle : Idle P) {a : α} :
    Completes (SysInv 0 (Pi.single ip 1) P) (do onFs (iunlockput ip); return a : Sys n α)
      fun _ => Done := by
  refine .bind (onFs_iunlockput ip) fun _ => .pure fun s h => SysInv.done ?_ hidle
  rwa [sub_self] at h

theorem close_both (hidle : Idle P) (f g : Fin nFile) {a : α} :
    Completes (SysInv (Pi.single f 1 + Pi.single g 1) 0 P)
      (do fileclose f; fileclose g; return a : Sys n α) fun _ => Done := by
  refine .bind (fileclose_spec f) fun _ => .bind (fileclose_spec g) fun _ =>
    .pure fun s h => SysInv.done ?_ hidle
  rwa [add_sub_cancel_left, sub_self] at h

theorem sysOpen_done (hidle : Idle P) (hp : (P p).cwd = some cwd) (path : List UInt8) (omode : ℕ)
    (room : Fin 3 → Bool) :
    Completes (SysInv 0 0 P) (sysOpen ninodes p cwd path omode room) fun _ => Done := by
  refine .bind (onFs_cwd hp fun c hc => openInode_spec hc path omode room) fun r => ?_
  cases r with
  | none => exact .pure fun s h => h.done hidle
  | some ip =>
    refine .bind ((filealloc_spec []).pre fun s h => ⟨h, nofun⟩) fun r => ?_
    cases r with
    | none =>
      refine (iunlockput_done hidle).pre fun s h => ?_
      rw [got_none, add_zero] at h
      exact h.1
    | some f =>
      refine .bind ((fdalloc_spec p f (R := Blank f)).pre fun s h => ⟨h.1, h.2 f (by simp)⟩)
        fun r => ?_
      rw [zero_add, got_some, got_some]
      cases r with
      | none =>
        refine .bind ((fileclose_spec f).pre fun s h => h.2) fun _ => ?_
        rw [sub_self]
        exact iunlockput_done hidle
      | some fd =>
        rw [sub_self]
        refine .get fun s h => ?_
        obtain ⟨hblank, -, hs⟩ := h
        -- the reference to the entry goes to the file
        have hopened : ∀ type, type = .inode ∨ type = .device → SysInv 0 0 (withOfile P p fd (some f))
              (s.setFile f { s.file f with type := type, ip := ip }) := by
          intro type htype
          have hheld : File.held ⟨(s.file f).ref, type, ip⟩ = Pi.single ip 1 := if_pos htype
          refine hs.setFile ?_ ?_ fun h0 => absurd h0 hblank.ref
          · rw [sub_self, Pi.single_zero, add_zero]
          · rw [hheld, hblank.held, add_zero, zero_add]
        refine .bind (Q := fun _ => SysInv 0 0 (withOfile P p fd (some f))) (.modify ?_) fun _ =>
          .bind (onFs_iunlock ip) fun _ => .pure fun t ht => ht.done (hidle.withOfile hp fd _)
        rintro s rfl
        exact hopened _ (by split <;> simp)

theorem sysClose_done (hidle : Idle P) (hp : (P p).cwd = some cwd) (fd : Fin nOfile) :
    Completes (SysInv 0 0 P) (sysClose p fd) fun _ => Done := by
  refine SysInv.read fun s hs => ?_
  rw [hs]
  cases hfd : (P p).ofile fd with
  | none => exact .pure fun t ht => ht.done hidle
  | some f =>
    refine .bind (Q := fun _ => SysInv (Pi.single f 1) 0 (withOfile P p fd none))
      (.modify fun t ht => ht.setOfile p fd none ?_) fun _ =>
        .bind (fileclose_spec f) fun _ => .pure fun t ht => ?_
    · rw [hfd, got_none, got_some, add_zero, zero_add]
    · rw [sub_self] at ht
      exact ht.done (hidle.withOfile hp fd _)

theorem sysDup_done (hidle : Idle P) (hp : (P p).cwd = some cwd) (fd : Fin nOfile) :
    Completes (SysInv 0 0 P) (sysDup p fd) fun _ => Done := by
  refine SysInv.read fun s hs => ?_
  cases (s.proc p).ofile fd with
  | none => exact .pure fun t ht => ht.done hidle
  | some f =>
    refine .bind ((fdalloc_spec p f (R := fun _ => True)).pre fun t ht => ⟨ht, trivial⟩) fun r => ?_
    cases r with
    | none => exact .pure fun t ht => ht.2.done hidle
    | some k =>
      -- for a moment there is a descriptor more than `ref` says
      refine .bind ((filedup_spec f).pre fun t ht => ht.2.2) fun _ => .pure fun t ht => ?_
      rw [sub_add_cancel] at ht
      exact ht.done (hidle.withOfile hp k _)

theorem sysChdir_done (hidle : Idle P) (hp : (P p).cwd = some cwd) (path : List UInt8) :
    Completes (SysInv 0 0 P) (sysChdir p cwd path) fun _ => Done := by
  refine .bind (onFs_cwd hp fun c hc => chdirInode_spec hc path) fun r => ?_
  cases r with
  | none => exact .pure fun s h => h.done hidle
  | some ip =>
    refine .bind (onFs_iput cwd) fun _ =>
      .bind (Q := fun _ => SysInv 0 0 (withCwd P p (some ip))) (.modify fun s h => ?_) fun _ =>
        .pure fun s h => h.done (hidle.withCwd p ip)
    refine h.setCwd p (some ip) ?_
    rw [hp, got_some, got_some, sub_add_cancel, zero_add]

theorem pipealloc_spec (mem : Bool) :
    Completes (SysInv x y P) (pipealloc mem : Sys n _) fun r s => match r with
      | none => SysInv x y P s
      | some (f, g) => SysInv (x + Pi.single f 1 + Pi.single g 1) y P s := by
  refine .bind ((filealloc_spec []).pre fun s h => ⟨h, nofun⟩) fun r => ?_
  cases r with
  | none => exact .pure fun s h => by simpa using h.1
  | some f =>
    refine .bind (filealloc_spec _) fun r => ?_
    cases r with
    | none =>
      refine .bind ((fileclose_spec f).pre fun s h => h.1) fun _ => .pure fun s h => ?_
      rwa [got_none, add_zero, got_some, add_sub_cancel_right] at h
    | some g =>
      rw [got_some, got_some]
      refine .ite (fun _ => ?_) fun _ => ?_
      · refine .bind (Q := fun _ s => SysInv (x + Pi.single f 1 + Pi.single g 1) y P s ∧
          Blank g s.file) (.modify fun s h => ?_) fun _ =>
            .bind (Q := fun _ => SysInv (x + Pi.single f 1 + Pi.single g 1) y P)
              (.modify fun s h => h.1.setPipe h.2) fun _ => .pure fun s h => h
        have hf : Blank f s.file := h.2 f (by simp)
        refine ⟨h.1.setPipe hf, Blank.setFile (fun _ => ⟨hf.ref, if_neg (by simp)⟩) fun _ => ?_⟩
        exact h.2 g (by simp)
      · refine .bind ((fileclose_spec f).pre fun s h => h.1) fun _ =>
          .bind (fileclose_spec g) fun _ => .pure fun s h => ?_
        rwa [add_right_comm, add_sub_cancel_right, add_sub_cancel_right] at h

theorem sysPipe_done (hidle : Idle P) (hp : (P p).cwd = some cwd) (mem copied : Bool) :
    Completes (SysInv 0 0 P) (sysPipe p mem copied) fun _ => Done := by
  refine .bind (pipealloc_spec mem) fun r => ?_
  cases r with
  | none => exact .pure fun s h => h.done hidle
  | some r =>
    obtain ⟨f, g⟩ := r
    simp only [zero_add]
    refine .bind ((fdalloc_spec p f (R := fun _ => True)).pre fun s h => ⟨h, trivial⟩) fun r => ?_
    cases r with
    | none => exact (close_both hidle f g).pre fun s h => h.2
    | some fd =>
      have hidle₁ := hidle.withOfile hp fd (some f)
      have hp₁ : (withOfile P p fd (some f) p).cwd = some cwd := (withOfile_cwd ..).trans hp
      have hf₁ : (withOfile P p fd (some f) p).ofile fd = some f := by
        rw [withOfile_ofile, update_self]
      simp only [add_sub_cancel_left]
      generalize withOfile P p fd (some f) = P₁ at hidle₁ hp₁ hf₁ ⊢
      refine .bind ((fdalloc_spec p g (R := fun _ => True)).pre fun s h => ⟨h.2.2, trivial⟩)
        fun r => ?_
      cases r with
      | none =>
        refine .bind (Q := fun _ => SysInv (Pi.single f 1 + Pi.single g 1) 0 (withOfile P₁ p fd none))
          (.modify fun s h => h.2.setOfile p fd none ?_) fun _ =>
            close_both (hidle₁.withOfile hp₁ fd none) f g
        rw [hf₁, got_none, got_some, add_zero, add_comm]
      | some k =>
        rw [sub_self]
        refine .of_forall fun s h => ?_
        obtain ⟨-, hk, hs⟩ := h
        have hne : k ≠ fd := by
          rintro rfl
          rw [hf₁] at hk
          exact nomatch hk
        have hidle₂ := hidle₁.withOfile hp₁ k (some g)
        have hp₂ : (withOfile P₁ p k (some g) p).cwd = some cwd := (withOfile_cwd ..).trans hp₁
        have hf₂ : (withOfile P₁ p k (some g) p).ofile fd = some f := by
          rw [withOfile_ofile, update_of_ne hne.symm, hf₁]
        have hg₂ : (withOfile (withOfile P₁ p k (some g)) p fd none p).ofile k = some g := by
          rw [withOfile_ofile, update_of_ne hne, withOfile_ofile, update_self]
        refine .ite (fun _ => .pure ?_) fun _ => ?_
        · rintro t rfl
          exact hs.done hidle₂
        · refine .bind (Q := fun _ => SysInv (Pi.single f 1) 0 _) (.modify ?_) fun _ =>
            .bind (Q := fun _ => SysInv (Pi.single f 1 + Pi.single g 1) 0 _)
              (.modify fun t ht => ht.setOfile p k none ?_) fun _ =>
                close_both ((hidle₂.withOfile hp₂ fd none).withOfile ((withOfile_cwd ..).trans hp₂)
                  k none) f g
          · rintro t rfl
            refine hs.setOfile p fd none ?_
            rw [hf₂, got_none, got_some, add_zero, zero_add]
          · rw [hg₂, got_none, got_some, add_zero]

/-- The loop of `fork`: the child gets a descriptor for each reference that is taken. -/
theorem dupFiles_spec (fds : List (Fin nOfile)) (hnodup : fds.Nodup) :
    ∀ P : Fin n → Proc, (∀ fd ∈ fds, (P np).ofile fd = none) →
        Completes (SysInv x y P) (dupFiles p np fds)
        fun _ s => ∃ P', (∀ q, q ≠ np → P' q = P q) ∧ (P' np).cwd = (P np).cwd ∧ SysInv x y P' s := by
  induction fds with
  | nil => exact fun P _ => .pure fun s h => ⟨P, fun _ _ => rfl, rfl, h⟩
  | cons fd fds ih =>
    intro P hnone
    obtain ⟨hfd, hnodup⟩ := List.nodup_cons.mp hnodup
    refine SysInv.read fun s hs => ?_
    cases (s.proc p).ofile fd with
    | none => exact ih hnodup P fun k hk => hnone k (List.mem_cons_of_mem _ hk)
    | some f =>
      refine .bind (filedup_spec f) fun _ =>
        .bind (Q := fun _ => SysInv x y (withOfile P np fd (some f)))
          (.modify fun t ht => ht.setOfile np fd (some f) ?_) fun _ => ?_
      · rw [hnone fd List.mem_cons_self, got_none, got_some, add_zero]
      · refine (ih hnodup _ fun k hk => ?_).post fun _ t ht => ?_
        · have hkfd : k ≠ fd := fun he => hfd (he ▸ hk)
          rw [withOfile_ofile, update_of_ne hkfd]
          exact hnone k (List.mem_cons_of_mem _ hk)
        · obtain ⟨P', hother, hcwd, ht⟩ := ht
          refine ⟨P', fun q hq => ?_, hcwd.trans (withOfile_cwd ..), ht⟩
          exact (hother q hq).trans (withOfile_of_ne P hq ..)

theorem sysFork_done (hidle : Idle P) (hp : (P p).cwd = some cwd) (hnp : (P np).cwd = none)
    (mem : Bool) : Completes (SysInv 0 0 P) (sysFork p cwd np mem) fun _ => Done := by
  have hne : p ≠ np := by
    rintro rfl
    rw [hp] at hnp
    exact nomatch hnp
  refine .ite (fun _ => ?_) fun _ => .pure fun s h => h.done hidle
  refine .bind (dupFiles_spec _ (List.nodup_finRange _) P fun fd _ => hidle np hnp fd) fun _ =>
    .of_forall fun s h => ?_
  obtain ⟨P', hother, hcwd, hs⟩ := h
  have hp' : (P' p).cwd = some cwd := by rw [hother p hne, hp]
  refine .bind ((onFs_cwd hp' fun c hc => idup_spec hc).pre ?_) fun _ =>
    .bind (Q := fun _ => SysInv 0 0 (withCwd P' np (some cwd)))
      (.modify fun t ht => ht.setCwd np (some cwd) ?_) fun _ => .pure fun t ht => ht.done ?_
  · rintro t rfl
    exact hs
  · rw [hcwd, hnp, got_none, got_some, zero_add, add_zero]
  · intro q hq fd
    unfold withCwd at hq ⊢
    rcases eq_or_ne q np with rfl | hq'
    · rw [update_self] at hq
      exact nomatch hq
    · rw [update_of_ne hq', hother q hq'] at hq ⊢
      exact hidle q hq fd

/-- The loop of `exit`: for a moment a descriptor is left of a file that has been closed. -/
theorem closeFiles_spec (p : Fin n) (fds : List (Fin nOfile)) :
    ∀ P : Fin n → Proc, Completes (SysInv x y P) (closeFiles p fds)
      fun _ s => ∃ P', (∀ q, q ≠ p → P' q = P q) ∧ (P' p).cwd = (P p).cwd ∧
        (∀ fd, fd ∈ fds ∨ (P p).ofile fd = none → (P' p).ofile fd = none) ∧ SysInv x y P' s := by
  induction fds with
  | nil =>
    refine fun P => .pure fun s h => ⟨P, fun _ _ => rfl, rfl, fun fd hfd => ?_, h⟩
    exact hfd.resolve_left List.not_mem_nil
  | cons fd fds ih =>
    intro P
    refine SysInv.read fun s hs => ?_
    rw [hs]
    cases hfd : (P p).ofile fd with
    | none =>
      refine (ih P).post fun _ t ht => ?_
      obtain ⟨P', hother, hcwd, hnone, ht⟩ := ht
      refine ⟨P', hother, hcwd, fun k hk => hnone k ?_, ht⟩
      rcases hk with hk | hk
      · rcases List.mem_cons.mp hk with rfl | hk
        · exact .inr hfd
        · exact .inl hk
      · exact .inr hk
    | some f =>
      refine .bind (fileclose_spec f) fun _ =>
        .bind (Q := fun _ => SysInv x y (withOfile P p fd none))
          (.modify fun t ht => ht.setOfile p fd none ?_) fun _ =>
            (ih (withOfile P p fd none)).post fun _ t ht => ?_
      · rw [hfd, got_none, got_some, add_zero, sub_add_cancel]
      · obtain ⟨P', hother, hcwd, hnone, ht⟩ := ht
        refine ⟨P', fun q hq => (hother q hq).trans (withOfile_of_ne P hq ..),
          hcwd.trans (withOfile_cwd ..), fun k hk => hnone k ?_, ht⟩
        rw [withOfile_ofile]
        rcases eq_or_ne k fd with rfl | hne
        · exact .inr (update_self ..)
        · rw [update_of_ne hne]
          exact hk.imp_left fun hk => (List.mem_cons.mp hk).resolve_left hne

theorem sysExit_done (hidle : Idle P) (hp : (P p).cwd = some cwd) :
    Completes (SysInv 0 0 P) (sysExit p cwd) fun _ => Done := by
  refine .bind (closeFiles_spec p _ P) fun _ => .of_forall fun s h => ?_
  obtain ⟨P', hother, hcwd, hnone, hs⟩ := h
  refine .bind ((onFs_iput (y := 0) cwd).pre ?_) fun _ =>
    .bind (Q := fun _ => SysInv 0 0 (withCwd P' p none))
    (.modify fun t ht => ht.setCwd p none ?_) fun _ => .pure fun t ht => ht.done ?_
  · rintro t rfl
    exact hs
  · rw [hcwd, hp, got_none, got_some, add_zero, sub_add_cancel]
  · intro q hq fd
    unfold withCwd at hq ⊢
    rcases eq_or_ne q p with rfl | hne
    · rw [update_self]
      exact hnone fd (.inl (List.mem_finRange fd))
    · rw [update_of_ne hne, hother q hne] at hq ⊢
      exact hidle q hq fd

/-! ## Runs -/

theorem argstr_done (hidle : Idle P) (path : Path) {k : List UInt8 → Sys n Bool}
    (hk : ∀ path, Completes (SysInv 0 0 P) (k path) fun _ => Done) :
    Completes (SysInv 0 0 P) (argstr path k) fun _ => Done := by
  cases path with
  | none => exact .pure fun s h => h.done hidle
  | some path => exact hk path

/-- **Every call takes as many references as it leaves.** -/
theorem Call.run_done (hidle : Idle P) (hp : (P p).cwd = some cwd) (c : Call n)
    (hc : ∀ np mem, c = .fork np mem → (P np).cwd = none) :
    Completes (SysInv 0 0 P) (c.run ninodes p cwd) fun _ => Done := by
  -- a call that only touches the file system
  have hfs : ∀ {m : Op Bool},
    (∀ c : Slot → ℤ, 0 < c cwd → Completes (TableInv c) m fun _ => TableInv c) →
      Completes (SysInv 0 0 P) (onFs m) fun _ => Done := by
    intro m hm
    refine (onFs_cwd (d := fun _ => 0) hp fun c hcwd => ?_).post fun _ s h => h.done hidle
    simpa only [add_zero] using hm c hcwd
  cases c with
  | «open» path omode room =>
    exact argstr_done hidle path fun path => sysOpen_done hidle hp path omode room
  | mkdir path room =>
    exact argstr_done hidle path fun path => hfs fun c h => sysMake_spec h path .dir 0 room
  | mknod path major room =>
    exact argstr_done hidle path fun path => hfs fun c h => sysMake_spec h path .device major room
  | link old new room =>
    exact argstr_done hidle old fun old => argstr_done hidle new fun new =>
      hfs fun c h => sysLink_spec h old new room
  | unlink path => exact argstr_done hidle path fun path => hfs fun c h => sysUnlink_spec h path
  | chdir path => exact argstr_done hidle path fun path => sysChdir_done hidle hp path
  | exec path args loaded pushed =>
    refine argstr_done hidle path fun path => .ite (fun _ => ?_) fun _ => .pure fun s h => h.done hidle
    exact hfs fun c h => exec_spec h path loaded pushed
  | close fd => exact sysClose_done hidle hp fd
  | dup fd => exact sysDup_done hidle hp fd
  | pipe mem copied => exact sysPipe_done hidle hp mem copied
  | fork child mem => exact sysFork_done hidle hp (hc child mem rfl) mem
  | exit => exact sysExit_done hidle hp

theorem Done.accounted (h : Done s) : Accounted s := by
  obtain ⟨P, hidle, hs⟩ := h
  obtain rfl := hs.proc
  exact ⟨hs, hidle⟩

theorem Accounted.step (h : Accounted s) {a : Fin n × Call n} (hs : next ninodes s a = some s') :
    Accounted s' := by
  unfold next at hs
  cases hp : (s.proc a.1).cwd with
  | none =>
    rw [hp] at hs
    exact nomatch hs
  | some cwd =>
    rw [hp] at hs
    obtain ⟨hc, hs⟩ := Option.ite_none_right_eq_some.mp hs
    have hslot : ∀ np mem, a.2 = .fork np mem → (s.proc np).cwd = none := by
      intro np mem he
      rw [he] at hc
      exact Option.isNone_iff_eq_none.mp hc
    have hspec : Completes (SysInv 0 0 s.proc) (a.2.run ninodes a.1 cwd) fun _ => Done :=
      Call.run_done h.idle hp a.2 hslot
    cases hrun : a.2.run ninodes a.1 cwd s with
    | error e =>
      rw [hrun] at hs
      exact nomatch hs
    | ok r =>
      rw [hrun] at hs
      cases hs
      exact (hspec.ok h.inv hrun).accounted

theorem accounted_boot {disk : ℕ × ℕ → FileTree.Inode} {p : Fin n}
    (h : userinit p (zeroed disk) = .ok ((), s)) : Accounted s := by
  have hzero : SysInv (n := n) 0 0 (fun _ => ⟨none, fun _ => none⟩) (zeroed disk) := by
    refine ⟨rfl, fun f => ?_, ⟨fun ip => ?_, fun ip jp hi => absurd hi (lt_irrefl _)⟩, fun f _ => rfl⟩
    · simp [slots, zeroed]
    · simp [holders, zeroed, File.held]
  have hspec : Completes (SysInv (n := n) 0 0 (fun _ => ⟨none, fun _ => none⟩)) (userinit p)
      fun _ => Done := by
    refine .bind (onFs_spec (N := fun _ => True) (fun c _ => iget_spec _ _) fun _ _ => trivial)
      fun ip => .modify fun t ht => ?_
    refine SysInv.done (ht.setCwd p (some ip) ?_) (Idle.withCwd (fun _ _ _ => rfl) p ip)
    rw [got_none, got_some, zero_add, add_zero]
  exact (hspec.ok hzero h).accounted

theorem sum_got_apply {κ ι : Type} [Fintype κ] [DecidableEq ι] (t : κ → Option ι) (i : ι) :
    (∑ k, got (t k)) i = ({k | t k = some i} : Finset κ).card := by
  rw [Finset.sum_apply, card_filter, Nat.cast_sum]
  refine sum_congr rfl fun k _ => ?_
  cases t k with
  | none => simp
  | some j => simp [Pi.single_apply, eq_comm]

theorem sum_held_apply (file : Fin nFile → File) (ip : Slot) :
    (∑ f, (file f).held) ip = ({f | ((file f).type = .inode ∨ (file f).type = .device) ∧
      (file f).ip = ip} : Finset (Fin nFile)).card := by
  rw [Finset.sum_apply, card_filter, Nat.cast_sum]
  refine sum_congr rfl fun f _ => ?_
  unfold File.held
  by_cases htype : (file f).type = .inode ∨ (file f).type = .device
  · simp only [htype, true_and, if_true, Pi.single_apply, eq_comm (a := ip)]
    split <;> rfl
  · simp [htype]

/-- **References are counted right.** After any completed calls, the `ref` of a file is the number
of descriptors for it, the `ref` of an entry of the inode table the number of open files and of
processes that hold it, and no two entries in use are for one inode. -/
theorem reference_accounting (ninodes n : ℕ) (disk : ℕ × ℕ → FileTree.Inode) (p : Fin n)
    (s₀ s : State n) (hboot : userinit p (zeroed disk) = .ok ((), s₀))
    (hs : Reach (next ninodes) s₀ s) :
    (∀ f, (s.file f).ref =
      ({x | (s.proc x.1).ofile x.2 = some f} : Finset (Fin n × Fin nOfile)).card) ∧
    (∀ ip, (s.fs.itable ip).ref =
      ({f | ((s.file f).type = .inode ∨ (s.file f).type = .device) ∧ (s.file f).ip = ip} :
        Finset (Fin nFile)).card + ({q | (s.proc q).cwd = some ip} : Finset (Fin n)).card) ∧
    ∀ ip jp, 0 < (s.fs.itable ip).ref → 0 < (s.fs.itable jp).ref →
      (s.fs.itable ip).dev = (s.fs.itable jp).dev → (s.fs.itable ip).inum = (s.fs.itable jp).inum →
      ip = jp := by
  have h : Accounted s := hs.invariant (fun _ _ _ ht hstep => ht.step hstep) (accounted_boot hboot)
  refine ⟨fun f => ?_, fun ip => ?_, fun ip jp hi hj hdev hinum => ?_⟩
  · rw [h.inv.file, Pi.zero_apply, add_zero]
    exact sum_got_apply (fun x : Fin n × Fin nOfile => (s.proc x.1).ofile x.2) f
  · rw [h.inv.table.ref, add_zero]
    unfold holders
    rw [Pi.add_apply, sum_held_apply, sum_got_apply]
  · exact h.inv.table.unique ip jp hi hj (Prod.ext hdev hinum)

end

def rootDisk : ℕ × ℕ → FileTree.Inode :=
  update (fun _ => .zero) (rootDev, FileTree.rootIno)
    ⟨.dir, 0, 1, [⟨1, FileTree.strncpy FileTree.dot FileTree.dirSiz⟩,
      ⟨1, FileTree.strncpy FileTree.dotdot FileTree.dirSiz⟩]⟩

def file0 : Fin nFile := ⟨0, by decide⟩

def fd0 : Fin nOfile := ⟨0, FileTree.nOfile_pos⟩

/-- A file is created and duplicated, and shared with a child that closes one descriptor. -/
def shareActs : List (Fin 2 × Call 2) :=
  [(0, .open (some [97]) 514 fun _ => true), (0, .dup fd0), (0, .fork 1 true), (1, .close fd0),
    (1, .mkdir (some [97, 47, 98]) fun _ => true), (0, .unlink (some [97]))]

theorem reference_accounting_shared : ∃ s₀ s : State 2,
    userinit 0 (zeroed rootDisk) = .ok ((), s₀) ∧ Reach (next 8) s₀ s ∧ (s.file file0).ref = 3 ∧
    (∀ f, (s.file f).ref =
      ({x | (s.proc x.1).ofile x.2 = some f} : Finset (Fin 2 × Fin nOfile)).card) ∧
    (∀ ip, (s.fs.itable ip).ref =
      ({f | ((s.file f).type = .inode ∨ (s.file f).type = .device) ∧ (s.file f).ip = ip} :
        Finset (Fin nFile)).card + ({q | (s.proc q).cwd = some ip} : Finset (Fin 2)).card) ∧
    ∀ ip jp, 0 < (s.fs.itable ip).ref → 0 < (s.fs.itable jp).ref →
      (s.fs.itable ip).dev = (s.fs.itable jp).dev → (s.fs.itable ip).inum = (s.fs.itable jp).inum →
      ip = jp := by
  obtain ⟨⟨⟨⟩, s₀⟩, hboot, s, hs, href⟩ : ∃ r ∈ (userinit 0 (zeroed rootDisk : State 2)).toOption,
      ∃ s ∈ runActs (next 8) r.2 shareActs, (s.file file0).ref = 3 := by decide +kernel
  have hboot : userinit 0 (zeroed rootDisk : State 2) = .ok ((), s₀) := by
    cases hu : userinit 0 (zeroed rootDisk : State 2) with
    | error e =>
      rw [hu] at hboot
      exact nomatch hboot
    | ok r =>
      rw [hu] at hboot
      exact congrArg _ (Option.some.inj hboot)
  have hreach := reach_of_runActs hs
  exact ⟨s₀, s, hboot, hreach, href, reference_accounting 8 2 rootDisk 0 s₀ s hboot hreach⟩

end LazyXv6.InodeTable
