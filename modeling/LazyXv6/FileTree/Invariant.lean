import LazyXv6.FileTree.Calls
import LazyXv6.FileTree.Links

/-!
# What system calls keep

`RefInv`: the references to an inode are those that files and processes hold (`H`) and those that
the call under way has taken (`held`); an inode without links is kept by one of them, and valid, so
that the last `iput` frees it. Together with `DiskInv` this is kept by every system call (`FsInv`).
-/

namespace LazyXv6.FileTree

open Function Lib

structure RefInv (H : ℕ → ℤ) (fresh : Option ℕ) (held : List ℕ) (fs : Fs) : Prop where
  nonneg : ∀ i, 0 ≤ H i
  ref : ∀ i, fs.ref i = H i + held.count i
  valid : ∀ i, 0 < fs.ref i → fs.valid i = true → fs.Alloc i
  used : ∀ i, 0 < H i → fs.Settled fresh i
  kept : ∀ i, fs.Settled fresh i → fs.nlink i = 0 → (0 < H i ∨ i ∈ held) ∧ fs.valid i = true
  fresh : ∀ i, fresh = some i → held.count i = 1

structure FsInv (ninodes : ℕ) (H : ℕ → ℤ) (I : LinkGraph ℕ → List ℕ → Prop) (fresh : Option ℕ)
    (owed held : List ℕ) (fs : Fs) : Prop where
  disk : DiskInv ninodes I fresh owed fs
  refs : RefInv H fresh held fs

section

variable {ninodes : ℕ} {H : ℕ → ℤ} {I : LinkGraph ℕ → List ℕ → Prop} {fresh : Option ℕ}
    {owed held : List ℕ}
  {fs fs' : Fs} {i j dp cwd off : ℕ} {name path : List UInt8} {des des' : List Dirent} {room : Bool}
  {n : ℤ} {E : FsPanic → Prop}

/-! ## References -/

theorem RefInv.held_pos (h : RefInv H fresh held fs) (hi : i ∈ held) : 0 < fs.ref i := by
  have hcount : 0 < held.count i := List.count_pos_iff.mpr hi
  have hn := h.nonneg i
  rw [h.ref]
  omega

theorem RefInv.unused (h : RefInv H fresh held fs) (hi : ¬fs.Settled fresh i) : H i = 0 := by
  have hn := h.nonneg i
  by_contra hne
  exact hi (h.used i (by omega))

theorem RefInv.refOk (h : RefInv H fresh held fs) : RefOk fs := by
  refine ⟨fun i => ?_, h.valid, fun i ha h0 => ?_⟩
  · have hn := h.nonneg i
    rw [h.ref]
    omega
  · by_cases hf : fresh = some i
    · exact h.held_pos (List.count_pos_iff.mp (by rw [h.fresh i hf]; exact Nat.one_pos))
    · rcases (h.kept i ⟨ha, hf⟩ h0).1 with hH | hi
      · rw [h.ref]
        omega
      · exact h.held_pos hi

theorem RefInv.perm {held' : List ℕ} (h : RefInv H fresh held fs) (hp : held.Perm held') :
    RefInv H fresh held' fs where
  nonneg := h.nonneg
  ref i := hp.count_eq i ▸ h.ref i
  valid := h.valid
  used := h.used
  kept i hi h0 := by
    rw [← hp.mem_iff]
    exact h.kept i hi h0
  fresh i hi := hp.count_eq i ▸ h.fresh i hi

theorem RefInv.touched {taken : List ℕ} (h : RefInv H fresh held fs) (ht : Touched fs fs' taken)
    (hfresh : ∀ i, fresh = some i → i ∉ taken) : RefInv H fresh (taken ++ held) fs' where
  nonneg := h.nonneg
  ref i := by
    rw [ht.ref, h.ref, List.count_append]
    push_cast
    ring
  valid := (ht.refOk h.refOk).valid
  used i hi := Fs.settled_congr ht.type ▸ h.used i hi
  kept i hi h0 := by
    rw [Fs.settled_congr ht.type] at hi
    rw [ht.nlink] at h0
    obtain ⟨hk, hv⟩ := h.kept i hi h0
    have hpos := h.refOk.kept i hi.1 h0
    exact ⟨hk.imp_right fun hm => List.mem_append_right _ hm, ht.keeps i hpos hv⟩
  fresh i hi := by
    rw [List.count_append, List.count_eq_zero_of_not_mem (hfresh i hi), h.fresh i hi]

theorem DiskInv.touched {taken : List ℕ} (h : DiskInv ninodes I fresh owed fs)
    (ht : Touched fs fs' taken) : DiskInv ninodes I fresh owed fs' := h.congr ht.inode ht.lost

theorem FsInv.touched {taken : List ℕ} (h : FsInv ninodes H I fresh owed held fs)
    (ht : Touched fs fs' taken) (hfresh : ∀ i, fresh = some i → i ∉ taken) :
    FsInv ninodes H I fresh owed (taken ++ held) fs' :=
  ⟨h.disk.touched ht, h.refs.touched ht hfresh⟩

theorem FsInv.touch {taken : List ℕ} (h : FsInv ninodes H I none owed held fs)
    (ht : Touched fs fs' taken) : FsInv ninodes H I none owed (taken ++ held) fs' :=
  h.touched ht nofun

theorem RefInv.congr (h : RefInv H fresh held fs) (htype : fs'.type = fs.type)
    (hnlink : fs'.nlink = fs.nlink) (href : fs'.ref = fs.ref) (hvalid : fs'.valid = fs.valid) :
    RefInv H fresh held fs' := by
  refine ⟨h.nonneg, href ▸ h.ref, ?_, Fs.settled_congr htype ▸ h.used, ?_, h.fresh⟩
  · rw [href, hvalid, Fs.alloc_congr htype]
    exact h.valid
  · rw [Fs.settled_congr htype, hnlink, hvalid]
    exact h.kept

theorem RefInv.setDirents (h : RefInv H fresh held fs) (dp : ℕ) (des : List Dirent) :
    RefInv H fresh held (fs.setDirents dp des) :=
  h.congr (Fs.type_setDirents ..) (Fs.nlink_setDirents ..) rfl rfl

theorem RefInv.setNlink (h : RefInv H fresh held fs)
    (hk : toShort n = 0 → fresh ≠ some i → i ∈ held ∧ fs.valid i = true) :
    RefInv H fresh held (fs.setNlink i n) := by
  have hsame := sameGraph_setNlink fs i n
  refine ⟨h.nonneg, h.ref, Fs.alloc_congr hsame.type ▸ h.valid,
    Fs.settled_congr hsame.type ▸ h.used, fun j hj h0 => ?_, h.fresh⟩
  rw [Fs.settled_congr hsame.type] at hj
  rw [nlink_setNlink] at h0
  split_ifs at h0 with he
  · obtain ⟨hi, hv⟩ := hk h0 (he ▸ hj.2)
    rw [he]
    exact ⟨.inr hi, hv⟩
  · exact h.kept j hj h0

theorem count_cons_eq (i j : ℕ) (held : List ℕ) :
    ((i :: held).count j : ℤ) = held.count j + if j = i then 1 else 0 := by
  have hadd := count_cons_update (fun _ => 0) i j held
  omega

theorem ref_setRef (fs : Fs) (i : ℕ) (r : ℤ) (j : ℕ) :
    (fs.setRef i r).ref j = if j = i then r else fs.ref j := update_apply ..

theorem RefInv.ref_head (h : RefInv H fresh (i :: held) fs) :
    fs.ref i = H i + held.count i + 1 := by
  rw [h.ref, count_cons_eq, if_pos rfl, add_assoc]

theorem RefInv.ref_tail (h : RefInv H fresh (i :: held) fs) (hj : j ≠ i) :
    fs.ref j = H j + held.count j := by
  rw [h.ref, count_cons_eq, if_neg hj, add_zero]

theorem RefInv.put (h : RefInv H fresh (i :: held) fs) (hi : fresh ≠ some i)
    (hnot : ¬ (fs.ref i = 1 ∧ fs.valid i = true ∧ fs.nlink i = 0)) :
    RefInv H fresh held (fs.setRef i (fs.ref i - 1)) := by
  have href : ∀ j, (fs.setRef i (fs.ref i - 1)).ref j = H j + held.count j := by
    intro j
    rw [ref_setRef]
    split_ifs with he
    · rw [h.ref_head, he, add_sub_cancel_right]
    · exact h.ref_tail he
  refine ⟨h.nonneg, href, fun j hj hv => h.valid j ?_ hv, h.used, fun j hj h0 => ?_, fun j hj => ?_⟩
  · rw [ref_setRef] at hj
    split_ifs at hj with he
    · rw [he]
      omega
    · exact hj
  · obtain ⟨hk, hv⟩ := h.kept j hj h0
    refine ⟨?_, hv⟩
    rcases hk with hH | hm
    · exact .inl hH
    · rcases List.mem_cons.mp hm with rfl | hm
      · by_contra hno
        rw [not_or] at hno
        have hz : held.count j = 0 := List.count_eq_zero_of_not_mem hno.2
        have hr := h.ref_head
        have hn := h.nonneg j
        exact hnot ⟨by omega, hv, h0⟩
      · exact .inr hm
  · have hne : i ≠ j := fun he => hi (he ▸ hj)
    rw [← List.count_cons_of_ne hne]
    exact h.fresh j hj

theorem Fs.ref_free (fs : Fs) (i : ℕ) : (fs.free i).ref = fs.ref := by
  unfold Fs.free
  split <;> rfl

theorem Fs.valid_free (fs : Fs) (i : ℕ) : (fs.free i).valid = update fs.valid i false := by
  unfold Fs.free
  split <;> rfl

theorem RefInv.free {fresh' : Option ℕ} (h : RefInv H fresh (i :: held) fs) (hone : fs.ref i = 1)
    (hfresh : ∀ j, j ≠ i → (fresh' ≠ some j ↔ fresh ≠ some j)) (hi : fresh' ≠ some i)
    (hH : H i = 0) : RefInv H fresh' held ((fs.free i).setRef i ((fs.free i).ref i - 1)) := by
  have hzero : held.count i = 0 := by
    have hr := h.ref_head
    omega
  have href : ∀ j, ((fs.free i).setRef i ((fs.free i).ref i - 1)).ref j = H j + held.count j := by
    intro j
    rw [ref_setRef, Fs.ref_free]
    split_ifs with he
    · rw [he, hone, hH, hzero]
      rfl
    · exact h.ref_tail he
  have hset : ∀ j, j ≠ i → ((fs.free i).Settled fresh' j ↔ fs.Settled fresh j) := by
    intro j hj
    unfold Fs.Settled Fs.Alloc Fs.type
    rw [fs.inode_free_of_ne hj, hfresh j hj]
  refine ⟨h.nonneg, href, fun j hj hv => ?_, fun j hj => ?_, fun j hj h0 => ?_, fun j hj => ?_⟩
  · have hne : j ≠ i := by
      rintro rfl
      have hv' : (fs.free j).valid j = true := hv
      rw [Fs.valid_free, update_self] at hv'
      exact nomatch hv'
    have hv' : (fs.free i).valid j = true := hv
    rw [Fs.valid_free, update_of_ne hne] at hv'
    rw [ref_setRef, if_neg hne, Fs.ref_free] at hj
    have ha := h.valid j hj hv'
    unfold Fs.Alloc Fs.type at ha ⊢
    rw [show ((fs.free i).setRef i ((fs.free i).ref i - 1)).inode j = (fs.free i).inode j from rfl,
      fs.inode_free_of_ne hne]
    exact ha
  · have hne : j ≠ i := by
      rintro rfl
      omega
    exact (hset j hne).mpr (h.used j hj)
  · have hne : j ≠ i := by
      rintro rfl
      exact hj.1 (fs.type_free_self j)
    have h0' : fs.nlink j = 0 := by
      unfold Fs.nlink at h0 ⊢
      rw [← fs.inode_free_of_ne hne]
      exact h0
    obtain ⟨hk, hv⟩ := h.kept j ((hset j hne).mp hj) h0'
    refine ⟨hk.imp_right fun hm => (List.mem_cons.mp hm).resolve_left hne, ?_⟩
    show (fs.free i).valid j = true
    rw [Fs.valid_free, update_of_ne hne]
    exact hv
  · have hne : j ≠ i := fun he => hi (he ▸ hj)
    have hj' : fresh = some j := by
      by_contra hno
      exact (hfresh j hne).mpr hno hj
    rw [← List.count_cons_of_ne hne.symm]
    exact h.fresh j hj'

theorem FsInv.imp {J : LinkGraph ℕ → List ℕ → Prop} (h : FsInv ninodes H I fresh owed held fs)
    (hJ : I (fs.graph ninodes fresh) fs.lost → J (fs.graph ninodes fresh) fs.lost) :
    FsInv ninodes H J fresh owed held fs := ⟨h.disk.imp hJ, h.refs⟩

variable (hI : LinkGraph.Steady I)

include hI in
/-- **`iput`**, which frees the inode if this was the last reference and no link is left. -/
theorem FsInv.iput (h : FsInv ninodes H I fresh owed (i :: held) fs) (hi : fresh ≠ some i) :
    FsInv ninodes H I fresh owed held (fs.iput i) := by
  unfold Fs.iput
  by_cases hc : fs.ref i = 1 ∧ fs.valid i = true ∧ fs.nlink i = 0
  · rw [if_pos hc]
    have halloc := h.refs.valid i (by omega) hc.2.1
    have hH : H i = 0 := by
      have hr := h.refs.ref_head
      have hn := h.refs.nonneg i
      omega
    exact ⟨(h.disk.free hI ⟨halloc, hi⟩ hc.2.2).congr rfl rfl,
      h.refs.free hc.1 (fun _ _ => Iff.rfl) hi hH⟩
  · rw [if_neg hc]
    exact ⟨h.disk.congr rfl rfl, h.refs.put hi hc⟩

/-! ## Calls on the file system -/

theorem Panics.congr (hE : Panics fs E) (htype : fs'.type = fs.type)
    (hdirents : fs'.dirents = fs.dirents) : Panics fs' E := by
  refine ⟨hE.other, fun hd => hE.noType fun hd' => hd ?_⟩
  unfold Fs.NoDangling Fs.Alloc at hd' ⊢
  rwa [htype, hdirents]

theorem FsInv.refOk (h : FsInv ninodes H I fresh owed held fs) : RefOk fs := h.refs.refOk

theorem FsInv.same (h : FsInv ninodes H I fresh owed held fs) {t : Fs} (ht : t = fs) :
    Touched fs t [] := by
  subst ht
  exact .refl h.refOk

theorem FsInv.nameiparent (h : FsInv ninodes H I none owed held fs) (hE : Panics fs E)
    (hcwd : 0 < H cwd) (path : List UInt8) :
    Ensures (· = fs) (nameiparent ninodes cwd path) (fun r fs' => Resolved fs [] true r fs' ∧
      r = fs.walkParent (start cwd path) (components path)) E := by
  have hpos : 0 < fs.ref cwd := by
    rw [h.refs.ref]
    omega
  exact (namex_resolves h.refOk h.disk.root.settled.1 hpos (h.refs.used cwd hcwd).1 hE.walk path
    true).pre fun t ht => h.same ht

theorem FsInv.namei (h : FsInv ninodes H I none owed held fs) (hE : Panics fs E)
    (hcwd : 0 < H cwd) (path : List UInt8) :
    Ensures (· = fs) (namei ninodes cwd path) (fun r fs' => Touched fs fs' r.toList ∧
      (∀ i, r = some i → fs.NoDangling → fs.Alloc i) ∧
      r = fs.walk (start cwd path) (components path)) E := by
  have hpos : 0 < fs.ref cwd := by
    rw [h.refs.ref]
    omega
  refine ((namei_spec h.refOk h.disk.root.settled.1 hpos (h.refs.used cwd hcwd).1 hE path).pre
    fun t ht => h.same ht).post fun r t ht => ?_
  rwa [List.append_nil] at ht

theorem FsInv.ilock (h : FsInv ninodes H I fresh owed held fs) (hE : Others E)
    (hi : ¬ fs.Alloc i → E .ilockNoType) :
    Ensures (· = fs) (ilock i)
    (fun _ fs' => Touched fs fs' [] ∧ fs'.valid i = true ∧ fs.Alloc i) E :=
  (ilock_spec hE hi).pre fun _ ht => h.same ht

include hI in
theorem FsInv.put {α : Type} {k : Op α} {Q : α → Fs → Prop}
    (h : FsInv ninodes H I fresh owed (i :: held) fs) (hi : fresh ≠ some i)
    (hk : FsInv ninodes H I fresh owed held (fs.iput i) → Ensures (· = fs.iput i) k Q E) :
    Ensures (· = fs) (FileTree.iput i >>= fun _ => k) Q E := by
  refine .bind (Q := fun _ t => t = fs.iput i) (.modify ?_) fun _ => hk (h.iput hI hi)
  rintro t rfl
  rfl

include hI in
theorem FsInv.putReturn {α : Type} {a : α} (h : FsInv ninodes H I fresh owed (i :: held) fs)
    (hi : fresh ≠ some i) :
    Ensures (· = fs) (FileTree.iput i >>= fun _ => pure a)
    (fun _ => FsInv ninodes H I fresh owed held) E := by
  exact h.put hI hi fun ht => .ret ht

section

variable {α : Type} {a : α} {Q : α → Fs → Prop} (h : FsInv ninodes H I none owed held fs)
  (hE : Panics fs E) (hcwd : 0 < H cwd) (path : List UInt8)
  (hnone : ∀ t, FsInv ninodes H I none owed held t → Q a t)

include h hE hcwd hnone

/-- The inode of a path, locked. -/
theorem FsInv.nameiLock {k : ℕ → Op α}
    (hk : ∀ i t, fs.walk (start cwd path) (components path) = some i → Touched fs t [i] →
      t.valid i = true → fs.Alloc i → Ensures (· = t) (k i) Q E) :
    Ensures (· = fs) (do
      match ← FileTree.namei ninodes cwd path with
      | none => return a
      | some i =>
        FileTree.ilock i
        k i) Q E := by
  refine .bind (h.namei hE hcwd path) fun r => .of_forall fun fs₁ h₁ => ?_
  obtain ⟨ht₁, halloc, hwalk⟩ := h₁
  have hinv₁ := h.touch ht₁
  cases r with
  | none => exact .ret (hnone _ hinv₁)
  | some i =>
    refine .bind (hinv₁.ilock hE.other fun hno =>
      hE.noType fun hd => hno (ht₁.alloc ▸ halloc i rfl hd)) fun _ => .of_forall fun fs₂ h₂ => ?_
    obtain ⟨ht₂, hv, ha⟩ := h₂
    exact hk i fs₂ hwalk.symm (ht₁.trans ht₂) hv (ht₁.alloc ▸ ha)

/-- The directory that the last element of a path is in, locked. -/
theorem FsInv.parentLock {k : ℕ → List UInt8 → Op α}
    (hk : ∀ dp name t, fs.walkParent (start cwd path) (components path) = some (dp, name) →
      Touched fs t [dp] → t.valid dp = true → fs.type dp = .dir → Ensures (· = t) (k dp name) Q E) :
    Ensures (· = fs) (do
      match ← FileTree.nameiparent ninodes cwd path with
      | none => return a
      | some (dp, name) =>
        FileTree.ilock dp
        k dp name) Q E := by
  refine .bind (h.nameiparent hE hcwd path) fun r => .of_forall fun fs₁ h₁ => ?_
  obtain ⟨h₁, hwalk⟩ := h₁
  have hinv₁ := h.touch h₁.touched
  cases r with
  | none => exact .ret (hnone _ hinv₁)
  | some r =>
    obtain ⟨dp, name⟩ := r
    have hdir : fs.type dp = .dir := h₁.dir _ rfl rfl
    refine .bind (hinv₁.ilock hE.other fun hno =>
      absurd (Fs.alloc_of_dir (h₁.touched.type ▸ hdir)) hno) fun _ => .of_forall fun fs₂ h₂ => ?_
    obtain ⟨ht₂, hv, -⟩ := h₂
    exact hk dp name fs₂ hwalk.symm (h₁.touched.trans ht₂) hv hdir

end

include hI

theorem sysLinkBad_inv (h : FsInv ninodes H I none (i :: owed) (i :: held) fs) (hE : Others E) :
    Ensures (· = fs) (sysLinkBad i) (fun _ => FsInv ninodes H I none owed held) E := by
  have halloc := (h.disk.lost i (List.mem_append_right _ List.mem_cons_self)).1
  refine .bind (h.ilock hE fun hno => absurd halloc hno) fun _ => .of_forall fun fs₁ h₁ => ?_
  obtain ⟨ht, hv, -⟩ := h₁
  have hinv := h.touch ht
  refine .bind (Q := fun _ => FsInv ninodes H I none owed (i :: held)) (.modify ?_) fun _ =>
    .of_forall fun t ht => ht.putReturn hI nofun
  rintro t rfl
  exact ⟨hinv.disk.decNlink, hinv.refs.setNlink fun _ _ => ⟨List.mem_cons_self, hv⟩⟩

theorem sysLink_inv (h : FsInv ninodes H I none [] [] fs) (hE : Panics fs E) (hcwd : 0 < H cwd)
    (hN : ninodes ≤ 2 ^ 16) {old new : List UInt8}
    (hfit : ∀ ip, fs.walk (start cwd old) (components old) = some ip → fs.nlink ip < shortMax)
    (hadd : ∀ dp name, fs.walkParent (start cwd new) (components new) = some (dp, name) →
      LinkGraph.Adds I dp) (room : Bool) :
    Ensures (· = fs) (sysLink ninodes cwd old new room) (fun _ => FsInv ninodes H I none [] []) E := by
  refine h.nameiLock (Q := fun _ => FsInv ninodes H I none [] []) hE hcwd old (fun _ ht => ht)
    fun ip fs₂ hip ht₂ hv ha => .get ?_
  rintro fs₂ rfl
  have hinv₂ := h.touch ht₂
  refine .ite (fun _ => hinv₂.putReturn hI nofun) fun hdir => ?_
  have ha₂ : fs₂.Alloc ip := ht₂.alloc ▸ ha
  have hlt : fs₂.nlink ip < shortMax := ht₂.nlink ▸ hfit ip hip
  have hpos : toShort (fs₂.nlink ip + 1) ≠ 0 := by
    have hn := hinv₂.disk.nlink ip ⟨ha₂, nofun⟩
    unfold shortMax at hlt
    unfold toShort
    omega
  refine .set ?_
  have hinv₃ : FsInv ninodes H I none [ip] [ip] (fs₂.setNlink ip (fs₂.nlink ip + 1)) :=
    ⟨hinv₂.disk.incNlink ⟨ha₂, nofun⟩ hlt, hinv₂.refs.setNlink fun h0 => absurd h0 hpos⟩
  have hsame := sameGraph_setNlink fs₂ ip (fs₂.nlink ip + 1)
  have htype₃ := hsame.type.trans ht₂.type
  have hdirents₃ := hsame.dirents.trans ht₂.dirents
  have hE₃ := hE.congr htype₃ hdirents₃
  have hdir₃ : (fs₂.setNlink ip (fs₂.nlink ip + 1)).type ip ≠ .dir := by
    rw [hsame.type]
    exact hdir
  generalize fs₂.setNlink ip (fs₂.nlink ip + 1) = fs₃ at hinv₃ hE₃ hdir₃ htype₃ hdirents₃ ⊢
  refine .bind (hinv₃.nameiparent hE₃ hcwd new) fun r => .of_forall fun fs₄ h₄ => ?_
  obtain ⟨h₄, hwalk⟩ := h₄
  rw [Fs.walkParent_congr htype₃ hdirents₃] at hwalk
  have hinv₄ := hinv₃.touch h₄.touched
  cases r with
  | none => exact sysLinkBad_inv hI hinv₄ hE.other
  | some r =>
    obtain ⟨dp, name⟩ := r
    have hdp₄ : fs₄.type dp = .dir := by
      rw [h₄.touched.type]
      exact h₄.dir _ rfl rfl
    refine .bind (hinv₄.ilock hE.other fun hno => absurd (Fs.alloc_of_dir hdp₄) hno) fun _ =>
      .of_forall fun fs₅ h₅ => ?_
    obtain ⟨ht₅, -, -⟩ := h₅
    have hinv₅ := hinv₄.touch ht₅
    refine .bind ((dirlink_spec hinv₅.refOk hE.other dp name ip room).pre fun t ht => hinv₅.same ht)
      fun r => .of_forall fun fs₆ h₆ => ?_
    cases r with
    | false =>
      exact (hinv₅.touch h₆).put hI nofun fun ht => sysLinkBad_inv hI ht hE.other
    | true =>
      obtain ⟨des, t, hl, hdir₅, hwrite, ht, rfl⟩ := h₆
      have hinv := hinv₅.touch ht
      have htype : t.type ip ≠ .dir := by
        rw [ht.type, ht₅.type, h₄.touched.type]
        exact hdir₃
      have hrange := hinv.disk.range ip
        (hinv.disk.lost ip (List.mem_append_right _ List.mem_cons_self)).1
      rw [Nat.mod_eq_of_lt (by omega), ← ht.dirents] at hwrite
      rw [← ht.dirents] at hl
      have hdp : t.Dir none dp := ⟨ht.type ▸ hdir₅, nofun⟩
      have hfinal : FsInv ninodes H I none [] [dp, ip] (t.setDirents dp des) :=
        ⟨hinv.disk.addEntry (hadd dp name hwalk.symm) hdp htype hl hwrite, hinv.refs.setDirents dp des⟩
      exact hfinal.put hI nofun fun ht => ht.putReturn hI nofun

omit hI in
theorem Fs.valid_iput_of_ne (fs : Fs) (hne : j ≠ i) : (fs.iput i).valid j = fs.valid j := by
  unfold Fs.iput
  split
  · show (fs.free i).valid j = _
    rw [Fs.valid_free, update_of_ne hne]
  · rfl

theorem unlinkAt_inv (h : FsInv ninodes H I none [] [i, dp] fs) (hE : Others E)
    (hdp : fs.type dp = .dir) (hv : fs.valid dp = true)
    (hl : lookup name (fs.dirents dp) 0 = some (off, i)) (hname : Plain name)
    (hrem : LinkGraph.Removes I dp i) :
    Ensures (· = fs) (unlinkAt dp off i) (fun _ => FsInv ninodes H I none [] []) E := by
  have hkid := (h.disk.dir dp ⟨hdp, nofun⟩).mem_kids_of_lookup hl hname
  have halloc := (h.disk.kids dp ⟨hdp, nofun⟩ i hkid).1
  refine .bind (h.ilock hE fun hno => absurd halloc hno) fun _ => .get fun fs₁ h₁ => ?_
  obtain ⟨ht, hvi, -⟩ := h₁
  have hinv := h.touch ht
  have hvd : fs₁.valid dp = true :=
    ht.keeps dp (h.refs.held_pos (List.mem_cons_of_mem _ List.mem_cons_self)) hv
  rw [← ht.dirents] at hl
  have hdp₁ : fs₁.Dir none dp := ⟨ht.type ▸ hdp, nofun⟩
  refine .ite (fun _ => .throw fun _ _ => hE _ nofun) fun _ => .ite (fun _ => ?_) fun hempty => ?_
  · exact hinv.put hI nofun fun ht' => ht'.putReturn hI nofun
  cases hw : writeDirent (fs₁.dirents dp) off ⟨0, List.replicate dirSiz 0⟩ true with
  | none => exact .throw fun _ _ => hE _ nofun
  | some des =>
    have hkid₁ : i ∈ kids (fs₁.dirents dp) := ht.dirents ▸ hkid
    have hnil : fs₁.type i = .dir → kids (fs₁.dirents i) = [] := by
      intro hdir
      refine kids_eq_nil_of_isdirempty (hinv.disk.dir i ⟨hdir, nofun⟩) ?_
      by_contra hno
      exact hempty ⟨hdir, by simpa using hno⟩
    have hne : i ≠ dp := by
      rintro rfl
      rw [hnil hdp₁.1] at hkid₁
      exact absurd hkid₁ List.not_mem_nil
    -- once the entry is gone and `dp` has its `nlink`, one link of `ip` is owed
    have htail : ∀ t, FsInv ninodes H I none [i] [dp, i] t → t.valid i = true → Ensures (· = t) (do
          iput dp
          modify fun fs => fs.setNlink i (fs.nlink i - 1)
          iput i
          return true) (fun _ => FsInv ninodes H I none [] []) E := by
      intro t ht hvt
      refine ht.put hI nofun fun ht' => .bind (Q := fun _ => FsInv ninodes H I none [] [i])
        (.modify ?_) fun _ => .of_forall fun t'' ht'' => ht''.putReturn hI nofun
      rintro t' rfl
      refine ⟨ht'.disk.decNlink, ht'.refs.setNlink fun _ _ => ⟨List.mem_cons_self, ?_⟩⟩
      rw [Fs.valid_iput_of_ne t hne]
      exact hvt
    refine .set ?_
    have hrefs := (hinv.refs.setDirents dp des).perm (.swap dp i [])
    by_cases hdir : fs₁.type i = .dir
    · have hdisk := hinv.disk.eraseDir hdp₁ hl hname hw hrem hdir (hnil hdir)
      simp only [hdir, if_true]
      refine .bind (Q := fun _ t => FsInv ninodes H I none [i] [dp, i] t ∧ t.valid i = true)
        (.modify ?_) fun _ => .of_forall fun t ht => htail t ht.1 ht.2
      rintro t rfl
      exact ⟨⟨hdisk.decNlink, hrefs.setNlink fun _ _ => ⟨List.mem_cons_self, hvd⟩⟩, hvi⟩
    · have hdisk := hinv.disk.eraseEntry hdp₁ hl hname hw hI hdir
      simp only [hdir, if_false]
      exact htail _ ⟨hdisk, hrefs⟩ hvi

theorem sysUnlink_inv (h : FsInv ninodes H I none [] [] fs) (hE : Panics fs E) (hcwd : 0 < H cwd)
    {path : List UInt8} (hrem : ∀ dp name i,
      fs.walkParent (start cwd path) (components path) = some (dp, name) → fs.child dp name = some i →
      LinkGraph.Removes I dp i) :
    Ensures (· = fs) (sysUnlink ninodes cwd path) (fun _ => FsInv ninodes H I none [] []) E := by
  refine h.parentLock (Q := fun _ => FsInv ninodes H I none [] []) hE hcwd path (fun _ ht => ht)
    fun dp name fs₂ hwalk ht₂ hv hdir => ?_
  have hinv₂ := h.touch ht₂
  refine .ite (fun _ => hinv₂.putReturn hI nofun) fun hname => ?_
  refine .bind ((dirlookup_spec hinv₂.refOk hE.other dp name).pre fun t ht => hinv₂.same ht)
    fun r => .of_forall fun fs₃ h₃ => ?_
  obtain ⟨hl, hdp₂, ht₃⟩ := h₃
  have hinv₃ := hinv₂.touch ht₃
  cases r with
  | none => exact hinv₃.putReturn hI nofun
  | some r =>
    obtain ⟨ip, off⟩ := r
    have hv₃ : fs₃.valid dp = true := ht₃.keeps dp (hinv₂.refs.held_pos List.mem_cons_self) hv
    have hchild : fs.child dp name = some ip := by
      unfold Fs.child
      rw [if_pos hdir, ← ht₂.dirents, hl]
      rfl
    rw [← ht₃.dirents] at hl
    exact unlinkAt_inv hI hinv₃ hE.other (ht₃.type ▸ hdp₂) hv₃ hl (not_or.mp hname)
      (hrem dp name ip hwalk hchild)

/-! ## Creation -/

omit hI in
theorem iget_zero (hE : Others E) (hi : fs.ref i = 0) :
    Ensures (· = fs) (iget ninodes i) (fun _ t => t = (fs.setRef i 1).setValid i false) E := by
  refine .get ?_
  rintro fs rfl
  refine .ite (fun hpos => absurd hpos (by omega)) fun _ =>
    .ite (fun _ => .throw fun _ _ => hE _ nofun) fun _ => .modify ?_
  rintro t rfl
  rfl

structure Fresh (ninodes : ℕ) (H : ℕ → ℤ) (I : LinkGraph ℕ → List ℕ → Prop) (held : List ℕ)
    (ip : Inode) (i : ℕ) (fs fs' : Fs) : Prop where
  inv : FsInv ninodes H I (some i) [] (i :: held) fs'
  pos : 0 < i
  lt : i < ninodes
  self : fs'.inode i = ip
  other : ∀ j, j ≠ i → fs'.inode j = fs.inode j
  free : fs.type i = .free

theorem FsInv.ialloc (h : FsInv ninodes H I none [] held fs) (hE : Others E)
    (hheld : ∀ j ∈ held, fs.Alloc j) (type : FileType) :
    Ensures (· = fs) (ialloc ninodes type) (fun r t => match r with
      | none => t = fs
      | some i => Fresh ninodes H I held { Inode.zero with type := type } i fs t) E := by
  refine .get ?_
  rintro fs rfl
  cases hfind : (List.range' 1 (ninodes - 1)).find? fun i => fs.type i = .free with
  | none => exact .pure fun _ ht => ht
  | some i =>
    have hfree : fs.type i = .free := by simpa using List.find?_some hfind
    have hmem := List.mem_of_find?_eq_some hfind
    rw [List.mem_range'_1] at hmem
    have hlt : i < ninodes := by omega
    have hnot : i ∉ held := fun hi => hheld i hi hfree
    have hH := h.refs.unused fun hs => hs.1 hfree
    have hcount : held.count i = 0 := List.count_eq_zero_of_not_mem hnot
    have hzero : fs.ref i = 0 := by
      rw [h.refs.ref, hH, hcount]
      rfl
    refine .bind (Q := fun _ t => t = fs.setInode i { Inode.zero with type := type }) (.modify ?_)
      fun _ => .bind (iget_zero hE hzero) fun _ => .pure ?_
    · rintro t rfl
      rfl
    rintro t rfl
    have halloc : ∀ j, j ≠ i →
      ((fs.setInode i { Inode.zero with type := type }).Alloc j ↔ fs.Alloc j) := by
      intro j hj
      unfold Fs.Alloc
      rw [Fs.type_setInode_of_ne fs hj]
    refine ⟨⟨(h.disk.alloc hI hfree ⟨hmem.1, hlt⟩ _).congr rfl rfl, h.refs.nonneg, fun j => ?_,
      fun j hj hv => ?_, fun j hj => ?_, fun j hj h0 => ?_, fun j hj => ?_⟩, hmem.1, hlt,
      Fs.inode_setInode_self .., fun j hj => Fs.inode_setInode_of_ne fs hj _, hfree⟩
    · show update fs.ref i 1 j = _
      rcases eq_or_ne j i with rfl | hne
      · rw [update_self, count_cons_eq, if_pos rfl, hH, hcount]
        rfl
      · rw [update_of_ne hne, count_cons_eq, if_neg hne, h.refs.ref, add_zero]
    · have hne : j ≠ i := by
        rintro rfl
        have hv' : update fs.valid j false j = true := hv
        rw [update_self] at hv'
        exact nomatch hv'
      have hv' : update fs.valid i false j = true := hv
      have hj' : 0 < update fs.ref i 1 j := hj
      rw [update_of_ne hne] at hv' hj'
      exact (halloc j hne).mpr (h.refs.valid j hj' hv')
    · have hset := h.refs.used j hj
      have hne : j ≠ i := by
        rintro rfl
        exact hset.1 hfree
      exact ⟨(halloc j hne).mpr hset.1, fun he => hne (Option.some.inj he).symm⟩
    · have hne : j ≠ i := by
        rintro rfl
        exact hj.2 rfl
      obtain ⟨hk, hv⟩ := h.refs.kept j ⟨(halloc j hne).mp hj.1, nofun⟩
        ((Fs.nlink_setInode_of_ne fs hne _).symm.trans h0)
      refine ⟨hk.imp_right fun hm => List.mem_cons_of_mem _ hm, ?_⟩
      exact (update_of_ne hne ..).trans hv
    · cases hj
      rw [List.count_cons_self, hcount]

omit hI in
/-- A new entry after entries that are all in use. -/
theorem write_full {de : Dirent} (hfull : ∀ e ∈ des', e.inum ≠ 0)
    (h : writeDirent des' (emptyDirent des') de room = some des) : des = des' ++ [de] := by
  have hoff : emptyDirent des' = des'.length := by
    simpa [emptyDirent, List.findIdx_eq_length] using hfull
  rw [hoff] at h
  unfold writeDirent at h
  split_ifs at h with h₁ h₂
  · exact absurd h₂ (lt_irrefl _)
  · exact (Option.some.inj h).symm

structure Building (ninodes : ℕ) (H : ℕ → ℤ) (I : LinkGraph ℕ → List ℕ → Prop) (dp i : ℕ)
    (type : FileType) (fs fs' : Fs) : Prop where
  inv : FsInv ninodes H I (some i) [] [i, dp] fs'
  other : ∀ j, j ≠ i → fs'.inode j = fs.inode j
  type_eq : fs'.type i = type
  nlink : fs'.nlink i = 1
  valid : fs'.valid i = true
  short : (fs'.dirents i).length ≤ 2

variable {type : FileType} {t : Fs}

omit hI in
theorem Building.kids_eq_nil (h : Building ninodes H I dp i type fs fs') :
    kids (fs'.dirents i) = [] := by
  unfold kids
  rw [List.drop_eq_nil_of_le h.short]
  rfl

omit hI in
theorem Building.touched (h : Building ninodes H I dp i type fs fs') (ht : Touched fs' t []) :
    Building ninodes H I dp i type fs t where
  inv := h.inv.touched ht fun _ _ => List.not_mem_nil
  other j hj := by
    rw [ht.inode]
    exact h.other j hj
  type_eq := ht.type ▸ h.type_eq
  nlink := ht.nlink ▸ h.nlink
  valid := ht.keeps i (h.inv.refs.held_pos List.mem_cons_self) h.valid
  short := ht.dirents ▸ h.short

theorem Building.setDirents (h : Building ninodes H I dp i type fs fs') (hi : 0 < i ∧ i < ninodes)
    (hdes : des.length ≤ 2) : Building ninodes H I dp i type fs (fs'.setDirents i des) where
  inv := ⟨h.inv.disk.setFresh hI hi _, h.inv.refs.setDirents i des⟩
  other j hj := (Fs.inode_setInode_of_ne fs' hj _).trans (h.other j hj)
  type_eq := (congrFun (Fs.type_setDirents ..) i).trans h.type_eq
  nlink := (congrFun (Fs.nlink_setDirents ..) i).trans h.nlink
  valid := h.valid
  short := by rwa [Fs.dirents_setDirents_self]

def dots (i dp : ℕ) : List Dirent := [⟨i, strncpy dot dirSiz⟩, ⟨dp, strncpy dotdot dirSiz⟩]

theorem createDots_inv (h : Building ninodes H I dp i .dir fs fs') (hE : Others E)
    (hi : 0 < i ∧ i < ninodes) (hdp : dp < ninodes) (hN : ninodes ≤ 2 ^ 16)
    (hempty : fs'.dirents i = []) (room : Fin 3 → Bool) :
    Ensures (· = fs') (createDots ninodes dp i room) (fun r t =>
      Building ninodes H I dp i .dir fs t ∧ (r = true → t.dirents i = dots i dp)) E := by
  refine .bind ((dirlink_spec h.inv.refOk hE i dot i (room 0)).pre fun t ht => h.inv.same ht)
    fun r => .of_forall fun t ht => ?_
  cases r with
  | false =>
    exact .ret ⟨h.touched ht, nofun⟩
  | true =>
    obtain ⟨des, u, -, -, hwrite, hu, rfl⟩ := ht
    rw [hempty, Nat.mod_eq_of_lt (by omega)] at hwrite
    have hdes := write_full (by simp) hwrite
    have hb : Building ninodes H I dp i .dir fs (u.setDirents i des) :=
      (h.touched hu).setDirents hI hi (by rw [hdes]; exact Nat.le_succ 1)
    have hone : (u.setDirents i des).dirents i = [⟨i, strncpy dot dirSiz⟩] := by
      rw [Fs.dirents_setDirents_self, hdes]
      rfl
    generalize u.setDirents i des = v at hb hone
    refine ((dirlink_spec hb.inv.refOk hE i dotdot dp (room 1)).pre fun t ht =>
      hb.inv.same ht).post fun r t ht => ?_
    cases r with
    | false => exact ⟨hb.touched ht, nofun⟩
    | true =>
      obtain ⟨des', w, -, -, hwrite', hw, rfl⟩ := ht
      rw [hone, Nat.mod_eq_of_lt (by omega)] at hwrite'
      have hdes' := write_full (by simpa using hi.1.ne') hwrite'
      refine ⟨(hb.touched hw).setDirents hI hi (by rw [hdes']; exact le_rfl), fun _ => ?_⟩
      rw [Fs.dirents_setDirents_self, hdes']
      rfl

/-- What is left of a call up to an inode: the inode, if there is one, with a reference. -/
def Got (ninodes : ℕ) (H : ℕ → ℤ) (I : LinkGraph ℕ → List ℕ → Prop) (r : Option ℕ) (fs : Fs) :
    Prop :=
  FsInv ninodes H I none [] r.toList fs ∧ ∀ i, r = some i → fs.Alloc i

theorem createFail_inv (h : Building ninodes H I dp i type fs fs') (hi : 0 < i ∧ i < ninodes) :
    Ensures (· = fs') (createFail dp i) (Got ninodes H I) E := by
  refine .set ?_
  have hdisk := h.inv.disk.setFresh hI hi { fs'.inode i with nlink := toShort 0 }
  have hrefs := h.inv.refs.setNlink (i := i) (n := 0) fun _ hno => absurd rfl hno
  have hkids := h.kids_eq_nil
  have hnlink := nlink_setNlink fs' i 0 i
  rw [if_pos rfl] at hnlink
  have hH := h.inv.refs.unused fun hs => hs.2 rfl
  have hone : (fs'.setNlink i 0).ref i = 1 := by
    rw [hrefs.ref, hH, hrefs.fresh i rfl]
    rfl
  have hc : (fs'.setNlink i 0).ref i = 1 ∧ (fs'.setNlink i 0).valid i = true ∧
      (fs'.setNlink i 0).nlink i = 0 := ⟨hone, h.valid, hnlink⟩
  have hput : FsInv ninodes H I none [] [dp] ((fs'.setNlink i 0).iput i) := by
    unfold Fs.iput
    rw [if_pos hc]
    refine ⟨(DiskInv.freeFresh hI hdisk fun _ => ?_).congr rfl rfl,
      hrefs.free hone (fun j hj => ?_) nofun hH⟩
    · show kids ((fs'.setNlink i 0).dirents i) = []
      rw [(sameGraph_setNlink fs' i 0).dirents]
      exact hkids
    · exact ⟨fun _ he => hj (Option.some.inj he).symm, fun _ => nofun⟩
  refine .set ?_
  exact hput.put hI nofun fun ht => .ret ⟨ht, nofun⟩

omit hI in
theorem dirWf_dots (hi : i ≠ 0) (hdp : dp ≠ 0) : DirWf i (dots i dp) :=
  .intro hi hdp (by decide) (by decide) nofun

omit hI in
theorem Fs.inode_iput (fs : Fs) (h : fs.nlink i ≠ 0) :
    (fs.iput i).inode = fs.inode ∧ (fs.iput i).lost = fs.lost := by
  unfold Fs.iput
  rw [if_neg fun hc => h hc.2.2]
  exact ⟨rfl, rfl⟩

omit hI in
theorem Fs.inode_iput_of_ne (fs : Fs) (hne : j ≠ i) : (fs.iput i).inode j = fs.inode j := by
  unfold Fs.iput
  split
  · exact fs.inode_free_of_ne hne
  · rfl

omit hI in
theorem RefInv.setFresh (h : RefInv H (some i) held fs) {ip : Inode} (hip : ip.type ≠ .free) :
    RefInv H (some i) held (fs.setInode i ip) := by
  have hset : ∀ j, (fs.setInode i ip).Settled (some i) j ↔ fs.Settled (some i) j := by
    intro j
    unfold Fs.Settled Fs.Alloc
    rcases eq_or_ne j i with rfl | hne
    · exact ⟨fun hs => absurd rfl hs.2, fun hs => absurd rfl hs.2⟩
    · rw [Fs.type_setInode_of_ne fs hne]
  refine ⟨h.nonneg, h.ref, fun j hj hv => ?_, fun j hj => (hset j).mpr (h.used j hj),
    fun j hj h0 => ?_, h.fresh⟩
  · unfold Fs.Alloc
    rcases eq_or_ne j i with rfl | hne
    · rwa [Fs.type_setInode_self]
    · rw [Fs.type_setInode_of_ne fs hne]
      exact h.valid j hj hv
  · have hj' := (hset j).mp hj
    have hne : j ≠ i := fun he => hj'.2 (he ▸ rfl)
    rw [Fs.nlink_setInode_of_ne fs hne] at h0
    exact h.kept j hj' h0

omit hI in
theorem RefInv.settle (h : RefInv H (some i) held fs) (hn : fs.nlink i ≠ 0) :
    RefInv H none held fs := by
  refine ⟨h.nonneg, h.ref, h.valid, fun j hj => ⟨(h.used j hj).1, nofun⟩, fun j hj h0 => ?_, nofun⟩
  refine h.kept j ⟨hj.1, fun he => hn ?_⟩ h0
  rw [Option.some.inj he]
  exact h0

theorem createAt_inv (hf : Fresh ninodes H I [dp] { Inode.zero with type := type } i fs fs')
    (hE : Others E) (htype : type ≠ .free) (hdp : fs.Dir none dp)
    (hfit : type = .dir → fs.nlink dp < shortMax) (hadd : LinkGraph.Adds I dp)
    (hN : ninodes ≤ 2 ^ 16) (name : List UInt8) (major : ℤ) (room : Fin 3 → Bool) :
    Ensures (· = fs') (createAt ninodes dp i name type major room)
      (Got ninodes H I) E := by
  have hi : 0 < i ∧ i < ninodes := ⟨hf.pos, hf.lt⟩
  have hne : i ≠ dp := by
    rintro rfl
    exact absurd (hdp.1.symm.trans hf.free) nofun
  have hself : fs'.type i = type := congrArg Inode.type hf.self
  have hlt : dp < ninodes := by
    refine (hf.inv.disk.range dp ?_).2
    unfold Fs.Alloc Fs.type
    rw [hf.other dp hne.symm]
    exact hdp.settled.1
  refine .bind (hf.inv.ilock hE fun hno => absurd (fun hfree => htype (hself.symm.trans hfree)) hno)
    fun _ => .of_forall fun t ht => ?_
  obtain ⟨ht, hv, -⟩ := ht
  have hinv := hf.inv.touched ht fun _ _ => List.not_mem_nil
  refine .set ?_
  have hb : Building ninodes H I dp i type fs
      (t.setInode i { t.inode i with major := toShort major, nlink := 1 }) := by
    refine ⟨⟨hinv.disk.setFresh hI hi _, ?_⟩, fun j hj => ?_, ?_, ?_, hv, ?_⟩
    · exact hinv.refs.setFresh fun hfree => htype ((congrFun ht.type i).trans hself ▸ hfree)
    · rw [Fs.inode_setInode_of_ne t hj, ht.inode]
      exact hf.other j hj
    · rw [Fs.type_setInode_self]
      exact (congrFun ht.type i).trans hself
    · unfold Fs.nlink
      rw [Fs.inode_setInode_self]
    · unfold Fs.dirents
      rw [Fs.inode_setInode_self, ht.inode, hf.self]
      exact Nat.zero_le _
  have hnil : (t.setInode i { t.inode i with major := toShort major, nlink := 1 }).dirents i =
    [] := by
    unfold Fs.dirents
    rw [Fs.inode_setInode_self, ht.inode, hf.self]
    rfl
  generalize t.setInode i { t.inode i with major := toShort major, nlink := 1 } = u at hb hnil
  -- with the entries of the directory, if it is one
  refine .bind (Q := fun r u => Building ninodes H I dp i type fs u ∧
    (r = true → type = .dir → u.dirents i = dots i dp)) ?_ fun r => .of_forall fun v hv => ?_
  · refine .ite (fun hdir => ?_) fun hdir => .pure ?_
    · subst hdir
      exact (createDots_inv hI hb hE hi hlt hN hnil room).post fun r t ht => ⟨ht.1, fun hr _ => ht.2 hr⟩
    · rintro t rfl
      exact ⟨hb, fun _ hd => absurd hd hdir⟩
  obtain ⟨hb, hdots⟩ := hv
  refine .ite (fun hr => ?_) fun _ => createFail_inv hI hb hi
  refine .bind ((dirlink_spec hb.inv.refOk hE dp name i (room 2)).pre fun t ht => hb.inv.same ht)
    fun r => .of_forall fun w hw => ?_
  cases r with
  | false => exact createFail_inv hI (hb.touched hw) hi
  | true =>
    obtain ⟨des, x, hl, hdir, hwrite, hx, rfl⟩ := hw
    have hbx := hb.touched hx
    rw [Nat.mod_eq_of_lt (by omega), ← hx.dirents] at hwrite
    rw [← hx.dirents] at hl
    have hdpx : x.Dir (some i) dp := ⟨hx.type ▸ hdir, fun he => hne (Option.some.inj he)⟩
    have hrefs := (hbx.inv.refs.setDirents dp des).perm (.swap dp i [])
    have hnlink : x.nlink dp = fs.nlink dp := congrArg Inode.nlink (hbx.other dp hne.symm)
    by_cases hd : type = .dir
    · subst hd
      have hdots' : x.dirents i = dots i dp := hx.dirents ▸ hdots hr rfl
      have hdp0 := (hbx.inv.disk.range dp hdpx.settled.1).1.ne'
      have hdisk := hbx.inv.disk.publishDir hadd hi.2 hbx.type_eq (hdots' ▸ dirWf_dots hi.1.ne' hdp0)
        hbx.kids_eq_nil (by rw [hdots']; rfl) hbx.nlink hdpx (hnlink ▸ hfit rfl) hl hwrite
      simp only [if_true]
      refine .bind (Q := fun _ y => y = (x.setDirents dp des).setNlink dp (x.nlink dp + 1)) (.modify ?_)
        fun _ => ?_
      · rintro t rfl
        rw [Fs.nlink_setDirents]
      have hgraph := sameGraph_setNlink (x.setDirents dp des) dp (x.nlink dp + 1)
      have hone : ((x.setDirents dp des).setNlink dp (x.nlink dp + 1)).nlink i = 1 := by
        rw [nlink_setNlink, if_neg hne, Fs.nlink_setDirents]
        exact hbx.nlink
      have hdpn : toShort (x.nlink dp + 1) ≠ 0 := by
        have hlt := hfit rfl
        have hn := hbx.inv.disk.nlink dp hdpx.settled
        unfold shortMax at hlt
        unfold toShort
        omega
      have hdpn' : ((x.setDirents dp des).setNlink dp (x.nlink dp + 1)).nlink dp ≠ 0 := by
        rw [nlink_setNlink, if_pos rfl]
        exact hdpn
      have htype' : ((x.setDirents dp des).setNlink dp (x.nlink dp + 1)).type = x.type :=
        hgraph.type.trans (Fs.type_setDirents ..)
      have hrefs' := (hrefs.setNlink fun h0 => absurd h0 hdpn).settle (hone ▸ one_ne_zero)
      generalize (x.setDirents dp des).setNlink dp (x.nlink dp + 1) = y at *
      have hy : FsInv ninodes H I none [] [dp, i] y := ⟨hdisk, hrefs'⟩
      obtain ⟨hinode, -⟩ := Fs.inode_iput y hdpn'
      refine hy.put hI nofun fun hput => .pure ?_
      rintro t rfl
      refine ⟨hput, fun j hj => ?_⟩
      cases hj
      refine Fs.alloc_of_dir ?_
      unfold Fs.type
      rw [hinode]
      exact (congrFun htype' i).trans hbx.type_eq
    · have hnotdir : x.type i ≠ .dir := hbx.type_eq ▸ hd
      have halloc : x.Alloc i := fun hfree => htype (hbx.type_eq.symm.trans hfree)
      have hset := hbx.inv.disk.settle hI hnotdir halloc hbx.nlink
      have hdisk := hset.addEntry hadd ⟨hdpx.1, nofun⟩ hnotdir hl hwrite
      have hrefs' := hrefs.settle (by rw [Fs.nlink_setDirents, hbx.nlink]; exact one_ne_zero)
      simp only [hd, if_false]
      have hadded : FsInv ninodes _ _ none _ _ (x.setDirents dp des) := ⟨hdisk, hrefs'⟩
      refine hadded.put hI nofun fun hput => .pure ?_
      rintro t rfl
      refine ⟨hput, fun j hj => ?_⟩
      cases hj
      unfold Fs.Alloc Fs.type
      rw [Fs.inode_iput_of_ne _ hne]
      exact fun hfree => halloc ((congrFun (Fs.type_setDirents x dp des) i).symm.trans hfree)

theorem create_inv (h : FsInv ninodes H I none [] [] fs) (hE : Panics fs E) (hcwd : 0 < H cwd)
    (hN : ninodes ≤ 2 ^ 16) {path : List UInt8} (htype : type ≠ .free)
    (hfit : type = .dir → ∀ dp name,
      fs.walkParent (start cwd path) (components path) = some (dp, name) → fs.nlink dp < shortMax)
    (hadd : ∀ dp name, fs.walkParent (start cwd path) (components path) = some (dp, name) →
      LinkGraph.Adds I dp) (major : ℤ) (room : Fin 3 → Bool) :
    Ensures (· = fs) (create ninodes cwd path type major room) (Got ninodes H I) E := by
  refine h.parentLock (a := none) (Q := Got ninodes H I) hE hcwd path (fun _ ht => ⟨ht, nofun⟩)
    fun dp name fs₂ hwalk ht₂ _ hdirfs => ?_
  have hinv₂ := h.touch ht₂
  refine .bind ((dirlookup_spec hinv₂.refOk hE.other dp name).pre fun t ht => hinv₂.same ht)
    fun r => .of_forall fun fs₃ h₃ => ?_
  obtain ⟨hl, hdp₂, ht₃⟩ := h₃
  have hinv₃ := hinv₂.touch ht₃
  cases r with
  | some r =>
    obtain ⟨ip, off⟩ := r
    -- the name is there already
    have hall : Touched fs fs₃ [ip, dp] := ht₂.trans ht₃
    rw [ht₂.dirents] at hl
    have halloc := alloc_of_lookup hdirfs hl
    refine .bind (Q := fun _ t => Touched fs t [ip]) ?_ fun _ => ?_
    · refine (iput_spec h.refOk dp).pre ?_
      rintro t rfl
      exact hall.perm (.swap ..)
    refine .bind (ilock_spec hE.other fun hno => hE.noType fun hd => hno (halloc hd)) fun _ =>
      .get fun t ht => .ite (fun _ => .pure ?_) fun _ => ?_
    · rintro t rfl
      refine ⟨h.touch ht.1, fun j hj => ?_⟩
      cases hj
      exact ht.1.alloc ▸ ht.2.2
    · exact (h.touch ht.1).put hI nofun fun hput => .ret ⟨hput, nofun⟩
  | none =>
    have hdp₃ : fs₃.Dir none dp := ⟨ht₃.type ▸ hdp₂, nofun⟩
    refine .bind (hinv₃.ialloc hI hE.other ?_ type) fun r => .of_forall fun fs₄ h₄ => ?_
    · intro j hj
      rw [List.mem_singleton.mp hj]
      exact hdp₃.settled.1
    cases r with
    | none =>
      subst h₄
      exact hinv₃.put hI nofun fun hput => .ret ⟨hput, nofun⟩
    | some ip =>
      refine createAt_inv hI h₄ hE.other htype hdp₃ (fun hd => ?_) (hadd dp name hwalk) hN name
        major room
      rw [ht₃.nlink, ht₂.nlink]
      exact hfit hd dp name hwalk

/-! ## Whole calls -/

theorem sysMake_inv {path : List UInt8} {major : ℤ} {room : Fin 3 → Bool}
    (h : Ensures (· = fs) (create ninodes cwd path type major room) (Got ninodes H I) E) :
    Ensures (· = fs) (sysMake ninodes cwd path type major room)
      (fun _ => FsInv ninodes H I none [] []) E := by
  refine .bind h fun r => ?_
  cases r with
  | none => exact .pure fun t ht => ht.1
  | some ip => exact .of_forall fun t ht => FsInv.putReturn hI ht.1 nofun

/-- The inode is put back if it is of the wrong type. -/
theorem FsInv.gotUnless {c : Fs → Prop} [DecidablePred c] (h : FsInv ninodes H I none [] [i] fs)
    (ha : fs.Alloc i) :
    Ensures (· = fs) (do
      let fs ← get
      if c fs then
        FileTree.iput i
        return none
      else return some i) (Got ninodes H I) E := by
  refine .get ?_
  rintro fs rfl
  refine .ite (fun _ => h.put hI nofun fun hput => .ret ⟨hput, nofun⟩) fun _ =>
    .ret ⟨h, fun j hj => ?_⟩
  cases hj
  exact ha

theorem chdirInode_got (h : FsInv ninodes H I none [] [] fs) (hE : Panics fs E) (hcwd : 0 < H cwd)
    (path : List UInt8) :
    Ensures (· = fs) (chdirInode ninodes cwd path) (Got ninodes H I) E :=
  h.nameiLock hE hcwd path (fun _ ht => ⟨ht, nofun⟩) fun _ _ _ ht _ ha =>
    (h.touch ht).gotUnless hI (ht.alloc ▸ ha)

theorem execInode_inv (h : FsInv ninodes H I none [] [] fs) (hE : Panics fs E) (hcwd : 0 < H cwd)
    (path : List UInt8) :
    Ensures (· = fs) (execInode ninodes cwd path) (fun _ => FsInv ninodes H I none [] []) E := by
  refine h.nameiLock (Q := fun _ => FsInv ninodes H I none [] []) hE hcwd path (fun t ht => ht)
    fun i t _ ht _ _ => .modify ?_
  rintro t rfl
  exact (h.touch ht).iput hI nofun

theorem openInode_got (h : FsInv ninodes H I none [] [] fs) (hE : Panics fs E) (hcwd : 0 < H cwd)
    (hN : ninodes ≤ 2 ^ 16) {path : List UInt8} {omode : ℕ}
    (hadd : oCreate omode = true → ∀ dp name,
      fs.walkParent (start cwd path) (components path) = some (dp, name) → LinkGraph.Adds I dp)
    (room : Fin 3 → Bool) :
    Ensures (· = fs) (openInode ninodes cwd path omode room) (Got ninodes H I) E := by
  have hfile : FileType.file ≠ .free := nofun
  refine .bind (Q := Got ninodes H I) (.ite (fun hcreate => ?_) fun _ => ?_) fun r => ?_
  · exact create_inv hI h hE hcwd hN hfile (fun hd => absurd hd nofun) (hadd hcreate) 0 room
  · exact h.nameiLock hE hcwd path (fun _ ht => ⟨ht, nofun⟩) fun _ _ _ ht _ ha =>
      (h.touch ht).gotUnless hI (ht.alloc ▸ ha)
  · cases r with
    | none => exact .pure fun t ht => ht
    | some i => exact .of_forall fun t ht => ht.1.gotUnless hI (ht.2 i rfl)

end

end LazyXv6.FileTree
