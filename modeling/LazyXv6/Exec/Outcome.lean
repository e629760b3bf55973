import LazyXv6.Exec.Arguments

/-!
# How `exec` ends

At `bad` everything is as it was before the call (`Unseen`), however far the new image had come.
Otherwise the process has the new image, with the arguments on its stack (`Replaced`).
-/

namespace LazyXv6.Exec

open Lib Lib.Shares Kernel
open FileTree (Fs FsPanic Touched RefOk)

variable [Layout] {w₀ w : World} {o : Shares ℕ} {refs locks : List ℕ} {ops ip ninodes : ℕ}
  {b : Building} {argv : List (List UInt8)} {path : List UInt8}

/-- What `exec` counts on in the file system: references are counted, and the root directory and the
current directory of the process are there. -/
structure FilesOk (w : World) : Prop where
  refOk : RefOk w.fs
  root : w.fs.Alloc FileTree.rootIno
  cwd : 0 < w.fs.ref w.cwd
  cwdAlloc : w.fs.Alloc w.cwd

/-- Everything but memory is as in `w₀`, with these references, locks and file-system calls more. -/
structure Rest (w₀ : World) (refs locks : List ℕ) (ops : ℕ) (w : World) : Prop where
  space : w.space = w₀.space
  name : w.name = w₀.name
  cwd : w.cwd = w₀.cwd
  data : w.data = w₀.data
  fs : Touched w₀.fs w.fs refs
  locks : w.locks = locks ++ w₀.locks
  outstanding : w.outstanding = w₀.outstanding + ops

/-- Everything that is not the new image: the old one, and what others hold. -/
def frame (o : Shares ℕ) (sp : Space) : Shares ℕ :=
  o + ({sp.trapframe}, 0) + sp.pagetable.owned (pagesOf sp.sz)

/-- **Everything is as before.** -/
structure Unseen (o : Shares ℕ) (w₀ w : World) : Prop where
  rest : Rest w₀ [] [] 0 w
  kmem : Framed (frame o w₀.space) 0 w₀.kmem w.kmem

/-! ## Rules -/

def IsFiles (e : ExecPanic) : Prop := ∃ e', e = .files e'

omit [Layout] in
theorem onKmem_spec {α : Type} {f : Kmem → Except Panic (Kmem × α)} {P : World → Prop}
    {Q : α → World → Prop} {E : ExecPanic → Prop}
    (h : ∀ w, P w → ∃ k a, f w.kmem = .ok (k, a) ∧ Q a { w with kmem := k }) :
    Ensures P (onKmem f) Q E := by
  refine .get fun w hw => ?_
  obtain ⟨k, a, he, hq⟩ := h w hw
  rw [he]
  refine .seq (.modify (Q := fun _ => Q a) ?_) (.pure fun _ hs => hs)
  rintro _ rfl
  exact hq

omit [Layout] in
theorem onFs_spec {α : Type} {op : FileTree.Op α} {P : World → Prop} {Q : α → World → Prop}
    {R : Fs → Prop} {T : α → Fs → Prop} (hop : Ensures R op T fun _ => True)
    (hP : ∀ w, P w → R w.fs) (hQ : ∀ w a fs, P w → T a fs → Q a { w with fs := fs }) :
    Ensures P (onFs op) Q IsFiles := by
  refine .get fun w hw => ?_
  have hrun := hop w.fs (hP w hw)
  cases hr : op w.fs with
  | error e => exact .throw fun _ _ => ⟨e, rfl⟩
  | ok r =>
    rw [hr] at hrun
    refine .seq (.modify (Q := fun _ => Q r.1) fun s hs => ?_) (.pure fun _ hs => hs)
    rw [hs]
    exact hQ w r.1 r.2 hw hrun

/-! ## `bad` -/

omit [Layout] in
theorem iunlockput_spec (hr : RefOk w₀.fs) {P : Kmem → Prop} :
    Ensures (fun w => Rest w₀ [ip] [ip] 1 w ∧ P w.kmem) (iunlockput ip)
      (fun _ w => Rest w₀ [] [] 1 w ∧ P w.kmem) IsFiles := by
  have hput : Ensures (Touched w₀.fs · [ip]) (FileTree.iput ip) (fun _ => (Touched w₀.fs · []))
    fun _ => True :=
    FileTree.iput_spec hr ip
  refine .seq (.modify (Q := fun _ w => Rest w₀ [ip] [] 1 w ∧ P w.kmem) ?_) (onFs_spec hput ?_ ?_)
  · rintro w ⟨h, hk⟩
    refine ⟨{ h with locks := ?_ }, hk⟩
    show w.locks.erase ip = [] ++ w₀.locks
    rw [h.locks]
    simp
  · exact fun w h => h.1.fs
  · rintro w _ fs ⟨h, hk⟩ ht
    exact ⟨{ h with fs := ht }, hk⟩

omit [Layout] in
theorem endOp_spec {P : Kmem → Prop} :
    Ensures (fun w => Rest w₀ [] [] 1 w ∧ P w.kmem) endOp (fun _ w => Rest w₀ [] [] 0 w ∧ P w.kmem)
    IsFiles := by
  refine .modify fun w h => ⟨{ h.1 with outstanding := ?_ }, h.2⟩
  show w.outstanding - 1 = w₀.outstanding + 0
  rw [h.1.outstanding, Nat.add_sub_cancel, add_zero]

/-- What has been built, if anything. -/
def BuiltAt (o : Shares ℕ) (w₀ : World) : Option Building → Kmem → Prop
  | none, k => Framed (frame o w₀.space) 0 w₀.kmem k
  | some b, k => b.kmem = k ∧ b.Private (frame o w₀.space) w₀.space.trapframe w₀.kmem

theorem freeImage_spec {pagetable : Option Building} {P : World → Prop}
    (hP : ∀ w k, P w → P { w with kmem := k }) :
    Ensures (fun w => P w ∧ BuiltAt o w₀ pagetable w.kmem) (freeImage pagetable)
      (fun _ w => P w ∧ BuiltAt o w₀ none w.kmem) IsFiles := by
  cases pagetable with
  | none => exact .pure fun _ hs => hs
  | some b =>
    rw [freeImage]
    refine onKmem_spec fun w hw => ?_
    obtain ⟨h, hk, hpriv⟩ := hw
    obtain ⟨k', he, hf⟩ := procFreepagetable_ok hpriv.userMem
    refine ⟨k', (), ?_, hP w k' h, hf⟩
    rw [← hk, he]
    rfl

omit [Layout] in
theorem putInode_spec (hr : RefOk w₀.fs) (ip : Option ℕ) {P : Kmem → Prop} :
    Ensures (fun w => Rest w₀ ip.toList ip.toList ip.toList.length w ∧ P w.kmem) (putInode ip)
      (fun _ w => Rest w₀ [] [] 0 w ∧ P w.kmem) IsFiles := by
  cases ip with
  | none => exact .pure fun _ hs => hs
  | some ip => exact .seq (iunlockput_spec hr) endOp_spec

/-- **At `bad`** everything is undone. -/
theorem bad_spec (hr : RefOk w₀.fs) (pagetable : Option Building) (ip : Option ℕ) :
    Ensures (fun w => Rest w₀ ip.toList ip.toList ip.toList.length w ∧
      BuiltAt o w₀ pagetable w.kmem)
      (bad pagetable ip) (fun r w => r = -1 ∧ Unseen o w₀ w) IsFiles :=
  .seq (freeImage_spec fun _ _ h => { h with })
    (.seq (putInode_spec hr ip) (.pure fun _ hs => ⟨rfl, hs.1, hs.2⟩))

/-! ## `commit` -/

theorem build_spec {f : Building → Except Panic Building} {P : World → Prop} {Q : Building → Prop}
    {b : Building} (hP : ∀ w k, P w → P { w with kmem := k })
    (hf : b.Private (frame o w₀.space) w₀.space.trapframe w₀.kmem →
      ∃ b', f b = .ok b' ∧ b'.Private (frame o w₀.space) w₀.space.trapframe w₀.kmem ∧ Q b') :
    Ensures (fun w => P w ∧ BuiltAt o w₀ (some b) w.kmem) (build f b)
      (fun b' w => (P w ∧ BuiltAt o w₀ (some b') w.kmem) ∧ f b = .ok b' ∧ Q b') IsFiles := by
  refine onKmem_spec fun w hw => ?_
  obtain ⟨h, hk, hpriv⟩ := hw
  obtain ⟨b', he, hpriv', hq⟩ := hf hpriv
  refine ⟨b'.kmem, b', ?_, ⟨hP w _ h, rfl, hpriv'⟩, he, hq⟩
  rw [← hk, he]
  rfl

/-- The registers as `commit` sets them, in the page of the trapframe. -/
def setRegisters (k : Kmem) (tf sp entry : ℕ) : Kmem :=
  ((k.write tf a1Offset (le64 sp)).write tf epcOffset (le64 entry)).write tf spOffset (le64 sp)

def wordAt (k : Kmem) (pa off : ℕ) : List UInt8 := slice (k.mem pa) off (off + 7)

omit [Layout] in
theorem length_le64 (n : ℕ) : (le64 n).length = 8 := by simp [le64]

omit [Layout] in
theorem setRegisters_a1 (k : Kmem) (tf sp entry : ℕ) :
    wordAt (setRegisters k tf sp entry) tf a1Offset = le64 sp := by
  have ha1 : a1Offset = 120 := rfl
  have hsp : spOffset = 48 := rfl
  have hepc : epcOffset = 24 := rfl
  calc wordAt (setRegisters k tf sp entry) tf a1Offset
      = slice (overwrite (k.mem tf) a1Offset (le64 sp)) a1Offset (a1Offset + 7) := by
        refine slice_congr fun i h1 h2 => ?_
        unfold setRegisters
        rw [Kmem.write_mem_self, overwrite_of_ge (by rw [length_le64]; omega), Kmem.write_mem_self,
          overwrite_of_ge (by rw [length_le64]; omega), Kmem.write_mem_self]
    _ = le64 sp := slice_overwrite (by rw [length_le64])

omit [Layout] in
theorem setRegisters_sp (k : Kmem) (tf sp entry : ℕ) :
    wordAt (setRegisters k tf sp entry) tf spOffset = le64 sp := by
  unfold wordAt setRegisters
  rw [Kmem.write_mem_self]
  exact slice_overwrite (by rw [length_le64])

omit [Layout] in
theorem setRegisters_of_ne {k : Kmem} {tf sp entry pa : ℕ} (h : pa ≠ tf) :
    (setRegisters k tf sp entry).mem pa = k.mem pa := by
  unfold setRegisters
  rw [Kmem.write_mem_of_ne h, Kmem.write_mem_of_ne h, Kmem.write_mem_of_ne h]

/-- **The process has the new image**, as `b` had it when the last argument was pushed. -/
structure Replaced (o : Shares ℕ) (w₀ : World) (argv : List (List UInt8)) (b : Building)
    (w : World) : Prop where
  space : w.space = { w₀.space with pagetable := b.pagetable, sz := b.sz }
  kmem : SpaceOk o w.kmem w.kmem w.space
  bytes : ∀ va, va / pgSize < pagesOf b.sz →
    userBytes w.kmem b.pagetable va = userBytes b.kmem b.pagetable va
  a1 : wordAt w.kmem w.space.trapframe a1Offset = le64 (stackPointer b.sz argv)
  sp : wordAt w.kmem w.space.trapframe spOffset = le64 (stackPointer b.sz argv)

theorem commit_spec (hsp : SpaceOk o w₀.kmem w₀.kmem w₀.space) (entry : ℕ) :
    Ensures (fun w => Rest w₀ [] [] 0 w ∧ BuiltAt o w₀ (some b) w.kmem)
      (commit path b (stackPointer b.sz argv) entry) (fun _ w => Replaced o w₀ argv b w) IsFiles := by
  refine .get fun w hw => ?_
  obtain ⟨hrest, hk, hpriv⟩ := hw
  let w₁ : World := { w with
    kmem := setRegisters w.kmem w.space.trapframe (stackPointer b.sz argv) entry
    name := programName path
    space := { w.space with pagetable := b.pagetable, sz := b.sz } }
  have hcommit : Ensures (· = w₁)
      (onKmem fun k => (procFreepagetable k w.space.pagetable w.space.sz).map fun k => (k, ()))
      (fun _ w => Replaced o w₀ argv b w) IsFiles := by
    refine onKmem_spec fun s hs => ?_
    subst hs
    have hframe : frame o w₀.space + b.pagetable.owned (pagesOf b.sz) =
        o + ({w₀.space.trapframe}, 0) + b.pagetable.owned (pagesOf b.sz) +
          w₀.space.pagetable.owned (pagesOf w₀.space.sz) := by
      unfold frame
      abel
    have hold : UserMem (o + ({w₀.space.trapframe}, 0) + b.pagetable.owned (pagesOf b.sz))
      w₀.space.trapframe
        w₁.kmem w₁.kmem w₀.space.pagetable (pagesOf w₀.space.sz) := by
      refine ⟨Framed.refl (acct_congr ?_ hframe), hsp.wf⟩
      show Acct w.kmem _
      rw [← hk]
      exact hpriv.userMem.acct
    obtain ⟨k', he, hf⟩ := procFreepagetable_ok hold
    have htf : w₀.space.trapframe ∈ all (frame o w₀.space) := by
      unfold frame
      simp
    have hmem : ∀ pa ∈ all (o + ({w₀.space.trapframe}, 0) + b.pagetable.owned (pagesOf b.sz)),
        k'.mem pa = w₁.kmem.mem pa := hf.mem
    have hregs : k'.mem w₀.space.trapframe =
        (setRegisters w.kmem w.space.trapframe (stackPointer b.sz argv) entry).mem w₀.space.trapframe :=
      hmem _ (by simp)
    refine ⟨k', (), ?_, ⟨?_, ?_, fun va hva => ?_, ?_, ?_⟩⟩
    · rw [hrest.space, he]
      rfl
    · show ({ w.space with pagetable := b.pagetable, sz := b.sz } : Space) = _
      rw [hrest.space]
    · refine ⟨Framed.refl (acct_congr hf.acct ?_), ?_⟩
      · show _ = o + (({w.space.trapframe}, 0) + b.pagetable.owned (pagesOf b.sz))
        rw [hrest.space, add_zero, add_assoc]
      · show Wf b.pagetable.pte (pagesOf b.sz) w.space.trapframe
        rw [hrest.space]
        exact hpriv.userMem.wf
    · have hfresh := (hpriv.fresh _ hva).1
      have hne : (b.pagetable.pte (va / pgSize)).ppn ≠ w.space.trapframe := fun he => by
        rw [he, hrest.space] at hfresh
        exact hfresh htf
      have hown := mem_all_owned hva (hpriv.userMem.wf.leaf _ hva).valid
      show k'.mem _ _ = b.kmem.mem _ _
      rw [hmem _ (by rw [all_add]; exact Multiset.mem_add.mpr (.inr hown)), hk]
      exact congrFun (setRegisters_of_ne hne) _
    · show slice (k'.mem w.space.trapframe) _ _ = _
      rw [hrest.space, hregs, hrest.space]
      exact setRegisters_a1 ..
    · show slice (k'.mem w.space.trapframe) _ _ = _
      rw [hrest.space, hregs, hrest.space]
      exact setRegisters_sp ..
  refine .seq (Q := fun _ s => s = w₁) (.modify fun s hs => ?_) hcommit
  rw [hs]
  rfl

/-! ## `exec` -/

/-- The arguments are on the stack, if they are as `sys_exec` passes them. -/
def ArgsPushed (argv : List (List UInt8)) (b : Building) : Prop :=
  argv.length < maxArg → (∀ arg ∈ argv, arg.length < pgSize) → Pushed argv b

theorem sz_lt (h : b.Private o w₀.space.trapframe w₀.kmem) : b.sz < 2 ^ 64 := by
  have hlt := lt_of_pagesOf_le h.userMem.bound
  omega

theorem pushArgs_top (h : b.Private o w₀.space.trapframe w₀.kmem) (hst : b.Stack) :
    ∃ b' : Building, pushArgs b (b.sz - pgSize) b.sz [] argv = .ok b' ∧
      b'.Private o w₀.space.trapframe w₀.kmem ∧ b'.sz = b.sz ∧ (b'.ok = true → ArgsPushed argv b') := by
  by_cases hargs : argv.length < maxArg ∧ ∀ arg ∈ argv, arg.length < pgSize
  · have hs : Strings argv 0 b := ⟨hst, Nat.zero_le _, fun i _ hi => absurd hi (Nat.not_lt_zero i)⟩
    obtain ⟨b', he, hpriv, hsz, hpushed⟩ :=
      pushArgs_spec h (sz_lt h) hargs.1 hargs.2 hs rfl (Nat.zero_le _)
    have hzero : argDepth (argv.take 0) = 0 := rfl
    rw [hzero, Nat.sub_zero, List.drop_zero, List.range_zero, List.map_nil] at he
    exact ⟨b', he, hpriv, hsz, fun hok _ _ => hpushed hok⟩
  · obtain ⟨b', he, hpriv, hsz⟩ := pushArgs_ok h (b.sz - pgSize) b.sz [] argv
    exact ⟨b', he, hpriv, hsz, fun _ h1 h2 => absurd ⟨h1, h2⟩ hargs⟩

def Returns (o : Shares ℕ) (w₀ : World) (argv : List (List UInt8)) (r : ℤ) (w : World) : Prop :=
  (r = -1 ∧ Unseen o w₀ w) ∨
    (r = argv.length ∧ ∃ b : Building, b.sz < 2 ^ 64 ∧ ArgsPushed argv b ∧ Replaced o w₀ argv b w)

/-- The same image is left of a run of `Kernel.exec`, with the same outcome. -/
def Follows (run : Except Panic (Kmem × Space × Bool)) (r : ℤ) (w : World) : Prop :=
  ∀ k sp ok, run = .ok (k, sp, ok) → w.space = sp ∧ (ok = true ↔ r ≠ -1)

theorem follows_none (k : Kmem) (r : ℤ) (w : World) (h : r = -1 ∧ Unseen o w₀ w) :
    Follows (.ok (k, w₀.space, false)) r w := by
  rintro _ _ _ ⟨⟩
  exact ⟨h.2.rest.space, by simp [h.1]⟩

theorem follows_bad (hok : b.ok = false) {r : ℤ} (h : r = -1 ∧ Unseen o w₀ w) :
    Follows (execCommit w₀.space b) r w := by
  intro k sp ok hrun
  rw [execCommit, hok, if_neg Bool.false_ne_true] at hrun
  obtain ⟨k', -, he⟩ := exists_of_bind_eq_ok hrun
  cases he
  exact ⟨h.2.rest.space, by simp [h.1]⟩

theorem follows_commit (hok : b.ok = true) (h : Replaced o w₀ argv b w) :
    Follows (execCommit w₀.space b) argv.length w := by
  intro k sp ok hrun
  rw [execCommit, hok, if_pos rfl] at hrun
  obtain ⟨k', -, he⟩ := exists_of_bind_eq_ok hrun
  cases he
  exact ⟨h.space, by simp⟩

/-- What `Kernel.exec` does once the program has been loaded. -/
def finishRun (sp : Space) (argv : List (List UInt8)) (b : Building) :
    Except Panic (Kmem × Space × Bool) :=
  (execStack b >>= fun b => if b.ok then pushArgs b (b.sz - pgSize) b.sz [] argv else .ok b) >>=
    execCommit sp

theorem finish_spec (hsp : SpaceOk o w₀.kmem w₀.kmem w₀.space) (hr : RefOk w₀.fs) (entry : ℕ) :
    Ensures (fun w => Rest w₀ [] [] 0 w ∧ BuiltAt o w₀ (some b) w.kmem) (finish path entry argv b)
      (fun r w => Returns o w₀ argv r w ∧ Follows (finishRun w₀.space argv b) r w) IsFiles := by
  have hrest : ∀ w k, Rest w₀ [] [] 0 w → Rest w₀ [] [] 0 { w with kmem := k } :=
    fun _ _ h => { h with }
  have hbad : ∀ b, b.ok = false →
    Ensures (fun w => Rest w₀ [] [] 0 w ∧ BuiltAt o w₀ (some b) w.kmem)
      (bad (some b) none)
      (fun r w => Returns o w₀ argv r w ∧ Follows (execCommit w₀.space b) r w) IsFiles := fun b hok =>
    (bad_spec hr (some b) none).post fun _ _ h => ⟨.inl h, follows_bad hok h⟩
  refine .bind (build_spec hrest execStack_ok) fun b₁ => .of_forall fun w hw => ?_
  obtain ⟨hw, hrun, hst⟩ := hw
  rw [finishRun, hrun, ok_bind]
  cases hok₁ : b₁.ok with
  | false => exact (hbad b₁ hok₁).pre fun s hs => hs ▸ hw
  | true =>
    have hpush : Ensures (fun w => Rest w₀ [] [] 0 w ∧ BuiltAt o w₀ (some b₁) w.kmem)
        (build (fun b => pushArgs b (b₁.sz - pgSize) b₁.sz [] argv) b₁)
        (fun b' w => (Rest w₀ [] [] 0 w ∧ BuiltAt o w₀ (some b') w.kmem) ∧
          pushArgs b₁ (b₁.sz - pgSize) b₁.sz [] argv = .ok b' ∧
          b'.sz = b₁.sz ∧ (b'.ok = true → ArgsPushed argv b')) IsFiles :=
      build_spec hrest fun h => pushArgs_top h (hst hok₁)
    refine .bind (hpush.pre fun s hs => hs ▸ hw) fun b₂ => .of_forall fun w₂ hw₂ => ?_
    obtain ⟨hw₂, hrun, hsz, hpushed⟩ := hw₂
    rw [if_pos rfl, hrun, ok_bind]
    cases hok₂ : b₂.ok with
    | false => exact (hbad b₂ hok₂).pre fun s hs => hs ▸ hw₂
    | true =>
      rw [← hsz]
      exact .seq ((commit_spec hsp entry).pre fun s hs => hs ▸ hw₂) (.pure fun w h =>
        ⟨.inr ⟨rfl, b₂, sz_lt hw₂.2.2, hpushed hok₂, h⟩, follows_commit hok₂ h⟩)

omit [Layout] in
theorem namei_rest (hf : FilesOk w₀) {P : Kmem → Prop} (path : List UInt8) :
    Ensures (fun w => Rest w₀ [] [] 1 w ∧ P w.kmem) (onFs (FileTree.namei ninodes w₀.cwd path))
      (fun r w => Rest w₀ r.toList [] 1 w ∧ P w.kmem) IsFiles := by
  have hnamei : Ensures (Touched w₀.fs · []) (FileTree.namei ninodes w₀.cwd path)
      (fun r fs => Touched w₀.fs fs (r.toList ++ [])) fun _ => True :=
    (FileTree.namei_spec hf.refOk hf.root hf.cwd hf.cwdAlloc
      ⟨fun _ _ => trivial, fun _ => trivial⟩ path).post fun _ _ h => h.1
  refine onFs_spec hnamei (fun w h => h.1.fs) ?_
  rintro w r fs ⟨h, hk⟩ ht
  rw [List.append_nil] at ht
  exact ⟨{ h with fs := ht }, hk⟩

omit [Layout] in
theorem ilock_rest {P : Kmem → Prop} :
    Ensures (fun w => Rest w₀ [ip] [] 1 w ∧ P w.kmem) (ilock ip)
      (fun _ w => Rest w₀ [ip] [ip] 1 w ∧ P w.kmem) IsFiles := by
  have hlock : Ensures (Touched w₀.fs · [ip]) (FileTree.ilock ip)
      (fun _ fs => Touched w₀.fs fs [ip] ∧ fs.valid ip = true ∧ w₀.fs.Alloc ip) fun _ => True :=
    FileTree.ilock_spec (fun _ _ => trivial) fun _ => trivial
  refine .seq (onFs_spec (Q := fun _ w => Rest w₀ [ip] [] 1 w ∧ P w.kmem) hlock
    (fun w h => h.1.fs) ?_) (.modify ?_)
  · rintro w _ fs ⟨h, hk⟩ ⟨ht, -⟩
    exact ⟨{ h with fs := ht }, hk⟩
  · rintro w ⟨h, hk⟩
    refine ⟨{ h with locks := ?_ }, hk⟩
    show ip :: w.locks = [ip] ++ w₀.locks
    rw [h.locks]
    rfl

theorem builtAt_none (hsp : SpaceOk o w₀.kmem w₀.kmem w₀.space) : BuiltAt o w₀ none w₀.kmem := by
  refine Framed.refl (acct_congr hsp.framed.acct ?_)
  unfold frame Space.own
  rw [add_zero, add_assoc]

theorem procPagetable_rest (hsp : SpaceOk o w₀.kmem w₀.kmem w₀.space) :
    Ensures (fun w => Rest w₀ [ip] [ip] 1 w ∧ w.kmem = w₀.kmem)
      (onKmem fun k => procPagetable k w₀.space.trapframe)
      (fun r w => procPagetable w₀.kmem w₀.space.trapframe = .ok (w.kmem, r) ∧
        Rest w₀ [ip] [ip] 1 w ∧ BuiltAt o w₀ (r.map fun pt => ⟨w.kmem, pt, 0, true⟩) w.kmem)
      IsFiles := by
  refine onKmem_spec fun w hw => ?_
  obtain ⟨h, hk⟩ := hw
  rw [hk]
  have hacct : Acct w₀.kmem (frame o w₀.space) := acct_congr (builtAt_none hsp).acct (add_zero _)
  rcases procPagetable_ok hacct w₀.space.trapframe with ⟨k', pt, he, hum⟩ | ⟨k', he, hf, -⟩
  · exact ⟨k', some pt, he, he, { h with }, rfl, .empty hum⟩
  · exact ⟨k', none, he, he, { h with }, hf⟩

theorem execSegments_rest {pt : PageTable} {k : Kmem}
    (hw : Rest w₀ [ip] [ip] 1 w ∧ BuiltAt o w₀ (some ⟨w.kmem, pt, 0, true⟩) w.kmem)
    (contents : List UInt8) (phs : List (Option Proghdr)) :
    Ensures (· = w) (build (execSegments contents · phs) ⟨k, pt, 0, true⟩)
      (fun b w' => execSegments contents ⟨w.kmem, pt, 0, true⟩ phs = .ok b ∧
        Rest w₀ [ip] [ip] 1 w' ∧ BuiltAt o w₀ (some b) w'.kmem) IsFiles := by
  obtain ⟨h, -, hpriv⟩ := hw
  refine onKmem_spec ?_
  rintro w' rfl
  obtain ⟨b, he, hb⟩ := execSegments_ok contents hpriv (.empty w'.kmem pt) phs
  refine ⟨b.kmem, b, ?_, he, { h with }, rfl, hb⟩
  show (execSegments contents ⟨w'.kmem, pt, 0, true⟩ phs).map _ = _
  rw [he]
  rfl

/-- **`exec`** returns -1 and leaves everything as it was, or replaces the image, as `Kernel.exec`
does for the headers that it reads. It panics only where the file system does. -/
theorem exec_spec (hsp : SpaceOk o w₀.kmem w₀.kmem w₀.space) (hf : FilesOk w₀) (path : List UInt8)
    (argv : List (List UInt8)) :
    Ensures (· = w₀) (exec ninodes path argv) (fun r w => Returns o w₀ argv r w ∧
      ∃ elf : Elf, (elf.header = false ∨ ∃ ip, elf = parseElf (w₀.data ip)) ∧
        Follows (Kernel.exec w₀.kmem w₀.space elf argv) r w) IsFiles := by
  have hbad : ∀ pagetable ip run, (∀ r w, r = -1 ∧ Unseen o w₀ w → Follows run r w) →
      Ensures (fun w => Rest w₀ [ip] [ip] 1 w ∧ BuiltAt o w₀ pagetable w.kmem) (bad pagetable (some ip))
        (fun r w => Returns o w₀ argv r w ∧ Follows run r w) IsFiles := fun pagetable ip run hrun =>
    (bad_spec hf.refOk pagetable (some ip)).post fun r w h => ⟨.inl h, hrun r w h⟩
  refine .seq (.modify (Q := fun _ w => Rest w₀ [] [] 1 w ∧ w.kmem = w₀.kmem) ?_)
    (.get fun w hw => ?_)
  · rintro _ rfl
    exact ⟨⟨rfl, rfl, rfl, rfl, Touched.refl hf.refOk, rfl, rfl⟩, rfl⟩
  rw [hw.1.cwd]
  refine .bind ((namei_rest hf (P := (· = w₀.kmem)) path).pre fun s hs => hs ▸ hw) fun r => ?_
  cases r with
  | none =>
    refine .seq (endOp_spec (P := (· = w₀.kmem))) (.pure fun w h => ?_)
    have hunseen : Unseen o w₀ w := ⟨h.1, by rw [h.2]; exact builtAt_none hsp⟩
    exact ⟨.inl ⟨rfl, hunseen⟩, ⟨false, [], []⟩, .inl rfl, follows_none _ _ _ ⟨rfl, hunseen⟩⟩
  | some ip =>
    refine .post (Q := fun r w => Returns o w₀ argv r w ∧
      Follows (Kernel.exec w₀.kmem w₀.space (parseElf (w₀.data ip)) argv) r w) ?_
      fun _ _ h => ⟨h.1, _, .inr ⟨ip, rfl⟩, h.2⟩
    refine .seq (ilock_rest (P := (· = w₀.kmem))) (.get fun w hw => ?_)
    rw [hw.1.space, hw.1.data, Kernel.exec]
    refine .ite (fun h => ?_) fun h => ?_
    · rw [if_pos h]
      refine (hbad none ip _ (follows_none _)).pre fun s hs => ?_
      rw [hs, hw.2]
      exact ⟨hw.1, builtAt_none hsp⟩
    rw [if_neg h]
    refine .bind ((procPagetable_rest hsp).pre fun s hs => hs ▸ hw) fun r => .of_forall fun w₁ hw₁ => ?_
    obtain ⟨hrun, hw₁⟩ := hw₁
    rw [hrun, ok_bind]
    cases r with
    | none => exact (hbad none ip _ (follows_none _)).pre fun s hs => hs ▸ hw₁
    | some pt =>
      refine .bind (execSegments_rest hw₁ _ _) fun b => .of_forall fun w₂ hw₂ => ?_
      obtain ⟨hrun, hw₂⟩ := hw₂
      dsimp only
      rw [execImage, show execSegments (parseElf (w₀.data ip)).contents _ _ = _ from hrun, ok_bind]
      cases hok : b.ok with
      | false => exact (hbad (some b) ip _ fun r w => follows_bad hok).pre fun s hs => hs ▸ hw₂
      | true =>
        exact .seq ((putInode_spec hf.refOk (some ip)).pre fun s hs => hs ▸ hw₂)
          (finish_spec hsp hf.refOk _)

end LazyXv6.Exec
