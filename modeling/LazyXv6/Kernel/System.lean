import LazyXv6.Kernel.Proc

/-!
# The machine

The process table with physical memory, and one step of it. An operation that its caller would not
make in the state at hand (a load by an unused slot, a `kfree` of a page nobody holds) does nothing.
-/

namespace LazyXv6.Kernel

open Lib

variable [Layout] {N : ℕ}

/-- Physical memory, the pages that the kernel holds for itself (pipes, kernel stacks, the kernel's
page table) and the process table of `N` slots. -/
structure State (N : ℕ) where
  kmem : Kmem
  holders : List ℕ
  space : Fin N → Option Space

/-- What user programs make the kernel and the hardware do. `copyout` stands for the system calls
that write to user memory, `reap` for the `freeproc` of a zombie in `wait`. -/
inductive UserOp (N : ℕ)
  | load (p : Fin N) (va : ℕ)
  | store (p : Fin N) (va : ℕ) (b : UInt8)
  | fork (p : Fin N)
  | sbrk (p : Fin N) (n : Int32)
  | exit (p : Fin N)
  | reap (p : Fin N)
  | copyout (p : Fin N) (dstva : ℕ) (src : List UInt8)

/-- All operations: those of user programs, and single calls by the kernel. -/
inductive Op (N : ℕ)
  | user (u : UserOp N)
  | exec (p : Fin N) (elf : Elf) (argv : List (List UInt8))
  | userinit (initcode : List UInt8)
  | kalloc
  | kfree (pa : ℕ)
  | allocproc (p : Fin N)
  | freeproc (p : Fin N)
  | uvmalloc (p : Fin N) (newsz : ℕ) (w x : Bool)
  | uvmdealloc (p : Fin N) (newsz : ℕ)
  | uvmcopy (p c : Fin N)
  | uvmclear (p : Fin N) (va : ℕ)
  | usertrap (p : Fin N) (va : ℕ)
  | copyin (p : Fin N) (srcva len : ℕ)

inductive Out (N : ℕ)
  | idle
  | value (b : UInt8)
  | killed
  | faulting
  | child (c : Fin N)
  | ret (n : ℤ)
deriving DecidableEq

namespace State

/-- The state with another memory and another process in slot `p`. -/
def put (s : State N) (p : Fin N) (k : Kmem) (sp : Option Space) : State N :=
  { s with kmem := k, space := Function.update s.space p sp }

def running (s : State N) (p : Fin N) : Option Space :=
  match s.space p with
  | none => none
  | some sp => if sp.zombie then none else some sp

/-- The first unused slot, where `allocproc` stops. -/
def unused (s : State N) : Option (Fin N) :=
  (List.finRange N).find? fun p => (s.space p).isNone

/-- The end of a user access by `p`. -/
def afterAccess (s : State N) (p : Fin N) (sp : Space) (r : Kmem × PageTable × Access)
    (done : Kmem → ℕ → Kmem × Out N) : State N × Out N :=
  match r.2.2 with
  | .done pa => (s.put p (done r.1 pa).1 (some { sp with pagetable := r.2.1 }), (done r.1 pa).2)
  | .killed => (s.put p r.1 (some { sp with pagetable := r.2.1, zombie := true }), .killed)
  | .faulting => (s.put p r.1 (some { sp with pagetable := r.2.1 }), .faulting)

/-- `fork` by `p` in state `s`, once `allocproc` has found slot `c`. -/
def afterFork (s : State N) (p c : Fin N) (r : Kmem × Space × Option Space) : State N × Out N :=
  match r.2.2 with
  | none => (s.put p r.1 (some r.2.1), .ret (-1))
  | some np => ((s.put p r.1 (some r.2.1)).put c r.1 (some np), .child c)

def runUser (s : State N) (p : Fin N) (sp : Space) : UserOp N → Except Panic (State N × Out N)
  | .load _ va => do
    let r ← access (·.r) 3 s.kmem sp.pagetable sp.sz va
    .ok (s.afterAccess p sp r fun k pa => (k, .value (k.mem pa (va % pgSize))))
  | .store _ va b => do
    let r ← access (·.w) 3 s.kmem sp.pagetable sp.sz va
    .ok (s.afterAccess p sp r fun k pa => (k.write pa (va % pgSize) [b], .idle))
  | .fork _ =>
    match s.unused with
    | none => .ok (s, .ret (-1))
    | some c => (forkSpace s.kmem sp).map (s.afterFork p c)
  | .sbrk _ n => do
    let r ← growproc s.kmem sp n
    .ok (s.put p r.1 (some r.2.1), .ret (if r.2.2 then sp.sz else -1))
  | .exit _ => .ok (s.put p s.kmem (some { sp with zombie := true }), .idle)
  | .copyout _ dstva src => do
    let r ← copyout s.kmem sp.pagetable dstva src
    .ok (s.put p r.1 (some { sp with pagetable := r.2.1 }), .ret (if r.2.2 then 0 else -1))
  | .reap _ => .ok (s, .idle)

end State

def UserOp.proc : UserOp N → Fin N
  | .load p _ | .store p _ _ | .fork p | .sbrk p _ | .exit p | .reap p | .copyout p _ _ => p

namespace State

def free (s : State N) (p : Fin N) (sp : Space) : Except Panic (State N × Out N) := do
  let k ← Kernel.freeproc s.kmem sp
  .ok (s.put p k none, .idle)

def stepUser (s : State N) (u : UserOp N) : Except Panic (State N × Out N) :=
  match u with
  | .reap p =>
    match s.space p with
    | none => .ok (s, .idle)
    | some sp => if sp.zombie then s.free p sp else .ok (s, .idle)
  | u =>
    match s.running u.proc with
    | none => .ok (s, .idle)
    | some sp => s.runUser u.proc sp u

theorem stepUser_of_running {s : State N} {u : UserOp N} {sp : Space} (hu : ∀ p, u ≠ .reap p)
    (hp : s.running u.proc = some sp) : s.stepUser u = s.runUser u.proc sp u := by
  cases u with
  | reap p => exact absurd rfl (hu p)
  | _ => simp only [stepUser, hp]

theorem stepUser_of_not_running {s : State N} {u : UserOp N} (hu : ∀ p, u ≠ .reap p)
    (hp : s.running u.proc = none) : s.stepUser u = .ok (s, .idle) := by
  cases u with
  | reap p => exact absurd rfl (hu p)
  | _ => simp only [stepUser, hp]

/-- One call by the kernel on the process in slot `p`. -/
def runKernel (s : State N) (p : Fin N) (sp : Space) : Op N → Except Panic (State N × Out N)
  | .exec _ elf argv => do
    let r ← Kernel.exec s.kmem sp elf argv
    .ok (s.put p r.1 (some r.2.1), .ret (if r.2.2 then argv.length else -1))
  | .freeproc _ => s.free p sp
  | .uvmalloc _ newsz w x => do
    let r ← Kernel.uvmalloc s.kmem sp.pagetable sp.sz (newsz % 2 ^ 64) { w, x }
    if r.2.2 = 0 then .ok (s.put p r.1 (some { sp with pagetable := r.2.1 }), .ret 0)
    else .ok (s.put p r.1 (some { sp with pagetable := r.2.1, sz := r.2.2 }), .ret r.2.2)
  | .uvmdealloc _ newsz => do
    let r ← Kernel.uvmdealloc s.kmem sp.pagetable sp.sz (newsz % 2 ^ 64)
    .ok (s.put p r.1 (some { sp with pagetable := r.2.1, sz := r.2.2 }), .ret r.2.2)
  | .uvmcopy _ c =>
    match s.space c with
    | none => .ok (s, .idle)
    | some np =>
      if c = p ∨ np.sz ≠ 0 then .ok (s, .idle)
      else do
        let r ← Kernel.uvmcopy s.kmem sp.pagetable np.pagetable sp.sz
        .ok ((s.put p r.1 (some { sp with pagetable := r.2.1 })).put c r.1
          (some { np with pagetable := r.2.2.1, sz := if r.2.2.2 then sp.sz else 0 }),
          .ret (if r.2.2.2 then 0 else -1))
  | .uvmclear _ va =>
    if va < sp.sz then do
      let pt ← Kernel.uvmclear sp.pagetable va
      .ok (s.put p s.kmem (some { sp with pagetable := pt }), .idle)
    else .ok (s, .idle)
  | .usertrap _ va => do
    let r ← Kernel.usertrap s.kmem sp.pagetable sp.sz va
    .ok (s.put p r.1 (some { sp with pagetable := r.2.1, zombie := !r.2.2 || sp.zombie }),
      if r.2.2 then .idle else .killed)
  | .copyin _ srcva len => do
    let r ← Kernel.copyin s.kmem sp.pagetable srcva len
    .ok (s, .ret (if r.2 then 0 else -1))
  | _ => .ok (s, .idle)

def stepKernel (s : State N) (p : Fin N) (op : Op N) : Except Panic (State N × Out N) :=
  match s.space p with
  | none => .ok (s, .idle)
  | some sp => s.runKernel p sp op

/-- A new process in slot `p`, if it is unused. -/
def start (s : State N) (p : Fin N) (r : Kmem × Option Space) : State N × Out N :=
  match r.2 with
  | none => ({ s with kmem := r.1 }, .ret (-1))
  | some sp => (s.put p r.1 (some sp), .child p)

def step (s : State N) : Op N → Except Panic (State N × Out N)
  | .user u => s.stepUser u
  | .userinit initcode =>
    match s.unused with
    | none => .error .kerneltrap
    | some p => (firstSpace s.kmem initcode).map fun r => (s.put p r.1 (some r.2), .child p)
  | .kalloc =>
    match Kernel.kalloc s.kmem with
    | (k, none) => .ok ({ s with kmem := k }, .ret 0)
    | (k, some pa) => .ok ({ s with kmem := k, holders := pa :: s.holders }, .ret pa)
  | .kfree pa =>
    if pa ∈ s.holders then
      (Kernel.kfree s.kmem pa).map fun k =>
        ({ s with kmem := k, holders := s.holders.erase pa }, .idle)
    else .ok (s, .idle)
  | .allocproc p =>
    match s.space p with
    | none => (Kernel.allocproc s.kmem).map (s.start p)
    | some _ => .ok (s, .idle)
  | .exec p elf argv => s.stepKernel p (.exec p elf argv)
  | .freeproc p => s.stepKernel p (.freeproc p)
  | .uvmalloc p newsz w x => s.stepKernel p (.uvmalloc p newsz w x)
  | .uvmdealloc p newsz => s.stepKernel p (.uvmdealloc p newsz)
  | .uvmcopy p c => s.stepKernel p (.uvmcopy p c)
  | .uvmclear p va => s.stepKernel p (.uvmclear p va)
  | .usertrap p va => s.stepKernel p (.usertrap p va)
  | .copyin p srcva len => s.stepKernel p (.copyin p srcva len)

/-- The step as a transition function: a panic ends the run. -/
def next (s : State N) (op : Op N) : Option (State N) := (s.step op).toOption.map Prod.fst

/-- The state after `kinit`, on whatever memory holds at boot. -/
def boot (N : ℕ) (mem : ℕ → ℕ → UInt8) : Except Panic (State N) :=
  (kinit mem).map fun k => ⟨k, [], fun _ => none⟩

def Reachable (s : State N) : Prop := ∃ mem s₀, boot N mem = .ok s₀ ∧ Reach next s₀ s

theorem Reachable.of_runActs {s : State N} {mem : ℕ → ℕ → UInt8} {ops : List (Op N)}
    (h : runActs next ⟨initialKmem mem, [], fun _ => none⟩ ops = some s) : s.Reachable := by
  refine ⟨mem, _, ?_, reach_of_runActs h⟩
  unfold boot
  rw [kinit_eq]
  rfl

end State

/-! ## Runs on a small machine -/

/-- The state after operations on a small machine with two slots, whose memory is zero at boot. -/
def smallRun (ops : List (Op 2)) : Option (State 2) :=
  letI := smallLayout
  runActs State.next ⟨initialKmem fun _ _ => 0, [], fun _ => none⟩ ops

end LazyXv6.Kernel
