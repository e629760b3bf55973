import LazyXv6.Lib.Runs
import LazyXv6.Kernel.Vm

/-!
# Processes (`proc.c`, `exec.c`)

The process table, as far as memory goes, and the operations on it. A process has a page table, a
size and a trapframe page; an unused slot has none. What a user program can do is a `UserOp`; an
`Op` is one of these, `exec`, the start of the first process, or a single call of a memory function
by the kernel. Each operation runs to completion.
-/

namespace LazyXv6.Kernel

open Lib

variable [Layout]

/-- The memory of a process that is not `UNUSED`. -/
structure Space where
  pagetable : PageTable
  sz : ℕ
  trapframe : ℕ
  zombie : Bool

/-! ## Page tables of processes -/

/-- The end of `proc_pagetable`: the trapframe page. -/
def mapTrapframe (k : Kmem) (pt : PageTable) (trapframe : ℕ) :
    Except Panic (Kmem × Option PageTable) := do
  let r ← mappages k pt (trapframePage * pgSize) pgSize trapframe { r := true, w := true }
  if r.2.2 then .ok (r.1, some r.2.1)
  else do
    let u ← uvmunmap r.1 r.2.1 (trampolinePage * pgSize) 1 false
    let k ← uvmfree u.1 u.2 0
    .ok (k, none)

/-- The middle of `proc_pagetable`: the trampoline. -/
def mapTrampoline (k : Kmem) (pt : PageTable) (trapframe : ℕ) :
    Except Panic (Kmem × Option PageTable) := do
  let r ← mappages k pt (trampolinePage * pgSize) pgSize Layout.trampoline { r := true, x := true }
  if r.2.2 then mapTrapframe r.1 r.2.1 trapframe
  else do
    let k ← uvmfree r.1 r.2.1 0
    .ok (k, none)

def procPagetable (k : Kmem) (trapframe : ℕ) : Except Panic (Kmem × Option PageTable) :=
  match uvmcreate k with
  | (k, none) => .ok (k, none)
  | (k, some pt) => mapTrampoline k pt trapframe

def procFreepagetable (k : Kmem) (pt : PageTable) (sz : ℕ) : Except Panic Kmem := do
  let r ← uvmunmap k pt (trampolinePage * pgSize) 1 false
  let r ← uvmunmap r.1 r.2 (trapframePage * pgSize) 1 false
  uvmfree r.1 r.2 sz

def freeproc (k : Kmem) (sp : Space) : Except Panic Kmem := do
  let k ← kfree k sp.trapframe
  procFreepagetable k sp.pagetable sp.sz

/-- The end of `allocproc`: the page table. Without one, `freeproc` frees the trapframe page. -/
def allocprocTable (k : Kmem) (trapframe : ℕ) : Except Panic (Kmem × Option Space) := do
  let r ← procPagetable k trapframe
  match r.2 with
  | none => (kfree r.1 trapframe).map fun k => (k, none)
  | some pt => .ok (r.1, some ⟨pt, 0, trapframe, false⟩)

def allocproc (k : Kmem) : Except Panic (Kmem × Option Space) :=
  match kalloc k with
  | (k, none) => .ok (k, none)
  | (k, some trapframe) => allocprocTable k trapframe

/-- `growproc`; the flag is false if it returns -1. -/
def growproc (k : Kmem) (sp : Space) (n : Int32) : Except Panic (Kmem × Space × Bool) :=
  if 0 < n.toInt then do
    let r ← uvmalloc k sp.pagetable sp.sz ((sp.sz + n.toInt) % 2 ^ 64).toNat { w := true }
    if r.2.2 = 0 then .ok (r.1, { sp with pagetable := r.2.1 }, false)
    else .ok (r.1, { sp with pagetable := r.2.1, sz := r.2.2 }, true)
  else if n.toInt < 0 then do
    let r ← uvmdealloc k sp.pagetable sp.sz ((sp.sz + n.toInt) % 2 ^ 64).toNat
    .ok (r.1, { sp with pagetable := r.2.1, sz := r.2.2 }, true)
  else .ok (k, sp, true)

/-- The part of `fork` after `allocproc`: the parent, and the child if there is one. -/
def forkCopy (k : Kmem) (p np : Space) : Except Panic (Kmem × Space × Option Space) := do
  let r ← uvmcopy k p.pagetable np.pagetable p.sz
  if r.2.2.2 then
    .ok (r.1, { p with pagetable := r.2.1 }, some { np with pagetable := r.2.2.1, sz := p.sz })
  else do
    let k ← freeproc r.1 { np with pagetable := r.2.2.1 }
    .ok (k, { p with pagetable := r.2.1 }, none)

/-- The memory of `fork`, once a slot is found. -/
def forkSpace (k : Kmem) (p : Space) : Except Panic (Kmem × Space × Option Space) := do
  let r ← allocproc k
  match r.2 with
  | none => .ok (r.1, p, none)
  | some np => forkCopy r.1 p np

/-- `userinit`. The results of `allocproc` and `uvmfirst` are not checked. -/
def firstSpace (k : Kmem) (initcode : List UInt8) : Except Panic (Kmem × Space) := do
  let r ← allocproc k
  match r.2 with
  | none => .error .kerneltrap
  | some sp =>
    (uvmfirst r.1 sp.pagetable initcode).map fun t =>
      (t.1, { sp with pagetable := t.2, sz := pgSize })

/-! ## `exec` -/

/-- A program header; `load` says that its type is `ELF_PROG_LOAD`. -/
structure Proghdr where
  load : Bool
  flags : ℕ
  off : ℕ
  vaddr : ℕ
  filesz : ℕ
  memsz : ℕ

/-- The file given to `exec`: whether it is found and begins with an ELF header, the program
headers as far as they can be read, and all its bytes. -/
structure Elf where
  header : Bool
  phdrs : List (Option Proghdr)
  contents : List UInt8

def flags2perm (flags : ℕ) : Perm := { x := flags.testBit 0, w := flags.testBit 1 }

def readi (contents : List UInt8) (off n : ℕ) : List UInt8 :=
  if contents.length < off ∨ 2 ^ 32 ≤ off + n then [] else (contents.drop off).take n

/-- The loop of `loadseg`, `n` pages from the `i`-th on, into pages from `v` on. -/
def loadsegLoop (pt : PageTable) (contents : List UInt8) (v offset sz : ℕ) :
    ℕ → Kmem → ℕ → Except Panic (Kmem × Bool)
  | 0, k, _ => .ok (k, true)
  | n + 1, k, i => do
    match ← walkaddr pt (v + i) with
    | none => .error .loadsegAddressShouldExist
    | some pa =>
      let len := min (sz - i * pgSize) pgSize
      let bytes := readi contents ((offset + i * pgSize) % 2 ^ 32) len
      if bytes.length = len then
        loadsegLoop pt contents v offset sz n (k.write pa 0 bytes) (i + 1)
      else .ok (k.write pa 0 bytes, false)

/-- `loadseg`, whose `offset` and `sz` are `uint`. -/
def loadseg (k : Kmem) (pt : PageTable) (va : ℕ) (contents : List UInt8) (offset sz : ℕ) :
    Except Panic (Kmem × Bool) :=
  loadsegLoop pt contents (va / pgSize) (offset % 2 ^ 32) (sz % 2 ^ 32)
    ((sz % 2 ^ 32 + pgSize - 1) / pgSize) k 0

/-- The image that `exec` is building; `ok` is false after `goto bad`. -/
structure Building where
  kmem : Kmem
  pagetable : PageTable
  sz : ℕ
  ok : Bool

/-- One turn of the loop over the program headers. -/
def execSegment (contents : List UInt8) (b : Building) : Option Proghdr → Except Panic Building
  | none => .ok { b with ok := false }
  | some ph =>
    if !ph.load then .ok b
    else if ph.memsz < ph.filesz then .ok { b with ok := false }
    else if 2 ^ 64 ≤ ph.vaddr + ph.memsz then .ok { b with ok := false }
    else if ph.vaddr % pgSize ≠ 0 then .ok { b with ok := false }
    else do
      let r ← uvmalloc b.kmem b.pagetable b.sz (ph.vaddr + ph.memsz) (flags2perm ph.flags)
      if r.2.2 = 0 then .ok ⟨r.1, r.2.1, b.sz, false⟩
      else do
        let l ← loadseg r.1 r.2.1 ph.vaddr contents ph.off ph.filesz
        .ok ⟨l.1, r.2.1, r.2.2, l.2⟩

def execSegments (contents : List UInt8) (b : Building) :
    List (Option Proghdr) → Except Panic Building
  | [] => .ok b
  | ph :: phs => do
    let b ← execSegment contents b ph
    if b.ok then execSegments contents b phs else .ok b

def execStack (b : Building) : Except Panic Building := do
  let r ← uvmalloc b.kmem b.pagetable (pgRoundUp b.sz) (pgRoundUp b.sz + 2 * pgSize) { w := true }
  if r.2.2 = 0 then .ok ⟨r.1, r.2.1, pgRoundUp b.sz, false⟩
  else do
    let pt ← uvmclear r.2.1 (r.2.2 - 2 * pgSize)
    .ok ⟨r.1, pt, r.2.2, true⟩

/-- `sp -= n; sp -= sp % 16` -/
def pushDown (sp n : ℕ) : ℕ := (sp + 2 ^ 64 - n) % 2 ^ 64 - (sp + 2 ^ 64 - n) % 2 ^ 64 % 16

def maxArg : ℕ := 32

section

variable (push : ℕ → ℕ → ℕ)

/-- The end of `exec`'s pushing: the array of argument pointers. `push` takes `sp` down. -/
def pushUstackBy (b : Building) (stackbase sp : ℕ) (ustack : List ℕ) : Except Panic Building :=
  let sp := push sp ((ustack.length + 1) * 8)
  if sp < stackbase then .ok { b with ok := false }
  else do
    let c ← copyout b.kmem b.pagetable sp ((ustack ++ [0]).flatMap le64)
    .ok ⟨c.1, c.2.1, b.sz, c.2.2⟩

/-- The loop over the arguments, then the array of pointers to them. -/
def pushArgsBy (b : Building) (stackbase sp : ℕ) (ustack : List ℕ) :
    List (List UInt8) → Except Panic Building
  | [] => pushUstackBy push b stackbase sp ustack
  | arg :: argv =>
    if maxArg ≤ ustack.length then .ok { b with ok := false }
    else
      let sp := push sp (arg.length + 1)
      if sp < stackbase then .ok { b with ok := false }
      else do
        let c ← copyout b.kmem b.pagetable sp (arg ++ [0])
        if c.2.2 then pushArgsBy ⟨c.1, c.2.1, b.sz, true⟩ stackbase sp (ustack ++ [sp]) argv
        else .ok ⟨c.1, c.2.1, b.sz, false⟩

end

def pushArgs := pushArgsBy pushDown

def execImage (b : Building) (elf : Elf) (argv : List (List UInt8)) : Except Panic Building := do
  let b ← execSegments elf.contents b elf.phdrs
  if b.ok then do
    let b ← execStack b
    if b.ok then pushArgs b (b.sz - pgSize) b.sz [] argv else .ok b
  else .ok b

/-- The commit, or the way out at `bad`. -/
def execCommit (sp : Space) (b : Building) : Except Panic (Kmem × Space × Bool) :=
  if b.ok then do
    let k ← procFreepagetable b.kmem sp.pagetable sp.sz
    .ok (k, { sp with pagetable := b.pagetable, sz := b.sz }, true)
  else do
    let k ← procFreepagetable b.kmem b.pagetable b.sz
    .ok (k, sp, false)

/-- The flag is false if `exec` returns -1. -/
def exec (k : Kmem) (sp : Space) (elf : Elf) (argv : List (List UInt8)) :
    Except Panic (Kmem × Space × Bool) :=
  if !elf.header then .ok (k, sp, false)
  else do
    let r ← procPagetable k sp.trapframe
    match r.2 with
    | none => .ok (r.1, sp, false)
    | some pt => execImage ⟨r.1, pt, 0, true⟩ elf argv >>= execCommit sp

end LazyXv6.Kernel
