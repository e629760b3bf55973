import LazyXv6.Kernel.ExecRules
import LazyXv6.FileTree.Paths

/-!
# `exec` (`exec.c`)

`Kernel.exec` is what `exec` does to memory, for a file whose headers have been read. Here is the
whole of it: the path is looked up, the headers are read from the file, the inode is locked, and
what the process has (page table, size, trapframe, name) is replaced at the end. Every `goto bad` is
a call of `bad`. `exec_agrees` (`Visible`) compares the two.

System calls run one after another, so that `begin_op` and `ilock` do not wait; which inodes the
process has locked and how many file-system calls are under way is counted.
-/

namespace LazyXv6.Exec

open Lib Kernel
open FileTree (Fs FsPanic)

structure World where
  kmem : Kmem
  /-- `p->pagetable`, `p->sz` and `p->trapframe` of the process. -/
  space : Space
  name : List UInt8
  cwd : ℕ
  fs : Fs
  /-- The bytes of the files, by inode number. -/
  data : ℕ → List UInt8
  locks : List ℕ
  outstanding : ℕ

inductive ExecPanic where
  | memory (e : Panic)
  | files (e : FsPanic)

abbrev ExecM := StateT World (Except ExecPanic)

/-! ## Headers -/

/-- A little-endian number. -/
def le : List UInt8 → ℕ
  | [] => 0
  | b :: bs => b.toNat + 256 * le bs

/-- The field of `n` bytes at offset `off`. -/
def field (bytes : List UInt8) (off n : ℕ) : ℕ := le ((bytes.drop off).take n)

def elfMagic : ℕ := 0x464C457F

def elfhdrSize : ℕ := 64

def proghdrSize : ℕ := 56

/-- A `struct proghdr`, from its bytes. -/
def parseProghdr (bytes : List UInt8) : Proghdr where
  load := field bytes 0 4 = 1
  flags := field bytes 4 4
  off := field bytes 8 8
  vaddr := field bytes 16 8
  filesz := field bytes 32 8
  memsz := field bytes 40 8

/-- The program header that the loop of `exec` reads from `off`, if it is there. -/
def readProghdr (contents : List UInt8) (off : ℕ) : Option Proghdr :=
  let ph := readi contents off proghdrSize
  if ph.length = proghdrSize then some (parseProghdr ph) else none

/-- What `exec` reads of a file: the header, and the program headers. The loop's `off` is an `int`,
and `readi` takes it as a `uint`. -/
def parseElf (contents : List UInt8) : Elf where
  header :=
    let elf := readi contents 0 elfhdrSize
    elf.length = elfhdrSize ∧ field elf 0 4 = elfMagic
  phdrs :=
    let elf := readi contents 0 elfhdrSize
    (List.range (field elf 56 2)).map fun i =>
      readProghdr contents ((field elf 32 8 + i * proghdrSize) % 2 ^ 32)
  contents := contents

def entry (contents : List UInt8) : ℕ := field (readi contents 0 elfhdrSize) 24 8

/-! ## The parts of `exec` -/

section

variable [Layout] (ninodes : ℕ)

/-- A call that works on physical memory. -/
def onKmem {α : Type} (f : Kmem → Except Panic (Kmem × α)) : ExecM α := do
  let w ← get
  match f w.kmem with
  | .error e => throw (.memory e)
  | .ok (k, a) =>
    modify fun w => { w with kmem := k }
    return a

/-- A call that works on the inodes. -/
def onFs {α : Type} (op : FileTree.Op α) : ExecM α := do
  let w ← get
  match op w.fs with
  | .error e => throw (.files e)
  | .ok (a, fs) =>
    modify fun w => { w with fs := fs }
    return a

def beginOp : ExecM Unit := modify fun w => { w with outstanding := w.outstanding + 1 }

def endOp : ExecM Unit := modify fun w => { w with outstanding := w.outstanding - 1 }

def ilock (ip : ℕ) : ExecM Unit := do
  onFs (FileTree.ilock ip)
  modify fun w => { w with locks := ip :: w.locks }

def iunlockput (ip : ℕ) : ExecM Unit := do
  modify fun w => { w with locks := w.locks.erase ip }
  onFs (FileTree.iput ip)

/-- A part of `exec` that goes on building the new image. -/
def build (f : Building → Except Panic Building) (b : Building) : ExecM Building :=
  onKmem fun k => (f { b with kmem := k }).map fun b => (b.kmem, b)

/-- `if(pagetable) proc_freepagetable(pagetable, sz)` -/
def freeImage : Option Building → ExecM Unit
  | none => pure ()
  | some b => onKmem fun k => (procFreepagetable k b.pagetable b.sz).map fun k => (k, ())

/-- `if(ip){ iunlockput(ip); end_op(); }` -/
def putInode : Option ℕ → ExecM Unit
  | none => pure ()
  | some ip => do
    iunlockput ip
    endOp

/-- The label `bad`; `pagetable` and `ip` are `none` where the variables are 0. -/
def bad (pagetable : Option Building) (ip : Option ℕ) : ExecM ℤ := do
  freeImage pagetable
  putInode ip
  return -1

/-- `sp` after all arguments and the array of pointers to them. -/
def stackPointer (sz : ℕ) (argv : List (List UInt8)) : ℕ :=
  pushDown (argv.foldl (fun sp arg => pushDown sp (arg.length + 1)) sz) ((argv.length + 1) * 8)

/-- Offsets in `struct trapframe`. -/
def epcOffset : ℕ := 24

def spOffset : ℕ := 48

def a1Offset : ℕ := 120

/-- The last element of the path, as `safestrcpy` copies it to `p->name`. -/
def programName (path : List UInt8) : List UInt8 :=
  ((path.reverse.takeWhile (· ≠ FileTree.slash)).reverse).take 15

/-- What `exec` assigns once nothing can fail any more. -/
def assign (path : List UInt8) (b : Building) (sp entry : ℕ) (w : World) : World :=
  let w := { w with kmem := w.kmem.write w.space.trapframe a1Offset (le64 sp) }
  let w := { w with name := programName path }
  let w := { w with space := { w.space with pagetable := b.pagetable, sz := b.sz } }
  let w := { w with kmem := w.kmem.write w.space.trapframe epcOffset (le64 entry) }
  { w with kmem := w.kmem.write w.space.trapframe spOffset (le64 sp) }

/-- The new image instead of the old one, which is freed. -/
def commit (path : List UInt8) (b : Building) (sp entry : ℕ) : ExecM Unit := do
  let w ← get
  modify (assign path b sp entry)
  onKmem fun k => (procFreepagetable k w.space.pagetable w.space.sz).map fun k => (k, ())

/-- What follows after the program has been loaded and the inode put back. -/
def finish (path : List UInt8) (entry : ℕ) (argv : List (List UInt8)) (b : Building) : ExecM ℤ := do
  let b ← build execStack b
  if !b.ok then bad (some b) none
  else do
    let sz := b.sz
    let b ← build (fun b => pushArgs b (sz - pgSize) sz [] argv) b
    if !b.ok then bad (some b) none
    else do
      commit path b (stackPointer sz argv) entry
      return argv.length

/-- `exec`; -1 or the number of arguments. -/
def exec (path : List UInt8) (argv : List (List UInt8)) : ExecM ℤ := do
  beginOp
  let w ← get
  match ← onFs (FileTree.namei ninodes w.cwd path) with
  | none =>
    endOp
    return -1
  | some ip =>
    ilock ip
    let w ← get
    let contents := w.data ip
    if !(parseElf contents).header then bad none (some ip)
    else
      match ← onKmem fun k => procPagetable k w.space.trapframe with
      | none => bad none (some ip)
      | some pt => do
        let b ← build (execSegments contents · (parseElf contents).phdrs) ⟨w.kmem, pt, 0, true⟩
        if !b.ok then bad (some b) (some ip)
        else do
          putInode (some ip)
          finish path (entry contents) argv b

end

end LazyXv6.Exec
