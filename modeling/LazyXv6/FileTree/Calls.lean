import LazyXv6.FileTree.Inode
import LazyXv6.Lib.Runs
import LazyXv6.Lib.Tally

/-!
# System calls on files and directories (`sysfile.c`, `file.c`)

Each completed call is one step. A call that fails before it takes a reference (a bad user pointer,
a bad descriptor) changes nothing and is no step. `false` is the return value -1 (or the null
pointer).

The arguments `room`, `mem` and `copied` say what the rest of the kernel does: whether `balloc`
finds a block for the entry, `kalloc` a page, and whether `copyout` succeeds. The fields of `struct
file` that only `read` and `write` use are left out.
-/

namespace LazyXv6.FileTree

open Function Lib Lib.SmallFin

def nFile : ℕ := 100

def nOfile : ℕ := 16

theorem nOfile_pos : 0 < nOfile := by decide

def nDev : ℤ := 10

inductive FdType where
  | none
  | pipe
  | inode
  | device
  deriving DecidableEq

structure File where
  ref : ℤ
  type : FdType
  ip : ℕ
  deriving DecidableEq

structure Proc where
  cwd : ℕ
  ofile : Fin nOfile → Option (Fin nFile)

structure State (n : ℕ) where
  fs : Fs
  file : Fin nFile → File
  /-- The processes that have not exited. -/
  proc : Fin n → Option Proc

variable (ninodes : ℕ)

/-! ## Links -/

/-- The label `bad` of `sys_link`. -/
def sysLinkBad (ip : ℕ) : Op Bool := do
  ilock ip
  modify fun fs => fs.setNlink ip (fs.nlink ip - 1)
  iput ip
  return false

def sysLink (cwd : ℕ) (old new : List UInt8) (room : Bool) : Op Bool := do
  match ← namei ninodes cwd old with
  | none => return false
  | some ip =>
    ilock ip
    let fs ← get
    if fs.type ip = .dir then
      iput ip
      return false
    else
      modify fun fs => fs.setNlink ip (fs.nlink ip + 1)
      match ← nameiparent ninodes cwd new with
      | none => sysLinkBad ip
      | some (dp, name) =>
        ilock dp
        if ← dirlink ninodes dp name ip room then
          iput dp
          iput ip
          return true
        else
          iput dp
          sysLinkBad ip

/-- `sys_unlink`, once the entry at `off` of `dp` is known to name `ip`. -/
def unlinkAt (dp off ip : ℕ) : Op Bool := do
  ilock ip
  let fs ← get
  if fs.nlink ip < 1 then throw .unlinkNlink
  else if fs.type ip = .dir ∧ !isdirempty (fs.dirents ip) then
    iput ip
    iput dp
    return false
  else
    match writeDirent (fs.dirents dp) off ⟨0, List.replicate dirSiz 0⟩ true with
    | none => throw .unlinkWritei
    | some des =>
      modify fun fs => fs.setDirents dp des
      if fs.type ip = .dir then modify fun fs => fs.setNlink dp (fs.nlink dp - 1)
      iput dp
      modify fun fs => fs.setNlink ip (fs.nlink ip - 1)
      iput ip
      return true

def sysUnlink (cwd : ℕ) (path : List UInt8) : Op Bool := do
  match ← nameiparent ninodes cwd path with
  | none => return false
  | some (dp, name) =>
    ilock dp
    if namecmp name dot = 0 ∨ namecmp name dotdot = 0 then
      iput dp
      return false
    else
      match ← dirlookup ninodes dp name with
      | none =>
        iput dp
        return false
      | some (ip, off) => unlinkAt dp off ip

/-- The label `fail` of `create`. -/
def createFail (dp ip : ℕ) : Op (Option ℕ) := do
  modify fun fs => fs.setNlink ip 0
  iput ip
  iput dp
  return none

/-- The entries `.` and `..` of a new directory. -/
def createDots (dp ip : ℕ) (room : Fin 3 → Bool) : Op Bool := do
  if ← dirlink ninodes ip dot ip (room 0) then dirlink ninodes ip dotdot dp (room 1)
  else return false

/-- `create`, once an inode `ip` is allocated. -/
def createAt (dp ip : ℕ) (name : List UInt8) (type : FileType) (major : ℤ) (room : Fin 3 → Bool) :
    Op (Option ℕ) := do
  ilock ip
  modify fun fs => fs.setInode ip { fs.inode ip with major := toShort major, nlink := 1 }
  if ← (if type = .dir then createDots ninodes dp ip room else return true) then
    if ← dirlink ninodes dp name ip (room 2) then
      if type = .dir then modify fun fs => fs.setNlink dp (fs.nlink dp + 1)
      iput dp
      return some ip
    else createFail dp ip
  else createFail dp ip

/-- `create`: the inode, with a reference. -/
def create (cwd : ℕ) (path : List UInt8) (type : FileType) (major : ℤ) (room : Fin 3 → Bool) :
    Op (Option ℕ) := do
  match ← nameiparent ninodes cwd path with
  | none => return none
  | some (dp, name) =>
    ilock dp
    match ← dirlookup ninodes dp name with
    | some (ip, _) =>
      iput dp
      ilock ip
      let fs ← get
      if type = .file ∧ (fs.type ip = .file ∨ fs.type ip = .device) then return some ip
      else
        iput ip
        return none
    | none =>
      match ← ialloc ninodes type with
      | none =>
        iput dp
        return none
      | some ip => createAt ninodes dp ip name type major room

def sysMake (cwd : ℕ) (path : List UInt8) (type : FileType) (major : ℤ) (room : Fin 3 → Bool) :
    Op Bool := do
  match ← create ninodes cwd path type major room with
  | none => return false
  | some ip =>
    iput ip
    return true

def sysMkdir (cwd : ℕ) (path : List UInt8) (room : Fin 3 → Bool) : Op Bool :=
  sysMake ninodes cwd path .dir 0 room

def sysMknod (cwd : ℕ) (path : List UInt8) (major : ℤ) (room : Fin 3 → Bool) : Op Bool :=
  sysMake ninodes cwd path .device major room

def oCreate (omode : ℕ) : Bool := omode.testBit 9

/-- `sys_open` up to the call of `filealloc`: the inode, with a reference. -/
def openInode (cwd : ℕ) (path : List UInt8) (omode : ℕ) (room : Fin 3 → Bool) : Op (Option ℕ) := do
  let ip ← (if oCreate omode then create ninodes cwd path .file 0 room
    else do
      match ← namei ninodes cwd path with
      | none => return none
      | some ip =>
        ilock ip
        let fs ← get
        if fs.type ip = .dir ∧ omode ≠ 0 then
          iput ip
          return none
        else return some ip)
  match ip with
  | none => return none
  | some ip =>
    let fs ← get
    if fs.type ip = .device ∧ ((fs.inode ip).major < 0 ∨ nDev ≤ (fs.inode ip).major) then
      iput ip
      return none
    else return some ip

/-- `sys_chdir` up to the `iput` of the old directory: the inode, with a reference. -/
def chdirInode (cwd : ℕ) (path : List UInt8) : Op (Option ℕ) := do
  match ← namei ninodes cwd path with
  | none => return none
  | some ip =>
    ilock ip
    let fs ← get
    if fs.type ip ≠ .dir then
      iput ip
      return none
    else return some ip

/-- What `exec` does with the inode of the program, whether it then succeeds or not. -/
def execInode (cwd : ℕ) (path : List UInt8) : Op Unit := do
  match ← namei ninodes cwd path with
  | none => return ()
  | some ip =>
    ilock ip
    iput ip

/-! ## Open files -/

variable {n : ℕ}

abbrev Sys (n : ℕ) := StateT (State n) (Except FsPanic)

def onFs {α : Type} (m : Op α) : Sys n α := fun s => do
  let r ← m s.fs
  return (r.1, { s with fs := r.2 })

def State.setFile (s : State n) (f : Fin nFile) (file : File) : State n :=
  { s with file := update s.file f file }

def State.setProc (s : State n) (p : Fin n) (pr : Option Proc) : State n :=
  { s with proc := update s.proc p pr }

def filealloc : Sys n (Option (Fin nFile)) := do
  let s ← get
  match (List.finRange nFile).find? fun f => (s.file f).ref = 0 with
  | none => return none
  | some f =>
    modify fun s => s.setFile f { s.file f with ref := 1 }
    return some f

def filedup (f : Fin nFile) : Sys n Unit := do
  let s ← get
  if (s.file f).ref < 1 then throw .filedup
  else modify fun s => s.setFile f { s.file f with ref := (s.file f).ref + 1 }

def fileclose (f : Fin nFile) : Sys n Unit := do
  let s ← get
  let ff := s.file f
  if ff.ref < 1 then throw .fileclose
  else if 1 < ff.ref then modify fun s => s.setFile f { ff with ref := ff.ref - 1 }
  else
    modify fun s => s.setFile f { ff with ref := 0, type := .none }
    if ff.type = .inode ∨ ff.type = .device then onFs (iput ff.ip)

/-- `fdalloc` for a process: the descriptors with `f` among them. -/
def Proc.fdalloc (pr : Proc) (f : Fin nFile) : Option (Fin nOfile × Proc) :=
  ((List.finRange nOfile).find? fun fd => pr.ofile fd = none).map fun fd =>
    (fd, { pr with ofile := update pr.ofile fd (some f) })

def Proc.close (pr : Proc) (fd : Fin nOfile) : Proc :=
  { pr with ofile := update pr.ofile fd none }

def sysOpen (p : Fin n) (pr : Proc) (path : List UInt8) (omode : ℕ) (room : Fin 3 → Bool) :
    Sys n Bool := do
  match ← onFs (openInode ninodes pr.cwd path omode room) with
  | none => return false
  | some ip =>
    match ← filealloc with
    | none =>
      onFs (iput ip)
      return false
    | some f =>
      match pr.fdalloc f with
      | none =>
        fileclose f
        onFs (iput ip)
        return false
      | some (_, pr) =>
        let s ← get
        let type := if s.fs.type ip = .device then .device else .inode
        modify fun s => (s.setFile f ⟨1, type, ip⟩).setProc p (some pr)
        return true

def sysClose (p : Fin n) (pr : Proc) (fd : Fin nOfile) : Sys n Bool := do
  match pr.ofile fd with
  | none => return false
  | some f =>
    modify fun s => s.setProc p (some (pr.close fd))
    fileclose f
    return true

def sysDup (p : Fin n) (pr : Proc) (fd : Fin nOfile) : Sys n Bool := do
  match pr.ofile fd with
  | none => return false
  | some f =>
    match pr.fdalloc f with
    | none => return false
    | some (_, pr) =>
      modify fun s => s.setProc p (some pr)
      filedup f
      return true

def sysChdir (p : Fin n) (pr : Proc) (path : List UInt8) : Sys n Bool := do
  match ← onFs (chdirInode ninodes pr.cwd path) with
  | none => return false
  | some ip =>
    onFs (iput pr.cwd)
    modify fun s => s.setProc p (some { pr with cwd := ip })
    return true

def pipealloc (mem : Bool) : Sys n (Option (Fin nFile × Fin nFile)) := do
  match ← filealloc with
  | none => return none
  | some f0 =>
    match ← filealloc with
    | none =>
      fileclose f0
      return none
    | some f1 =>
      if mem then
        modify fun s => s.setFile f0 { s.file f0 with type := .pipe }
        modify fun s => s.setFile f1 { s.file f1 with type := .pipe }
        return some (f0, f1)
      else
        fileclose f0
        fileclose f1
        return none

def sysPipe (p : Fin n) (pr : Proc) (mem copied : Bool) : Sys n Bool := do
  match ← pipealloc mem with
  | none => return false
  | some (rf, wf) =>
    match (pr.fdalloc rf).bind fun r => r.2.fdalloc wf with
    | some (_, pr) =>
      if copied then
        modify fun s => s.setProc p (some pr)
        return true
      else
        fileclose rf
        fileclose wf
        return false
    | none =>
      fileclose rf
      fileclose wf
      return false

def dupFiles (pr : Proc) : List (Fin nOfile) → Sys n Unit
  | [] => return ()
  | fd :: fds => do
    match pr.ofile fd with
    | none => dupFiles pr fds
    | some f =>
      filedup f
      dupFiles pr fds

/-- `fork` into the unused process `q`. -/
def sysFork (pr : Proc) (q : Fin n) : Sys n Bool := do
  dupFiles pr (List.finRange nOfile)
  onFs (idup pr.cwd)
  modify fun s => s.setProc q (some pr)
  return true

def closeFiles (p : Fin n) : Proc → List (Fin nOfile) → Sys n Proc
  | pr, [] => return pr
  | pr, fd :: fds => do
    match pr.ofile fd with
    | none => closeFiles p pr fds
    | some f =>
      fileclose f
      modify fun s => s.setProc p (some (pr.close fd))
      closeFiles p (pr.close fd) fds

def sysExit (p : Fin n) (pr : Proc) : Sys n Bool := do
  let pr ← closeFiles p pr (List.finRange nOfile)
  onFs (iput pr.cwd)
  modify fun s => s.setProc p none
  return true

/-! ## Steps -/

inductive Call (n : ℕ) where
  | open (path : List UInt8) (omode : ℕ) (room : Fin 3 → Bool)
  | mkdir (path : List UInt8) (room : Fin 3 → Bool)
  | mknod (path : List UInt8) (major : ℤ) (room : Fin 3 → Bool)
  | link (old new : List UInt8) (room : Bool)
  | unlink (path : List UInt8)
  | chdir (path : List UInt8)
  | exec (path : List UInt8)
  | close (fd : Fin nOfile)
  | dup (fd : Fin nOfile)
  | pipe (mem copied : Bool)
  | fork (child : Fin n)
  | exit

def Call.run (p : Fin n) (pr : Proc) : Call n → Sys n Bool
  | .open path omode room => sysOpen ninodes p pr path omode room
  | .mkdir path room => onFs (sysMkdir ninodes pr.cwd path room)
  | .mknod path major room => onFs (sysMknod ninodes pr.cwd path major room)
  | .link old new room => onFs (sysLink ninodes pr.cwd old new room)
  | .unlink path => onFs (sysUnlink ninodes pr.cwd path)
  | .chdir path => sysChdir ninodes p pr path
  | .exec path => onFs (do execInode ninodes pr.cwd path; return true)
  | .close fd => sysClose p pr fd
  | .dup fd => sysDup p pr fd
  | .pipe mem copied => sysPipe p pr mem copied
  | .fork child => sysFork pr child
  | .exit => sysExit p pr

/-- A call can be made: the process is there, and the child of a `fork` is not. -/
def Call.Enabled (s : State n) : Call n → Prop
  | .fork child => s.proc child = none
  | _ => True

instance (s : State n) : ∀ c : Call n, Decidable (c.Enabled s)
  | .fork child => decidable_of_iff ((s.proc child).isNone) Option.isNone_iff_eq_none
  | .open .. | .mkdir .. | .mknod .. | .link .. | .unlink _ | .chdir _ | .exec _ | .close _ | .dup _
  | .pipe .. | .exit => .isTrue trivial

/-- A call by process `p`, run to its end or to a panic. -/
def call (s : State n) (a : Fin n × Call n) : Option (Except FsPanic (State n)) :=
  match s.proc a.1 with
  | none => none
  | some pr =>
    if a.2.Enabled s then some ((a.2.run ninodes a.1 pr s).map Prod.snd) else none

def next (s : State n) (a : Fin n × Call n) : Option (State n) :=
  (call ninodes s a).bind Except.toOption

/-- An image, with the reference to the root that `userinit` has taken. -/
def mount (image : ℕ → Inode) : Fs :=
  ⟨image, update (fun _ => 0) rootIno 1, fun _ => false, []⟩

def boot (image : ℕ → Inode) : State (n + 1) where
  fs := mount image
  file _ := ⟨0, .none, 0⟩
  proc := update (fun _ => none) 0 (some ⟨rootIno, fun _ => none⟩)

end LazyXv6.FileTree
