import LazyXv6.FileTree.Calls

/-!
# The inode table and the file table (`fs.c`, `file.c`, `sysfile.c`)

In `FileTree` an inode goes by its number. Here it is an entry of `itable`, with a reference count
and a copy of the inode on disk, which `iget` looks for or recycles. A `struct inode *` is the place
of an entry (`Slot`), a `struct file *` the place of a file.

System calls run one after another, so that locks do not show. What the rest of the kernel decides
is an argument of the call:

* a path is `none` where `argstr` fails, and `room` says whether `balloc` finds a block,
* `mem`, `args`, `loaded`, `pushed` and `copied` say whether memory is left, whether the arguments
  and the program of `exec` can be read and copied, and whether `copyout` succeeds.

A process that is not there, or that has exited, has no current directory. The fields of `struct
file` that only `read` and `write` use are left out, and so is the data of regular files.
-/

namespace LazyXv6.InodeTable

open Function Lib Lib.SmallFin
open FileTree (FileType Inode Dirent FdType toShort lookup emptyDirent writeDirent
    isdirempty strncpy
  namecmp dirSiz dot dotdot skipelem first slash rootIno nInode nFile nOfile nDev oCreate)

def rootDev : ℕ := 1

/-- Where an entry of `itable` is. -/
abbrev Slot := Fin nInode

structure Entry where
  dev : ℕ
  inum : ℕ
  ref : ℤ
  valid : Bool
  copy : Inode

def Entry.key (e : Entry) : ℕ × ℕ := (e.dev, e.inum)

structure Fs where
  itable : Slot → Entry
  disk : ℕ × ℕ → Inode

inductive Panic where
  | igetNoInodes
  | ilock
  | ilockNoType
  | iunlock
  | dirlookupNotDir
  | unlinkNlink
  | unlinkWritei
  | filedup
  | fileclose
  deriving DecidableEq

abbrev Op := StateT Fs (Except Panic)

def Fs.set (fs : Fs) (ip : Slot) (e : Entry) : Fs :=
  { fs with itable := update fs.itable ip e }

def Fs.type (fs : Fs) (ip : Slot) : FileType := (fs.itable ip).copy.type

def Fs.dirents (fs : Fs) (ip : Slot) : List Dirent := (fs.itable ip).copy.dirents

/-! ## Inodes -/

/-- The loop of `iget`: the entry of the inode, or else the first one that is empty. -/
def igetLoop (itable : Slot → Entry) (dev inum : ℕ) : Option Slot → List Slot → Slot ⊕ Option Slot
  | empty, [] => .inr empty
  | empty, ip :: ips =>
    if 0 < (itable ip).ref ∧ (itable ip).dev = dev ∧ (itable ip).inum = inum then .inl ip
    else igetLoop itable dev inum (if empty = none ∧ (itable ip).ref = 0 then some ip else empty) ips

def iget (dev inum : ℕ) : Op Slot := do
  let fs ← get
  match igetLoop fs.itable dev inum none (List.finRange nInode) with
  | .inl ip =>
    modify fun fs => fs.set ip { fs.itable ip with ref := (fs.itable ip).ref + 1 }
    return ip
  | .inr none => throw .igetNoInodes
  | .inr (some ip) =>
    modify fun fs => fs.set ip { fs.itable ip with dev := dev, inum := inum, ref := 1, valid := false }
    return ip

def idup (ip : Slot) : Op Unit :=
  modify fun fs => fs.set ip { fs.itable ip with ref := (fs.itable ip).ref + 1 }

def iupdate (ip : Slot) : Op Unit :=
  modify fun fs =>
    { fs with disk := update fs.disk (fs.itable ip).key (fs.itable ip).copy }

/-- A change of the copy, with the `iupdate` that follows it. -/
def change (ip : Slot) (g : Inode → Inode) : Op Unit := do
  modify fun fs => fs.set ip { fs.itable ip with copy := g (fs.itable ip).copy }
  iupdate ip

def ilock (ip : Slot) : Op Unit := do
  let fs ← get
  let e := fs.itable ip
  if e.ref < 1 then throw .ilock
  else if e.valid then pure ()
  else
    modify fun fs => fs.set ip { e with copy := fs.disk e.key, valid := true }
    if (fs.disk e.key).type = .free then throw .ilockNoType
    else pure ()

def iunlock (ip : Slot) : Op Unit := do
  let fs ← get
  if (fs.itable ip).ref < 1 then throw .iunlock
  else pure ()

/-- What `iput` does first: an inode with no links and no other references is truncated and
freed. -/
def freeLast (ip : Slot) : Op Unit := do
  let fs ← get
  let e := fs.itable ip
  if e.ref = 1 ∧ e.valid ∧ e.copy.nlink = 0 then
    change ip fun i => { i with type := .free, dirents := [] }
    modify fun fs => fs.set ip { fs.itable ip with valid := false }
  else pure ()

def iput (ip : Slot) : Op Unit := do
  freeLast ip
  modify fun fs => fs.set ip { fs.itable ip with ref := (fs.itable ip).ref - 1 }

def iunlockput (ip : Slot) : Op Unit := do
  iunlock ip
  iput ip

section

-- `sb.ninodes`
variable (ninodes : ℕ)

def ialloc (dev : ℕ) (type : FileType) : Op (Option Slot) := do
  let fs ← get
  match (List.range' 1 (ninodes - 1)).find? fun inum => (fs.disk (dev, inum)).type = .free with
  | none => return none
  | some inum =>
    modify fun fs =>
      { fs with disk := update fs.disk (dev, inum) { Inode.zero with type := type } }
    let ip ← iget dev inum
    return some ip

/-! ## Directories and paths -/

/-- `dirlookup`: the entry, with a reference, and the offset of the directory entry. -/
def dirlookup (dp : Slot) (name : List UInt8) : Op (Option (Slot × ℕ)) := do
  let fs ← get
  if fs.type dp ≠ .dir then throw .dirlookupNotDir
  else match lookup name (fs.dirents dp) 0 with
    | none => return none
    | some (off, inum) =>
      let ip ← iget (fs.itable dp).dev inum
      return some (ip, off)

/-- `dirlink`; false for -1. -/
def dirlink (dp : Slot) (name : List UInt8) (inum : ℕ) (room : Bool) : Op Bool := do
  match ← dirlookup dp name with
  | some (ip, _) =>
    iput ip
    return false
  | none =>
    let fs ← get
    match writeDirent (fs.dirents dp) (emptyDirent (fs.dirents dp))
      ⟨inum % 2 ^ 16, strncpy name dirSiz⟩ room with
    | none => return false
    | some des =>
      change dp fun i => { i with dirents := des }
      return true

/-- The loop of `namex`; `fuel` is more than the length of the path. -/
def namexLoop (parent : Bool) : ℕ → Slot → List UInt8 → Op (Option (Slot × List UInt8))
  | 0, _, _ => return none
  | fuel + 1, ip, path =>
    match skipelem path with
    | none =>
      if parent then do
        iput ip
        return none
      else return some (ip, [])
    | some (name, path) => do
      ilock ip
      let fs ← get
      if fs.type ip ≠ .dir then
        iunlockput ip
        return none
      else if parent ∧ first path = 0 then
        iunlock ip
        return some (ip, name)
      else
        match ← dirlookup ip name with
        | none =>
          iunlockput ip
          return none
        | some (next, _) =>
          iunlockput ip
          namexLoop parent fuel next path

/-- `namex`, by a process with the current directory `cwd`: the entry with a reference, and for
`nameiparent` the last element. -/
def namex (cwd : Slot) (path : List UInt8) (parent : Bool) : Op (Option (Slot × List UInt8)) := do
  if first path = slash then
    let ip ← iget rootDev rootIno
    namexLoop parent (path.length + 1) ip path
  else
    idup cwd
    namexLoop parent (path.length + 1) cwd path

def namei (cwd : Slot) (path : List UInt8) : Op (Option Slot) := do
  return (← namex cwd path false).map Prod.fst

def nameiparent (cwd : Slot) (path : List UInt8) : Op (Option (Slot × List UInt8)) :=
  namex cwd path true

/-! ## Links -/

/-- The label `bad` of `sys_link`. -/
def sysLinkBad (ip : Slot) : Op Bool := do
  ilock ip
  change ip fun i => { i with nlink := toShort (i.nlink - 1) }
  iunlockput ip
  return false

/-- `dp->dev != ip->dev || dirlink(dp, name, ip->inum) < 0`, the other way round. -/
def linkAt (dp ip : Slot) (name : List UInt8) (room : Bool) : Op Bool := do
  let fs ← get
  if (fs.itable dp).dev ≠ (fs.itable ip).dev then return false
  else dirlink dp name (fs.itable ip).inum room

def sysLink (cwd : Slot) (old new : List UInt8) (room : Bool) : Op Bool := do
  match ← namei cwd old with
  | none => return false
  | some ip =>
    ilock ip
    let fs ← get
    if fs.type ip = .dir then
      iunlockput ip
      return false
    else
      change ip fun i => { i with nlink := toShort (i.nlink + 1) }
      iunlock ip
      match ← nameiparent cwd new with
      | none => sysLinkBad ip
      | some (dp, name) =>
        ilock dp
        if ← linkAt dp ip name room then
          iunlockput dp
          iput ip
          return true
        else
          iunlockput dp
          sysLinkBad ip

/-- `dp->nlink--`, if a directory was removed. -/
def dropParent (dp : Slot) (type : FileType) : Op Unit :=
  if type = .dir then change dp fun i => { i with nlink := toShort (i.nlink - 1) }
  else pure ()

/-- `sys_unlink`, once the entry at `off` of `dp` is known to name `ip`. -/
def unlinkAt (dp ip : Slot) (off : ℕ) : Op Bool := do
  ilock ip
  let fs ← get
  if (fs.itable ip).copy.nlink < 1 then throw .unlinkNlink
  else if fs.type ip = .dir ∧ !isdirempty (fs.dirents ip) then
    iunlockput ip
    iunlockput dp
    return false
  else
    match writeDirent (fs.dirents dp) off ⟨0, List.replicate dirSiz 0⟩ true with
    | none => throw .unlinkWritei
    | some des =>
      change dp fun i => { i with dirents := des }
      dropParent dp (fs.type ip)
      iunlockput dp
      change ip fun i => { i with nlink := toShort (i.nlink - 1) }
      iunlockput ip
      return true

def sysUnlink (cwd : Slot) (path : List UInt8) : Op Bool := do
  match ← nameiparent cwd path with
  | none => return false
  | some (dp, name) =>
    ilock dp
    if namecmp name dot = 0 ∨ namecmp name dotdot = 0 then
      iunlockput dp
      return false
    else
      match ← dirlookup dp name with
      | none =>
        iunlockput dp
        return false
      | some (ip, off) => unlinkAt dp ip off

/-- The label `fail` of `create`. -/
def createFail (dp ip : Slot) : Op (Option Slot) := do
  change ip fun i => { i with nlink := 0 }
  iunlockput ip
  iunlockput dp
  return none

/-- The entries `.` and `..` of a new directory. -/
def createDots (dp ip : Slot) (room : Fin 3 → Bool) : Op Bool := do
  let fs ← get
  if ← dirlink ip dot (fs.itable ip).inum (room 0) then
    dirlink ip dotdot (fs.itable dp).inum (room 1)
  else return false

/-- The entries that `create` makes. -/
def createEntries (dp ip : Slot) (name : List UInt8) (type : FileType) (room : Fin 3 → Bool) :
    Op Bool := do
  if ← (if type = .dir then createDots dp ip room else return true) then
    let fs ← get
    dirlink dp name (fs.itable ip).inum (room 2)
  else return false

/-- `dp->nlink++` for the `..` of a new directory. -/
def raiseParent (dp : Slot) (type : FileType) : Op Unit :=
  if type = .dir then change dp fun i => { i with nlink := toShort (i.nlink + 1) }
  else pure ()

/-- `create`, once an inode `ip` is allocated. -/
def createAt (dp ip : Slot) (name : List UInt8) (type : FileType) (major : ℤ)
    (room : Fin 3 → Bool) : Op (Option Slot) := do
  ilock ip
  change ip fun i => { i with major := toShort major, nlink := 1 }
  if ← createEntries dp ip name type room then
    raiseParent dp type
    iunlockput dp
    return some ip
  else createFail dp ip

/-- `create`: the entry, with a reference. -/
def create (cwd : Slot) (path : List UInt8) (type : FileType) (major : ℤ) (room : Fin 3 → Bool) :
    Op (Option Slot) := do
  match ← nameiparent cwd path with
  | none => return none
  | some (dp, name) =>
    ilock dp
    match ← dirlookup dp name with
    | some (ip, _) =>
      iunlockput dp
      ilock ip
      let fs ← get
      if type = .file ∧ (fs.type ip = .file ∨ fs.type ip = .device) then return some ip
      else
        iunlockput ip
        return none
    | none =>
      let fs ← get
      match ← ialloc ninodes (fs.itable dp).dev type with
      | none =>
        iunlockput dp
        return none
      | some ip => createAt dp ip name type major room

def sysMake (cwd : Slot) (path : List UInt8) (type : FileType) (major : ℤ) (room : Fin 3 → Bool) :
    Op Bool := do
  match ← create ninodes cwd path type major room with
  | none => return false
  | some ip =>
    iunlockput ip
    return true

def sysMkdir (cwd : Slot) (path : List UInt8) (room : Fin 3 → Bool) : Op Bool :=
  sysMake ninodes cwd path .dir 0 room

def sysMknod (cwd : Slot) (path : List UInt8) (major : ℤ) (room : Fin 3 → Bool) : Op Bool :=
  sysMake ninodes cwd path .device major room

/-- `sys_open` without `O_CREATE`, up to the check of the device. -/
def openExisting (cwd : Slot) (path : List UInt8) (omode : ℕ) : Op (Option Slot) := do
  match ← namei cwd path with
  | none => return none
  | some ip =>
    ilock ip
    let fs ← get
    if fs.type ip = .dir ∧ omode ≠ 0 then
      iunlockput ip
      return none
    else return some ip

/-- `sys_open` up to the call of `filealloc`: the entry, with a reference. -/
def openInode (cwd : Slot) (path : List UInt8) (omode : ℕ) (room : Fin 3 → Bool) :
    Op (Option Slot) := do
  match ← (if oCreate omode then create ninodes cwd path .file 0 room
    else openExisting cwd path omode) with
  | none => return none
  | some ip =>
    let fs ← get
    let i := (fs.itable ip).copy
    if i.type = .device ∧ (i.major < 0 ∨ nDev ≤ i.major) then
      iunlockput ip
      return none
    else return some ip

/-- `sys_chdir` up to the `iput` of the old directory: the entry, with a reference. -/
def chdirInode (cwd : Slot) (path : List UInt8) : Op (Option Slot) := do
  match ← namei cwd path with
  | none => return none
  | some ip =>
    ilock ip
    let fs ← get
    if fs.type ip ≠ .dir then
      iunlockput ip
      return none
    else
      iunlock ip
      return some ip

/-- `exec`. The program is `loaded`, and its inode put; then the arguments are `pushed`. The label
`bad` puts the inode only if that was not done before. -/
def exec (cwd : Slot) (path : List UInt8) (loaded pushed : Bool) : Op Bool := do
  match ← namei cwd path with
  | none => return false
  | some ip =>
    ilock ip
    if loaded then
      iunlockput ip
      return pushed
    else
      iunlockput ip
      return false

end

/-! ## Open files -/

structure File where
  ref : ℤ
  type : FdType
  /-- The inode, for `FD_INODE` and `FD_DEVICE`. -/
  ip : Slot

structure Proc where
  cwd : Option Slot
  ofile : Fin nOfile → Option (Fin nFile)

structure State (n : ℕ) where
  fs : Fs
  file : Fin nFile → File
  proc : Fin n → Proc

variable {n : ℕ}

abbrev Sys (n : ℕ) := StateT (State n) (Except Panic)

def onFs {α : Type} (m : Op α) : Sys n α := fun s => do
  let r ← m s.fs
  return (r.1, { s with fs := r.2 })

def State.setFile (s : State n) (f : Fin nFile) (file : File) : State n :=
  { s with file := update s.file f file }

def State.setCwd (s : State n) (p : Fin n) (cwd : Option Slot) : State n :=
  { s with proc := update s.proc p { s.proc p with cwd := cwd } }

def State.setOfile (s : State n) (p : Fin n) (fd : Fin nOfile) (f : Option (Fin nFile)) : State n :=
  let pr := s.proc p
  { s with proc := update s.proc p { pr with ofile := update pr.ofile fd f } }

def filealloc : Sys n (Option (Fin nFile)) := do
  let s ← get
  match (List.finRange nFile).find? fun f => (s.file f).ref = 0 with
  | none => return none
  | some f =>
    modify fun s => s.setFile f { s.file f with ref := 1 }
    return some f

def filedup (f : Fin nFile) : Sys n Unit := do
  let s ← get
  if (s.file f).ref < 1 then throw .filedup
  else modify fun s => s.setFile f { s.file f with ref := (s.file f).ref + 1 }

def fileclose (f : Fin nFile) : Sys n Unit := do
  let s ← get
  let ff := s.file f
  if ff.ref < 1 then throw .fileclose
  else if 1 < ff.ref then modify fun s => s.setFile f { ff with ref := ff.ref - 1 }
  else
    modify fun s => s.setFile f { ff with ref := 0, type := .none }
    if ff.type = .inode ∨ ff.type = .device then onFs (iput ff.ip)
    else pure ()

def fdalloc (p : Fin n) (f : Fin nFile) : Sys n (Option (Fin nOfile)) := do
  let s ← get
  match (List.finRange nOfile).find? fun fd => (s.proc p).ofile fd = none with
  | none => return none
  | some fd =>
    modify fun s => s.setOfile p fd (some f)
    return some fd

def sysOpen (ninodes : ℕ) (p : Fin n) (cwd : Slot) (path : List UInt8) (omode : ℕ)
    (room : Fin 3 → Bool) : Sys n Bool := do
  match ← onFs (openInode ninodes cwd path omode room) with
  | none => return false
  | some ip =>
    match ← filealloc with
    | none =>
      onFs (iunlockput ip)
      return false
    | some f =>
      match ← fdalloc p f with
      | none =>
        fileclose f
        onFs (iunlockput ip)
        return false
      | some _ =>
        let s ← get
        let type := if s.fs.type ip = .device then .device else .inode
        modify fun s => s.setFile f { s.file f with type := type, ip := ip }
        onFs (iunlock ip)
        return true

def sysClose (p : Fin n) (fd : Fin nOfile) : Sys n Bool := do
  let s ← get
  match (s.proc p).ofile fd with
  | none => return false
  | some f =>
    modify fun s => s.setOfile p fd none
    fileclose f
    return true

def sysDup (p : Fin n) (fd : Fin nOfile) : Sys n Bool := do
  let s ← get
  match (s.proc p).ofile fd with
  | none => return false
  | some f =>
    match ← fdalloc p f with
    | none => return false
    | some _ =>
      filedup f
      return true

def sysChdir (p : Fin n) (cwd : Slot) (path : List UInt8) : Sys n Bool := do
  match ← onFs (chdirInode cwd path) with
  | none => return false
  | some ip =>
    onFs (iput cwd)
    modify fun s => s.setCwd p (some ip)
    return true

def pipealloc (mem : Bool) : Sys n (Option (Fin nFile × Fin nFile)) := do
  match ← filealloc with
  | none => return none
  | some f0 =>
    match ← filealloc with
    | none =>
      fileclose f0
      return none
    | some f1 =>
      if mem then
        modify fun s => s.setFile f0 { s.file f0 with type := .pipe }
        modify fun s => s.setFile f1 { s.file f1 with type := .pipe }
        return some (f0, f1)
      else
        fileclose f0
        fileclose f1
        return none

def sysPipe (p : Fin n) (mem copied : Bool) : Sys n Bool := do
  match ← pipealloc mem with
  | none => return false
  | some (rf, wf) =>
    match ← fdalloc p rf with
    | none =>
      fileclose rf
      fileclose wf
      return false
    | some fd0 =>
      match ← fdalloc p wf with
      | none =>
        modify fun s => s.setOfile p fd0 none
        fileclose rf
        fileclose wf
        return false
      | some fd1 =>
        if copied then return true
        else
          modify fun s => s.setOfile p fd0 none
          modify fun s => s.setOfile p fd1 none
          fileclose rf
          fileclose wf
          return false

/-- The loop of `fork` over the descriptors of `p`, for the child `np`. -/
def dupFiles (p np : Fin n) : List (Fin nOfile) → Sys n Unit
  | [] => return ()
  | fd :: fds => do
    let s ← get
    match (s.proc p).ofile fd with
    | none => dupFiles p np fds
    | some f =>
      filedup f
      modify fun s => s.setOfile np fd (some f)
      dupFiles p np fds

/-- `fork`, with the unused process `np`. -/
def sysFork (p : Fin n) (cwd : Slot) (np : Fin n) (mem : Bool) : Sys n Bool := do
  if mem then
    dupFiles p np (List.finRange nOfile)
    onFs (idup cwd)
    modify fun s => s.setCwd np (some cwd)
    return true
  else return false

def closeFiles (p : Fin n) : List (Fin nOfile) → Sys n Unit
  | [] => return ()
  | fd :: fds => do
    let s ← get
    match (s.proc p).ofile fd with
    | none => closeFiles p fds
    | some f =>
      fileclose f
      modify fun s => s.setOfile p fd none
      closeFiles p fds

def sysExit (p : Fin n) (cwd : Slot) : Sys n Bool := do
  closeFiles p (List.finRange nOfile)
  onFs (iput cwd)
  modify fun s => s.setCwd p none
  return true

/-! ## Steps -/

/-- A path that `argstr` reads, or `none`. -/
abbrev Path := Option (List UInt8)

inductive Call (n : ℕ) where
  | open (path : Path) (omode : ℕ) (room : Fin 3 → Bool)
  | mkdir (path : Path) (room : Fin 3 → Bool)
  | mknod (path : Path) (major : ℤ) (room : Fin 3 → Bool)
  | link (old new : Path) (room : Bool)
  | unlink (path : Path)
  | chdir (path : Path)
  | exec (path : Path) (args loaded pushed : Bool)
  | close (fd : Fin nOfile)
  | dup (fd : Fin nOfile)
  | pipe (mem copied : Bool)
  | fork (child : Fin n) (mem : Bool)
  | exit

/-- `if(argstr(...) < 0) return -1` -/
def argstr (path : Path) (k : List UInt8 → Sys n Bool) : Sys n Bool :=
  match path with
  | none => return false
  | some path => k path

/-- The call, by process `p` with the current directory `cwd`. -/
def Call.run (ninodes : ℕ) (p : Fin n) (cwd : Slot) : Call n → Sys n Bool
  | .open path omode room => argstr path fun path => sysOpen ninodes p cwd path omode room
  | .mkdir path room => argstr path fun path => onFs (sysMkdir ninodes cwd path room)
  | .mknod path major room => argstr path fun path => onFs (sysMknod ninodes cwd path major room)
  | .link old new room =>
    argstr old fun old => argstr new fun new => onFs (sysLink cwd old new room)
  | .unlink path => argstr path fun path => onFs (sysUnlink cwd path)
  | .chdir path => argstr path fun path => sysChdir p cwd path
  | .exec path args loaded pushed => argstr path fun path =>
    if args then onFs (InodeTable.exec cwd path loaded pushed) else return false
  | .close fd => sysClose p fd
  | .dup fd => sysDup p fd
  | .pipe mem copied => sysPipe p mem copied
  | .fork child mem => sysFork p cwd child mem
  | .exit => sysExit p cwd

/-- The child of a `fork` is not in use. -/
def Call.enabled (s : State n) : Call n → Bool
  | .fork child _ => (s.proc child).cwd.isNone
  | _ => true

/-- A call by process `a.1` that completes. -/
def next (ninodes : ℕ) (s : State n) (a : Fin n × Call n) : Option (State n) :=
  match (s.proc a.1).cwd with
  | none => none
  | some cwd =>
    if a.2.enabled s then ((a.2.run ninodes a.1 cwd s).map Prod.snd).toOption else none

/-- The kernel's memory is zero at first. -/
def zeroed (disk : ℕ × ℕ → Inode) : State n where
  fs := ⟨fun _ => ⟨0, 0, 0, false, Inode.zero⟩, disk⟩
  file _ := ⟨0, .none, ⟨0, by decide⟩⟩
  proc _ := ⟨none, fun _ => none⟩

/-- `p->cwd = namei("/")`, in `userinit`. -/
def userinit (p : Fin n) : Sys n Unit := do
  let cwd ← onFs (iget rootDev rootIno)
  modify fun s => s.setCwd p (some cwd)

end LazyXv6.InodeTable
