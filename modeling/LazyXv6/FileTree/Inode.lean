import LazyXv6.Lib.Ensures
import LazyXv6.FileTree.Dirent

/-!
# Inodes, directories and path names (`fs.c`)

One record stands for an inode on disk and for its copy in memory: the code writes every change of a
copy back with `iupdate` before it unlocks the inode. What the inode table adds is `ref` and
`valid`, by inode number. A program is a state transformer that may panic.

* `nlink` is a `short`: it wraps (`toShort`).
* The contents of regular files are left out, and with them which blocks are in use. Where a
  directory grows by a block, an argument `room` says whether `balloc` finds one.
* System calls run one after another, so that locks do not show: `ilock` reads the inode, and
  `iunlockput` is `iput`.
* `lost` is a ghost field. It lists what the entries named that `iput` dropped together with the
  directory that they were in.
-/

namespace LazyXv6.FileTree

open Function Lib

def rootIno : ℕ := 1

def nInode : ℕ := 50

inductive FileType where
  /-- Type 0: the inode is not in use. -/
  | free
  | dir
  | file
  | device
  deriving DecidableEq

/-- The conversion to `short`. -/
def toShort (n : ℤ) : ℤ := (n + 2 ^ 15) % 2 ^ 16 - 2 ^ 15

/-- The largest `short`. -/
def shortMax : ℤ := 2 ^ 15 - 1

structure Inode where
  type : FileType
  major : ℤ
  nlink : ℤ
  dirents : List Dirent

/-- The bytes of an inode all zero. -/
def Inode.zero : Inode := ⟨.free, 0, 0, []⟩

structure Fs where
  inode : ℕ → Inode
  ref : ℕ → ℤ
  valid : ℕ → Bool
  lost : List ℕ

inductive FsPanic where
  | igetNoInodes
  | ilock
  | ilockNoType
  | dirlookupNotDir
  | unlinkNlink
  | unlinkWritei
  | filedup
  | fileclose
  deriving DecidableEq

abbrev Op := StateT Fs (Except FsPanic)

def Fs.type (fs : Fs) (i : ℕ) : FileType := (fs.inode i).type

def Fs.nlink (fs : Fs) (i : ℕ) : ℤ := (fs.inode i).nlink

def Fs.dirents (fs : Fs) (i : ℕ) : List Dirent := (fs.inode i).dirents

def Fs.setInode (fs : Fs) (i : ℕ) (ip : Inode) : Fs :=
  { fs with inode := update fs.inode i ip }

theorem Fs.inode_setInode_self (fs : Fs) (i : ℕ) (ip : Inode) : (fs.setInode i ip).inode i = ip :=
  update_self ..

theorem Fs.inode_setInode_of_ne (fs : Fs) {i j : ℕ} (h : j ≠ i) (ip : Inode) :
    (fs.setInode i ip).inode j = fs.inode j := update_of_ne h ..

def Fs.setNlink (fs : Fs) (i : ℕ) (n : ℤ) : Fs :=
  fs.setInode i { fs.inode i with nlink := toShort n }

def Fs.setDirents (fs : Fs) (i : ℕ) (des : List Dirent) : Fs :=
  fs.setInode i { fs.inode i with dirents := des }

def Fs.setRef (fs : Fs) (i : ℕ) (r : ℤ) : Fs := { fs with ref := update fs.ref i r }

def Fs.setValid (fs : Fs) (i : ℕ) (v : Bool) : Fs :=
  { fs with valid := update fs.valid i v }

/-- What an entry names, if it is in use. -/
def kid (de : Dirent) : Option ℕ := if de.inum = 0 then none else some de.inum

/-- What the entries of a directory other than `.` and `..` name. -/
def kids (des : List Dirent) : List ℕ := (des.drop 2).filterMap kid

section

variable (ninodes : ℕ)

/-- How many entries of the inode table are in use. -/
def Fs.inUse (fs : Fs) : ℕ := (List.range ninodes).countP fun i => 0 < fs.ref i

def iget (inum : ℕ) : Op Unit := do
  let fs ← get
  if 0 < fs.ref inum then modify fun fs => fs.setRef inum (fs.ref inum + 1)
  else if nInode ≤ fs.inUse ninodes then throw .igetNoInodes
  else modify fun fs => (fs.setRef inum 1).setValid inum false

def idup (inum : ℕ) : Op Unit := modify fun fs => fs.setRef inum (fs.ref inum + 1)

def ilock (inum : ℕ) : Op Unit := do
  let fs ← get
  if fs.ref inum < 1 then throw .ilock
  else if fs.valid inum then pure ()
  else if fs.type inum = .free then throw .ilockNoType
  else modify fun fs => fs.setValid inum true

/-- `itrunc` and `type = 0`, in `iput`. -/
def Fs.free (fs : Fs) (inum : ℕ) : Fs :=
  let fs' := (fs.setInode inum { fs.inode inum with type := .free, dirents := [] }).setValid
    inum false
  if fs.type inum = .dir then { fs' with lost := kids (fs.dirents inum) ++ fs.lost } else fs'

def Fs.iput (fs : Fs) (inum : ℕ) : Fs :=
  let fs' := if fs.ref inum = 1 ∧ fs.valid inum ∧ fs.nlink inum = 0 then fs.free inum else fs
  fs'.setRef inum (fs'.ref inum - 1)

def iput (inum : ℕ) : Op Unit := modify (·.iput inum)

def ialloc (type : FileType) : Op (Option ℕ) := do
  let fs ← get
  match (List.range' 1 (ninodes - 1)).find? fun i => fs.type i = .free with
  | none => return none
  | some inum =>
    modify fun fs => fs.setInode inum { Inode.zero with type := type }
    iget ninodes inum
    return some inum

/-! ## Directories -/

/-- `dirlookup`: the inode that the entry names, with a reference, and the offset of the entry. -/
def dirlookup (dp : ℕ) (name : List UInt8) : Op (Option (ℕ × ℕ)) := do
  let fs ← get
  if fs.type dp ≠ .dir then throw .dirlookupNotDir
  else match lookup name (fs.dirents dp) 0 with
    | none => return none
    | some (off, inum) =>
      iget ninodes inum
      return some (inum, off)

/-- `dirlink`; false for -1. -/
def dirlink (dp : ℕ) (name : List UInt8) (inum : ℕ) (room : Bool) : Op Bool := do
  match ← dirlookup ninodes dp name with
  | some (ip, _) =>
    iput ip
    return false
  | none =>
    let fs ← get
    match writeDirent (fs.dirents dp) (emptyDirent (fs.dirents dp))
      ⟨inum % 2 ^ 16, strncpy name dirSiz⟩ room with
    | none => return false
    | some des =>
      modify fun fs => fs.setDirents dp des
      return true

/-! ## Paths -/

/-- The loop of `namex`; `fuel` is more than the length of the path. -/
def namexLoop (parent : Bool) : ℕ → ℕ → List UInt8 → Op (Option (ℕ × List UInt8))
  | 0, _, _ => return none
  | fuel + 1, ip, path =>
    match skipelem path with
    | none =>
      if parent then do
        iput ip
        return none
      else return some (ip, [])
    | some (name, path) => do
      ilock ip
      let fs ← get
      if fs.type ip ≠ .dir then
        iput ip
        return none
      else if parent ∧ first path = 0 then return some (ip, name)
      else
        match ← dirlookup ninodes ip name with
        | none =>
          iput ip
          return none
        | some (next, _) =>
          iput ip
          namexLoop parent fuel next path

/-- `namex`, by a process with the current directory `cwd`: the inode with a reference, and for
`nameiparent` the last element. -/
def namex (cwd : ℕ) (path : List UInt8) (parent : Bool) : Op (Option (ℕ × List UInt8)) := do
  if first path = slash then
    iget ninodes rootIno
    namexLoop ninodes parent (path.length + 1) rootIno path
  else
    idup cwd
    namexLoop ninodes parent (path.length + 1) cwd path

def namei (cwd : ℕ) (path : List UInt8) : Op (Option ℕ) := do
  return (← namex ninodes cwd path false).map Prod.fst

def nameiparent (cwd : ℕ) (path : List UInt8) : Op (Option (ℕ × List UInt8)) :=
  namex ninodes cwd path true

end

end LazyXv6.FileTree
