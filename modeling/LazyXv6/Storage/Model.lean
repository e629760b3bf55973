import LazyXv6.Storage.Format
import LazyXv6.Lib.Segment

/-!
# Blocks and the contents of inodes (`fs.c`)

`cache` is what `bread` gives for a block: the contents of its buffer. A block that was changed and
given to `log_write` is in `log`, and what its buffer holds when the transaction commits goes to the
disk; the buffer of any other block may be recycled, and then it is read again from the disk
(`home`).

A `State` is the disk and one inode in memory, which is locked. Pointers into arrays are offsets
here. After the checks at the start of `readi` and `writei` no `uint` wraps, so that the loops count
in `ℕ`; `fuel` is at least the number of bytes to go.
-/

namespace LazyXv6.Storage

open Lib Function

structure Disk where
  cache : ℕ → Block
  home : ℕ → Block
  log : List ℕ

inductive Panic where
  | freeingFreeBlock
  | bmapOutOfRange
  | dirlookupNotDir
  | dirlookupRead
  | dirlinkRead
  | unlinkWritei
  | ilockNoType
  deriving DecidableEq

namespace Disk

/-- `log_write`: a block that is in the log already is not added again. -/
def logWrite (d : Disk) (b : ℕ) : Disk := if b ∈ d.log then d else { d with log := d.log ++ [b] }

def put (d : Disk) (b : ℕ) (f : Block) : Disk := { d with cache := update d.cache b f }

/-- The buffer of `b` is changed and logged. -/
def store (d : Disk) (b : ℕ) (f : Block) : Disk := (d.put b f).logWrite b

def bzero (d : Disk) (b : ℕ) : Disk := d.store b fun _ => 0

variable (sb : Superblock)

def bit (d : Disk) (b : ℕ) : Bool := getBit (d.cache (sb.bblock b)) (b % 8192)

/-- The two loops of `balloc` look at all blocks in turn. 0 if there is no free one. -/
def balloc (d : Disk) : ℕ × Disk :=
  match (List.range sb.size).find? fun b => !d.bit sb b with
  | none => (0, d)
  | some b => (b, (d.store (sb.bblock b) (setBit (d.cache (sb.bblock b)) (b % 8192))).bzero b)

/-- `iupdate`, of the inode with number `inum`. -/
def iupdate (d : Disk) (inum : ℕ) (ip : Inode) : Disk :=
  d.store (sb.iblock inum) (putInode (d.cache (sb.iblock inum)) (64 * (inum % 16)) ip)

end Disk

structure State where
  disk : Disk
  inum : ℕ
  ip : Inode

namespace State

variable (sb : Superblock)

/-- Block `ip->addrs[j]`, which is allocated if it is not there; 0 if it cannot be. -/
def loadAddr (s : State) (j : ℕ) : ℕ × State :=
  if s.ip.addr j = 0 then
    match s.disk.balloc sb with
    | (0, d) => (0, { s with disk := d })
    | (addr, d) => (addr, { s with disk := d, ip := s.ip.setAddr j addr })
  else (s.ip.addr j, s)

/-- Entry `j` of the indirect block `addr`, in the same way. -/
def loadEntry (s : State) (addr j : ℕ) : ℕ × State :=
  if getEntry (s.disk.cache addr) j = 0 then
    match s.disk.balloc sb with
    | (0, d) => (0, { s with disk := d })
    | (b, d) => (b, { s with disk := d.store addr (setEntry (d.cache addr) j b) })
  else (getEntry (s.disk.cache addr) j, s)

def bmap (s : State) (bn : ℕ) : Except Panic (ℕ × State) :=
  if bn < 12 then .ok (s.loadAddr sb bn)
  else if bn - 12 < 256 then
    match s.loadAddr sb 12 with
    | (0, s) => .ok (0, s)
    | (addr, s) => .ok (s.loadEntry sb addr (bn - 12))
  else .error .bmapOutOfRange

def iupdate (s : State) : State := { s with disk := s.disk.iupdate sb s.inum s.ip }

def chunk (n tot off : ℕ) : ℕ := min (n - tot) (1024 - off % 1024)

/-- The loop of `readi`. `out` is what has been copied; `copyout` says of a copy, by the number of
bytes before it, whether it succeeds. -/
def readiLoop (copyout : ℕ → Bool) (n : ℕ) :
    ℕ → ℕ → ℕ → List UInt8 → State → Except Panic (ℤ × List UInt8 × State)
  | 0, tot, _, out, s => .ok (tot, out, s)
  | fuel + 1, tot, off, out, s =>
    if tot < n then
      match s.bmap sb (off / 1024) with
      | .error e => .error e
      | .ok (0, s) => .ok (tot, out, s)
      | .ok (addr, s) =>
        let m := chunk n tot off
        if copyout tot then
          let bytes := (List.range m).map fun k => s.disk.cache addr (off % 1024 + k)
          readiLoop copyout n fuel (tot + m) (off + m) (out ++ bytes) s
        else .ok (-1, out, s)
    else .ok (tot, out, s)

/-- `readi`: the result, and the bytes that were copied. -/
def readi (s : State) (copyout : ℕ → Bool) (off n : UInt32) :
    Except Panic (ℤ × List UInt8 × State) :=
  if s.ip.size < off ∨ off + n < off then .ok (0, [], s)
  else
    let n := if s.ip.size < off + n then s.ip.size - off else n
    readiLoop sb copyout n.toNat n.toNat 0 off.toNat [] s

/-- Where `writei` copies from: `copyin tot m` is what a copy of `m` bytes from `src + tot` brings,
and whether it succeeds. -/
abbrev Source := ℕ → ℕ → List UInt8 × Bool

/-- The loop of `writei`, up to the number of bytes written and the offset after them. -/
def writeiLoop (copyin : Source) (n : ℕ) : ℕ → ℕ → ℕ → State → Except Panic (ℕ × ℕ × State)
  | 0, tot, off, s => .ok (tot, off, s)
  | fuel + 1, tot, off, s =>
    if tot < n then
      match s.bmap sb (off / 1024) with
      | .error e => .error e
      | .ok (0, s) => .ok (tot, off, s)
      | .ok (addr, s) =>
        let m := chunk n tot off
        -- the copy goes into the buffer, also if it fails
        let d := s.disk.put addr (overwrite (s.disk.cache addr) (off % 1024) (copyin tot m).1)
        if (copyin tot m).2 then
          writeiLoop copyin n fuel (tot + m) (off + m) { s with disk := d.logWrite addr }
        else .ok (tot, off, { s with disk := d })
    else .ok (tot, off, s)

/-- The end of `writei`: the new size, and `iupdate`. -/
def setSize (s : State) (off : ℕ) : State :=
  if s.ip.size.toNat < off then { s with ip := { s.ip with size := UInt32.ofNat off } } else s

def writei (s : State) (copyin : Source) (off n : UInt32) : Except Panic (ℤ × State) :=
  if s.ip.size < off ∨ off + n < off then .ok (-1, s)
  else if 268 * 1024 < (off + n).toNat then .ok (-1, s)
  else
    match writeiLoop sb copyin n.toNat n.toNat 0 off.toNat s with
    | .error e => .error e
    | .ok (tot, off, s) => .ok (tot, (s.setSize off).iupdate sb)

end State

end LazyXv6.Storage
