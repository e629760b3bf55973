import LazyXv6.Lib.LinkedRing
import LazyXv6.Lib.Runs
import LazyXv6.Lib.Tally

/-!
# The buffer cache (`bio.c`)

`bread`, `bwrite`, `brelse`, `bpin` and `bunpin`, called by any number of processes, for a cache of
`n` buffers. A step is a critical section of `bcache.lock` or the acquisition or release of the
sleep-lock of a buffer; the transfer of a block (`virtio_disk_rw`) is one step, too.

* The buffers are in a doubly linked ring through `bcache.head`, which is `none` here. The searches
  of `bget` follow the links, for at most `n + 1` nodes.
* `modify` is what a process does to `b->data` between the calls.
* Reference counts are natural numbers, so they do not wrap.

`pins`, `dirty` and `left` are not in the source: the `bpin`s not undone, whether the data was
changed since it was written to disk, and what was left in the buffer of a block when it was last
unreferenced. `Usage` is the rules that callers keep to: data is changed under the buffer's lock
only, and before the lock is released it has been written to disk, unless the buffer is pinned.
-/

namespace LazyXv6.BufferCache

open Lib Function

abbrev ROOTDEV : ℕ := 1

/-- A buffer, or `bcache.head`. -/
abbrev Node (n : ℕ) := Option (Fin n)

inductive Pc (n : ℕ) where
  | idle
  /-- `bget` has found the buffer and is in `acquiresleep`. -/
  | locking (b : Fin n) (dev blockno : ℕ)
  /-- `bread` has the locked buffer. -/
  | reading (b : Fin n) (dev blockno : ℕ)
  /-- `brelse`, after `releasesleep`. -/
  | releasing (b : Fin n)
  deriving DecidableEq

inductive Panic where
  | bget
  | bwrite
  | brelse
  deriving DecidableEq

structure State (n : ℕ) (Proc Data : Type) where
  links : Links (Node n)
  dev : Fin n → ℕ
  blockno : Fin n → ℕ
  /-- A `uint` in the source. It counts the processes at the buffer and its pins, and `log_write`
  pins a block once until it is installed, so it does not come near `2^32`. -/
  refcnt : Fin n → ℕ
  valid : Fin n → Bool
  data : Fin n → Data
  lock : Fin n → Option Proc
  disk : ℕ → Data
  pc : Proc → Pc n
  panic : Option Panic
  pins : Fin n → ℕ
  dirty : Fin n → Bool
  left : ℕ → Option Data

variable {n : ℕ} {Proc Data : Type}

/-- `binit` links the buffers one by one. -/
def binit : Links (Node n) :=
  (List.finRange n).foldl (fun k b => k.insertFront none (some b)) ⟨fun _ => none, fun _ => none⟩

/-- The search of `bget` in one direction. -/
def search (step : Node n → Node n) (found : Fin n → Bool) : ℕ → Node n → Option (Fin n)
  | 0, _ => none
  | _ + 1, none => none
  | fuel + 1, some b => if found b then some b else search step found fuel (step (some b))

namespace State

/-- The buffer that caches the block. -/
def cached (s : State n Proc Data) (dev blockno : ℕ) : Option (Fin n) :=
  search s.links.next (fun b => decide (s.dev b = dev) && decide (s.blockno b = blockno)) (n + 1)
    (s.links.next none)

/-- The least recently used buffer that is not referenced. -/
def unused (s : State n Proc Data) : Option (Fin n) :=
  search s.links.prev (fun b => decide (s.refcnt b = 0)) (n + 1) (s.links.prev none)

/-- One reference less. Once there is none, nothing counts as left in the buffer. -/
def decref (s : State n Proc Data) (b : Fin n) : State n Proc Data :=
  { s with
    refcnt := update s.refcnt b (s.refcnt b - 1)
    left := if s.refcnt b - 1 = 0 then update s.left (s.blockno b) none else s.left }

variable [DecidableEq Proc]

def setPc (s : State n Proc Data) (p : Proc) (c : Pc n) : State n Proc Data :=
  { s with pc := update s.pc p c }

/-- `bget`, up to `acquiresleep`. -/
def bget (s : State n Proc Data) (p : Proc) (dev blockno : ℕ) : State n Proc Data :=
  match s.cached dev blockno with
  | some b =>
    { s with refcnt := update s.refcnt b (s.refcnt b + 1) }.setPc p (.locking b dev blockno)
  | none =>
    match s.unused with
    | some b =>
      { s with
        dev := update s.dev b dev
        blockno := update s.blockno b blockno
        valid := update s.valid b false
        refcnt := update s.refcnt b 1 }.setPc p (.locking b dev blockno)
    | none => { s with panic := some .bget }

def bwrite (s : State n Proc Data) (p : Proc) (b : Fin n) : State n Proc Data :=
  if s.lock b = some p then
    { s with disk := update s.disk (s.blockno b) (s.data b), dirty := update s.dirty b false }
  else { s with panic := some .bwrite }

/-- `brelse`, up to `acquire(&bcache.lock)`. -/
def brelse (s : State n Proc Data) (p : Proc) (b : Fin n) : State n Proc Data :=
  if s.lock b = some p then { s with lock := update s.lock b none }.setPc p (.releasing b)
  else { s with panic := some .brelse }

def go (s : State n Proc Data) (p : Proc) : Option (State n Proc Data) :=
  match s.pc p with
  | .idle => none
  | .locking b dev blockno =>
    if s.lock b = none then some
      ({ s with lock := update s.lock b (some p) }.setPc p (.reading b dev blockno))
    else none
  | .reading b _ _ =>
    if s.valid b then some (s.setPc p .idle)
    else
      some ({ s with
        data := update s.data b (s.disk (s.blockno b)), valid := update s.valid b true }.setPc p .idle)
  | .releasing b =>
    let s := s.decref b
    if s.refcnt b = 0 then
      some ({ s with links := (s.links.remove (some b)).insertFront none (some b) }.setPc p .idle)
    else some (s.setPc p .idle)

end State

inductive Act (n : ℕ) (Proc Data : Type) where
  | bread (p : Proc) (dev blockno : ℕ)
  | bwrite (p : Proc) (b : Fin n)
  | brelse (p : Proc) (b : Fin n)
  | bpin (p : Proc) (b : Fin n)
  | bunpin (p : Proc) (b : Fin n)
  | modify (p : Proc) (b : Fin n) (d : Data)
  /-- The process goes on in its call. -/
  | go (p : Proc)

variable [DecidableEq Proc]

/-- A step of a system that has not panicked. -/
def step (s : State n Proc Data) : Act n Proc Data → Option (State n Proc Data)
  | .bread p dev blockno => if s.pc p = .idle then some (s.bget p dev blockno) else none
  | .bwrite p b => if s.pc p = .idle then some (s.bwrite p b) else none
  | .brelse p b => if s.pc p = .idle then some (s.brelse p b) else none
  | .bpin p b =>
    if s.pc p = .idle then
      some { s with
        refcnt := update s.refcnt b (s.refcnt b + 1), pins := update s.pins b (s.pins b + 1) }
    else none
  | .bunpin p b =>
    if s.pc p = .idle then some { s.decref b with pins := update s.pins b (s.pins b - 1) } else none
  | .modify p b d =>
    if s.pc p = .idle then
      some { s with
        data := update s.data b d
        dirty := update s.dirty b true
        left := update s.left (s.blockno b) (some d) }
    else none
  | .go p => s.go p

def next (s : State n Proc Data) (a : Act n Proc Data) : Option (State n Proc Data) :=
  if s.panic = none then step s a else none

omit [DecidableEq Proc] in
def Usage (s : State n Proc Data) : Act n Proc Data → Prop
  | .bread _ dev _ => dev = ROOTDEV
  | .brelse _ b => s.dirty b = true → 0 < s.pins b
  | .bpin p b => s.lock b = some p
  | .bunpin p b => s.lock b = some p ∧ 0 < s.pins b
  | .modify p b _ => s.lock b = some p
  | .bwrite .. | .go _ => True

instance (s : State n Proc Data) : (a : Act n Proc Data) → Decidable (Usage s a)
  | .bread _ dev _ => inferInstanceAs (Decidable (dev = ROOTDEV))
  | .brelse _ b => inferInstanceAs (Decidable (s.dirty b = true → 0 < s.pins b))
  | .bpin p b => inferInstanceAs (Decidable (s.lock b = some p))
  | .bunpin p b => inferInstanceAs (Decidable (s.lock b = some p ∧ 0 < s.pins b))
  | .modify p b _ => inferInstanceAs (Decidable (s.lock b = some p))
  | .bwrite .. | .go _ => inferInstanceAs (Decidable True)

omit [DecidableEq Proc] in
/-- After `binit`, with `disk` on the disk and `zero` in the buffers. -/
def boot (disk : ℕ → Data) (zero : Data) : State n Proc Data where
  links := binit
  dev _ := 0
  blockno _ := 0
  refcnt _ := 0
  valid _ := false
  data _ := zero
  lock _ := none
  disk := disk
  pc _ := .idle
  panic := none
  pins _ := 0
  dirty _ := false
  left _ := none

end LazyXv6.BufferCache
