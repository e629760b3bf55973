import LazyXv6.Lib.Runs
import LazyXv6.Lib.Tally
import LazyXv6.Lib.Updates

/-!
# The log (`log.c`)

The blocks that are written between `begin_op` and `end_op` are gathered in `log.lh`. The last
`end_op` commits: it copies them to the log area, writes the header, installs them in their home
locations and clears the header. After a crash `recover_from_log` installs what the header lists.

The model cuts the code at `log.lock` and at every disk write. `beginOp`, `logWrite` and the two
critical sections of `endOp` are one step each (a process that sleeps in `begin_op` has no step),
and each turn of the loops of `commit` and `recover_from_log` is one. A crash between two steps
leaves the disk and nothing else.

* A block is its `BSIZE / 4` ints. The header block holds `n` and then `block[0..n-1]`; `write_head`
  leaves the rest of it alone.
* `cache b` is what `bread` returns for block `b`. Buffers in `log.lh` are pinned, so that eviction
  does not show.
* What an operation does to a block before `log_write` is the content that `logWrite` carries.

Ghost fields say what is at stake: `txns` are the transactions since the last recovery whose commit
has begun, the first `returned` of them with a commit that returned, on top of `base`.
-/

namespace LazyXv6.FileSystem

open Function Lib

def maxOpBlocks : ℕ := 10

def logSize : ℕ := maxOpBlocks * 3

/-- A disk block, as ints. -/
abbrev Block := ℕ → Int

/-- Where the log is: `sb.logstart` and `sb.nlog`. -/
structure Superblock where
  logstart : ℕ
  nlog : ℕ

/-- The superblock that `mkfs` writes. -/
def mkfs : Superblock := ⟨2, logSize⟩

/-- The block is not in the log area. -/
def Superblock.Home (sb : Superblock) (b : ℕ) : Prop := b < sb.logstart ∨ sb.logstart + sb.nlog ≤ b

instance (sb : Superblock) (b : ℕ) : Decidable (sb.Home b) := inferInstanceAs (Decidable (_ ∨ _))

/-- `struct logheader`, read from a block. -/
def Block.header (c : Block) : List ℕ := (List.range (c 0).toNat).map fun i => (c (i + 1)).toNat

/-- The header block after `write_head`. -/
def Block.setHeader (c : Block) (lh : List ℕ) : Block
  | 0 => lh.length
  | i + 1 => (lh[i]?).elim (c (i + 1)) Int.ofNat

inductive LogPanic where
  | tooBigATransaction
  | logWriteOutsideOfTrans
  | logCommitting
  deriving DecidableEq

inductive Place where
  | idle
  /-- Between `begin_op` and `end_op`, with the blocks it has logged. -/
  | inOp (logged : List ℕ)
  /-- In `end_op`, at the call of `commit`. -/
  | commit
  | writeLog (tail : ℕ)
  | writeHead
  | install (tail : ℕ)
  /-- At `log.lh.n = 0` and the second `write_head`. -/
  | clear
  /-- In `end_op`, after `commit`. -/
  | committed
  deriving DecidableEq

inductive Boot where
  | readHead
  | install (tail : ℕ)
  | clear
  deriving DecidableEq

/-- What a transaction writes: home blocks and their contents. -/
abbrev Txn := List (ℕ × Block)

/-- The disk, the buffer cache and `log.lh`, with the ghost fields. -/
structure Store where
  disk : ℕ → Block
  cache : ℕ → Block
  lh : List ℕ
  base : ℕ → Block
  txns : List Txn
  returned : ℕ

structure State (n : ℕ) extends Store where
  outstanding : Int
  committing : Bool
  place : Fin n → Place
  boot : Option Boot

variable {n : ℕ}

inductive Act (n : ℕ) where
  | beginOp (p : Fin n)
  /-- An operation sets block `b` to `c` and calls `log_write`. -/
  | logWrite (p : Fin n) (b : ℕ) (c : Block)
  | endOp (p : Fin n)
  /-- A turn of `commit`, or the end of `end_op`. -/
  | commit (p : Fin n)
  | crash
  /-- A turn of `recover_from_log`. -/
  | recover

/-- `bwrite` of block `b` with contents `c`. -/
def Store.bwrite (s : Store) (b : ℕ) (c : Block) : Store :=
  { s with disk := update s.disk b c, cache := update s.cache b c }

def Store.writeHead (sb : Superblock) (s : Store) : Store :=
  s.bwrite sb.logstart ((s.cache sb.logstart).setHeader s.lh)

/-- A turn of `write_log`. -/
def Store.writeLogOne (sb : Superblock) (s : Store) (tail b : ℕ) : Store :=
  s.bwrite (sb.logstart + tail + 1) (s.cache b)

/-- A turn of `install_trans`. -/
def Store.installOne (sb : Superblock) (s : Store) (tail b : ℕ) : Store :=
  s.bwrite b (s.cache (sb.logstart + tail + 1))

/-- What the blocks in `log.lh` hold. -/
def Store.txn (s : Store) : Txn := s.lh.map fun b => (b, s.cache b)

def State.goto (s : State n) (p : Fin n) (pl : Place) : State n :=
  { s with place := update s.place p pl }

def State.set (s : State n) (t : Store) : State n := { s with toStore := t }

/-- The lists that `log_write` appends to. -/
def absorb (b : ℕ) (l : List ℕ) : List ℕ := if b ∈ l then l else l ++ [b]

/-- `log_write`, after block `b` was set to `c`. -/
def logWrite (sb : Superblock) (s : State n) (b : ℕ) (c : Block) : Except LogPanic (State n) :=
  if logSize ≤ s.lh.length ∨ (sb.nlog : Int) - 1 ≤ s.lh.length then .error .tooBigATransaction
  else if s.outstanding < 1 then .error .logWriteOutsideOfTrans
  else .ok { s with cache := update s.cache b c, lh := absorb b s.lh }

/-- `begin_op`, unless it sleeps. -/
def beginOp (s : State n) : Option (State n) :=
  if s.committing then none
  else if (logSize : Int) < s.lh.length + (s.outstanding + 1) * maxOpBlocks then none
  else some { s with outstanding := s.outstanding + 1 }

/-- The first critical section of `end_op`; the flag is `do_commit`. -/
def endOp (s : State n) : Except LogPanic (State n × Bool) :=
  if s.committing then .error .logCommitting
  else if s.outstanding - 1 = 0 then
    .ok ({ s with outstanding := s.outstanding - 1, committing := true }, true)
  else .ok ({ s with outstanding := s.outstanding - 1 }, false)

/-- A turn of `commit`, by the process at place `pl`. -/
def commitStep (sb : Superblock) (s : State n) (p : Fin n) : Place → Option (State n)
  | .commit =>
    if s.lh = [] then
      some ((s.set { s.toStore with txns := s.txns ++ [[]], returned := s.txns.length + 1 }).goto p
        .committed)
    else some ((s.set { s.toStore with txns := s.txns ++ [s.txn] }).goto p (.writeLog 0))
  | .writeLog tail =>
    match s.lh[tail]? with
    | some b => some ((s.set (s.writeLogOne sb tail b)).goto p (.writeLog (tail + 1)))
    | none => some (s.goto p .writeHead)
  | .writeHead => some ((s.set (s.toStore.writeHead sb)).goto p (.install 0))
  | .install tail =>
    match s.lh[tail]? with
    | some b => some ((s.set (s.installOne sb tail b)).goto p (.install (tail + 1)))
    | none => some (s.goto p .clear)
  | .clear =>
    some ((s.set ({ s.toStore with lh := [], returned := s.txns.length }.writeHead sb)).goto p
      .committed)
  | .committed => some ({ s with committing := false }.goto p .idle)
  | .idle | .inOp _ => none

/-- A turn of `recover_from_log`. -/
def recoverStep (sb : Superblock) (s : State n) : Boot → State n
  | .readHead => { s with lh := (s.cache sb.logstart).header, boot := some (.install 0) }
  | .install tail =>
    match s.lh[tail]? with
    | some b => { s.set (s.installOne sb tail b) with boot := some (.install (tail + 1)) }
    | none => { s with boot := some .clear }
  | .clear =>
    let t := { s.toStore with lh := [] }.writeHead sb
    { s.set { t with base := t.disk, txns := [], returned := 0 } with boot := none }

/-- The machine is started on what is on disk. -/
def State.crash (s : State n) : State n :=
  { s with
    cache := s.disk, lh := [], outstanding := 0, committing := false, place := fun _ => .idle,
    boot := some .readHead }

/-- One step of the log; a panic is an error. -/
def step (sb : Superblock) (s : State n) : Act n → Option (Except LogPanic (State n))
  | .beginOp p =>
    if s.boot = none ∧ s.place p = .idle then
      (beginOp s).map fun s => .ok (s.goto p (.inOp []))
    else none
  | .logWrite p b c =>
    match s.place p with
    | .inOp logged => some ((logWrite sb s b c).map (·.goto p (.inOp (absorb b logged))))
    | _ => none
  | .endOp p =>
    match s.place p with
    | .inOp _ => some ((endOp s).map fun r => r.1.goto p (if r.2 then .commit else .idle))
    | _ => none
  | .commit p => (commitStep sb s p (s.place p)).map .ok
  | .crash => some (.ok s.crash)
  | .recover => s.boot.map fun b => .ok (recoverStep sb s b)

def panic (sb : Superblock) (s : State n) (a : Act n) : Option LogPanic :=
  match step sb s a with
  | some (.error e) => some e
  | _ => none

def next (sb : Superblock) (s : State n) (a : Act n) : Option (State n) :=
  (step sb s a).bind Except.toOption

/-- The machine is switched on, with a disk whose log is empty. -/
def boot (disk : ℕ → Block) : State n where
  disk := disk
  cache := disk
  lh := []
  outstanding := 0
  committing := false
  place _ := .idle
  boot := some .readHead
  base := disk
  txns := []
  returned := 0

end LazyXv6.FileSystem
