import LazyXv6.Lib.Runs
import LazyXv6.Lib.Ring

/-!
# The disk driver (`virtio_disk.c`)

Processes call `virtio_disk_rw`, interrupts call `virtio_disk_intr`, and the device works between
any two steps of theirs. A step of the driver is what it does between two places where another
process or the device can see a difference: it takes or gives up `vdisk_lock`, moves `avail->idx`,
or looks at one entry of the used ring.

* The descriptors, the two rings with their 16-bit indices, `free`, `info` and `ops` are those of
  `struct disk`. Out-of-range indices are possible, so arrays are functions of `ℕ`.
* The device takes heads of chains from the avail ring (`fetch`), serves them in any order (`serve`:
  it follows the chain in memory and writes the status `0`) and puts the heads on the used ring
  (`post`).
* `virtio_disk_rw` is called by `bread` and `bwrite`, for a buffer whose sleep-lock the process
  holds.
* `kill` wakes sleepers, too.

`published` and `fetched` number the entries of the avail ring without wrapping, and `log` records
which of them the device has served and which calls have returned; they are not in the source. The
data of the blocks is left out.
-/

namespace LazyXv6.Virtio

open Lib Function

abbrev NUM : ℕ := 8

abbrev VRING_DESC_F_NEXT : UInt16 := 1

abbrev VRING_DESC_F_WRITE : UInt16 := 2

abbrev BSIZE : ℕ := 1024

/-- What the address in a descriptor points to. -/
inductive Addr (Buf : Type) where
  | null
  /-- `&disk.ops[i]` -/
  | op (i : ℕ)
  /-- `b->data` -/
  | data (b : Buf)
  /-- `&disk.info[i].status` -/
  | status (i : ℕ)
  deriving DecidableEq

structure Desc (Buf : Type) where
  addr : Addr Buf
  len : ℕ
  flags : UInt16
  next : ℕ
  deriving DecidableEq

inductive BlkType where
  | input
  | output
  deriving DecidableEq

structure BlkReq where
  type : BlkType
  sector : UInt64
  deriving DecidableEq

structure Info (Buf : Type) where
  b : Option Buf
  status : UInt8
  deriving DecidableEq

structure Call (Buf : Type) where
  b : Buf
  blockno : UInt32
  write : Bool
  deriving DecidableEq

def Call.req {Buf : Type} (c : Call Buf) : BlkReq where
  type := if c.write then .output else .input
  sector := (c.blockno * 2).toUInt64

/-- `int idx[3]` -/
structure Chain where
  i0 : ℕ
  i1 : ℕ
  i2 : ℕ
  deriving DecidableEq

def Chain.toList (idx : Chain) : List ℕ := [idx.i0, idx.i1, idx.i2]

/-- What a process sleeps on: `&disk.free[0]` or a buffer. -/
inductive Chan (Buf : Type) where
  | free0
  | buf (b : Buf)
  deriving DecidableEq

inductive Pc (Buf : Type) where
  | idle
  | lock (c : Call Buf)
  | alloc (c : Call Buf)
  | sleepFree (c : Call Buf)
  /-- The chain is in the avail ring, and `avail->idx` not moved yet. -/
  | publish (c : Call Buf) (idx : Chain)
  /-- The loop on `b->disk`; the request was the `k`-th. -/
  | wait (c : Call Buf) (idx : Chain) (k : ℕ)
  | sleepBuf (c : Call Buf) (idx : Chain) (k : ℕ)
  | relock (c : Call Buf) (idx : Chain) (k : ℕ)
  deriving DecidableEq

namespace Pc

variable {Buf : Type}

def chan : Pc Buf → Option (Chan Buf)
  | sleepFree _ => some .free0
  | sleepBuf c _ _ => some (.buf c.b)
  | _ => none

def wake : Pc Buf → Pc Buf
  | sleepFree c => lock c
  | sleepBuf c idx k => relock c idx k
  | pc => pc

end Pc

inductive Panic where
  | freeDesc1
  | freeDesc2
  | intrStatus
  /-- `b->disk = 0` for a null pointer. -/
  | intrNull
  /-- The loop of `free_chain` does not end. -/
  | freeChain
  deriving DecidableEq

inductive Holder (Proc : Type) where
  | proc (p : Proc)
  | intr
  deriving DecidableEq

inductive Event (Proc Buf : Type) where
  /-- The device has served the `k`-th request, as it read it in memory. -/
  | completed (k : ℕ) (req : BlkReq) (b : Buf)
  | returned (p : Proc) (k : ℕ) (c : Call Buf)
  deriving DecidableEq

structure State (Proc Buf : Type) where
  desc : ℕ → Desc Buf
  avail : ℕ → ℕ
  availIdx : UInt16
  used : ℕ → ℕ
  /-- `used->idx`, which the device moves, and `used_idx`, up to where the driver has looked. -/
  usedEnd : UInt16
  usedIdx : UInt16
  free : ℕ → Bool
  info : ℕ → Info Buf
  ops : ℕ → BlkReq
  lock : Option (Holder Proc)
  pc : Proc → Pc Buf
  /-- `b->disk`, and who has `b->lock`. -/
  disk : Buf → Bool
  locked : Buf → Option Proc
  /-- The device: up to where it has looked in the avail ring, and which chains it has. -/
  seen : UInt16
  working : List (ℕ × ℕ)
  served : List (ℕ × ℕ)
  published : ℕ
  fetched : ℕ
  log : List (Event Proc Buf)
  panic : Option Panic

variable {Proc Buf : Type} [DecidableEq Proc] [DecidableEq Buf]

namespace State

def setPc (s : State Proc Buf) (p : Proc) (c : Pc Buf) : State Proc Buf :=
  { s with pc := update s.pc p c }

omit [DecidableEq Proc] in
def wakeup (s : State Proc Buf) (chan : Chan Buf) : State Proc Buf :=
  { s with pc := fun p => if (s.pc p).chan = some chan then (s.pc p).wake else s.pc p }

/-! ## Descriptors -/

def allocDesc (s : State Proc Buf) : Option (ℕ × State Proc Buf) :=
  ((List.range NUM).find? s.free).map fun i => (i, { s with free := update s.free i false })

def freeDesc (s : State Proc Buf) (i : ℕ) : Except Panic (State Proc Buf) :=
  if NUM ≤ i then .error .freeDesc1
  else if s.free i then .error .freeDesc2
  else .ok ({ s with desc := update s.desc i ⟨.null, 0, 0, 0⟩
                     free := update s.free i true }.wakeup .free0)

def freeChain : ℕ → State Proc Buf → ℕ → Except Panic (State Proc Buf)
  | 0, _, _ => .error .freeChain
  | fuel + 1, s, i => do
    let flag := (s.desc i).flags
    let nxt := (s.desc i).next
    let s ← s.freeDesc i
    if flag &&& VRING_DESC_F_NEXT ≠ 0 then freeChain fuel s nxt else .ok s

/-- The loop of `alloc3_desc`, with `n` descriptors to go. -/
def alloc3Loop : (n i : ℕ) → (idx : ℕ → ℕ) → State Proc Buf →
    Except Panic (Option (ℕ → ℕ) × State Proc Buf)
  | 0, _, idx, s => .ok (some idx, s)
  | n + 1, i, idx, s =>
    match s.allocDesc with
    | some (d, s) => alloc3Loop n (i + 1) (update idx i d) s
    | none => do
      let s ← (List.range i).foldlM (fun s j => s.freeDesc (idx j)) s
      .ok (none, s)

def alloc3Desc (s : State Proc Buf) : Except Panic (Option Chain × State Proc Buf) := do
  let (idx, s) ← alloc3Loop 3 0 (fun _ => 0) s
  .ok (idx.map fun idx => ⟨idx 0, idx 1, idx 2⟩, s)

/-! ## `virtio_disk_rw` -/

def desc0 (idx : Chain) : Desc Buf := ⟨.op idx.i0, 16, VRING_DESC_F_NEXT, idx.i1⟩

def desc1 (c : Call Buf) (idx : Chain) : Desc Buf :=
  ⟨.data c.b, BSIZE, (if c.write then 0 else VRING_DESC_F_WRITE) ||| VRING_DESC_F_NEXT, idx.i2⟩

def desc2 (idx : Chain) : Desc Buf := ⟨.status idx.i0, 1, VRING_DESC_F_WRITE, 0⟩

/-- Format the descriptors, and put the head of the chain into the avail ring. -/
def format (s : State Proc Buf) (c : Call Buf) (idx : Chain) : State Proc Buf :=
  { s with
    ops := update s.ops idx.i0 c.req
    desc := update (update (update s.desc idx.i0 (desc0 idx)) idx.i1 (desc1 c idx)) idx.i2 (desc2 idx)
    info := update s.info idx.i0 ⟨some c.b, 0xff⟩
    disk := update s.disk c.b true
    avail := update s.avail (s.availIdx.toNat % NUM) idx.i0 }

def allocStep (s : State Proc Buf) (p : Proc) (c : Call Buf) : Except Panic (State Proc Buf) := do
  let (idx, s) ← s.alloc3Desc
  match idx with
  | some idx => .ok ((s.format c idx).setPc p (.publish c idx))
  | none => .ok ({ s with lock := none }.setPc p (.sleepFree c))

/-- The device is done with the buffer. -/
def finishStep (s : State Proc Buf) (p : Proc) (c : Call Buf) (idx : Chain) (k : ℕ) :
    Except Panic (State Proc Buf) := do
  let s ← freeChain (NUM + 1)
    { s with info := update s.info idx.i0 { s.info idx.i0 with b := none } } idx.i0
  .ok ({ s with lock := none, log := .returned p k c :: s.log }.setPc p .idle)

def orPanic (s : State Proc Buf) : Except Panic (State Proc Buf) → State Proc Buf
  | .ok s' => s'
  | .error e => { s with panic := some e }

def acquire (s : State Proc Buf) (p : Proc) (c : Pc Buf) : Option (State Proc Buf) :=
  if s.lock = none then some ({ s with lock := some (.proc p) }.setPc p c) else none

def go (s : State Proc Buf) (p : Proc) : Option (State Proc Buf) :=
  match s.pc p with
  | .idle | .sleepFree _ | .sleepBuf .. => none
  | .lock c => s.acquire p (.alloc c)
  | .alloc c => some (s.orPanic (s.allocStep p c))
  | .publish c idx =>
    some ({ s with availIdx := s.availIdx + 1, published := s.published + 1 }.setPc p
      (.wait c idx s.published))
  | .wait c idx k =>
    if s.disk c.b then some ({ s with lock := none }.setPc p (.sleepBuf c idx k))
    else some (s.orPanic (s.finishStep p c idx k))
  | .relock c idx k => s.acquire p (.wait c idx k)

/-! ## `virtio_disk_intr` -/

/-- One round of the loop of `virtio_disk_intr`. -/
def intr (s : State Proc Buf) : Option (State Proc Buf) :=
  if s.lock = some .intr then
    if s.usedIdx = s.usedEnd then some { s with lock := none }
    else
      let id := s.used (s.usedIdx.toNat % NUM)
      if (s.info id).status ≠ 0 then some { s with panic := some .intrStatus }
      else
        match (s.info id).b with
        | none => some { s with panic := some .intrNull }
        | some b =>
          some ({ s with disk := update s.disk b false, usedIdx := s.usedIdx + 1 }.wakeup (.buf b))
  else none

/-! ## The device -/

def fetch (s : State Proc Buf) : Option (State Proc Buf) :=
  if s.seen = s.availIdx then none
  else
    some { s with
      working := (s.avail (s.seen.toNat % NUM), s.fetched) :: s.working
      seen := s.seen + 1
      fetched := s.fetched + 1 }

/-- The device carries out the request `e`, which is a head and the number of its entry. -/
def serve (s : State Proc Buf) (e : ℕ × ℕ) : Option (State Proc Buf) :=
  if e ∈ s.working then
    let d0 := s.desc e.1
    let d1 := s.desc d0.next
    let d2 := s.desc d1.next
    match d0.addr, d1.addr, d2.addr with
    | .op i, .data b, .status j =>
      some { s with
        working := s.working.erase e
        served := e :: s.served
        info := update s.info j { s.info j with status := 0 }
        log := .completed e.2 (s.ops i) b :: s.log }
    | _, _, _ => none
  else none

def post (s : State Proc Buf) (e : ℕ × ℕ) : Option (State Proc Buf) :=
  if e ∈ s.served then
    some { s with
      served := s.served.erase e
      used := update s.used (s.usedEnd.toNat % NUM) e.1
      usedEnd := s.usedEnd + 1 }
  else none

end State

inductive Act (Proc Buf : Type) where
  | acquiresleep (p : Proc) (b : Buf)
  | releasesleep (p : Proc) (b : Buf)
  | rw (p : Proc) (c : Call Buf)
  | go (p : Proc)
  | kill (p : Proc)
  /-- An interrupt, and a round of its handler. -/
  | interrupt
  | intr
  | fetch
  | serve (e : ℕ × ℕ)
  | post (e : ℕ × ℕ)

/-- A step of a system that has not panicked. -/
def step (s : State Proc Buf) : Act Proc Buf → Option (State Proc Buf)
  | .acquiresleep p b =>
    if s.pc p = .idle ∧ s.locked b =
      none then some { s with locked := update s.locked b (some p) } else none
  | .releasesleep p b =>
    if s.pc p = .idle ∧ s.locked b =
      some p then some { s with locked := update s.locked b none } else none
  | .rw p c => if s.pc p = .idle ∧ s.locked c.b = some p then some (s.setPc p (.lock c)) else none
  | .go p => s.go p
  | .kill p => if (s.pc p).chan = none then none else some (s.setPc p (s.pc p).wake)
  | .interrupt => if s.lock = none then some { s with lock := some .intr } else none
  | .intr => s.intr
  | .fetch => s.fetch
  | .serve e => s.serve e
  | .post e => s.post e

def next (s : State Proc Buf) (a : Act Proc Buf) : Option (State Proc Buf) :=
  if s.panic = none then step s a else none

def boot : State Proc Buf where
  desc _ := ⟨.null, 0, 0, 0⟩
  avail _ := 0
  availIdx := 0
  used _ := 0
  usedEnd := 0
  usedIdx := 0
  free _ := true
  info _ := ⟨none, 0⟩
  ops _ := ⟨.input, 0⟩
  lock := none
  pc _ := .idle
  disk _ := false
  locked _ := none
  seen := 0
  working := []
  served := []
  published := 0
  fetched := 0
  log := []
  panic := none

end LazyXv6.Virtio
