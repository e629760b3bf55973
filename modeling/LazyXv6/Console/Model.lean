import LazyXv6.Lib.Runs
import LazyXv6.Lib.Ring

/-!
# Console input (`console.c`)

`consoleintr`, which the UART calls for every character that arrives, and `consoleread`, run by any
number of processes. A step is what the code does from taking `cons.lock` (or from a turn of the
loop of `consoleread`) up to the next turn, or to giving the lock back.

* The indices `r`, `w` and `e` are `uint`s, and wrap. The indices start as zero, `buf` as anything.
* A `char` is unsigned, and `either_copyout` succeeds.
* The echo on the screen is left out.

`log` is a ghost field: the characters typed, the bytes taken out of the buffer, and what calls of
`consoleread` have returned.
-/

namespace LazyXv6.Console

open Lib Function

abbrev inputBufSize : ℕ := 128

/-- `C(x)`, Control-x -/
def ctrl (x : Char) : UInt8 := UInt8.ofNat (x.toNat - '@'.toNat)

/-- `'\n'`, `'\r'` and the delete key. -/
def newline : UInt8 := 10

@[inherit_doc newline] def carriageReturn : UInt8 := 13

@[inherit_doc newline] def delete : UInt8 := 127

/-- Where a process is in `consoleread`, with `n` bytes of `target` to go. -/
inductive Pc where
  | user
  | acquire (n target : ℤ)
  /-- At the outer loop, with the lock. -/
  | read (n target : ℤ)
  /-- The process is not killed, as the loop has seen, and not in `sleep` yet. -/
  | readSleep (n target : ℤ)
  | sleeping (n target : ℤ)
  deriving DecidableEq

inductive Event (N : ℕ) where
  | typed (c : UInt8)
  | took (p : Fin N) (c : UInt8)
  | returned (p : Fin N) (v : ℤ)
  deriving DecidableEq

structure State (N : ℕ) where
  buf : ℕ → UInt8
  r : UInt32
  w : UInt32
  e : UInt32
  lock : Option (Fin N)
  pc : Fin N → Pc
  killed : Fin N → Bool
  log : List (Event N)

variable {N : ℕ}

namespace State

def setPc (s : State N) (p : Fin N) (c : Pc) : State N := { s with pc := update s.pc p c }

def note (s : State N) (ev : Event N) : State N := { s with log := s.log ++ [ev] }

def ret (s : State N) (p : Fin N) (v : ℤ) : State N :=
  ({ s with lock := none }.setPc p .user).note (.returned p v)

/-- A process that is woken up next acquires the lock again. -/
def wake : Pc → Pc
  | .sleeping n target => .acquire n target
  | c => c

def wakeup (s : State N) : State N := { s with pc := fun p => wake (s.pc p) }

/-- The loop of `^U`; after `e - w` turns, `e` is `w`. -/
def killLine (buf : ℕ → UInt8) (w : UInt32) : ℕ → UInt32 → UInt32
  | 0, e => e
  | k + 1, e =>
    if e ≠ w ∧ buf ((e - 1).toNat % inputBufSize) ≠ newline then killLine buf w k (e - 1) else e

/-- The default case of `consoleintr`, for a character that is accepted. -/
def store (s : State N) (c : UInt8) : State N :=
  let c := if c = carriageReturn then newline else c
  let s := { s with buf := update s.buf (s.e.toNat % inputBufSize) c, e := s.e + 1 }
  if c = newline ∨ c = ctrl 'D' ∨ s.e - s.r = 128 then { s with w := s.e }.wakeup else s

def consoleintr (s : State N) (c : UInt8) : State N :=
  if c = ctrl 'P' then s
  else if c = ctrl 'U' then { s with e := killLine s.buf s.w (s.e - s.w).toNat s.e }
  else if c = ctrl 'H' ∨ c = delete then
    if s.e ≠ s.w then { s with e := s.e - 1 } else s
  else if c ≠ 0 ∧ s.e - s.r < 128 then s.store c
  else s

/-- One turn of the loop of `consoleread`. -/
def consoleread (s : State N) (p : Fin N) (n target : ℤ) : State N :=
  if 0 < n then
    if s.r = s.w then
      if s.killed p then s.ret p (-1)
      else s.setPc p (.readSleep n target)
    else
      let c := s.buf (s.r.toNat % inputBufSize)
      let s := { s with r := s.r + 1 }
      if c = ctrl 'D' then
        if n < target then { s with r := s.r - 1 }.ret p (target - n)
        else (s.note (.took p c)).ret p (target - n)
      else
        let s := s.note (.took p c)
        if c = newline then s.ret p (target - (n - 1)) else s.setPc p (.read (n - 1) target)
  else s.ret p (target - n)

def go (s : State N) (p : Fin N) : Option (State N) :=
  match s.pc p with
  | .user | .sleeping .. => none
  | .acquire n target =>
    if s.lock = none then some ({ s with lock := some p }.setPc p (.read n target)) else none
  | .read n target => some (s.consoleread p n target)
  | .readSleep n target => some ({ s with lock := none }.setPc p (.sleeping n target))

end State

inductive Act (N : ℕ) where
  | consoleintr (c : UInt8)
  | consoleread (p : Fin N) (n : ℤ)
  | go (p : Fin N)
  | kill (p : Fin N)

def next (s : State N) : Act N → Option (State N)
  | .consoleintr c => if s.lock = none then some ((s.note (.typed c)).consoleintr c) else none
  | .consoleread p n => if s.pc p = .user then some (s.setPc p (.acquire n n)) else none
  | .go p => s.go p
  | .kill p => some ({ s with killed := update s.killed p true }.setPc p (State.wake (s.pc p)))

def boot (buf : ℕ → UInt8) : State N where
  buf := buf
  r := 0
  w := 0
  e := 0
  lock := none
  pc _ := .user
  killed _ := false
  log := []

end LazyXv6.Console
