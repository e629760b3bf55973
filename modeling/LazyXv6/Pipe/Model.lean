import LazyXv6.Lib.Runs
import LazyXv6.Lib.Ring

/-!
# Pipes (`pipe.c`)

`pipewrite`, `piperead` and `pipeclose` on one pipe, run by any number of processes whose steps
interleave. A step is what a process does until it next acquires or releases a lock or re-tests a
loop condition; `wakeup` visits one process per step, under that process's lock.

* `sleep` releases `pi->lock` while it holds `p->lock` (`falling`), and is asleep after that.
  Whoever visits a process waits for its `p->lock`.
* `copyin` reads any byte of user memory or fails, `copyout` succeeds or fails (`Io`).
* A process in a call has a descriptor for its end of the pipe. So `pipeclose`, which the last
  `close` of an end calls, does not meet a call through that end, and no call meets a pipe that was
  freed.

Ghost fields record what the pipe has accepted, given out and delivered.
-/

namespace LazyXv6.Pipe

open Lib Function

abbrev pipeSize : ℕ := 512

/-- The channels `&pi->nread`, for readers, and `&pi->nwrite`, for writers. -/
inductive Chan where
  | nread
  | nwrite
  deriving DecidableEq

inductive Call where
  | write (n : ℤ) (i : ℕ)
  | read (n : ℤ)
  | close (writable : Bool)
  deriving DecidableEq

/-- What follows a `wakeup`. -/
inductive After where
  /-- `sleep(&pi->nwrite, &pi->lock)` -/
  | sleep (n : ℤ) (i : ℕ)
  | written
  | done
  deriving DecidableEq

inductive Pc (N : ℕ) where
  | user
  | acquire (call : Call)
  /-- At the loop of `pipewrite`; `placed` if it has put a byte in the ring since it has the
  lock. -/
  | write (n : ℤ) (i : ℕ) (placed : Bool)
  /-- At the first loop of `piperead`, and at the second. -/
  | read (n : ℤ)
  | readCopy (n : ℤ) (i : ℕ)
  /-- `piperead` has seen that the process is not killed, and is not in `sleep` yet. -/
  | readSleep (n : ℤ)
  | close (writable : Bool)
  | wakeup (chan : Chan) (visit : List (Fin N)) (k : After)
  | falling (chan : Chan) (call : Call)
  | sleeping (chan : Chan) (call : Call)
  | runnable (call : Call)
  deriving DecidableEq

structure State (N : ℕ) where
  data : ℕ → UInt8
  nread : UInt32
  nwrite : UInt32
  readopen : Bool
  writeopen : Bool
  lock : Option (Fin N)
  pc : Fin N → Pc N
  killed : Fin N → Bool
  /-- There are descriptors for the read end, and for the write end. -/
  readHeld : Bool
  writeHeld : Bool
  accepted : List UInt8
  taken : List UInt8
  delivered : List UInt8
  /-- A `copyout` has failed. -/
  lost : Bool

/-- What user memory says to a step. -/
structure Io where
  copyin : Option UInt8
  copyout : Bool

variable {N : ℕ}

/-- The call is one through the write end (`true`) or the read end. -/
def Call.through (writable : Bool) : Call → Bool
  | .write .. => writable
  | .read _ => !writable
  | .close _ => false

def Pc.through (writable : Bool) : Pc N → Bool
  | .acquire call | .falling _ call | .sleeping _ call | .runnable call => call.through writable
  | .write .. | .wakeup _ _ (.sleep ..) | .wakeup _ _ .written => writable
  | .read _ | .readCopy .. | .readSleep _ | .wakeup .nwrite _ .done => !writable
  | .user | .close _ | .wakeup .nread _ .done => false

namespace State

def setPc (s : State N) (p : Fin N) (c : Pc N) : State N := { s with pc := update s.pc p c }

def release (s : State N) : State N := { s with lock := none }

/-- Where a call goes on once it has the lock. -/
def enter : Call → Pc N
  | .write n i => .write n i false
  | .read n => .read n
  | .close writable => .close writable

/-- `wakeup(chan)`, for all processes. -/
def wakeup (s : State N) (p : Fin N) (chan : Chan) (k : After) : State N :=
  s.setPc p (.wakeup chan (List.finRange N) k)

def pipewrite (s : State N) (p : Fin N) (n : ℤ) (i : ℕ) (io : Io) : State N :=
  if (i : ℤ) < n then
    if !s.readopen || s.killed p then s.release.setPc p .user
    else if s.nwrite = s.nread + 512 then s.wakeup p .nread (.sleep n i)
    else
      match io.copyin with
      | none => s.wakeup p .nread .written
      | some ch =>
        { s with
          data := update s.data (s.nwrite.toNat % pipeSize) ch
          nwrite := s.nwrite + 1
          accepted := s.accepted ++ [ch] }.setPc p (.write n (i + 1) true)
  else s.wakeup p .nread .written

def piperead (s : State N) (p : Fin N) (n : ℤ) : State N :=
  if s.nread = s.nwrite ∧ s.writeopen = true then
    if s.killed p then s.release.setPc p .user
    else s.setPc p (.readSleep n)
  else s.setPc p (.readCopy n 0)

def pipereadCopy (s : State N) (p : Fin N) (n : ℤ) (i : ℕ) (io : Io) : State N :=
  if (i : ℤ) < n then
    if s.nread = s.nwrite then s.wakeup p .nwrite .done
    else
      let ch := s.data (s.nread.toNat % pipeSize)
      let s := { s with nread := s.nread + 1, taken := s.taken ++ [ch] }
      if io.copyout then
        { s with delivered := s.delivered ++ [ch] }.setPc p (.readCopy n (i + 1))
      else { s with lost := true }.wakeup p .nwrite .done
  else s.wakeup p .nwrite .done

def pipeclose (s : State N) (p : Fin N) (writable : Bool) : State N :=
  if writable then { s with writeopen := false }.wakeup p .nread .done
  else { s with readopen := false }.wakeup p .nwrite .done

/-- `wakeup` has visited all processes. -/
def afterWakeup (s : State N) (p : Fin N) : After → State N
  | .sleep n i => s.release.setPc p (.falling .nwrite (.write n i))
  | .written | .done => s.release.setPc p .user

/-- `wakeup` visits `q`; `none` while `q` holds its lock. -/
def visit (s : State N) (p q : Fin N) (chan : Chan) : Option (State N) :=
  if q = p then some s
  else
    match s.pc q with
    | .falling .. => none
    | .sleeping c call => some (if c = chan then s.setPc q (.runnable call) else s)
    | _ => some s

def go (s : State N) (p : Fin N) (io : Io) : Option (State N) :=
  match s.pc p with
  | .user | .sleeping .. => none
  | .acquire call =>
    if s.lock = none then some ({ s with lock := some p }.setPc p (enter call)) else none
  | .write n i _ => some (s.pipewrite p n i io)
  | .read n => some (s.piperead p n)
  | .readCopy n i => some (s.pipereadCopy p n i io)
  | .readSleep n => some (s.release.setPc p (.falling .nread (.read n)))
  | .close writable => some (s.pipeclose p writable)
  | .wakeup _ [] k => some (s.afterWakeup p k)
  | .wakeup chan (q :: qs) k => (s.visit p q chan).map fun s => s.setPc p (.wakeup chan qs k)
  | .falling chan call => some (s.setPc p (.sleeping chan call))
  | .runnable call => some (s.setPc p (.acquire call))

/-- `kill`, at the process it is for. -/
def kill (s : State N) (q : Fin N) : Option (State N) :=
  match s.pc q with
  | .falling .. => none
  | .sleeping _ call => some ({ s with killed := update s.killed q true }.setPc q (.runnable call))
  | _ => some { s with killed := update s.killed q true }

/-- The end has descriptors, and the last one is closed. -/
def closeEnd (s : State N) (writable : Bool) : Option (State N) :=
  if (∃ p, (s.pc p).through writable = true) then none
  else if writable then (if s.writeHeld then some { s with writeHeld := false } else none)
  else if s.readHeld then some { s with readHeld := false } else none

end State

inductive Act (N : ℕ) where
  | go (p : Fin N) (io : Io)
  | pipewrite (p : Fin N) (n : ℤ)
  | piperead (p : Fin N) (n : ℤ)
  | pipeclose (p : Fin N) (writable : Bool)
  | kill (q : Fin N)

def next (s : State N) : Act N → Option (State N)
  | .go p io => s.go p io
  | .pipewrite p n =>
    if s.pc p = .user ∧ s.writeHeld then some (s.setPc p (.acquire (.write n 0))) else none
  | .piperead p n =>
    if s.pc p = .user ∧ s.readHeld then some (s.setPc p (.acquire (.read n))) else none
  | .pipeclose p writable =>
    if s.pc p = .user then (s.closeEnd writable).map fun s => s.setPc p (.acquire (.close writable))
    else none
  | .kill q => s.kill q

/-- What `pipealloc` makes, in a page with any contents. -/
def pipealloc (data : ℕ → UInt8) : State N where
  data := data
  nread := 0
  nwrite := 0
  readopen := true
  writeopen := true
  lock := none
  pc _ := .user
  killed _ := false
  readHeld := true
  writeHeld := true
  accepted := []
  taken := []
  delivered := []
  lost := false

end LazyXv6.Pipe
