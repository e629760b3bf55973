import LazyXv6.Lib.Runs

/-!
# Exit and wait (`proc.c`)

`fork`, `exit` with `reparent`, `wait`, `waitx` and `kill`, run by the processes of the process
table in any order of steps. One step is a critical section of a `p->lock` or the acquisition or
release of `wait_lock`; `reparent`, `wakeup` and the scan of `wait` go through the table one slot
per step.

* Where a slot is (`Pc`) tells its `p->state`. A lock that is held between steps shows there, too: a
  process in `sleep` or in its last steps holds its own `p->lock`, and `allocproc` returns with that
  of the new one.
* Slot `0` is `initproc`, which does not exit.
* `waitx` is `wait` up to the times it returns. Of other uses of `sleep` nothing is said: a process
  in them is in `user`.
* `fork` fails where `allocproc` or `uvmcopy` does, and takes any unused slot.

`gen`, `forker` and `log` are not in the source: how often a slot was used, which process forked the
one in it, and who exited and was freed.
-/

namespace LazyXv6.ExitWait

open Lib Lib.SmallFin Function

abbrev Slot (n : ℕ) := Fin (n + 1)

inductive Pc (n : ℕ) where
  | unused
  /-- The state is `USED`; `parent` forks it. -/
  | used (parent : Slot n) (locked : Bool)
  | user
  | forkCopy (np : Slot n)
  | forkParent (np : Slot n)
  | forkRun (np : Slot n)
  /-- `exit`, before it has `wait_lock`. -/
  | exitLock (status : ℤ)
  | reparent (status : ℤ) (rest : List (Slot n))
  /-- In `wakeup(initproc)`. -/
  | reparentWake (status : ℤ) (rest visit : List (Slot n))
  /-- In `wakeup(p->parent)`. -/
  | exitWake (status : ℤ) (visit : List (Slot n))
  | exitSelf (status : ℤ)
  /-- A zombie with `wait_lock` and its `p->lock`, and one with its `p->lock` only. -/
  | exitRelease
  | exitSched
  | zombie
  /-- `wait`, before it has `wait_lock`; whether a status address is given. -/
  | waitLock (addr : Bool)
  | waitScan (addr : Bool) (rest : List (Slot n)) (havekids : Bool)
  /-- `wait` has seen that the process is not killed, and is not in `sleep` yet. -/
  | waitSleep (addr : Bool)
  /-- `wait` is about to return, with the process id and, if asked for, the status. -/
  | waitRelease (ret : Option (ℤ × Option ℤ))
  | falling (addr : Bool)
  | asleep (addr : Bool)
  deriving DecidableEq

/-- `enum procstate`; a process that runs counts as `RUNNABLE`. -/
inductive ProcState where
  | unused
  | used
  | sleeping
  | runnable
  | zombie
  deriving DecidableEq

namespace Pc

variable {n : ℕ}

def state : Pc n → ProcState
  | unused => .unused
  | used .. => .used
  | exitRelease | exitSched | zombie => .zombie
  | asleep _ => .sleeping
  | user | forkCopy _ | forkParent _ | forkRun _ | exitLock
    _ | reparent .. | reparentWake .. | exitWake ..
  | exitSelf _ | waitLock _ | waitScan .. | waitSleep _ | waitRelease _ | falling _ => .runnable

/-- The `p->lock` of the process is held between two steps. -/
def locked : Pc n → Bool
  | used _ locked => locked
  | exitRelease | exitSched | falling _ => true
  | _ => false

end Pc

inductive Event (n : ℕ) where
  | exited (q : Slot n) (gen : ℕ) (pid status : ℤ)
  /-- A `wait` of `p` has freed `q`. -/
  | freed (p q : Slot n) (gen : ℕ) (pid status : ℤ)
  deriving DecidableEq

structure State (n : ℕ) where
  pc : Slot n → Pc n
  parent : Slot n → Option (Slot n)
  pid : Slot n → ℤ
  xstate : Slot n → ℤ
  killed : Slot n → Bool
  waitLock : Option (Slot n)
  /-- An `int` in the source, which may wrap; no proof uses that pids grow or differ. -/
  nextpid : ℤ
  gen : Slot n → ℕ
  forker : Slot n → Option (Slot n)
  log : List (Event n)

variable {n : ℕ}

namespace State

def setPc (s : State n) (p : Slot n) (c : Pc n) : State n := { s with pc := update s.pc p c }

def release (s : State n) : State n := { s with waitLock := none }

/-- `acquire(&wait_lock)` -/
def acquire (s : State n) (p : Slot n) (c : Pc n) : Option (State n) :=
  if s.waitLock = none then some ({ s with waitLock := some p }.setPc p c) else none

def freeproc (s : State n) (q : Slot n) : State n :=
  { s with
    pc := update s.pc q .unused
    parent := update s.parent q none
    pid := update s.pid q 0
    xstate := update s.xstate q 0
    killed := update s.killed q false }

/-- `wakeup(chan)` visits `q`; in `wait` a process sleeps on itself. -/
def visit (s : State n) (p q : Slot n) (chan : Option (Slot n)) : Option (State n) :=
  if q = p then some s
  else if (s.pc q).locked then none
  else
    match s.pc q with
    | .asleep addr => some (if chan = some q then s.setPc q (.waitLock addr) else s)
    | _ => some s

/-- `wait` looks at slot `q`. `copyout` says whether the status can be copied out. -/
def scan (s : State n) (p q : Slot n) (addr copyout : Bool) (rest : List (Slot n))
    (havekids : Bool) : Option (State n) :=
  if s.parent q = some p then
    if (s.pc q).locked then none
    else if (s.pc q).state = .zombie then
      if addr && !copyout then some (s.setPc p (.waitRelease none))
      else
        some ({ s with log := .freed p q (s.gen q) (s.pid q) (s.xstate q) :: s.log }.freeproc
          q |>.setPc p (.waitRelease (some (s.pid q, if addr then some (s.xstate q) else none))))
    else some (s.setPc p (.waitScan addr rest true))
  else some (s.setPc p (.waitScan addr rest havekids))

/-- The next step of a process; `ok` says whether `uvmcopy` or `copyout` succeeds in it. -/
def go (s : State n) (p : Slot n) (ok : Bool) : Option (State n) :=
  match s.pc p with
  | .unused | .used .. | .user | .zombie | .asleep _ => none
  | .forkCopy np =>
    if ok then some ((s.setPc np (.used p false)).setPc p (.forkParent np))
    else some ((s.freeproc np).setPc p .user)
  | .forkParent np =>
    if s.waitLock = none then
      some ({ s with parent := update s.parent np (some p)
                     forker := update s.forker np (some p) }.setPc p (.forkRun np))
    else none
  | .forkRun np => some ((s.setPc np .user).setPc p .user)
  | .exitLock status => s.acquire p (.reparent status (List.finRange (n + 1)))
  | .reparent status [] => some (s.setPc p (.exitWake status (List.finRange (n + 1))))
  | .reparent status (q :: rest) =>
    if s.parent q = some p then
      some ({ s with parent := update s.parent q (some 0) }.setPc p
        (.reparentWake status rest (List.finRange (n + 1))))
    else some (s.setPc p (.reparent status rest))
  | .reparentWake status rest [] => some (s.setPc p (.reparent status rest))
  | .reparentWake status rest (q :: qs) =>
    (s.visit p q (some 0)).map fun s => s.setPc p (.reparentWake status rest qs)
  | .exitWake status [] => some (s.setPc p (.exitSelf status))
  | .exitWake status (q :: qs) =>
    (s.visit p q (s.parent p)).map fun s => s.setPc p (.exitWake status qs)
  | .exitSelf status =>
    some ({ s with xstate := update s.xstate p status
                   log := .exited p (s.gen p) (s.pid p) status :: s.log }.setPc p .exitRelease)
  | .exitRelease => some (s.release.setPc p .exitSched)
  | .exitSched => some (s.setPc p .zombie)
  | .waitLock addr => s.acquire p (.waitScan addr (List.finRange (n + 1)) false)
  | .waitScan addr [] havekids =>
    if !havekids || s.killed p then some (s.release.setPc p .user)
    else some (s.setPc p (.waitSleep addr))
  | .waitSleep addr => some (s.release.setPc p (.falling addr))
  | .waitScan addr (q :: rest) havekids => s.scan p q addr ok rest havekids
  | .waitRelease _ => some (s.release.setPc p .user)
  | .falling addr => some (s.setPc p (.asleep addr))

/-- `kill`, at the slot it is for. -/
def kill (s : State n) (q : Slot n) : Option (State n) :=
  if (s.pc q).locked then none
  else
    match s.pc q with
    | .asleep addr => some ({ s with killed := update s.killed q true }.setPc q (.waitLock addr))
    | _ => some { s with killed := update s.killed q true }

end State

inductive Act (n : ℕ) where
  | go (p : Slot n) (ok : Bool)
  | fork (p np : Slot n)
  | exit (p : Slot n) (status : ℤ)
  | wait (p : Slot n) (addr : Bool)
  | kill (q : Slot n)

def next (s : State n) : Act n → Option (State n)
  | .go p ok => s.go p ok
  | .fork p np =>
    if s.pc p = .user ∧ s.pc np = .unused then
      some ({ s with pid := update s.pid np s.nextpid
                     nextpid := s.nextpid + 1
                     gen := update s.gen np (s.gen np + 1) }.setPc np (.used p true) |>.setPc p
                     (.forkCopy np))
    else none
  | .exit p status =>
    if s.pc p = .user ∧ p ≠ 0 then some (s.setPc p (.exitLock status)) else none
  | .wait p addr => if s.pc p = .user then some (s.setPc p (.waitLock addr)) else none
  | .kill q => s.kill q

/-- After `userinit`, with `init` as the only process. -/
def boot : State n where
  pc := update (fun _ => .unused) 0 .user
  parent _ := none
  pid := update (fun _ => 0) 0 1
  xstate _ := 0
  killed _ := false
  waitLock := none
  nextpid := 2
  gen _ := 0
  forker _ := none
  log := []

end LazyXv6.ExitWait
