import LazyXv6.Lib.Runs

/-!
# The LAZY file manager

`concurrency/partA.c`: `main` dispatches the requests in order, one `process_req` thread for each;
the threads share the `files` array, one mutex and one condition variable a file. The model cuts the
code at every mutex operation, condition wait, wake-up and signal, at every access that is made
without the lock (the `time_requests` counters), and between reading the time and acting on it.

* `Pc` is where a thread stands in `process_req`; the three branches of the source share their
  points.
* `fork()` gives a request a timer process (`Bullet`) that prints the cancellation after `T - 1`
  seconds unless it is killed first.
* `time(NULL) - start_time` is `State.clock`; it may tick between any two steps, and a sleep ends at
  any time once its seconds have passed.
* `files` is indexed by `fileid - 1`. `main` initialises the entries `0 .. n-1` and leaves the rest,
  and every entry's `time_requests`, as `malloc` returned them. A `fileid` outside `1..n` reaches an
  uninitialised entry, never one of the files.
* `requesttime % 100` is negative for a negative request time, and C does not check an index: such a
  request counts itself in the words that stand before the array in `fileinfo`, from
  `time_requests[-2]`, which is `writercount`, to `time_requests[-5]`, which is `concurrent_access`.

Left out: the words further down (`cond`, `lock` and the entry before) keep what is counted in them
to themselves (`FileInfo.ahead`), as does `isdeleting`, which nothing reads; the failures of `fork`
and `pthread_create`.
-/

namespace LazyXv6.FileManager

open Function

/-- `operation`: 1 for read, 2 for write, 3 for delete. -/
inductive Op where
  | read
  | write
  | delete
  deriving DecidableEq, Repr

structure UserRequest where
  userid : Int
  fileid : Int
  operation : Op
  requesttime : Int
  deriving DecidableEq, Repr

/-- The numbers `main` reads first: the seconds of a read, a write and a delete, the number of
files, the accesses a file admits at once and the users' patience. -/
structure Config where
  r : Int
  w : Int
  d : Int
  n : Int
  c : Int
  T : Int
  deriving DecidableEq, Repr

def requestTimeArraySize : Int := 100

/-- The counter of a request time: `requesttime % REQUEST_TIME_ARRAY_SIZE`. -/
def slot (rq : UserRequest) : Int := rq.requesttime.tmod requestTimeArraySize

/-- When a `sleep(secs)` called at `now` may return; the argument is converted to unsigned. -/
def wakeTime (now secs : Int) : Int := now + secs % 2 ^ 32

/-- `fileinfo`; the mutex is the thread that holds it. -/
structure FileInfo (m : ℕ) where
  lock : Option (Fin m)
  concurrentAccess : Int
  /-- The four bytes that begin with `deleted`. -/
  deletedWord : Int
  readercount : Int
  writercount : Int
  /-- The 100 integers of `time_requests`. -/
  counters : Fin 100 → Int
  /-- The other words at negative indices of `time_requests`. -/
  ahead : Int → Int

inductive Outcome where
  | cancelled
  | declined
  | completed
  deriving DecidableEq, Repr

/-- Where a thread stands in `process_req`. The flag of `woken`, `test`, `admitted`, `timed`
and `taken` records whether a signal (and not a spurious wake-up) ended the thread's last wait. -/
inductive Pc where
  /-- `pthread_create` has not been called. -/
  | idle
  /-- In `sleep(1)`. -/
  | start (wake : Int)
  /-- At the `pthread_mutex_lock` that opens the branch. -/
  | lock
  /-- At `fork()`. -/
  | locked
  /-- At `atomic_fetch_sub`. -/
  | count
  /-- DELETE: at the test of `time_requests` under the lock. -/
  | peek
  /-- DELETE: at the unlock that follows a positive test. -/
  | peekUnlock
  /-- DELETE: in the busy-wait; the flag is `flag_checker`. -/
  | spin (flagChecker : Bool)
  /-- DELETE: at the lock after the busy-wait. -/
  | relock
  /-- At the loop guard. -/
  | test (signalled : Bool)
  /-- Asleep in `pthread_cond_wait`. -/
  | waiting
  /-- Woken, about to take the mutex again. -/
  | woken (signalled : Bool)
  /-- At the `time(NULL)` of the deadline test. -/
  | admitted (signalled : Bool)
  /-- At the deadline test, and at the `kill` that follows it. -/
  | timed (signalled : Bool) (operationStartTime : Int)
  /-- Reported as taken up, at the `deleted` test. -/
  | taken (signalled : Bool)
  /-- READ, WRITE: counted, at the unlock before the operation. -/
  | entered
  /-- READ, WRITE: in `sleep(r)` or `sleep(w)`. -/
  | working (wake : Int)
  /-- READ, WRITE: at the lock after the operation. -/
  | finishing
  /-- DELETE: in `sleep(d)`, with the lock. -/
  | deleting (wake : Int)
  /-- At `pthread_cond_signal`. -/
  | signal (o : Outcome)
  /-- At the last unlock. -/
  | unlock (o : Outcome)
  | returned (o : Outcome)
  deriving DecidableEq, Repr

/-- The timer process of a request. -/
inductive Bullet where
  | none
  | armed (wake : Int)
  | printed
  | killed
  deriving DecidableEq, Repr

/-- What is printed, with the request and the second it is printed with. -/
inductive Event (m : ℕ) where
  | requested (i : Fin m) (time : Int)
  | takenUp (i : Fin m) (time : Int)
  | declined (i : Fin m) (time : Int)
  | completed (i : Fin m) (time : Int)
  | cancelled (i : Fin m) (time : Int)
  deriving DecidableEq, Repr

/-- Where `main` stands: in the dispatch loop at request `i`, or joining thread `i`. -/
inductive MainPc where
  | dispatch (i : ℕ)
  | sleep (i : ℕ) (wake : Int)
  | create (i : ℕ)
  | join (i : ℕ)
  | finished
  deriving DecidableEq, Repr

structure State (m : ℕ) where
  files : Int → FileInfo m
  pc : Fin m → Pc
  bullet : Fin m → Bullet
  main : MainPc
  clock : Int
  out : List (Event m)

variable {m : ℕ}

/-! ## `fileinfo` -/

def FileInfo.deleted (fi : FileInfo m) : Bool := decide (fi.deletedWord % 256 ≠ 0)

/-- `deleted = b`: the three bytes behind it stay. -/
def FileInfo.setDeleted (fi : FileInfo m) (b : Bool) : FileInfo m :=
  { fi with deletedWord := fi.deletedWord - fi.deletedWord % 256 + if b then 1 else 0 }

/-- `time_requests[k]`. -/
def FileInfo.timeRequests (fi : FileInfo m) (k : Int) : Int :=
  if 0 ≤ k then fi.counters (Fin.ofNat 100 k.toNat)
  else if k = -2 then fi.writercount
  else if k = -3 then fi.readercount
  else if k = -4 then fi.deletedWord
  else if k = -5 then fi.concurrentAccess
  else fi.ahead k

/-- `atomic_fetch_add(&time_requests[k], v)`. -/
def FileInfo.fetchAdd (fi : FileInfo m) (k v : Int) : FileInfo m :=
  let word := fi.timeRequests k + v
  if 0 ≤ k then { fi with counters := update fi.counters (Fin.ofNat 100 k.toNat) word }
  else if k = -2 then { fi with writercount := word }
  else if k = -3 then { fi with readercount := word }
  else if k = -4 then { fi with deletedWord := word }
  else if k = -5 then { fi with concurrentAccess := word }
  else { fi with ahead := update fi.ahead k word }

/-! ## `process_req` -/

/-- The guard of the waiting loop of each branch. -/
def guard (cfg : Config) (fi : FileInfo m) : Op → Bool
  | .read => decide (fi.concurrentAccess ≥ cfg.c)
  | .write => decide (fi.writercount > 0) || decide (fi.concurrentAccess ≥ cfg.c)
  | .delete => decide (fi.readercount > 0) || decide (fi.writercount > 0)

def FileInfo.enter (fi : FileInfo m) : Op → FileInfo m
  | .read => { fi with
      readercount := fi.readercount + 1, concurrentAccess := fi.concurrentAccess + 1 }
  | .write => { fi with
      writercount := fi.writercount + 1, concurrentAccess := fi.concurrentAccess + 1 }
  | .delete => fi

def FileInfo.leave (fi : FileInfo m) : Op → FileInfo m
  | .read => { fi with
      readercount := fi.readercount - 1, concurrentAccess := fi.concurrentAccess - 1 }
  | .write => { fi with
      writercount := fi.writercount - 1, concurrentAccess := fi.concurrentAccess - 1 }
  | .delete => fi

def Config.secs (cfg : Config) : Op → Int
  | .read => cfg.r
  | .write => cfg.w
  | .delete => cfg.d

/-- What a step of a thread changes: its file, its own place and timer, and what it prints. -/
structure Effect (m : ℕ) where
  file : FileInfo m
  pc : Pc
  bullet : Bullet
  out : List (Event m) := []

/-- One step of the thread of request `i` in `process_req`, at `now`, on its file `fi`. A thread
that sleeps, waits or finds the mutex taken has no step. -/
def processReq (cfg : Config) (rq : UserRequest) (i : Fin m) (now : Int) (fi : FileInfo m)
    (b : Bullet) : Pc → Option (Effect m)
  | .idle => none
  | .start wake => if wake ≤ now then some ⟨fi, .lock, b, []⟩ else none
  | .lock => if fi.lock = none then some ⟨{ fi with lock := some i }, .locked, b, []⟩ else none
  | .locked =>
    some ⟨fi, if rq.operation = .delete then .peek else .count, .armed (wakeTime now (cfg.T - 1)), []⟩
  | .count =>
    some ⟨fi.fetchAdd (slot rq) (-1), .test false, b, []⟩
  | .peek => some ⟨fi, if fi.timeRequests (slot rq) > 0 then .peekUnlock else .spin false, b, []⟩
  | .peekUnlock => some ⟨{ fi with lock := none }, .spin true, b, []⟩
  | .spin flagChecker =>
    if fi.timeRequests (slot rq) > 0 then some ⟨fi, .spin flagChecker, b, []⟩
    else some ⟨fi, if flagChecker then .relock else .test false, b, []⟩
  | .relock =>
    if fi.lock = none then some ⟨{ fi with lock := some i }, .test false, b, []⟩ else none
  | .test signalled =>
    if guard cfg fi rq.operation then some ⟨{ fi with lock := none }, .waiting, b, []⟩
    else some ⟨fi, .admitted signalled, b, []⟩
  | .waiting => none
  | .woken signalled =>
    if fi.lock = none then some ⟨{ fi with lock := some i }, .test signalled, b, []⟩ else none
  | .admitted signalled => some ⟨fi, .timed signalled now, b, []⟩
  | .timed signalled operationStartTime =>
    if operationStartTime - rq.requesttime ≥ cfg.T then some ⟨fi, .signal .cancelled, b, []⟩
    -- `kill(bullet, 9)` does nothing to a timer that has already printed and exited.
    else some ⟨fi, .taken signalled, if b = .printed then .printed else .killed,
      [.takenUp i operationStartTime]⟩
  | .taken _ =>
    if fi.deleted then some ⟨fi, .signal .declined, b, [.declined i now]⟩
    else if rq.operation = .delete then some ⟨fi, .deleting (wakeTime now cfg.d), b, []⟩
    else some ⟨fi.enter rq.operation, .entered, b, []⟩
  | .entered =>
    some ⟨{ fi with lock := none }, .working (wakeTime now (cfg.secs rq.operation)), b, []⟩
  | .working wake => if wake ≤ now then some ⟨fi, .finishing, b, [.completed i now]⟩ else none
  | .finishing =>
    if fi.lock = none then
      some ⟨{ fi.leave rq.operation with lock := some i }, .signal .completed, b, []⟩
    else none
  | .deleting wake =>
    if wake ≤ now then
      some ⟨fi.setDeleted true, .signal .completed, b, [.completed i now]⟩
    else none
  -- `pthread_cond_signal` also moves the thread it wakes: see `step`.
  | .signal _ => none
  | .unlock o => some ⟨{ fi with lock := none }, .returned o, b, []⟩
  | .returned _ => none

/-! ## The whole program -/

def fileOf (req : Fin m → UserRequest) (i : Fin m) : Int := (req i).fileid - 1

/-- What happens next: a thread's step, a thread's signal (to a waiter, or to nobody), a spurious
wake-up, a step of `main`, a timer that prints, a second that passes. -/
inductive Act (m : ℕ) where
  | run (i : Fin m)
  | signal (i : Fin m) (target : Option (Fin m))
  | spurious (i : Fin m)
  | main
  | timer (i : Fin m)
  | tick
  deriving DecidableEq, Repr

def asleep (req : Fin m → UserRequest) (s : State m) (f : Int) (i : Fin m) : Bool :=
  decide (fileOf req i = f) && decide (s.pc i = .waiting)

def mainStep (req : Fin m → UserRequest) (s : State m) : Option (State m) :=
  match s.main with
  | .dispatch i =>
    if h : i < m then
      let rt := (req ⟨i, h⟩).requesttime
      some { s with main := .sleep i (if rt - s.clock > 0 then rt else s.clock) }
    else some { s with main := .join 0 }
  | .sleep i wake =>
    if h : i < m ∧ wake ≤ s.clock then
      let rq := req ⟨i, h.1⟩
      let fi := s.files (fileOf req ⟨i, h.1⟩)
      let fi' := if rq.operation = .delete then fi else fi.fetchAdd (slot rq) 1
      some { s with
        files := update s.files (fileOf req ⟨i, h.1⟩) fi'
        out := s.out ++ [.requested ⟨i, h.1⟩ rq.requesttime]
        main := .create i }
    else none
  | .create i =>
    if h : i < m then
      some { s with
        pc := update s.pc ⟨i, h⟩ (.start (wakeTime s.clock 1))
        main := .dispatch (i + 1) }
    else none
  | .join i =>
    if h : i < m then
      match s.pc ⟨i, h⟩ with
      | .returned _ => some { s with main := .join (i + 1) }
      | _ => none
    else some { s with main := .finished }
  | .finished => none

def step (cfg : Config) (req : Fin m → UserRequest) (s : State m) : Act m → Option (State m)
  | .run i =>
    (processReq cfg (req i) i s.clock (s.files (fileOf req i)) (s.bullet i) (s.pc i)).map fun e =>
      { s with
        files := update s.files (fileOf req i) e.file
        pc := update s.pc i e.pc
        bullet := update s.bullet i e.bullet
        out := s.out ++ e.out }
  | .signal i target =>
    match s.pc i, target with
    | .signal o, some j =>
      if asleep req s (fileOf req i) j then
        some { s with pc := update (update s.pc j (.woken true)) i (.unlock o) }
      else none
    | .signal o, none =>
      -- A signal is lost only when nobody is asleep on the file.
      if ∀ j, asleep req s (fileOf req i) j = false then
        some { s with pc := update s.pc i (.unlock o) }
      else none
    | _, _ => none
  | .spurious i =>
    if s.pc i = .waiting then some { s with pc := update s.pc i (.woken false) } else none
  | .main => mainStep req s
  | .timer i =>
    match s.bullet i with
    | .armed wake =>
      if wake ≤ s.clock then
        some { s with
          bullet := update s.bullet i .printed
          out := s.out ++ [.cancelled i ((req i).requesttime + cfg.T)] }
      else none
    | _ => none
  | .tick => some { s with clock := s.clock + 1 }

/-- `main` before its dispatch loop, on the bytes that `malloc` returned for `files`. -/
def init (cfg : Config) (bytes : Int → FileInfo m) : State m where
  files f :=
    if 0 ≤ f ∧ f < cfg.n then { (bytes f).setDeleted false with
      lock := none, concurrentAccess := 0, readercount := 0, writercount := 0 }
    else bytes f
  pc _ := .idle
  bullet _ := .none
  main := .dispatch 0
  clock := 0
  out := []

end LazyXv6.FileManager
