import LazyXv6.Kernel.Vm
import LazyXv6.Lib.Runs
import LazyXv6.Lib.SlotPool

/-!
# Copy-on-write, step by step

`kalloc`, `kfree`, `uvmunmap`, `uvmcopy` and the two places that resolve a copy-on-write page, cut
into atomic steps. One step is a critical section of `ref_page_lock` or of `kmem.lock`, the update
of a page-table entry, the `memset` of a page, or one byte of the `memmove` of a page. The threads
of all processes take their steps in any order.

* A thread works on the page table of its own process, and in `fork` on that of the child, which
  does not run yet. The page table of a process that has exited is freed by its own thread here, in
  its last steps. `user` stands for user mode and for the rest of the kernel.
* `walk` allocates tables for `mappages`; which of them are missing is left open (`Act.table`).
* The pages that the kernel has for other uses are `held`. It may allocate, write and free them.
* `copyout` to a page that is not copy-on-write is a `store`, as far as the page is writable.
* `m` is the number of virtual pages. A panic ends the thread.

Two fields are not in the source: what an entry counts for (`Share`), and the `log` of the free
list.
-/

namespace LazyXv6.Kernel.Threads

open Lib Lib.SmallFin Function

/-- What a page-table entry counts for. It is `sole` if its page has no other reference. -/
inductive Share where
  | counted
  | sole
  /-- `uvmcopy` has not counted it yet. -/
  | uncounted
  /-- `uvmunmap` has called `kfree` for it. -/
  | freed
  deriving DecidableEq

structure Entry where
  pte : Pte
  share : Share

def Entry.zero : Entry := ⟨default, .freed⟩

inductive Fault where
  | usertrap
  | copyout

inductive MapFor (n m : ℕ) where
  | cow (f : Fault) (v : Fin m) (newPage : ℕ) (flags : Perm)
  | page (v : Fin m) (mem : ℕ) (perm : Perm)
  | copy (child : Fin n) (i : Fin m) (vs : List (Fin m)) (pa : ℕ) (flags : Perm)

inductive AllocFor (n m : ℕ) where
  | cow (f : Fault) (v : Fin m) (pa : ℕ) (flags : Perm)
  | page (v : Fin m) (perm : Perm)
  | table (k : MapFor n m)
  | kernel

inductive UnmapFor (n m : ℕ) where
  | cow (f : Fault) (v : Fin m) (newPage : ℕ) (flags : Perm)
  | shrink (newsz : ℕ)
  | exit
  | forkFails (child : Fin n)

inductive FreeFor (n m : ℕ) where
  | unmap (v : Fin m) (vs : List (Fin m)) (k : UnmapFor n m)
  /-- `mappages` failed, in a copy-on-write branch or in `uvmalloc`. -/
  | newPage (f : Option Fault)
  | kernel

inductive Pc (n m : ℕ) where
  | unused
  | embryo (parent : Fin n)
  | user
  /-- `*req_pte &= ~PTE_COW` and `*req_pte |= PTE_W`. -/
  | clearCow (v : Fin m)
  | setW (v : Fin m)
  | kalloc (k : AllocFor n m)
  | kallocFill (r : ℕ) (k : AllocFor n m)
  | kallocCount (r : ℕ) (k : AllocFor n m)
  | memmove (f : Fault) (v : Fin m) (pa newPage : ℕ) (flags : Perm) (off : ℕ)
  | unmap (vs : List (Fin m)) (k : UnmapFor n m)
  | unmapClear (v : Fin m) (vs : List (Fin m)) (k : UnmapFor n m)
  | kfree (pa : ℕ) (k : FreeFor n m)
  | kfreeCount (pa : ℕ) (k : FreeFor n m)
  | kfreeFill (pa : ℕ) (k : FreeFor n m)
  | kfreePush (pa : ℕ) (k : FreeFor n m)
  | zero (v : Fin m) (mem : ℕ) (perm : Perm)
  | map (k : MapFor n m)
  | copy (child : Fin n) (vs : List (Fin m))
  | copySetCow (child : Fin n) (i : Fin m) (vs : List (Fin m))
  | copyClearW (child : Fin n) (i : Fin m) (vs : List (Fin m))
  | copyCount (child : Fin n) (i : Fin m) (vs : List (Fin m)) (pa : ℕ)
  /-- `copyout`, after its copy-on-write branch. -/
  | write (v : Fin m)

structure State (n m : ℕ) where
  kmem : Kmem
  entry : Fin n → Fin m → Entry
  pc : Fin n → Pc n m
  /-- `p->sz`, in pages. -/
  sz : Fin n → ℕ
  held : ℕ → Bool
  log : List (PoolEvent ℕ)

variable {n m : ℕ}

def pages (a b : ℕ) : List (Fin m) := (List.finRange m).filter fun v => a ≤ v ∧ v < b

def setEntry (entry : Fin n → Fin m → Entry) (q : Fin n) (v : Fin m) (e : Entry) :
    Fin n → Fin m → Entry := update entry q (update (entry q) v e)

namespace State

def setPc (s : State n m) (p : Fin n) (c : Pc n m) : State n m := { s with pc := update s.pc p c }

def setEntry (s : State n m) (q : Fin n) (v : Fin m) (e : Entry) : State n m :=
  { s with entry := Threads.setEntry s.entry q v e }

def setKmem (s : State n m) (k : Kmem) : State n m := { s with kmem := k }

def setCount (s : State n m) (pa : ℕ) (c : ℤ) : State n m :=
  s.setKmem { s.kmem with referenceCounter := update s.kmem.referenceCounter pa c }

def setMem (s : State n m) (pa : ℕ) (bytes : ℕ → UInt8) : State n m :=
  s.setKmem { s.kmem with mem := update s.kmem.mem pa bytes }

/-- `*pte = f(*pte)` -/
def setPte (s : State n m) (q : Fin n) (v : Fin m) (f : Pte → Pte) (share : Share) : State n m :=
  s.setEntry q v ⟨f (s.entry q v).pte, share⟩

/-- `exit(-1)`, up to the call of `uvmunmap` for the pages of the process. -/
def exit (s : State n m) (p : Fin n) : State n m :=
  s.setPc p (.unmap (pages 0 (s.sz p)) .exit)

/-- `kalloc` has returned 0. -/
def noMemory (s : State n m) (p : Fin n) : AllocFor n m → State n m
  | .cow .usertrap .. => s.exit p
  | .cow .copyout .. | .page .. | .kernel => s.setPc p .user
  | .table (.cow f _ newPage _) => s.setPc p (.kfree newPage (.newPage (some f)))
  | .table (.page _ mem _) => s.setPc p (.kfree mem (.newPage none))
  | .table (.copy c i ..) => s.setPc p (.unmap (pages 0 i) (.forkFails c))

/-- The critical section at the end of `kalloc`, and its return. -/
def allocated (s : State n m) (p : Fin n) (r : ℕ) (k : AllocFor n m) : State n m :=
  let s := s.setCount r 1
  match k with
  | .cow f v pa flags => s.setPc p (.memmove f v pa r flags 0)
  | .page v perm => s.setPc p (.zero v r perm)
  | .table k => { s with held := update s.held r true }.setPc p (.map k)
  | .kernel => { s with held := update s.held r true }.setPc p .user

def freed (s : State n m) (p : Fin n) : FreeFor n m → State n m
  | .unmap v vs k => s.setPc p (.unmapClear v vs k)
  | .newPage (some .usertrap) => s.exit p
  | .newPage (some .copyout) | .newPage none | .kernel => s.setPc p .user

end State

/-- The process whose page table `uvmunmap` works on. -/
def UnmapFor.table (p : Fin n) : UnmapFor n m → Fin n
  | .forkFails c => c
  | .cow .. | .shrink _ | .exit => p

namespace State

def unmapped (s : State n m) (p : Fin n) : UnmapFor n m → State n m
  | .cow f v newPage flags => s.setPc p (.map (.cow f v newPage flags))
  | .shrink newsz => { s with sz := update s.sz p newsz }.setPc p .user
  | .exit => { s with sz := update s.sz p 0 }.setPc p .unused
  | .forkFails c => (s.setPc c .unused).setPc p .user

/-- `mappages` writes the entry and returns; `none` is the panic "mappages: remap". -/
def mapped (s : State n m) (p : Fin n) : MapFor n m → Option (State n m)
  | .cow f v newPage flags =>
    if (s.entry p v).pte.v then none
    else some ((s.setEntry p v ⟨flags.entry newPage, .sole⟩).setPc p
      (match f with | .usertrap => .user | .copyout => .write v))
  | .page v mem perm =>
    if (s.entry p v).pte.v then none
    else some ({ s with sz := update s.sz p (v + 1) }.setEntry p v
      ⟨perm.entry mem, .sole⟩ |>.setPc p .user)
  | .copy c i vs pa flags =>
    if (s.entry c i).pte.v then none
    else some ((s.setEntry c i ⟨flags.entry pa, .uncounted⟩).setPc p (.copyCount c i vs pa))

variable [Layout]

/-- The next step of a thread that has no choice; `none` if it does not run, or panics. -/
def go (s : State n m) (p : Fin n) : Option (State n m) :=
  match s.pc p with
  | .unused | .embryo _ | .user | .write _ => none
  | .clearCow v => some ((s.setPte p v (fun e => { e with cow := false }) .sole).setPc p (.setW v))
  | .setW v => some ((s.setPte p v (fun e => { e with w := true }) .sole).setPc p .user)
  | .kalloc k =>
    match s.kmem.freelist with
    | [] => some (s.noMemory p k)
    | r :: rest =>
      some ({ s with kmem := { s.kmem with freelist := rest }, log := .taken r :: s.log }.setPc p
        (.kallocFill r k))
  | .kallocFill r k => some ((s.setMem r fun _ => 5).setPc p (.kallocCount r k))
  | .kallocCount r k => some (s.allocated p r k)
  | .memmove f v pa newPage flags off =>
    if off < pgSize then
      some ((s.setMem newPage (update (s.kmem.mem newPage) off (s.kmem.mem pa off))).setPc p
        (.memmove f v pa newPage flags (off + 1)))
    else some (s.setPc p (.unmap [v] (.cow f v newPage flags)))
  | .unmap [] k => some (s.unmapped p k)
  | .unmap (v :: vs) k =>
    if (s.entry (k.table p) v).pte.v then
      some ((s.setPte (k.table p) v id .freed).setPc p
        (.kfree (s.entry (k.table p) v).pte.ppn (.unmap v vs k)))
    else none
  | .unmapClear v vs k => some ((s.setEntry (k.table p) v .zero).setPc p (.unmap vs k))
  | .kfree pa k =>
    if pa < endPage ∨ physPages ≤ pa ∨ s.kmem.referenceCounter pa ≤ 0 then none
    else some (s.setPc p (.kfreeCount pa k))
  | .kfreeCount pa k =>
    if s.kmem.referenceCounter pa = 1 then some ((s.setCount pa 0).setPc p (.kfreeFill pa k))
    else if 1 < s.kmem.referenceCounter pa then
      some ((s.setCount pa (s.kmem.referenceCounter pa - 1)).freed p k)
    else none
  | .kfreeFill pa k => some ((s.setMem pa fun _ => 1).setPc p (.kfreePush pa k))
  | .kfreePush pa k =>
    some ({ s with kmem := { s.kmem with freelist := pa :: s.kmem.freelist },
                   log := .pushed pa :: s.log }.freed p k)
  | .zero v mem perm => some ((s.setMem mem fun _ => 0).setPc p (.map (.page v mem perm)))
  | .map k => s.mapped p k
  | .copy c [] =>
    some ({ s with sz := update s.sz c (s.sz p) }.setPc c .user |>.setPc p .user)
  | .copy c (i :: vs) =>
    let e := (s.entry p i).pte
    if !e.v then none
    else if e.w then some (s.setPc p (.copySetCow c i vs))
    else some ((s.setPte p i id .counted).setPc p (.map (.copy c i vs e.ppn e.toPerm)))
  | .copySetCow c i vs =>
    some ((s.setPte p i (fun e => { e with cow := true }) (s.entry p i).share).setPc p
      (.copyClearW c i vs))
  | .copyClearW c i vs =>
    let e := { (s.entry p i).pte with w := false }
    some ((s.setPte p i (fun _ => e) .counted).setPc p (.map (.copy c i vs e.ppn e.toPerm)))
  | .copyCount c i vs pa =>
    some (((s.setCount pa (s.kmem.referenceCounter pa + 1)).setPte c i id .counted).setPc p
      (.copy c vs))

end State

/-- What starts a sequence of steps, a step of one, or a write to memory. -/
inductive Act (n m : ℕ) where
  | go (p : Fin n)
  /-- `walk` finds no table for `mappages`. -/
  | table (p : Fin n)
  /-- The copy-on-write branch of `usertrap`, and that of `copyout`. -/
  | trap (p : Fin n) (v : Fin m)
  | copyout (p : Fin n) (v : Fin m)
  /-- `copyout` writes to the page, after that. -/
  | copyoutWrite (p : Fin n) (off : ℕ) (src : List UInt8)
  | fork (p child : Fin n)
  /-- `uvmalloc` of one page, and `uvmdealloc`. -/
  | grow (p : Fin n) (w x : Bool)
  | shrink (p : Fin n) (newsz : ℕ)
  | exit (p : Fin n)
  | kalloc (p : Fin n)
  | kfree (p : Fin n) (pa : ℕ)
  | kernelWrite (p : Fin n) (pa : ℕ) (bytes : ℕ → UInt8)
  | store (p : Fin n) (v : Fin m) (off : ℕ) (src : List UInt8)

variable [Layout]

namespace State

/-- The test of `usertrap`, in its critical section. -/
def trap (s : State n m) (p : Fin n) (v : Fin m) : State n m :=
  let e := (s.entry p v).pte
  if e.ppn = 0 then s.exit p
  else if 1 < s.kmem.referenceCounter e.ppn then
    s.setPc p (.kalloc (.cow .usertrap v e.ppn e.toPerm.uncow))
  else if s.kmem.referenceCounter e.ppn = 1 then (s.setPte p v id .sole).setPc p (.clearCow v)
  else s.exit p

def copyout (s : State n m) (p : Fin n) (v : Fin m) : State n m :=
  let e := (s.entry p v).pte
  if s.kmem.referenceCounter e.ppn ≤ 0 then s
  else s.setPc p (.kalloc (.cow .copyout v e.ppn e.toPerm.uncow))

def start (s : State n m) : Act n m → Option (State n m)
  | .trap p v =>
    if v < s.sz p ∧ (s.entry p v).pte.v ∧ (s.entry p v).pte.cow then some (s.trap p v) else none
  | .copyout p v =>
    if (s.entry p v).pte.v ∧ (s.entry p v).pte.u ∧ (s.entry p v).pte.cow then some (s.copyout p v)
    else none
  | .fork p c =>
    match s.pc c with
    | .unused => some ((s.setPc c (.embryo p)).setPc p (.copy c (pages 0 (s.sz p))))
    | _ => none
  | .grow p w x =>
    if h : s.sz p < m then
      some (s.setPc p (.kalloc (.page ⟨s.sz p, h⟩ { r := true, u := true, w := w, x := x })))
    else none
  | .shrink p newsz => some (s.setPc p (.unmap (pages newsz (s.sz p)) (.shrink newsz)))
  | .exit p => some (s.exit p)
  | .kalloc p => some (s.setPc p (.kalloc .kernel))
  | .kfree p pa =>
    if s.held pa then some ({ s with held := update s.held pa false }.setPc p (.kfree pa .kernel))
    else none
  | .store p v off src =>
    if (s.entry p v).pte.v ∧ (s.entry p v).pte.u ∧ (s.entry p v).pte.w then
      some (s.setKmem (s.kmem.write (s.entry p v).pte.ppn off src))
    else none
  | .kernelWrite _ pa bytes => if s.held pa then some (s.setMem pa bytes) else none
  | .go _ | .table _ | .copyoutWrite .. => none

end State

def Act.proc : Act n m → Fin n
  | .go p | .table p | .trap p _ | .copyout p _ | .copyoutWrite p .. | .fork p _ | .grow p ..
  | .shrink p _ | .exit p | .kalloc p | .kfree p _ | .kernelWrite p .. | .store p .. => p

def next (s : State n m) : Act n m → Option (State n m)
  | .go p => s.go p
  | .table p =>
    match s.pc p with
    | .map k => some (s.setPc p (.kalloc (.table k)))
    | _ => none
  | .copyoutWrite p off src =>
    match s.pc p with
    | .write v =>
      let e := (s.entry p v).pte
      -- `walkaddr`
      if e.v ∧ e.u then some ((s.setKmem (s.kmem.write e.ppn off src)).setPc p .user)
      else some (s.setPc p .user)
    | _ => none
  | a =>
    match s.pc a.proc with
    | .user => s.start a
    | _ => none

/-- After `kinit`, with one process that has no memory yet. -/
def boot (mem : ℕ → ℕ → UInt8) : State (n + 1) m where
  kmem := initialKmem mem
  entry _ _ := .zero
  pc := update (fun _ => .unused) 0 .user
  sz _ := 0
  held _ := false
  log := (initialKmem mem).freelist.map .pushed

/-- The entry maps its page, and `uvmunmap` has not called `kfree` for it. -/
def Entry.Live (e : Entry) : Prop := e.pte.v = true ∧ e.share ≠ .freed

end LazyXv6.Kernel.Threads
