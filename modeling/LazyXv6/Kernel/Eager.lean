import LazyXv6.Kernel.System
import LazyXv6.Kernel.ExecRules

/-!
# The reference system: `fork` copies every page

What user programs are to see: a process is a size and private pages, `fork` copies the pages, a
store writes directly, and memory never runs out. `State.eager` is the view of a state of the
machine as one of this system.
-/

namespace LazyXv6.Kernel

structure EagerProc where
  sz : ℕ
  pages : ℕ → Option Page
  zombie : Bool

/-- The page at `va`, if user code may make an access to it that needs `want`. -/
def EagerProc.page (pr : EagerProc) (want : Page → Bool) (va : ℕ) : Option Page :=
  (pr.pages (va / pgSize)).filter fun page => page.u && want page

abbrev EagerState (N : ℕ) := Fin N → Option EagerProc

namespace EagerState

variable {N : ℕ}

def running (t : EagerState N) (p : Fin N) : Option EagerProc :=
  match t p with
  | none => none
  | some pr => if pr.zombie then none else some pr

def unused (t : EagerState N) : Option (Fin N) :=
  (List.finRange N).find? fun p => (t p).isNone

def put (t : EagerState N) (p : Fin N) (pr : Option EagerProc) : EagerState N :=
  Function.update t p pr

def runUser (t : EagerState N) (p : Fin N) (pr : EagerProc) : UserOp N → EagerState N × Out N
  | .load _ va =>
    match pr.page (·.r) va with
    | none => (t.put p (some { pr with zombie := true }), .killed)
    | some page => (t, .value (page.bytes (va % pgSize)))
  | .store _ va b =>
    match pr.page (·.w) va with
    | none => (t.put p (some { pr with zombie := true }), .killed)
    | some _ =>
      (t.put p (some { pr with pages := stored pr.pages (va / pgSize) (va % pgSize) [b] }), .idle)
  | .fork _ =>
    match t.unused with
    | none => (t, .ret (-1))
    | some c => (t.put c (some { pr with zombie := false }), .child c)
  | .sbrk _ n =>
    (t.put p (some ⟨grownSize pr.sz n, resized pr.pages (pagesOf pr.sz)
      (pagesOf (grownSize pr.sz n)) (zeroPage { w := true }), pr.zombie⟩), .ret pr.sz)
  | .exit _ => (t.put p (some { pr with zombie := true }), .idle)
  | .copyout _ dstva src =>
    (t.put p (some { pr with pages := (copyoutImage src.length pr.pages dstva src).1 }),
      .ret (if (copyoutImage src.length pr.pages dstva src).2 then 0 else -1))
  | .reap _ => (t, .idle)

def step (t : EagerState N) (u : UserOp N) : EagerState N × Out N :=
  match u with
  | .reap p =>
    match t p with
    | none => (t, .idle)
    | some pr => if pr.zombie then (t.put p none, .idle) else (t, .idle)
  | u =>
    match t.running u.proc with
    | none => (t, .idle)
    | some pr => t.runUser u.proc pr u

end EagerState

/-- Every page in the range of a `copyout` may be written by user code, if it is open to it. -/
def Space.MayCopyout (sp : Space) (dstva : ℕ) (src : List UInt8) : Prop :=
  ∀ v < pagesOf (dstva + src.length), dstva / pgSize ≤ v →
    (sp.pagetable.pte v).v = true → (sp.pagetable.pte v).u = true →
      (sp.pagetable.pte v).w = true ∨ (sp.pagetable.pte v).cow = true

instance (sp : Space) (dstva : ℕ) (src : List UInt8) : Decidable (sp.MayCopyout dstva src) :=
  inferInstanceAs (Decidable (∀ v < _, _))

def Space.eager (k : Kmem) (sp : Space) : EagerProc := ⟨sp.sz, sp.image k, sp.zombie⟩

def State.eager {N : ℕ} (s : State N) : EagerState N :=
  fun p => (s.space p).map (Space.eager s.kmem)

end LazyXv6.Kernel
