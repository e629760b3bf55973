import LazyXv6.Kernel.PageTable

/-!
# User memory (`vm.c`, the page-fault branch of `usertrap`)

Sizes and virtual addresses are `uint64`; where one may wrap, the wrap is written out. A flag
`false` in a result stands for the return value -1 (or 0, for a pointer or a size).
-/

namespace LazyXv6.Kernel

open Lib

variable [Layout]

def pgRoundUp (sz : ℕ) : ℕ := (sz + pgSize - 1) % 2 ^ 64 / pgSize * pgSize

/-- The conversion of a `uint64` to `int` and back. -/
def throughInt (n : ℕ) : ℕ :=
  if n % 2 ^ 32 < 2 ^ 31 then n % 2 ^ 32 else n % 2 ^ 32 + (2 ^ 64 - 2 ^ 32)

def uvmdealloc (k : Kmem) (pt : PageTable) (oldsz newsz : ℕ) :
    Except Panic (Kmem × PageTable × ℕ) :=
  if oldsz ≤ newsz then .ok (k, pt, oldsz)
  else if pgRoundUp newsz < pgRoundUp oldsz then do
    -- `int npages`
    let npages := throughInt ((pgRoundUp oldsz - pgRoundUp newsz) / pgSize)
    let (k, pt) ← uvmunmap k pt (pgRoundUp newsz) npages true
    .ok (k, pt, newsz)
  else .ok (k, pt, newsz)

/-- The loop of `uvmalloc`, `n` pages from page `v` on, with `oldsz` already rounded up. -/
def uvmallocLoop (xperm : Perm) (oldsz : ℕ) :
    ℕ → Kmem → PageTable → ℕ → Except Panic (Kmem × PageTable × Bool)
  | 0, k, pt, _ => .ok (k, pt, true)
  | n + 1, k, pt, v =>
    match kalloc k with
    | (k, none) => do
      let (k, pt, _) ← uvmdealloc k pt (v * pgSize) oldsz
      .ok (k, pt, false)
    | (k, some mem) => do
      let (k, pt, ok) ← mappages (k.memset mem 0) pt (v * pgSize) pgSize mem
        { xperm with r := true, u := true }
      if ok then uvmallocLoop xperm oldsz n k pt (v + 1)
      else do
        let k ← kfree k mem
        let (k, pt, _) ← uvmdealloc k pt (v * pgSize) oldsz
        .ok (k, pt, false)

def uvmalloc (k : Kmem) (pt : PageTable) (oldsz newsz : ℕ) (xperm : Perm) :
    Except Panic (Kmem × PageTable × ℕ) :=
  if newsz < oldsz then .ok (k, pt, oldsz)
  else do
    let (k, pt, ok) ← uvmallocLoop xperm (pgRoundUp oldsz)
      ((newsz - pgRoundUp oldsz + pgSize - 1) / pgSize) k pt (pgRoundUp oldsz / pgSize)
    .ok (k, pt, if ok then newsz else 0)

def uvmfree (k : Kmem) (pt : PageTable) (sz : ℕ) : Except Panic Kmem := do
  let r ← (if 0 < sz then uvmunmap k pt 0 (pgRoundUp sz / pgSize) true else .ok (k, pt))
  freewalk r.1 r.2

def Kmem.incRef (k : Kmem) (pa : ℕ) : Kmem :=
  { k with referenceCounter := Function.update k.referenceCounter pa (k.referenceCounter pa + 1) }

/-- A writable entry becomes copy-on-write. -/
def Pte.toCow (p : Pte) : Pte := if p.w then { p with w := false, cow := true } else p

def uvmcopyLoop : ℕ → Kmem → PageTable → PageTable → ℕ →
    Except Panic (Kmem × PageTable × PageTable × Bool)
  | 0, k, old, new, _ => .ok (k, old, new, true)
  | n + 1, k, old, new, i => do
    match ← walk old i with
    | none => .error .uvmcopyPteShouldExist
    | some p =>
      if !p.v then .error .uvmcopyPageNotPresent
      else do
        let old := if p.w then old.set i p.toCow else old
        let (k, new, ok) ← mappages k new (i * pgSize) pgSize p.ppn p.toCow.toPerm
        if ok then
          uvmcopyLoop n (k.incRef p.ppn) old new (i + 1)
        else do
          let (k, new) ← uvmunmap k new 0 i true
          .ok (k, old, new, false)

def uvmcopy (k : Kmem) (old new : PageTable) (sz : ℕ) :
    Except Panic (Kmem × PageTable × PageTable × Bool) :=
  uvmcopyLoop ((sz + pgSize - 1) / pgSize) k old new 0

def uvmclear (pt : PageTable) (va : ℕ) : Except Panic PageTable := do
  match ← walk pt (va / pgSize) with
  | none => .error .uvmclear
  | some p => .ok (pt.set (va / pgSize) { p with u := false })

/-- `uvmfirst`. Neither `kalloc` nor `mappages` is checked: a failing `kalloc` makes `memset` write
at address 0, and a failing `mappages` leaves the first process without its page. -/
def uvmfirst (k : Kmem) (pt : PageTable) (src : List UInt8) : Except Panic (Kmem × PageTable) :=
  if pgSize ≤ src.length then .error .uvmfirstMoreThanAPage
  else
    match kalloc k with
    | (_, none) => .error .kerneltrap
    | (k, some mem) => do
      let r ← mappages (k.memset mem 0) pt 0 pgSize mem { w := true, r := true, x := true, u := true }
      if r.2.2 then .ok (r.1.write mem 0 src, r.2.1) else .error .initExiting

/-! ## Copy-on-write -/

def Perm.uncow (p : Perm) : Perm := { p with w := true, cow := false }

def iscowpage (pt : PageTable) (sz va : ℕ) : Except Panic Bool :=
  if sz ≤ va then .ok false
  else do
    match ← walk pt (va / pgSize) with
    | none => .ok false
    | some p => .ok (p.v && p.cow)

/-- The page of `p` is copied to `newPage`, unmapped at `va` and mapped again as page `v`. -/
def cowRemap (k : Kmem) (pt : PageTable) (va v newPage : ℕ) (p : Pte) :
    Except Panic (Kmem × PageTable × Bool) := do
  let r ← uvmunmap (k.copyPage newPage p.ppn) pt va 1 true
  let s ← mappages r.1 r.2 (v * pgSize) pgSize newPage p.toPerm.uncow
  if s.2.2 then .ok s
  else do
    let k ← kfree s.1 newPage
    .ok (k, s.2.1, false)

/-- The copy-on-write branch of `usertrap`, for a fault on page `v`. -/
def usertrapCow (k : Kmem) (pt : PageTable) (v : ℕ) : Except Panic (Kmem × PageTable × Bool) := do
  match ← walk pt v with
  | none => .ok (k, pt, false)
  | some p =>
    if !p.v || p.ppn = 0 then .ok (k, pt, false)
    else if 1 < k.referenceCounter p.ppn then
      match kalloc k with
      | (k, none) => .ok (k, pt, false)
      | (k, some newPage) => cowRemap k pt (v * pgSize) v newPage p
    else if k.referenceCounter p.ppn = 1 then
      .ok (k, pt.set v ⟨p.toPerm.uncow, p.ppn⟩, true)
    else .ok (k, pt, false)

/-- `usertrap` on a load or store page fault at `va`; the flag is false if the process is killed. -/
def usertrap (k : Kmem) (pt : PageTable) (sz va : ℕ) : Except Panic (Kmem × PageTable × Bool) := do
  if ← iscowpage pt sz va then usertrapCow k pt (va / pgSize) else .ok (k, pt, false)

/-- The checks of `copyout` on page `v`, and its copy-on-write branch. -/
def copyoutPage (k : Kmem) (pt : PageTable) (v : ℕ) : Except Panic (Kmem × PageTable × Bool) := do
  match ← walk pt v with
  | none => .ok (k, pt, false)
  | some p =>
    if !p.v || !p.u then .ok (k, pt, false)
    else if p.cow then
      if k.referenceCounter p.ppn ≤ 0 then .ok (k, pt, false)
      else
        match kalloc k with
        | (k, none) => .ok (k, pt, false)
        | (k, some newPage) => cowRemap k pt (pgRoundUp (v * pgSize)) v newPage p
    else .ok (k, pt, true)

/-- The loop of `copyout`; each turn copies at least one byte, so `src.length` turns are enough. -/
def copyoutLoop : ℕ → Kmem → PageTable → ℕ → List UInt8 → Except Panic (Kmem × PageTable × Bool)
  | 0, k, pt, _, _ => .ok (k, pt, true)
  | fuel + 1, k, pt, dstva, src =>
    if src = [] then .ok (k, pt, true)
    else
      let v := dstva / pgSize
      if maxPage ≤ v then .ok (k, pt, false)
      else do
        let r ← copyoutPage k pt v
        if r.2.2 then
          match ← walkaddr r.2.1 v with
          | none => .ok (r.1, r.2.1, false)
          | some pa0 =>
            let n := pgSize - dstva % pgSize
            copyoutLoop fuel (r.1.write pa0 (dstva % pgSize) (src.take n)) r.2.1 ((v + 1) * pgSize)
              (src.drop n)
        else .ok r

def copyout (k : Kmem) (pt : PageTable) (dstva : ℕ) (src : List UInt8) :
    Except Panic (Kmem × PageTable × Bool) :=
  copyoutLoop src.length k pt dstva src

/-- The loop of `copyin`, with the bytes that it copies. -/
def copyinLoop (k : Kmem) (pt : PageTable) : ℕ → ℕ → ℕ → Except Panic (List UInt8 × Bool)
  | 0, _, _ => .ok ([], true)
  | fuel + 1, srcva, len =>
    if len = 0 then .ok ([], true)
    else do
      match ← walkaddr pt (srcva / pgSize) with
      | none => .ok ([], false)
      | some pa0 =>
        let n := min (pgSize - srcva % pgSize) len
        let r ← copyinLoop k pt fuel ((srcva / pgSize + 1) * pgSize) (len - n)
        .ok (slice (k.mem pa0) (srcva % pgSize) (srcva % pgSize + n - 1) ++ r.1, r.2)

def copyin (k : Kmem) (pt : PageTable) (srcva len : ℕ) : Except Panic (List UInt8 × Bool) :=
  copyinLoop k pt len srcva len

/-! ## User accesses -/

/-- How a user load or store ends: at a physical page, with the process killed, or still faulting
after as many traps as were tried. -/
inductive Access
  | done (pa : ℕ)
  | killed
  | faulting
deriving DecidableEq

/-- The entry lets user code make an access that needs the permission `may`. -/
def Pte.allows (may : Perm → Bool) (p : Pte) : Bool := p.v && p.u && may p.toPerm

/-- The instruction is tried again after each trap that returns, `n` times at most. -/
def access (may : Perm → Bool) :
    ℕ → Kmem → PageTable → ℕ → ℕ → Except Panic (Kmem × PageTable × Access)
  | 0, k, pt, _, _ => .ok (k, pt, .faulting)
  | n + 1, k, pt, sz, va =>
    if va / pgSize < maxPage ∧ (pt.pte (va / pgSize)).allows may then
      .ok (k, pt, .done (pt.pte (va / pgSize)).ppn)
    else do
      let r ← usertrap k pt sz va
      if r.2.2 then access may n r.1 r.2.1 sz va else .ok (r.1, r.2.1, .killed)

end LazyXv6.Kernel
