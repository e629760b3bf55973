import LazyXv6.Lib.Pool
import LazyXv6.Lib.Segment
import LazyXv6.Sort.File

/-!
# Parallel count sort

`distributed_count_sort` runs in two rounds. In the first, up to `NUM_PROCESSES` workers insert the
files of their chunks into the buckets of `global_count`. The main thread then keeps the non-empty
buckets, turns their frequencies into prefix sums and tells each worker of the second round where to
start to copy bucket lists backwards into `output`.

Each round is a `Pool`: its workers are the atomic actions left to them, the insertions of
`count_local` or the stores of `populate_output`. `CountState.step` runs a worker (`some i`) or,
when the workers have ended, the main thread (`none`).

`int`s are integers, with `wrap` where a difference could leave their range. An access to a bucket
or an entry that is not there has no defined result: the shared state becomes `none` and the run
ends in `crashed`. `mktime` stands for `strptime` followed by the C library's `mktime`.
-/

namespace LazyXv6.Sort

open Function Lib

def numProcesses : ℕ := 8

def wrap (x : ℤ) : ℤ := x.bmod (2 ^ 32)

/-! ## Keys as indices -/

/-- The digit of the `i`-th character after "file": `a` is 1, `z` is 26, no character is 0. -/
def digit (base26Part : List Char) (i : ℕ) : ℤ :=
  if (i : ℤ) < (base26Part.length : ℤ) - 4 then
    match base26Part[i]? with
    | some c => (c.toUpper.toNat : ℤ) - 'A'.toNat + 1
    | none => 0
  else 0

def convertToIndex (filename : List Char) : ℤ :=
  (List.range 4).foldl (fun index i => index * 26 + digit (filename.drop 4) i) 0

def convertFilenameToFileIndex (minFilename filename : List Char) : ℤ :=
  convertToIndex filename - convertToIndex minFilename

variable {Ptr : Type} (mktime : List Char → ℤ) (deref : Ptr → File) (flag : Column)

def convertTimestampToSeconds (minTimestamp timestamp : List Char) : ℤ :=
  wrap (mktime timestamp - mktime minTimestamp)

structure Extremes where
  minValue : ℤ
  maxValue : ℤ
  minFilename : List Char
  maxFilename : List Char
  minTimestamp : List Char
  maxTimestamp : List Char

def Extremes.scan (ex : Extremes) (f : File) : Extremes :=
  match flag with
  | .name =>
    { ex with
      minFilename := if strcmp f.name ex.minFilename < 0 then f.name else ex.minFilename
      maxFilename := if strcmp f.name ex.maxFilename > 0 then f.name else ex.maxFilename }
  | .timestamp =>
    { ex with
      minTimestamp :=
        if strcmp f.timestamp ex.minTimestamp < 0 then f.timestamp else ex.minTimestamp
      maxTimestamp :=
        if strcmp f.timestamp ex.maxTimestamp > 0 then f.timestamp else ex.maxTimestamp }
  | .id =>
    { ex with
      maxValue := if f.id.toInt > ex.maxValue then f.id.toInt else ex.maxValue
      minValue := if f.id.toInt < ex.minValue then f.id.toInt else ex.minValue }

def scanAll (files : ℕ → Ptr) (n : ℕ) : Extremes :=
  let f := deref (files 0)
  (slice files 1 (n - 1)).foldl (fun ex p => ex.scan flag (deref p))
    ⟨f.id.toInt, f.id.toInt, f.name, f.name, f.timestamp, f.timestamp⟩

def getMaxMinValues (files : ℕ → Ptr) (n : ℕ) : Extremes :=
  let ex := scanAll deref flag files n
  match flag with
  | .name =>
    { ex with
      minValue := convertFilenameToFileIndex ex.minFilename ex.minFilename
      maxValue := convertFilenameToFileIndex ex.minFilename ex.maxFilename }
  | .timestamp =>
    { ex with
      minValue := convertTimestampToSeconds mktime ex.minTimestamp ex.minTimestamp
      maxValue := convertTimestampToSeconds mktime ex.minTimestamp ex.maxTimestamp }
  | .id => ex

/-- The index that `count_local` computes for a file. -/
def bucketIndex (ex : Extremes) (p : Ptr) : ℤ :=
  match flag with
  | .name => convertFilenameToFileIndex ex.minFilename (deref p).name
  | .timestamp => convertTimestampToSeconds mktime ex.minTimestamp (deref p).timestamp
  | .id => wrap ((deref p).id.toInt - ex.minValue)

/-! ## Buckets -/

/-- `struct file_count`, less the fields that are never read. -/
structure Bucket (Ptr : Type) where
  frequency : ℕ
  head : List Ptr
  size : ℕ

def Extremes.buckets (ex : Extremes) : ℕ := (wrap (ex.maxValue - ex.minValue) + 1).toNat

def initGlobalCount : ℕ → Bucket Ptr := fun _ => ⟨0, [], 0⟩

/-- The locked part of an iteration of `count_local`. -/
def insert (index : Ptr → ℤ) (buckets : ℕ) (globalCount : Option (ℕ → Bucket Ptr)) (p : Ptr) :
    Option (ℕ → Bucket Ptr) :=
  globalCount.bind fun g =>
    if 0 ≤ index p ∧ index p < buckets then
      let b := g (index p).toNat
      some (update g (index p).toNat ⟨b.frequency + 1, p :: b.head, b.size⟩)
    else none

/-- The non-empty buckets, in the order of their indices. -/
def compact (buckets : ℕ) (globalCount : ℕ → Bucket Ptr) : List (Bucket Ptr) :=
  ((List.range buckets).map globalCount).filter fun b => b.frequency != 0

/-- The loop that saves the sizes and turns the frequencies into prefix sums, over the first `m`
entries of `new_global_count`. -/
def prefixSums : ℕ → ℕ → List (Bucket Ptr) → Option (List (Bucket Ptr))
  | 0, _, bs => some bs
  | _ + 1, _, [] => none
  | m + 1, total, b :: bs =>
    (prefixSums m (total + b.frequency) bs).map (⟨total + b.frequency, b.head, b.frequency⟩ :: ·)

/-! ## Work for the workers -/

/-- The loop over `chunck_size[i]`, `k` entries. -/
def chunckSizes (baseSize : ℕ) : ℕ → ℕ → List ℕ
  | _, 0 => []
  | leftOver, k + 1 =>
    (if leftOver ≠ 0 then baseSize + 1 else baseSize) :: chunckSizes baseSize (leftOver - 1) k

/-- The chunk sizes of the threads that are created: the loop ends when all files are covered. -/
def threadSizes (n : ℕ) : ℕ → List ℕ → List ℕ
  | _, [] => []
  | covered, c :: cs => c :: if covered + c = n then [] else threadSizes n (covered + c) cs

def workerSizes (n : ℕ) : List ℕ :=
  threadSizes n 0 (chunckSizes (n / numProcesses) (n % numProcesses) numProcesses)

/-- The files of the workers of `count_local`. -/
def chunks (files : ℕ → Ptr) : ℕ → List ℕ → List (List Ptr)
  | _, [] => []
  | covered, c :: cs => (List.range' covered c).map files :: chunks files (covered + c) cs

/-- The `while` loop of the main thread, over the buckets from `currList` on: where the next
worker starts. -/
def advance : List (Bucket Ptr) → ℕ → ℕ → ℕ → Option (ℕ × ℕ)
  | _, 0, currList, covered => some (currList, covered)
  | [], _ + 1, _, _ => none
  | b :: bs, chunck + 1, currList, covered =>
    if chunck + 1 < b.size - covered then some (currList, covered + (chunck + 1))
    else advance bs (chunck + 1 - (b.size - covered)) (currList + 1) 0

/-- `start`, `elements_to_take` and `where_to_start_in_first_list` of each worker. -/
def processArgs (newGlobalCount : List (Bucket Ptr)) : List ℕ → ℕ → ℕ → Option (List (ℕ × ℕ × ℕ))
  | [], _, _ => some []
  | c :: cs, currList, covered =>
    (advance (newGlobalCount.drop currList) c currList covered).bind fun next =>
      (processArgs newGlobalCount cs next.1 next.2).map ((currList, c, covered) :: ·)

/-- The inner loop of `populate_output`: its stores and the elements that are left to take. -/
def writeList : List Ptr → ℕ → ℤ → List (ℤ × Ptr) × ℕ
  | [], elements, _ => ([], elements)
  | _ :: _, 0, _ => ([], 0)
  | p :: head, elements + 1, index =>
    let r := writeList head elements (index - 1)
    ((index, p) :: r.1, r.2)

/-- The stores of a worker of `populate_output`, over the buckets from `s` on. -/
def populateOutput : List (Bucket Ptr) → ℕ → ℕ → ℕ → Option (List (ℤ × Ptr))
  | _, 0, _, _ => some []
  | [], _ + 1, _, _ => none
  | b :: bs, elements + 1, listOffset, indexAdder =>
    let r := writeList (b.head.drop listOffset) (elements + 1) (b.frequency - 1 - indexAdder)
    (populateOutput bs r.2 (listOffset - b.head.length) 0).map (r.1 ++ ·)

def store (n : ℕ) (output : Option (ℕ → Ptr)) (w : ℤ × Ptr) : Option (ℕ → Ptr) :=
  output.bind fun o =>
    if 0 ≤ w.1 ∧ w.1 < n then some (update o w.1.toNat w.2) else none

/-- What the main thread does between the rounds: the work of the second one.
`sizeOfNewGlobalCount` is the value that the global has before, 0 when the program starts. -/
def secondRound (sizeOfNewGlobalCount n buckets : ℕ) (globalCount : ℕ → Bucket Ptr) :
    Option (List (List (ℤ × Ptr))) :=
  let compacted := compact buckets globalCount
  (prefixSums (sizeOfNewGlobalCount + compacted.length) 0 compacted).bind fun newGlobalCount =>
    (processArgs newGlobalCount (workerSizes n) 0 0).bind fun args =>
      args.mapM fun arg => populateOutput (newGlobalCount.drop arg.1) arg.2.1 arg.2.2 arg.2.2

/-! ## The state machine -/

inductive CountState (Ptr : Type) where
  | counting (pool : Pool (Option (ℕ → Bucket Ptr)) Ptr)
  | populating (pool : Pool (Option (ℕ → Ptr)) (ℤ × Ptr))
  | done (files : ℕ → Ptr)
  | crashed

variable (sizeOfNewGlobalCount n : ℕ) (files junk : ℕ → Ptr)

/-- One step of worker `i` (`some i`) or of the main thread (`none`). `junk` is what `malloc` left
in `output`. -/
def CountState.step (index : Ptr → ℤ) (buckets : ℕ) :
    CountState Ptr → Option ℕ → Option (CountState Ptr)
  | .counting pool, some i => (pool.step (insert index buckets) i).map .counting
  | .populating pool, some i => (pool.step (store n) i).map .populating
  | .counting pool, none =>
    if Idle pool.todo then
      match pool.shared.bind (secondRound sizeOfNewGlobalCount n buckets) with
      | some todo => some (.populating ⟨some junk, todo⟩)
      | none => some .crashed
    else none
  | .populating pool, none =>
    if Idle pool.todo then
      match pool.shared with
      | some output => some (.done (overwrite files 0 (slice output 0 (n - 1))))
      | none => some .crashed
    else none
  | _, _ => none

/-- `distributed_count_sort` on `n` files, its threads in any order. -/
def distributedCountSort : CountState Ptr → Option ℕ → Option (CountState Ptr) :=
  let ex := getMaxMinValues mktime deref flag files n
  CountState.step sizeOfNewGlobalCount n files junk (bucketIndex mktime deref flag ex) ex.buckets

/-- `non_distributed_count_sort`: the same rounds, with one worker after the other. -/
def nonDistributedCountSort : Option (ℕ → Ptr) :=
  let ex := getMaxMinValues mktime deref flag files n
  let counted := (chunks files 0 (workerSizes n)).flatten.foldl
    (insert (bucketIndex mktime deref flag ex) ex.buckets) (some initGlobalCount)
  counted.bind fun globalCount =>
    (secondRound sizeOfNewGlobalCount n ex.buckets globalCount).bind fun todo =>
      (todo.flatten.foldl (store n) (some junk)).map fun output =>
        overwrite files 0 (slice output 0 (n - 1))

def CountState.initial : CountState Ptr :=
  .counting ⟨some initGlobalCount, chunks files 0 (workerSizes n)⟩

end LazyXv6.Sort
