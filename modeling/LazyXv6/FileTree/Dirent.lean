import Mathlib

/-!
# Names, directory entries and path elements (`string.c`, `fs.c`)

A C string is the list of its bytes; what stands after its last byte is a NUL. The `char[DIRSIZ]` of
an entry is its 14 bytes. Offsets into a directory count entries, not bytes.
-/

namespace LazyXv6.FileTree

def dirSiz : ℕ := 14

def first (p : List UInt8) : UInt8 := p.headD 0

def strncmp : List UInt8 → List UInt8 → ℕ → Int
  | _, _, 0 => 0
  | p, q, n + 1 =>
    if first p ≠ 0 ∧ first p = first q then strncmp p.tail q.tail n
    else (first p).toNat - (first q).toNat

/-- The `n` bytes that `strncpy(s, t, n)` writes. -/
def strncpy : List UInt8 → ℕ → List UInt8
  | _, 0 => []
  | t, n + 1 => if first t = 0 then List.replicate (n + 1) 0 else first t :: strncpy t.tail n

def namecmp (s t : List UInt8) : Int := strncmp s t dirSiz

/-- The bytes of a name that count: those up to a NUL, `n` at most. -/
def key : List UInt8 → ℕ → List UInt8
  | _, 0 => []
  | t, n + 1 => if first t = 0 then [] else first t :: key t.tail n

theorem strncmp_eq_zero_iff (p q : List UInt8) (n : ℕ) : strncmp p q n = 0 ↔ key p n = key q n := by
  induction n generalizing p q with
  | zero => exact ⟨fun _ => rfl, fun _ => rfl⟩
  | succ n ih =>
    unfold strncmp key
    by_cases hp : first p = 0
    · by_cases hq : first q = 0
      · simp [hp, hq]
      · have hne : (first q).toNat ≠ 0 := fun h => hq (UInt8.toNat_inj.mp h)
        simp only [hp, hq, ne_eq, not_true_eq_false, false_and, if_false, if_true, UInt8.toNat_zero]
        exact ⟨fun h => absurd h (by omega), nofun⟩
    · by_cases heq : first p = first q
      · rw [if_pos ⟨hp, heq⟩, if_neg hp, if_neg (heq ▸ hp), ih, heq, List.cons.injEq]
        exact ⟨fun h => ⟨rfl, h⟩, fun h => h.2⟩
      · have hne : (first p).toNat ≠ (first q).toNat := fun h => heq (UInt8.toNat_inj.mp h)
        rw [if_neg fun h => heq h.2, if_neg hp]
        refine ⟨fun h => absurd h (by omega), fun h => ?_⟩
        split at h
        · exact nomatch h
        · exact absurd (List.cons.inj h).1 heq

theorem key_strncpy (t : List UInt8) (n : ℕ) : key (strncpy t n) n = key t n := by
  induction n generalizing t with
  | zero => rfl
  | succ n ih =>
    unfold strncpy key
    by_cases ht : first t = 0
    · rw [if_pos ht, if_pos ht, if_pos]
      rfl
    · rw [if_neg ht, if_neg ht, if_neg (show first (first t :: strncpy t.tail n) ≠ 0 from ht)]
      exact congrArg (first t :: ·) (ih t.tail)

structure Dirent where
  inum : ℕ
  name : List UInt8
  deriving DecidableEq

def dot : List UInt8 := [46]

def dotdot : List UInt8 := [46, 46]

/-- The loop of `dirlookup` from entry `off` on: the offset of the entry and its inode number. -/
def lookup (name : List UInt8) : List Dirent → ℕ → Option (ℕ × ℕ)
  | [], _ => none
  | de :: des, off =>
    if de.inum = 0 then lookup name des (off + 1)
    else if namecmp name de.name = 0 then some (off, de.inum)
    else lookup name des (off + 1)

/-- Where the loop of `dirlink` stops: at an entry that is not in use, or at the end. -/
def emptyDirent (des : List Dirent) : ℕ := des.findIdx (·.inum = 0)

def direntsPerBlock : ℕ := 64

/-- `MAXFILE*BSIZE / sizeof(struct dirent)` -/
def maxDirents : ℕ := 268 * direntsPerBlock

/-- `writei` of one entry. `room`: the block at the end of the directory, if a new one is needed,
can be allocated. -/
def writeDirent (des : List Dirent) (off : ℕ) (de : Dirent) (room : Bool) : Option (List Dirent) :=
  if des.length < off ∨ maxDirents < off + 1 then none
  else if off < des.length then some (des.set off de)
  else if off % direntsPerBlock = 0 ∧ !room then none
  else some (des ++ [de])

def isdirempty (des : List Dirent) : Bool := (des.drop 2).all (·.inum = 0)

/-! ## Paths -/

def slash : UInt8 := 47

/-- `skipelem`: the first element of a path, cut to `DIRSIZ` bytes, and what follows it. -/
def skipelem (path : List UInt8) : Option (List UInt8 × List UInt8) :=
  let path := path.dropWhile (· = slash)
  if first path = 0 then none
  else
    let inElem := fun c => decide (c ≠ slash ∧ c ≠ 0)
    some ((path.takeWhile inElem).take dirSiz, (path.dropWhile inElem).dropWhile (· = slash))

end LazyXv6.FileTree
