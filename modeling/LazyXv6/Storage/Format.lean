import LazyXv6.Lib.Runs
import LazyXv6.Lib.Bytes

/-!
# The format of the disk (`fs.h`)

A block is a function from byte offsets to bytes, of which the first `BSIZE` = 1024 count. Constants
of `fs.h` are written as numbers: `NDIRECT` = 12, `NINDIRECT` = 256, `MAXFILE` = 268, `IPB` = 16
inodes of 64 bytes in a block, `BPB` = 8192 bits in a block of the bitmap.
-/

namespace LazyXv6.Storage

open Lib Lib.SmallFin Function

abbrev Block := ℕ → UInt8

/-- `struct superblock`, with the number of blocks before the data blocks. The inode blocks stand
before the bitmap, the bitmap before the data. -/
structure Superblock where
  size : ℕ
  ninodes : ℕ
  inodestart : ℕ
  bmapstart : ℕ
  nmeta : ℕ
  inodes_before : inodestart + (ninodes - 1) / 16 < bmapstart
  bitmap_before : bmapstart + (size - 1) / 8192 < nmeta
  nmeta_le : nmeta ≤ size
  size_lt : size < 2 ^ 31

namespace Superblock

variable (sb : Superblock)

def iblock (i : ℕ) : ℕ := i / 16 + sb.inodestart

def bblock (b : ℕ) : ℕ := b / 8192 + sb.bmapstart

theorem nmeta_pos : 0 < sb.nmeta := Nat.zero_lt_of_lt sb.bitmap_before

theorem iblock_lt {i : ℕ} (hi : i < sb.ninodes) : sb.iblock i < sb.bmapstart := by
  have hdiv : i / 16 ≤ (sb.ninodes - 1) / 16 := Nat.div_le_div_right (by omega)
  have h := sb.inodes_before
  unfold iblock
  omega

theorem le_bblock (b : ℕ) : sb.bmapstart ≤ sb.bblock b := Nat.le_add_left ..

theorem bblock_lt {b : ℕ} (hb : b < sb.size) : sb.bblock b < sb.nmeta := by
  have hdiv : b / 8192 ≤ (sb.size - 1) / 8192 := Nat.div_le_div_right (by omega)
  have h := sb.bitmap_before
  unfold bblock
  omega

theorem bmapstart_lt : sb.bmapstart < sb.nmeta :=
    Nat.lt_of_le_of_lt (Nat.le_add_right ..) sb.bitmap_before

end Superblock

/-! ## Inodes -/

/-- The fields of `struct dinode`, and of its copy in `struct inode`. -/
structure Inode where
  type : UInt16
  major : UInt16
  minor : UInt16
  nlink : UInt16
  size : UInt32
  addrs : Fin 13 → UInt32

/-- `T_DIR` and `T_FILE`; an inode with type 0 is free. -/
def tDir : UInt16 := 1

@[inherit_doc tDir] def tFile : UInt16 := 2

def Inode.zero : Inode := ⟨0, 0, 0, 0, 0, fun _ => 0⟩

namespace Inode

variable {ip : Inode} {j j' b : ℕ}

def addr (ip : Inode) (j : ℕ) : ℕ := (ip.addrs (Fin.ofNat 13 j)).toNat

def setAddr (ip : Inode) (j b : ℕ) : Inode :=
  { ip with addrs := update ip.addrs (Fin.ofNat 13 j) (UInt32.ofNat b) }

theorem addr_setAddr_self (hb : b < 2 ^ 32) : (ip.setAddr j b).addr j = b := by
  show (update ip.addrs (Fin.ofNat 13 j) (UInt32.ofNat b) (Fin.ofNat 13 j)).toNat = b
  rw [update_self, UInt32.toNat_ofNat', Nat.mod_eq_of_lt hb]

theorem addr_setAddr_of_ne (hj : j < 13) (hj' : j' < 13) (h : j' ≠ j) :
    (ip.setAddr j b).addr j' = ip.addr j' := by
  show (update ip.addrs (Fin.ofNat 13 j) (UInt32.ofNat b) (Fin.ofNat 13 j')).toNat = ip.addr j'
  rw [update_of_ne]
  · rfl
  intro heq
  have hval := congrArg Fin.val heq
  rw [Fin.val_ofNat, Fin.val_ofNat, Nat.mod_eq_of_lt hj, Nat.mod_eq_of_lt hj'] at hval
  exact h hval

def byte (ip : Inode) (k : ℕ) : UInt8 :=
  if k < 2 then byteOf ip.type.toNat k
  else if k < 4 then byteOf ip.major.toNat (k - 2)
  else if k < 6 then byteOf ip.minor.toNat (k - 4)
  else if k < 8 then byteOf ip.nlink.toNat (k - 6)
  else if k < 12 then byteOf ip.size.toNat (k - 8)
  else byteOf (ip.addr ((k - 12) / 4)) ((k - 12) % 4)

end Inode

def putInode (f : Block) (o : ℕ) (ip : Inode) : Block :=
  fun i => if o ≤ i ∧ i < o + 64 then ip.byte (i - o) else f i

/-! ## Bits -/

def mask (bi : ℕ) : UInt8 := 1 <<< UInt8.ofNat (bi % 8)

def getBit (f : Block) (bi : ℕ) : Bool := f (bi / 8) &&& mask bi ≠ 0

def setBit (f : Block) (bi : ℕ) : Block := update f (bi / 8) (f (bi / 8) ||| mask bi)

section

variable {f g : Block} {bi bi' : ℕ}

theorem toNat_mask (bi : ℕ) : (mask bi).toNat = 2 ^ (bi % 8) := by
  have hlt : bi % 8 < 8 := Nat.mod_lt _ (by decide)
  unfold mask
  generalize bi % 8 = k at hlt
  interval_cases k <;> rfl

theorem getBit_eq (f : Block) (bi : ℕ) : getBit f bi = (f (bi / 8)).toNat.testBit (bi % 8) := by
  have hiff : f (bi / 8) &&& mask bi ≠ 0 ↔ (f (bi / 8)).toNat.testBit (bi % 8) = true := by
    rw [ne_eq, ← UInt8.toNat_inj, UInt8.toNat_and, toNat_mask, Nat.and_two_pow]
    cases (f (bi / 8)).toNat.testBit (bi % 8) <;> simp
  exact Bool.eq_iff_iff.mpr (decide_eq_true_iff.trans hiff)

theorem testBit_mask (bi k : ℕ) : (mask bi).toNat.testBit k = decide (bi % 8 = k) := by
  rw [toNat_mask, Nat.testBit_two_pow]

theorem getBit_setBit : getBit (setBit f bi) bi' = (decide (bi' = bi) || getBit f bi') := by
  rw [getBit_eq, getBit_eq]
  unfold setBit
  by_cases hbyte : bi' / 8 = bi / 8
  · rw [hbyte, update_self, UInt8.toNat_or, Nat.testBit_or, testBit_mask, Bool.or_comm]
    congr 1
    exact decide_eq_decide.mpr (by omega)
  · have hne : bi' ≠ bi := fun h => hbyte (h ▸ rfl)
    rw [update_of_ne hbyte, decide_eq_false hne, Bool.false_or]

end

/-! ## Indirect blocks -/

/-- `a[j]`, where the block is an array of `uint`s. -/
def getEntry (f : Block) (j : ℕ) : ℕ := getLE f (4 * j) 4

def setEntry (f : Block) (j b : ℕ) : Block := putLE f (4 * j) 4 b

section

variable {f : Block} {j j' b : ℕ}

theorem getEntry_setEntry_self (hb : b < 2 ^ 32) : getEntry (setEntry f j b) j = b :=
  getLE_putLE.trans (Nat.mod_eq_of_lt hb)

theorem getEntry_setEntry_of_ne (h : j' ≠ j) : getEntry (setEntry f j b) j' = getEntry f j' :=
  getLE_putLE_of_disjoint (by omega)

theorem getEntry_zero : getEntry (fun _ => 0) j = 0 := getLE_zero fun _ _ => rfl

end

end LazyXv6.Storage
