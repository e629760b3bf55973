import LazyXv6.Storage.Model

/-!
# Where the blocks of an inode are

An inode has 269 places for block numbers: those of its blocks 0 to 267, direct or in the indirect
block, and place 268 for the indirect block itself (`slot`). `bmap` fills an empty place with a
block that was free (`Fills`), and for a block behind an indirect block that is not there, two
(`Bmap`).
-/

namespace LazyXv6.Storage

open Lib Function

variable (sb : Superblock)

/-- Place `k` of the inode; 0 if it is empty. -/
def slot (d : Disk) (ip : Inode) (k : ℕ) : ℕ :=
  if k < 12 then ip.addr k
  else if k < 268 then
    if ip.addr 12 = 0 then 0 else getEntry (d.cache (ip.addr 12)) (k - 12)
  else ip.addr 12

namespace State

abbrev slot (s : State) (k : ℕ) : ℕ := Storage.slot s.disk s.ip k

abbrev bit (s : State) (b : ℕ) : Bool := s.disk.bit sb b

/-- Byte `p` of the contents; a block that is not there counts as zeros. -/
def content (s : State) (p : ℕ) : UInt8 :=
  if s.slot (p / 1024) = 0 then 0 else s.disk.cache (s.slot (p / 1024)) (p % 1024)

def NoFree (s : State) : Prop := ∀ b, b < sb.size → s.bit sb b = true

end State

/-- The blocks of the inode are data blocks, marked in the bitmap, and different from each other.
The blocks before the data are marked. -/
structure Wf (s : State) : Prop where
  inum_lt : s.inum < sb.ninodes
  size_le : s.ip.size.toNat ≤ 268 * 1024
  marked : ∀ b, b < sb.nmeta → s.bit sb b = true
  data : ∀ k, k ≤ 268 → s.slot k ≠ 0 → sb.nmeta ≤ s.slot k ∧ s.slot k < sb.size ∧
    s.bit sb (s.slot k) = true
  inj : ∀ k k', k ≤ 268 → k' ≤ 268 → s.slot k ≠ 0 → s.slot k = s.slot k' → k = k'

/-- Every block below the size is there. -/
def NoHoles (s : State) : Prop := ∀ bn, bn * 1024 < s.ip.size.toNat → s.slot bn ≠ 0

/-! ## Buffers and the log -/

section

variable {sb} {d d' : Disk} {b c : ℕ} {f : Block}

namespace Disk

@[simp] theorem cache_logWrite (d : Disk) (b : ℕ) : (d.logWrite b).cache = d.cache := by
  unfold logWrite
  split <;> rfl

@[simp] theorem home_logWrite (d : Disk) (b : ℕ) : (d.logWrite b).home = d.home := by
  unfold logWrite
  split <;> rfl

theorem mem_log_logWrite : c ∈ (d.logWrite b).log ↔ c ∈ d.log ∨ c = b := by
  unfold logWrite
  split
  case isTrue hb => exact ⟨.inl, fun h => h.elim id fun hc => hc ▸ hb⟩
  case isFalse => exact List.mem_append.trans (or_congr_right List.mem_singleton)

theorem nodup_logWrite (h : d.log.Nodup) (b : ℕ) : (d.logWrite b).log.Nodup := by
  unfold logWrite
  split
  case isTrue => exact h
  case isFalse hb =>
    refine List.nodup_append.mpr ⟨h, List.nodup_singleton b, fun x hx y hy hxy => hb ?_⟩
    rw [List.mem_singleton] at hy
    exact hy ▸ hxy ▸ hx

theorem cache_store : (d.store b f).cache = update d.cache b f := cache_logWrite ..

theorem cache_store_self : (d.store b f).cache b = f := by
  rw [cache_store, update_self]

theorem cache_store_of_ne (h : c ≠ b) : (d.store b f).cache c = d.cache c := by
  rw [cache_store, update_of_ne h]

@[simp] theorem home_store : (d.store b f).home = d.home := home_logWrite ..

theorem mem_log_store : c ∈ (d.store b f).log ↔ c ∈ d.log ∨ c = b := mem_log_logWrite

theorem nodup_store (h : d.log.Nodup) (b : ℕ) (f : Block) : (d.store b f).log.Nodup :=
  nodup_logWrite (d := d.put b f) h b

theorem bit_congr (h : d'.cache (sb.bblock b) = d.cache (sb.bblock b)) :
    d'.bit sb b = d.bit sb b := by
  unfold bit
  rw [h]

theorem bit_store_bblock {g : Block → ℕ → Block} {v : Bool}
    (hg : ∀ f bi bi', getBit (g f bi) bi' = if bi' = bi then v else getBit f bi') (b c : ℕ) :
    (d.store (sb.bblock b) (g (d.cache (sb.bblock b)) (b % 8192))).bit sb c =
      if c = b then v else d.bit sb c := by
  unfold bit
  by_cases hblock : sb.bblock c = sb.bblock b
  · have hdiv : c / 8192 = b / 8192 := by
      unfold Superblock.bblock at hblock
      omega
    rw [hblock, cache_store_self, hg]
    by_cases hcb : c = b
    · rw [if_pos (by rw [hcb]), if_pos hcb]
    · rw [if_neg (by omega), if_neg hcb]
  · have hcb : c ≠ b := fun h => hblock (h ▸ rfl)
    rw [cache_store_of_ne hblock, if_neg hcb]

theorem logged_store (d : Disk) (b : ℕ) (f : Block) (c : ℕ) :
    c ∈ (d.store b f).log ∨ (d.store b f).cache c = d.cache c := by
  by_cases hc : c = b
  · exact .inl (mem_log_store.mpr (.inr hc))
  · exact .inr (cache_store_of_ne hc)

theorem logged_trans {d'' : Disk} (h : ∀ c, c ∈ d'.log ∨ d'.cache c = d.cache c)
    (h' : ∀ c, c ∈ d''.log ∨ d''.cache c = d'.cache c)
    (hmono : ∀ c, c ∈ d'.log → c ∈ d''.log) (c : ℕ) : c ∈ d''.log ∨ d''.cache c = d.cache c := by
  rcases h' c with hc | hc
  · exact .inl hc
  · rcases h c with hc' | hc'
    · exact .inl (hmono c hc')
    · exact .inr (hc.trans hc')

end Disk

end

/-! ## Allocation -/

/-- Block `b` was free, and is marked and zero now. -/
structure Allocates (d : Disk) (b : ℕ) (d' : Disk) : Prop where
  free : d.bit sb b = false
  ge : sb.nmeta ≤ b
  lt : b < sb.size
  zero : d'.cache b = fun _ => 0
  bits : ∀ c, c < sb.size → d'.bit sb c = (decide (c = b) || d.bit sb c)
  same : ∀ c, c ≠ b → c < sb.bmapstart ∨ sb.nmeta ≤ c → d'.cache c = d.cache c
  home : d'.home = d.home
  log : ∀ c, c ∈ d'.log ↔ c ∈ d.log ∨ c = sb.bblock b ∨ c = b
  logged : ∀ c, c ∈ d'.log ∨ d'.cache c = d.cache c
  nodup : d.log.Nodup → d'.log.Nodup

variable {sb} {d d' : Disk} {b c j k k' bn addr : ℕ} {s s' s'' : State}

theorem allocates_of_free (hmarked : ∀ c, c < sb.nmeta → d.bit sb c = true) (hlt : b < sb.size)
    (hfree : d.bit sb b = false) :
    Allocates sb d b ((d.store (sb.bblock b) (setBit (d.cache (sb.bblock b)) (b % 8192))).bzero
      b) := by
  have hge : sb.nmeta ≤ b := by
    by_contra hlt
    rw [hmarked b (by omega)] at hfree
    exact nomatch hfree
  have hset : ∀ f bi bi', getBit (setBit f bi) bi' = if bi' = bi then true else getBit f bi' := by
    intro f bi bi'
    rw [getBit_setBit]
    by_cases h : bi' = bi <;> simp [h]
  refine ⟨hfree, hge, hlt, Disk.cache_store_self, fun c hc => ?_, fun c hcb hc => ?_, ?_,
    fun c => ?_, Disk.logged_trans (Disk.logged_store _ _ _) (Disk.logged_store _ _ _) fun c hc =>
    ?_, fun h => ?_⟩
  · -- the block that is cleared is not in the bitmap
    have hne : sb.bblock c ≠ b := by
      have hb := sb.bblock_lt hc
      omega
    unfold Disk.bzero
    rw [Disk.bit_congr (Disk.cache_store_of_ne hne), Disk.bit_store_bblock hset]
    by_cases h : c = b <;> simp [h]
  · have hne : c ≠ sb.bblock b := by
      have h1 := sb.le_bblock b
      have h2 := sb.bblock_lt hlt
      omega
    unfold Disk.bzero
    rw [Disk.cache_store_of_ne hcb, Disk.cache_store_of_ne hne]
  · unfold Disk.bzero
    rw [Disk.home_store, Disk.home_store]
  · unfold Disk.bzero
    rw [Disk.mem_log_store, Disk.mem_log_store, or_assoc]
  · exact Disk.mem_log_store.mpr (.inl hc)
  · exact Disk.nodup_store (Disk.nodup_store h _ _) _ _

theorem balloc_cases (hmarked : ∀ c, c < sb.nmeta → d.bit sb c = true) :
    (d.balloc sb = (0, d) ∧ ∀ c, c < sb.size → d.bit sb c = true) ∨
      ∃ b d', d.balloc sb = (b + 1, d') ∧ Allocates sb d (b + 1) d' := by
  unfold Disk.balloc
  cases hfind : (List.range sb.size).find? fun b => !d.bit sb b with
  | none =>
    refine .inl ⟨rfl, fun c hc => ?_⟩
    have hall := List.find?_eq_none.mp hfind c (List.mem_range.mpr hc)
    simpa using hall
  | some b =>
    have hfree : d.bit sb b = false := by simpa using List.find?_some hfind
    have hlt : b < sb.size := List.mem_range.mp (List.mem_of_find?_eq_some hfind)
    have halloc := allocates_of_free hmarked hlt hfree
    cases b with
    | zero => exact absurd halloc.ge (Nat.not_le.mpr sb.nmeta_pos)
    | succ b => exact .inr ⟨b, _, rfl, halloc⟩

/-- The empty place `k` gets the free block `b`. -/
structure Fills (sb : Superblock) (s : State) (k b : ℕ) (s' : State) : Prop where
  le : k ≤ 268
  empty : s.slot k = 0
  free : s.bit sb b = false
  ge : sb.nmeta ≤ b
  lt : b < sb.size
  zero : s'.disk.cache b = fun _ => 0
  slots : ∀ k', k' ≤ 268 → s'.slot k' = if k' = k then b else s.slot k'
  bits : ∀ c, c < sb.size → s'.bit sb c = (decide (c = b) || s.bit sb c)
  same : ∀ c, c ≠ b → (12 ≤ k → k < 268 → c ≠ s.slot 268) → c < sb.bmapstart ∨ sb.nmeta ≤ c →
    s'.disk.cache c = s.disk.cache c
  inum : s'.inum = s.inum
  ip : ∃ a, s'.ip = { s.ip with addrs := a }
  home : s'.disk.home = s.disk.home
  log : ∀ c, c ∈ s'.disk.log ↔ c ∈ s.disk.log ∨ c = sb.bblock b ∨ c = b ∨
    (12 ≤ k ∧ k < 268 ∧ c = s.slot 268)
  logged : ∀ c, c ∈ s'.disk.log ∨ s'.disk.cache c = s.disk.cache c
  nodup : s.disk.log.Nodup → s'.disk.log.Nodup

theorem slot_direct {ip : Inode} (hk : k < 12) : slot d ip k = ip.addr k := if_pos hk

theorem slot_entry {ip : Inode} (hk : 12 ≤ k) (hk' : k < 268) :
    slot d ip k = if ip.addr 12 = 0 then 0 else getEntry (d.cache (ip.addr 12)) (k - 12) :=
  (if_neg (Nat.not_lt.mpr hk)).trans (if_pos hk')

theorem slot_indirect (d : Disk) (ip : Inode) : slot d ip 268 = ip.addr 12 := rfl

/-- Place `j`, or 268 for the indirect block. -/
def slotOf (j : ℕ) : ℕ := if j < 12 then j else 268

theorem slot_slotOf (hj : j < 13) : s.slot (slotOf j) = s.ip.addr j := by
  unfold slotOf
  split
  case isTrue h => exact if_pos h
  case isFalse h =>
    obtain rfl : j = 12 := by omega
    rfl

theorem Wf.ne_of_free (h : Wf sb s) (hk : k ≤ 268) (hne : s.slot k ≠ 0)
    (hfree : s.bit sb b = false) : s.slot k ≠ b := by
  rintro rfl
  rw [(h.data k hk hne).2.2] at hfree
  exact nomatch hfree

theorem Wf.same (h : Wf sb s) (ha : Allocates sb s.disk b d) (hk : k ≤ 268) (hne : s.slot k ≠ 0) :
    d.cache (s.slot k) = s.disk.cache (s.slot k) :=
  ha.same _ (h.ne_of_free hk hne ha.free) (.inr (h.data k hk hne).1)

theorem fills_addr (hwf : Wf sb s) (hj : j < 13) (hempty : s.ip.addr j = 0)
    (h : Allocates sb s.disk b d) :
    Fills sb s (slotOf j) b { s with disk := d, ip := s.ip.setAddr j b } := by
  have hb : b < 2 ^ 32 := by
    have h1 := h.lt
    have h2 := sb.size_lt
    omega
  have hb0 : b ≠ 0 := by
    have h1 := h.ge
    have h2 := sb.nmeta_pos
    omega
  have hof : slotOf j < 12 ∨ slotOf j = 268 := by
    unfold slotOf
    split <;> omega
  have haddr : ∀ i, i < 13 → (s.ip.setAddr j b).addr i = if i = j then b else s.ip.addr i := by
    intro i hi
    by_cases hij : i = j
    · rw [if_pos hij, hij, Inode.addr_setAddr_self hb]
    · rw [if_neg hij, Inode.addr_setAddr_of_ne hj hi hij]
  refine ⟨by omega, (slot_slotOf hj).trans hempty, h.free, h.ge, h.lt, h.zero, fun k' hk' => ?_,
    h.bits, fun c hcb _ hc => h.same c hcb hc, rfl, ⟨_, rfl⟩, h.home, fun c => ?_,
    h.logged, h.nodup⟩
  · show slot d (s.ip.setAddr j b) k' = if k' = slotOf j then b else slot s.disk s.ip k'
    unfold slotOf
    rcases Nat.lt_or_ge k' 12 with hlt | hge
    · rw [slot_direct hlt, slot_direct hlt, haddr k' (by omega)]
      by_cases hj12 : j < 12
      · rw [if_pos hj12]
      · rw [if_neg hj12, if_neg (by omega), if_neg (by omega)]
    · rcases Nat.lt_or_ge k' 268 with hlt | hge'
      · rw [slot_entry hge hlt, slot_entry hge hlt, haddr 12 (by omega)]
        by_cases hj12 : j < 12
        · rw [if_pos hj12, if_neg (by omega : ¬ 12 = j), if_neg (by omega : ¬ k' = j)]
          -- the indirect block is not the new one
          by_cases hind : s.ip.addr 12 = 0
          · rw [if_pos hind, if_pos hind]
          · rw [if_neg hind, if_neg hind]
            exact congrArg (getEntry · (k' - 12)) (hwf.same h le_rfl hind)
        · obtain rfl : j = 12 := by omega
          rw [if_neg hj12, if_pos rfl, if_neg hb0, if_neg (by omega), if_pos hempty, h.zero,
            getEntry_zero]
      · obtain rfl : k' = 268 := by omega
        rw [slot_indirect, slot_indirect, haddr 12 (by omega)]
        by_cases hj12 : j < 12
        · rw [if_pos hj12, if_neg (by omega : ¬ 12 = j), if_neg (by omega)]
        · rw [if_neg hj12, if_pos (by omega), if_pos rfl]
  · rw [h.log]
    refine or_congr_right (or_congr_right ⟨.inl, fun h => h.elim id fun h => ?_⟩)
    omega

theorem fills_entry (hwf : Wf sb s) (hind : s.ip.addr 12 ≠ 0) (hj : j < 256)
    (hempty : getEntry (s.disk.cache (s.ip.addr 12)) j = 0) (h : Allocates sb s.disk b d) :
    Fills sb s (j + 12) b
      { s with disk := d.store (s.ip.addr 12) (setEntry (d.cache (s.ip.addr 12)) j b) } := by
  have hb : b < 2 ^ 32 := by
    have h1 := h.lt
    have h2 := sb.size_lt
    omega
  have hne : s.ip.addr 12 ≠ b := hwf.ne_of_free le_rfl hind h.free
  have hge : sb.nmeta ≤ s.ip.addr 12 := (hwf.data 268 le_rfl hind).1
  have hsame : d.cache (s.ip.addr 12) = s.disk.cache (s.ip.addr 12) := hwf.same h le_rfl hind
  have hslot : s.slot (j + 12) = 0 := by
    rw [State.slot, slot_entry (by omega) (by omega), if_neg hind, Nat.add_sub_cancel]
    exact hempty
  refine ⟨by omega, hslot, h.free, h.ge, h.lt, ?_, fun k' hk' => ?_, fun c hc => ?_,
    fun c hcb hci hc => ?_, rfl, ⟨_, rfl⟩, ?_, fun c => ?_,
    Disk.logged_trans h.logged (Disk.logged_store _ _ _) fun c hc => ?_, fun hn => ?_⟩
  · exact (Disk.cache_store_of_ne hne.symm).trans h.zero
  · show slot (d.store _ _) s.ip k' = if k' = j + 12 then b else slot s.disk s.ip k'
    rcases Nat.lt_or_ge k' 12 with hlt | hge
    · rw [slot_direct hlt, slot_direct hlt, if_neg (by omega)]
    · rcases Nat.lt_or_ge k' 268 with hlt | hge'
      · rw [slot_entry hge hlt, slot_entry hge hlt, if_neg hind, if_neg hind, Disk.cache_store_self]
        by_cases hkj : k' = j + 12
        · rw [if_pos hkj, hkj, Nat.add_sub_cancel, getEntry_setEntry_self hb]
        · rw [if_neg hkj, getEntry_setEntry_of_ne (by omega), hsame]
      · obtain rfl : k' = 268 := by omega
        rw [slot_indirect, slot_indirect, if_neg (by omega)]
  · -- the indirect block is not in the bitmap
    have hnot : sb.bblock c ≠ s.ip.addr 12 := by
      have hlt := sb.bblock_lt hc
      omega
    exact (Disk.bit_congr (Disk.cache_store_of_ne hnot)).trans (h.bits c hc)
  · exact (Disk.cache_store_of_ne (hci (by omega) (by omega))).trans (h.same c hcb hc)
  · exact Disk.home_store.trans h.home
  · show c ∈ (d.store _ _).log ↔ _
    rw [Disk.mem_log_store, h.log, or_assoc, or_assoc]
    refine or_congr_right (or_congr_right (or_congr_right ⟨fun hc => ⟨by omega, by omega, hc⟩, ?_⟩))
    exact fun hc => hc.2.2
  · exact Disk.mem_log_store.mpr (.inl hc)
  · exact Disk.nodup_store (h.nodup hn) _ _

namespace Fills

theorem ne_zero (h : Fills sb s k b s') : b ≠ 0 := by
  have h1 := h.ge
  have h2 := sb.nmeta_pos
  omega

theorem slot_self (h : Fills sb s k b s') : s'.slot k = b := (h.slots k h.le).trans (if_pos rfl)

theorem slot_of_ne (h : Fills sb s k b s') (hk' : k' ≤ 268) (hne : k' ≠ k) :
    s'.slot k' = s.slot k' :=
  (h.slots k' hk').trans (if_neg hne)

theorem slot_kept (h : Fills sb s k b s') (hk' : k' ≤ 268) (hne : s.slot k' ≠ 0) :
    s'.slot k' = s.slot k' :=
  h.slot_of_ne hk' fun heq => hne (heq ▸ h.empty)

theorem size (h : Fills sb s k b s') : s'.ip.size = s.ip.size := by
  obtain ⟨a, ha⟩ := h.ip
  rw [ha]

theorem bit_mono (h : Fills sb s k b s') (hc : c < sb.size) (hbit : s.bit sb c = true) :
    s'.bit sb c = true := by
  rw [h.bits c hc, hbit, Bool.or_true]

theorem wf (h : Fills sb s k b s') (hwf : Wf sb s) : Wf sb s' := by
  have hge := h.ge
  have hlt := h.lt
  have hle := sb.nmeta_le
  refine ⟨h.inum ▸ hwf.inum_lt, h.size ▸ hwf.size_le, fun c hc => ?_, fun k' hk' hne => ?_,
    fun k₁ k₂ hk₁ hk₂ hne heq => ?_⟩
  · exact h.bit_mono (by omega) (hwf.marked c hc)
  · rcases eq_or_ne k' k with rfl | hkk
    · rw [h.slot_self]
      exact ⟨hge, hlt, by rw [h.bits b hlt, decide_eq_true rfl, Bool.true_or]⟩
    · rw [h.slot_of_ne hk' hkk] at hne ⊢
      obtain ⟨h1, h2, h3⟩ := hwf.data k' hk' hne
      exact ⟨h1, h2, h.bit_mono h2 h3⟩
  · rcases eq_or_ne k₁ k with rfl | hk₁'
    · rcases eq_or_ne k₂ k₁ with rfl | hk₂'
      · rfl
      · -- the new block is none of the old ones
        rw [h.slot_self, h.slot_of_ne hk₂ hk₂'] at heq
        exact absurd heq.symm (hwf.ne_of_free hk₂ (heq ▸ h.ne_zero) h.free)
    · rw [h.slot_of_ne hk₁ hk₁'] at hne heq
      rcases eq_or_ne k₂ k with rfl | hk₂'
      · rw [h.slot_self] at heq
        exact absurd heq (hwf.ne_of_free hk₁ hne h.free)
      · rw [h.slot_of_ne hk₂ hk₂'] at heq
        exact hwf.inj k₁ k₂ hk₁ hk₂ hne heq

theorem cache_slot (h : Fills sb s k b s') (hwf : Wf sb s) (hk' : k' < 268) (hne : s.slot k' ≠ 0) :
    s'.disk.cache (s.slot k') = s.disk.cache (s.slot k') := by
  refine h.same _ (hwf.ne_of_free hk'.le hne h.free) (fun _ _ heq => ?_)
    (.inr (hwf.data k' hk'.le hne).1)
  have hkk := hwf.inj k' 268 hk'.le le_rfl hne heq
  omega

/-- The contents of the file are the same: a new block is zero, as one that is not there. -/
theorem content (h : Fills sb s k b s') (hwf : Wf sb s) {p : ℕ} (hp : p / 1024 < 268) :
    s'.content p = s.content p := by
  unfold State.content
  by_cases hslot : s.slot (p / 1024) = 0
  · rw [if_pos hslot]
    rcases eq_or_ne (p / 1024) k with hk | hk
    · rw [hk, h.slot_self, h.zero]
      exact ite_self _
    · rw [h.slot_of_ne hp.le hk, if_pos hslot]
  · rw [if_neg hslot, h.slot_kept hp.le hslot, if_neg hslot, h.cache_slot hwf hp hslot]

end Fills

/-! ## `bmap` -/

inductive Bmap (sb : Superblock) (s : State) (bn : ℕ) : ℕ → State → Prop where
  | found (h : s.slot bn ≠ 0) : Bmap sb s bn (s.slot bn) s
  | full (h : s.slot bn = 0) (hfull : s.NoFree sb) : Bmap sb s bn 0 s
  | filled {b : ℕ} {s' : State} (hind : bn < 12 ∨ s.slot 268 ≠ 0) (h : Fills sb s bn b s') :
      Bmap sb s bn b s'
  /-- The indirect block is there now, but there is no other block. -/
  | indirect {c : ℕ} {s' : State} (hbn : 12 ≤ bn) (h : Fills sb s 268 c s') (hfull : s'.NoFree sb) :
      Bmap sb s bn 0 s'
  | both {b c : ℕ} {s' s'' : State} (hbn : 12 ≤ bn) (h : Fills sb s 268 c s')
      (h' : Fills sb s' bn b s'') : Bmap sb s bn b s''

theorem loadAddr_cases (hwf : Wf sb s) (hj : j < 13) :
    (s.ip.addr j ≠ 0 ∧ s.loadAddr sb j = (s.ip.addr j, s)) ∨
      (s.ip.addr j = 0 ∧ s.NoFree sb ∧ s.loadAddr sb j = (0, s)) ∨
      ∃ b s', Fills sb s (slotOf j) (b + 1) s' ∧ s.loadAddr sb j = (b + 1, s') := by
  unfold State.loadAddr
  by_cases hempty : s.ip.addr j = 0
  · rw [if_pos hempty]
    rcases balloc_cases hwf.marked with ⟨hb, hfull⟩ | ⟨b, d, hb, halloc⟩
    · rw [hb]
      exact .inr (.inl ⟨hempty, hfull, rfl⟩)
    · rw [hb]
      exact .inr (.inr ⟨b, _, fills_addr hwf hj hempty halloc, rfl⟩)
  · rw [if_neg hempty]
    exact .inl ⟨hempty, rfl⟩

theorem loadEntry_cases (hwf : Wf sb s) (hind : s.ip.addr 12 ≠ 0) (hj : j < 256) :
    (s.slot (j + 12) ≠ 0 ∧ s.loadEntry sb (s.ip.addr 12) j = (s.slot (j + 12), s)) ∨
      (s.slot (j + 12) = 0 ∧ s.NoFree sb ∧ s.loadEntry sb (s.ip.addr 12) j = (0, s)) ∨
      ∃ b s', Fills sb s (j + 12) b s' ∧ s.loadEntry sb (s.ip.addr 12) j = (b, s') := by
  have hslot : s.slot (j + 12) = getEntry (s.disk.cache (s.ip.addr 12)) j := by
    rw [State.slot, slot_entry (by omega) (by omega), if_neg hind, Nat.add_sub_cancel]
  rw [hslot]
  unfold State.loadEntry
  by_cases hempty : getEntry (s.disk.cache (s.ip.addr 12)) j = 0
  · rw [if_pos hempty]
    rcases balloc_cases hwf.marked with ⟨hb, hfull⟩ | ⟨b, d, hb, halloc⟩
    · rw [hb]
      exact .inr (.inl ⟨hempty, hfull, rfl⟩)
    · rw [hb]
      exact .inr (.inr ⟨_, _, fills_entry hwf hind hj hempty halloc, rfl⟩)
  · rw [if_neg hempty]
    exact .inl ⟨hempty, rfl⟩

theorem bmap_cases (hwf : Wf sb s) (hbn : bn < 268) :
    ∃ a s', s.bmap sb bn = .ok (a, s') ∧ Bmap sb s bn a s' := by
  unfold State.bmap
  by_cases hdirect : bn < 12
  · rw [if_pos hdirect]
    have hof : slotOf bn = bn := if_pos hdirect
    have hslot : s.slot bn = s.ip.addr bn := slot_direct hdirect
    rcases loadAddr_cases hwf (show bn < 13 by omega) with ⟨hne, heq⟩ | ⟨hempty, hfull, heq⟩ |
      ⟨b, s', hfills, heq⟩
    · rw [heq, ← hslot]
      exact ⟨_, _, rfl, .found (hslot ▸ hne)⟩
    · rw [heq]
      exact ⟨_, _, rfl, .full (hslot ▸ hempty) hfull⟩
    · rw [heq]
      exact ⟨_, _, rfl, .filled (.inl hdirect) (hof ▸ hfills)⟩
  · rw [if_neg hdirect, if_pos (by omega)]
    have hbn' : bn - 12 + 12 = bn := by omega
    have hof : slotOf 12 = 268 := rfl
    rcases loadAddr_cases hwf (show 12 < 13 by omega) with ⟨hne, heq⟩ | ⟨hempty, hfull, heq⟩ |
      ⟨c, s', hfills, heq⟩
    · rw [heq]
      obtain ⟨i, hi⟩ := Nat.exists_eq_succ_of_ne_zero hne
      rw [hi]
      simp only
      rw [← hi]
      rcases loadEntry_cases hwf hne (show bn - 12 < 256 by omega) with ⟨hne', heq⟩ |
        ⟨hempty, hfull, heq⟩ | ⟨b, s', hfills, heq⟩
      · rw [heq]
        rw [hbn'] at hne' ⊢
        exact ⟨_, _, rfl, .found hne'⟩
      · rw [heq]
        rw [hbn'] at hempty
        exact ⟨_, _, rfl, .full hempty hfull⟩
      · rw [heq]
        rw [hbn'] at hfills
        exact ⟨_, _, rfl, .filled (.inr hne) hfills⟩
    · rw [heq]
      refine ⟨_, _, rfl, .full ?_ hfull⟩
      rw [State.slot, slot_entry (by omega) hbn, if_pos hempty]
    · rw [heq]
      rw [hof] at hfills
      have hwf' := hfills.wf hwf
      have haddr : s'.ip.addr 12 = c + 1 := hfills.slot_self
      simp only
      rw [← haddr]
      rcases loadEntry_cases hwf' (haddr ▸ Nat.succ_ne_zero c) (show bn - 12 < 256 by omega) with
        ⟨hne', -⟩ | ⟨hempty, hfull, heq⟩ | ⟨b, s'', hfills', heq⟩
      · -- a new indirect block has no entries
        refine absurd ?_ hne'
        rw [hbn', hfills.slot_of_ne hbn.le (by omega), State.slot, slot_entry (by omega) hbn]
        exact if_pos hfills.empty
      · rw [heq]
        exact ⟨_, _, rfl, .indirect (by omega) hfills hfull⟩
      · rw [heq]
        rw [hbn'] at hfills'
        exact ⟨_, _, rfl, .both (by omega) hfills hfills'⟩

end LazyXv6.Storage
