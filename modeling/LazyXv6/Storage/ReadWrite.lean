import LazyXv6.Storage.Space

/-!
# Files are byte arrays

The contents of an inode are a function from offsets to bytes. `writei` replaces a range of it by
bytes of the source, as far as there are blocks, and extends the size; `readi` gives a range.
-/

namespace LazyXv6.Storage

open Lib Lib.SmallFin Function

variable {sb : Superblock} {s s' s₁ : State} {a k tot off n t o : ℕ} {copyin : State.Source}

/-! ## Contents -/

theorem Writes.content_overwrite {bytes : List UInt8}
    (h : Writes s (off / 1024)
      (overwrite (s.disk.cache (s.slot (off / 1024))) (off % 1024) bytes) s')
    (hwf : Wf sb s) (hlen : off % 1024 + bytes.length ≤ 1024) {p : ℕ} (hp : p / 1024 < 268) :
    s'.content p = overwrite s.content off bytes p := by
  rw [h.content hwf hp]
  by_cases hblock : p / 1024 = off / 1024
  · rw [if_pos hblock]
    have hold : s.content p = s.disk.cache (s.slot (off / 1024)) (p % 1024) := by
      unfold State.content
      rw [hblock, if_neg h.ne]
    by_cases hle : off ≤ p
    · have hle' : off % 1024 ≤ p % 1024 := by omega
      have hidx : p % 1024 - off % 1024 = p - off := by omega
      unfold overwrite
      rw [if_pos hle, if_pos hle', hidx, hold]
    · rw [overwrite_of_lt (by omega), overwrite_of_lt (by omega), hold]
  · rw [if_neg hblock]
    by_cases hle : off ≤ p
    · rw [overwrite_of_ge (by omega)]
    · rw [overwrite_of_lt (by omega)]

theorem Bmap.content_copied (h : Bmap sb s (off / 1024) a s') (hwf : Wf sb s) (ha : a ≠ 0)
    {bytes : List UInt8} (hlen : off % 1024 + bytes.length ≤ 1024) {d : Disk}
    (hw : Writes s' (off / 1024) (overwrite (s'.disk.cache a) (off % 1024) bytes)
      { s' with disk := d }) {p : ℕ} (hp : p / 1024 < 268) :
    ({ s' with disk := d } : State).content p = overwrite s.content off bytes p := by
  have hslot := h.slot_self ha
  rw [← hslot] at hw
  rw [hw.content_overwrite (h.wf hwf) hlen hp]
  exact overwrite_congr (h.content hwf hp)

def fromBytes (src : ℕ → UInt8) : State.Source :=
  fun j m => ((List.range m).map fun i => src (j + i), true)

theorem Copied.content {src : ℕ → UInt8} (h : Copied sb (fromBytes src) n tot off s t o s₁)
    (hwf : Wf sb s) (hoff : off + (n - tot) ≤ 268 * 1024) {p : ℕ} (hp : p / 1024 < 268) :
    s₁.content p = if off ≤ p ∧ p < o then src (tot + (p - off)) else s.content p := by
  induction h with
  | refl => rw [if_neg (by omega)]
  | @turn tot off a t o s s' s₁ hlt hb ha hc rest ih =>
    have hpos : 0 < State.chunk n tot off := chunk_pos hlt
    have hle := chunk_le n tot off
    have hblock := chunk_block n tot off
    have hbn : off / 1024 < 268 := by omega
    have hwrites := hb.copied_logged hbn ha (fromBytes src tot (State.chunk n tot off)).1
    have hlen : off % 1024 + (fromBytes src tot (State.chunk n tot off)).1.length ≤ 1024 := by
      simpa [fromBytes] using hblock
    obtain ⟨h1, h2, h3⟩ := rest.progress (by omega)
    rw [ih (hwrites.wf (hb.wf hwf)) (by omega), hb.content_copied hwf ha hlen hwrites hp]
    show (if off + State.chunk n tot off ≤ p ∧ p < o then _ else
      overwrite s.content off ((List.range (State.chunk n tot off)).map fun i => src (tot + i)) p) = _
    rw [overwrite_map]
    by_cases hin : off + State.chunk n tot off ≤ p ∧ p < o
    · rw [if_pos hin, if_pos (by omega)]
      congr 1
      omega
    · rw [if_neg hin]
      by_cases hchunk : off ≤ p ∧ p < off + State.chunk n tot off
      · rw [if_pos hchunk, if_pos (by omega)]
      · rw [if_neg hchunk, if_neg (by omega)]

/-! ## The end of `writei` -/

/-- What does not change if only the size and blocks before the bitmap do. -/
structure SameData (sb : Superblock) (s s' : State) : Prop where
  addrs : s'.ip.addrs = s.ip.addrs
  cache : ∀ c, sb.bmapstart ≤ c → s'.disk.cache c = s.disk.cache c

namespace SameData

variable (h : SameData sb s s') (hwf : Wf sb s)

include h

theorem addr (j : ℕ) : s'.ip.addr j = s.ip.addr j := by
  unfold Inode.addr
  rw [h.addrs]

theorem bit (c : ℕ) : s'.bit sb c = s.bit sb c := Disk.bit_congr (h.cache _ (sb.le_bblock c))

include hwf

theorem slot (k : ℕ) : s'.slot k = s.slot k := by
  show Storage.slot s'.disk s'.ip k = Storage.slot s.disk s.ip k
  unfold Storage.slot
  rw [h.addr, h.addr]
  by_cases hind : s.ip.addr 12 = 0
  · rw [if_pos hind, if_pos hind]
  · have hge := (hwf.data 268 le_rfl hind).1
    have hlt := sb.bmapstart_lt
    have hslot : s.slot 268 = s.ip.addr 12 := rfl
    rw [if_neg hind, if_neg hind, h.cache _ (by omega)]

theorem content {p : ℕ} (hp : p / 1024 < 268) : s'.content p = s.content p := by
  unfold State.content
  rw [h.slot hwf]
  by_cases hslot : s.slot (p / 1024) = 0
  · rw [if_pos hslot, if_pos hslot]
  · have hge := (hwf.data _ hp.le hslot).1
    have hlt := sb.bmapstart_lt
    rw [if_neg hslot, if_neg hslot, h.cache _ (by omega)]

theorem wf (hinum : s'.inum = s.inum) (hsize : s'.ip.size.toNat ≤ 268 * 1024) : Wf sb s' := by
  refine ⟨hinum ▸ hwf.inum_lt, hsize, fun c hc => (h.bit c).trans (hwf.marked c hc), ?_, ?_⟩
  · intro k hk hne
    rw [h.slot hwf] at hne ⊢
    obtain ⟨h1, h2, h3⟩ := hwf.data k hk hne
    exact ⟨h1, h2, (h.bit _).trans h3⟩
  · intro k₁ k₂ hk₁ hk₂ hne heq
    rw [h.slot hwf] at hne
    rw [h.slot hwf, h.slot hwf] at heq
    exact hwf.inj k₁ k₂ hk₁ hk₂ hne heq

end SameData

theorem size_setSize (s : State) (hoff : off ≤ 268 * 1024) :
    ((s.setSize off).iupdate sb).ip.size.toNat = max s.ip.size.toNat off := by
  show (s.setSize off).ip.size.toNat = _
  unfold State.setSize
  split
  case isTrue h =>
    show (UInt32.ofNat off).toNat = _
    rw [UInt32.toNat_ofNat', Nat.mod_eq_of_lt (by omega), Nat.max_eq_right h.le]
  case isFalse h => rw [Nat.max_eq_left (Nat.not_lt.mp h)]

theorem rest_setSize (s : State) (off : ℕ) : (s.setSize off).ip.addrs = s.ip.addrs ∧
    (s.setSize off).disk = s.disk ∧ (s.setSize off).inum = s.inum := by
  unfold State.setSize
  split <;> exact ⟨rfl, rfl, rfl⟩

theorem sameData_finish (hwf : Wf sb s) (off : ℕ) : SameData sb s ((s.setSize off).iupdate sb) := by
  obtain ⟨haddrs, hdisk, hinum⟩ := rest_setSize s off
  refine ⟨haddrs, fun c hc => ?_⟩
  have hlt := sb.iblock_lt hwf.inum_lt
  show (((s.setSize off).disk.iupdate sb _ _).cache c) = _
  unfold Disk.iupdate
  rw [hdisk, hinum, Disk.cache_store_of_ne (by omega)]

/-! ## `readi` -/

theorem bmap_found (h : s.slot k ≠ 0) (hwf : Wf sb s) (hk : k < 268) :
    s.bmap sb k = .ok (s.slot k, s) := by
  obtain ⟨a, s', heq, hb⟩ := bmap_cases hwf hk
  rw [heq]
  cases hb with
  | found => rfl
  | full h' => exact absurd h' h
  | filled _ h' => exact absurd h'.empty h
  | indirect hbn h' | both hbn h' => exact absurd (slot_of_no_indirect h'.empty hbn hk) h

theorem readiLoop_eq (hwf : Wf sb s) (fuel : ℕ) : ∀ (tot off : ℕ) (out : List UInt8),
    n - tot ≤ fuel → tot ≤ n → off + (n - tot) ≤ 268 * 1024 →
    (∀ p, off ≤ p → p < off + (n - tot) → s.slot (p / 1024) ≠ 0) →
    State.readiLoop sb (fun _ => true) n fuel tot off out s =
      .ok (n, out ++ (List.range (n - tot)).map fun i => s.content (off + i), s) := by
  induction fuel with
  | zero =>
    intro tot off out hfuel htot _ _
    obtain rfl : tot = n := by omega
    rw [Nat.sub_self, List.range_zero, List.map_nil, List.append_nil]
    rfl
  | succ fuel ih =>
    intro tot off out hfuel htot hoff hmapped
    unfold State.readiLoop
    by_cases hlt : tot < n
    · have hpos : 0 < State.chunk n tot off := chunk_pos hlt
      have hle := chunk_le n tot off
      have hblock := chunk_block n tot off
      have hne := hmapped off le_rfl (by omega)
      rw [if_pos hlt, bmap_found hne hwf (by omega)]
      obtain ⟨a, ha⟩ := Nat.exists_eq_succ_of_ne_zero hne
      rw [ha]
      simp only [if_true]
      rw [ih _ _ _ (by omega) (by omega) (by omega) fun p hp hp' => hmapped p (by omega) (by omega)]
      have hbytes : (List.range (State.chunk n tot off)).map
        (fun k => s.disk.cache a.succ (off % 1024 + k)) =
          (List.range (State.chunk n tot off)).map fun i => s.content (off + i) := by
        refine List.map_congr_left fun k hk => ?_
        rw [List.mem_range] at hk
        unfold State.content
        rw [show (off + k) / 1024 = off / 1024 by omega, show (off + k) % 1024 =
          off % 1024 + k by omega, if_neg hne, ha]
      have hsplit : n - tot = State.chunk n tot off + (n - (tot + State.chunk n tot off)) := by omega
      rw [hbytes, List.append_assoc, hsplit, List.range_add, List.map_append, List.map_map]
      congr 5
      refine List.map_congr_left fun i _ => ?_
      show s.content (off + State.chunk n tot off + i) = s.content (off + (State.chunk n tot off + i))
      rw [Nat.add_assoc]
    · obtain rfl : tot = n := by omega
      rw [if_neg hlt, Nat.sub_self, List.range_zero, List.map_nil, List.append_nil]

/-! ## `writei` -/

section Finish

variable (hwf : Wf sb s) (hoff : off ≤ s.ip.size.toNat) (hmax : off + n ≤ 268 * 1024)
  (hcopied : Copied sb copyin n 0 off s t o s₁) (hlast : Last sb copyin n t o s₁ s')

include hcopied in
theorem end_offset : t ≤ n ∧ o = off + t := by
  obtain ⟨-, h1, h2⟩ := hcopied.progress (Nat.zero_le n)
  exact ⟨h1, by omega⟩

include hwf hmax hcopied

theorem after_copied : After sb s s₁ := hcopied.after hwf (by omega)

include hlast

theorem after_last : After sb s₁ s' := by
  have ho := end_offset hcopied
  exact hlast.after (after_copied hwf hmax hcopied).wf (by omega)

theorem size_finish : ((s'.setSize o).iupdate sb).ip.size.toNat =
    max s.ip.size.toNat (off + t) := by
  have ho := end_offset hcopied
  rw [size_setSize s' (by omega), (after_last hwf hmax hcopied hlast).size,
    (after_copied hwf hmax hcopied).size, ho.2]

theorem wf_finish : Wf sb ((s'.setSize o).iupdate sb) := by
  have hwf' := (after_last hwf hmax hcopied hlast).wf
  have ho := end_offset hcopied
  refine (sameData_finish hwf' o).wf hwf' (rest_setSize s' o).2.2 ?_
  rw [size_finish hwf hmax hcopied hlast]
  have hsize := hwf.size_le
  omega

include hoff in
theorem noHoles_finish (hholes : NoHoles s) : NoHoles ((s'.setSize o).iupdate sb) := by
  have hafter := after_copied hwf hmax hcopied
  have hlast' := after_last hwf hmax hcopied hlast
  have ho := end_offset hcopied
  have hsize := hwf.size_le
  intro bn hbn
  rw [size_finish hwf hmax hcopied hlast] at hbn
  rw [(sameData_finish hlast'.wf o).slot hlast'.wf]
  have hbn' : bn < 268 := by omega
  -- the block was below the old size, or it was written to
  have hslot : s₁.slot bn ≠ 0 := by
    rcases Nat.lt_or_ge (bn * 1024) s.ip.size.toNat with hlt | hge
    · rw [hafter.kept bn hbn'.le (hholes bn hlt)]
      exact hholes bn hlt
    · have hm := hcopied.mapped hwf (by omega) (show off ≤ bn * 1024 by omega) (by omega)
      rwa [Nat.mul_div_cancel _ (by decide)] at hm
  rw [hlast'.kept bn hbn'.le hslot]
  exact hslot

end Finish

/-- If there is no block for the next byte, there were not enough for it at the start. -/
theorem lt_needed_of_full (hwf : Wf sb s) (hmax : off + n ≤ 268 * 1024)
    (hcopied : Copied sb copyin n 0 off s t o s₁) (hb : Bmap sb s₁ (o / 1024) 0 s') {e : ℕ}
    (he : t < e) (hen : e ≤ n) : s.free sb < s.needed (off / 1024) (span off e) := by
  have ho := end_offset hcopied
  have hneeded := hcopied.needed hwf (by omega) (Nat.zero_le _) (show t + (e - t) ≤ n by omega)
  rw [show t + (e - t) - 0 = e by omega] at hneeded
  obtain ⟨k, hk⟩ := span_pos (show e - t ≠ 0 by omega)
  have hcost : s₁.cost (o / 1024) ≤ s₁.needed (o / 1024) (k + 1) := s₁.cost_le_needed (by omega)
  have hnot := (hb.cost (by omega)).2 rfl
  rw [hk] at hneeded
  omega

/-- What a write of `n` bytes at `off` leaves, of which the first `tot` were written. -/
structure Written (sb : Superblock) (s : State) (src : ℕ → UInt8) (off n tot : ℕ) (s' : State) :
    Prop where
  le : tot ≤ n
  all : s.needed (off / 1024) (span off n) ≤ s.free sb → tot = n
  size : s'.ip.size.toNat = max s.ip.size.toNat (off + tot)
  bytes : ∀ p, p < 268 * 1024 → s'.content p = if off ≤ p ∧
    p < off + tot then src (p - off) else s.content p
  wf : Wf sb s'
  noHoles : NoHoles s → NoHoles s'

theorem written_finish {src : ℕ → UInt8} (hwf : Wf sb s) (hoff : off ≤ s.ip.size.toNat)
    (hmax : off + n ≤ 268 * 1024) (hcopied : Copied sb (fromBytes src) n 0 off s t o s₁)
    (hlast : Last sb (fromBytes src) n t o s₁ s') :
    Written sb s src off n t ((s'.setSize o).iupdate sb) := by
  obtain ⟨htn, ho⟩ := end_offset hcopied
  have hafter := after_copied hwf hmax hcopied
  have hlast' := after_last hwf hmax hcopied hlast
  refine ⟨htn, fun hfree => ?_, size_finish hwf hmax hcopied hlast, fun p hp => ?_,
    wf_finish hwf hmax hcopied hlast, noHoles_finish hwf hoff hmax hcopied hlast⟩
  · cases hlast with
    | done h => omega
    | full h hb =>
      -- the loop stopped, although there are blocks
      have hneeded := lt_needed_of_full hwf hmax hcopied hb h le_rfl
      omega
    | failed _ _ _ hc => exact nomatch hc
  · have hsame : s'.content p = s₁.content p := by
      cases hlast with
      | done => rfl
      | full _ hb => exact hb.content hafter.wf (by omega)
      | failed _ _ _ hc => exact nomatch hc
    rw [(sameData_finish hlast'.wf o).content hlast'.wf (by omega), hsame,
      hcopied.content hwf (by omega) (by omega), Nat.zero_add, ho]

section

variable {off n : UInt32}

theorem toNat_add_of_not_wraps (h : ¬ off + n < off) : (off + n).toNat = off.toNat + n.toNat := by
  have h1 := off.toNat_lt
  have h2 := n.toNat_lt
  rw [UInt32.lt_iff_toNat_lt, UInt32.toNat_add] at h
  rw [UInt32.toNat_add]
  omega

def State.Refuses (s : State) (off n : UInt32) : Prop :=
  s.ip.size < off ∨ off + n < off ∨ 268 * 1024 < off.toNat + n.toNat

theorem writei_refused (h : s.Refuses off n) (copyin : State.Source) :
    s.writei sb copyin off n = .ok (-1, s) := by
  unfold State.writei
  by_cases hguard : s.ip.size < off ∨ off + n < off
  · rw [if_pos hguard]
  · have hadd := toNat_add_of_not_wraps fun hw => hguard (.inr hw)
    have hmax : 268 * 1024 < off.toNat + n.toNat := by
      unfold State.Refuses at h
      tauto
    rw [if_neg hguard, if_pos (by omega)]

theorem State.Refuses.bounds (h : ¬ s.Refuses off n) :
    off.toNat ≤ s.ip.size.toNat ∧ off.toNat + n.toNat ≤ 268 * 1024 := by
  simp only [State.Refuses, not_or, UInt32.lt_iff_toNat_lt] at h
  omega

theorem writei_turns (hwf : Wf sb s) (h : ¬ s.Refuses off n) (copyin : State.Source) :
    ∃ (t o : ℕ) (s₁ s' : State),
      s.writei sb copyin off n = .ok (t, (s'.setSize o).iupdate sb) ∧
        Copied sb copyin n.toNat 0 off.toNat s t o s₁ ∧ Last sb copyin n.toNat t o s₁ s' := by
  have hbounds := State.Refuses.bounds h
  obtain ⟨t, o, s₁, s', hloop, hcopied, hlast⟩ : ∃ t o s₁ s',
      State.writeiLoop sb copyin n.toNat n.toNat 0 off.toNat s = .ok (t, o, s') ∧
        Copied sb copyin n.toNat 0 off.toNat s t o s₁ ∧ Last sb copyin n.toNat t o s₁ s' :=
    writeiLoop_turns n.toNat 0 off.toNat s hwf (by omega) (by omega)
  refine ⟨t, o, s₁, s', ?_, hcopied, hlast⟩
  simp only [State.Refuses, not_or] at h
  have hadd := toNat_add_of_not_wraps h.2.1
  unfold State.writei
  rw [if_neg (by tauto), if_neg (by omega), hloop]

theorem writei_written (hwf : Wf sb s) (h : ¬ s.Refuses off n) (src : ℕ → UInt8) :
    ∃ (tot : ℕ) (s' : State), s.writei sb (fromBytes src) off n = .ok (tot, s') ∧
      Written sb s src off.toNat n.toNat tot s' := by
  obtain ⟨hoff, hmax⟩ := State.Refuses.bounds h
  obtain ⟨t, o, s₁, s', heq, hcopied, hlast⟩ := writei_turns hwf h (fromBytes src)
  exact ⟨t, _, heq, written_finish hwf hoff hmax hcopied hlast⟩

/-- `readi` gives the bytes from `off` on, up to the size. -/
theorem readi_eq (hwf : Wf sb s) (hholes : NoHoles s) (h : ¬ (s.ip.size < off ∨ off + n < off)) :
    s.readi sb (fun _ => true) off n = .ok ((min n.toNat (s.ip.size.toNat - off.toNat) : ℕ),
        (List.range (min n.toNat (s.ip.size.toNat - off.toNat))).map
          fun i => s.content (off.toNat + i), s) := by
  have hadd := toNat_add_of_not_wraps fun hw => h (.inr hw)
  have hoff : off.toNat ≤ s.ip.size.toNat := by
    have hnot : ¬ s.ip.size < off := fun hlt => h (.inl hlt)
    rw [UInt32.lt_iff_toNat_lt] at hnot
    omega
  have hn : (if s.ip.size < off + n then s.ip.size - off else n).toNat =
      min n.toNat (s.ip.size.toNat - off.toNat) := by
    by_cases hclip : s.ip.size < off + n
    · rw [if_pos hclip, UInt32.toNat_sub_of_le _ _ (UInt32.le_iff_toNat_le.mpr hoff)]
      rw [UInt32.lt_iff_toNat_lt] at hclip
      omega
    · rw [if_neg hclip]
      rw [UInt32.lt_iff_toNat_lt] at hclip
      omega
  have hsize := hwf.size_le
  unfold State.readi
  rw [if_neg h]
  simp only [hn]
  rw [readiLoop_eq hwf _ _ _ _ (by omega) (Nat.zero_le _) (by omega) fun p hp hp' => ?_]
  · rw [List.nil_append, Nat.sub_zero]
  · exact hholes _ (by omega)

/-- **Files are byte arrays.** A write that starts after the end, wraps or is too long is refused.
Any other one replaces the bytes from `off` on by those of the source, up to a number that is `n` if
there are enough free blocks. A read gives the bytes from `off` on, up to the size. -/
theorem files_are_byte_arrays (hwf : Wf sb s) (hholes : NoHoles s) (off n : UInt32)
    (src : ℕ → UInt8) :
    (s.Refuses off n → s.writei sb (fromBytes src) off n = .ok (-1, s)) ∧
    (¬ s.Refuses off n → ∃ (tot : ℕ) (s' : State),
      s.writei sb (fromBytes src) off n = .ok (tot, s') ∧
        Written sb s src off.toNat n.toNat tot s') ∧
    (s.ip.size < off ∨ off + n < off → s.readi sb (fun _ => true) off n = .ok (0, [], s)) ∧
    (¬ (s.ip.size < off ∨ off + n < off) → s.readi sb (fun _ => true) off n =
        .ok ((min n.toNat (s.ip.size.toNat - off.toNat) : ℕ),
          (List.range (min n.toNat (s.ip.size.toNat - off.toNat))).map
            fun i => s.content (off.toNat + i), s)) :=
  ⟨fun h => writei_refused h _, fun h => writei_written hwf h src, fun h => if_pos h,
    fun h => readi_eq hwf hholes h⟩

end

/-- Sixteen blocks: the inodes in block 2, the bitmap in block 3, data from block 4 on. -/
def smallSb : Superblock where
  size := 16
  ninodes := 16
  inodestart := 2
  bmapstart := 3
  nmeta := 4
  inodes_before := by decide
  bitmap_before := by decide
  nmeta_le := by decide
  size_lt := by decide

/-- A file of five bytes, in block 4. -/
def hello : State where
  disk :=
    { cache := fun b i =>
        if b = 3 then if i = 0 then 31 else 0
        else if b = 4 then ([104, 101, 108, 108, 111] : List UInt8).getD i 0 else 0
      home := fun _ _ => 0
      log := [] }
  inum := 1
  ip := { Inode.zero with
    type := tFile, nlink := 1, size := 5, addrs := fun j => if j = 0 then 4 else 0 }

theorem slot_hello : ∀ k, k ≤ 268 → hello.slot k = if k = 0 then 4 else 0 := by
  decide +kernel

theorem wf_hello : Wf smallSb hello := by
  refine ⟨by decide, by decide, by decide +kernel, fun k hk hne => ?_,
    fun k₁ k₂ hk₁ hk₂ hne heq => ?_⟩
  · rw [slot_hello k hk] at hne ⊢
    by_cases hk0 : k = 0
    · rw [if_pos hk0]
      exact ⟨by decide, by decide, by decide +kernel⟩
    · exact absurd (if_neg hk0) hne
  · rw [slot_hello k₁ hk₁] at hne heq
    rw [slot_hello k₂ hk₂] at heq
    by_contra hkk
    split at hne
    · rw [if_pos ‹_›, if_neg (by omega)] at heq
      exact nomatch heq
    · exact hne rfl

theorem noHoles_hello : NoHoles hello := by
  intro bn hbn
  have hbn' : bn * 1024 < 5 := hbn
  obtain rfl : bn = 0 := by omega
  decide

/-- Three bytes at the end of the file, and four bytes read. -/
theorem files_are_byte_arrays_hello :
    (∃ (tot : ℕ) (s' : State), hello.writei smallSb (fromBytes fun _ => 33) 4 3 = .ok (tot, s') ∧
      Written smallSb hello (fun _ => 33) 4 3 tot s') ∧
    hello.readi smallSb (fun _ => true) 1 10 =
      .ok (4, (List.range 4).map fun i => hello.content (1 + i), hello) :=
  ⟨(files_are_byte_arrays wf_hello noHoles_hello 4 3 fun _ => 33).2.1
    (by unfold State.Refuses; decide),
    (files_are_byte_arrays wf_hello noHoles_hello 1 10 fun _ => 33).2.2.2 (by decide)⟩

end LazyXv6.Storage
