import LazyXv6.Storage.ReadWrite
import LazyXv6.FileTree.Dirent
import LazyXv6.Lib.SlotMap

/-!
# Directories are maps (`fs.c`, `sysfile.c`)

`dirlookup` and `dirlink` read a directory entry by entry with `readi`, and `dirlink` and
`sys_unlink` write one with `writei`. An entry takes 16 bytes, so that it lies in one block, and a
write of it does all or nothing. The name of an entry is its 14 bytes, with no NUL if all of them
are used; two names are the same if they agree up to a NUL or in 14 bytes.

The inode table is not modelled here: `iget` and `iput` of what was found are left out.
-/

namespace LazyXv6.Storage

open Lib Function
open FileTree (Dirent namecmp strncpy dirSiz key dot dotdot)

/-- The `struct dirent` in 16 bytes. -/
def toDirent (bytes : List UInt8) : Dirent := ⟨getLE (fun i => bytes.getD i 0) 0 2, bytes.drop 2⟩

/-- The bytes of the `struct dirent` that `dirlink` writes. -/
def direntBytes (name : List UInt8) (inum : ℕ) : List UInt8 :=
  byteOf inum 0 :: byteOf inum 1 :: strncpy name dirSiz

namespace State

variable (sb : Superblock)

/-- The loop of `dirlookup`: the offset of the entry that was found and its inode number. -/
def dirlookupLoop (name : List UInt8) : ℕ → ℕ → State → Except Panic (Option (ℕ × ℕ) × State)
  | 0, _, s => .ok (none, s)
  | fuel + 1, off, s =>
    if off < s.ip.size.toNat then
      match s.readi sb (fun _ => true) (UInt32.ofNat off) 16 with
      | .error e => .error e
      | .ok (r, bytes, s) =>
        if r ≠ 16 then .error .dirlookupRead
        else if (toDirent bytes).inum = 0 then dirlookupLoop name fuel (off + 16) s
        else if namecmp name (toDirent bytes).name = 0 then .ok (some (off, (toDirent bytes).inum), s)
        else dirlookupLoop name fuel (off + 16) s
    else .ok (none, s)

def dirlookup (s : State) (name : List UInt8) : Except Panic (Option (ℕ × ℕ) × State) :=
  if s.ip.type ≠ tDir then .error .dirlookupNotDir
  else dirlookupLoop sb name (s.ip.size.toNat / 16 + 1) 0 s

/-- The loop of `dirlink`, up to an entry that is not in use or the end. -/
def dirlinkLoop : ℕ → ℕ → State → Except Panic (ℕ × State)
  | 0, off, s => .ok (off, s)
  | fuel + 1, off, s =>
    if off < s.ip.size.toNat then
      match s.readi sb (fun _ => true) (UInt32.ofNat off) 16 with
      | .error e => .error e
      | .ok (r, bytes, s) =>
        if r ≠ 16 then .error .dirlinkRead
        else if (toDirent bytes).inum = 0 then .ok (off, s)
        else dirlinkLoop fuel (off + 16) s
    else .ok (off, s)

def dirlink (s : State) (name : List UInt8) (inum : ℕ) : Except Panic (ℤ × State) :=
  match s.dirlookup sb name with
  | .error e => .error e
  | .ok (some _, s) => .ok (-1, s)
  | .ok (none, s) =>
    match dirlinkLoop sb (s.ip.size.toNat / 16 + 1) 0 s with
    | .error e => .error e
    | .ok (off, s) =>
      match s.writei sb (fromBytes fun j => (direntBytes name inum).getD j 0) (UInt32.ofNat off) 16 with
      | .error e => .error e
      | .ok (r, s) => .ok (if r ≠ 16 then -1 else 0, s)

/-- What `sys_unlink` does to the directory if the inode that it finds may be unlinked; `isDir` says
whether that is a directory. -/
def unlink (s : State) (name : List UInt8) (isDir : Bool) : Except Panic (ℤ × State) :=
  if namecmp name dot = 0 ∨ namecmp name dotdot = 0 then .ok (-1, s)
  else
    match s.dirlookup sb name with
    | .error e => .error e
    | .ok (none, s) => .ok (-1, s)
    | .ok (some (off, _), s) =>
      match s.writei sb (fromBytes fun _ => 0) (UInt32.ofNat off) 16 with
      | .error e => .error e
      | .ok (r, s) =>
        if r ≠ 16 then .error .unlinkWritei
        else if isDir then .ok (0, { s with ip := { s.ip with nlink := s.ip.nlink - 1 } }.iupdate sb)
        else .ok (0, s)

end State

variable {sb : Superblock} {s s' : State} {i j k off n t o : ℕ} {name : List UInt8}

/-! ## Entries -/

/-- Entry `i`, from the contents of the directory. -/
def State.entry (s : State) (i : ℕ) : Dirent :=
  toDirent ((List.range 16).map fun j => s.content (16 * i + j))

/-- The keys of the entries in use, with their inode numbers. -/
def State.slots (s : State) (i : ℕ) : Option (List UInt8 × ℕ) :=
  if 16 * i < s.ip.size.toNat ∧
    (s.entry i).inum ≠ 0 then some (key (s.entry i).name dirSiz, (s.entry i).inum)
  else none

/-- A directory as `dirlookup` needs it. -/
structure Scans (sb : Superblock) (s : State) : Prop where
  wf : Wf sb s
  noHoles : NoHoles s
  type : s.ip.type = tDir
  size : s.ip.size.toNat % 16 = 0

theorem entry_congr (h : ∀ p, 16 * i ≤ p → p < 16 * i + 16 → s'.content p = s.content p) :
    s'.entry i = s.entry i := by
  unfold State.entry
  congr 1
  refine List.map_congr_left fun j hj => h _ (by omega) ?_
  rw [List.mem_range] at hj
  omega

theorem toNat_ofNat_off (hwf : Wf sb s) (hoff : off ≤ s.ip.size.toNat) :
    (UInt32.ofNat off).toNat = off := by
  have hsize := hwf.size_le
  rw [UInt32.toNat_ofNat', Nat.mod_eq_of_lt (by omega)]

namespace Scans

variable (h : Scans sb s)

include h

theorem readi (hi : 16 * i < s.ip.size.toNat) :
    s.readi sb (fun _ => true) (UInt32.ofNat (16 * i)) 16 =
      .ok (16, (List.range 16).map fun j => s.content (16 * i + j), s) := by
  have hsize := h.wf.size_le
  have hmod := h.size
  have hoff := toNat_ofNat_off h.wf hi.le
  have h16 : (16 : UInt32).toNat = 16 := rfl
  have hmin : min 16 (s.ip.size.toNat - 16 * i) = 16 := by omega
  rw [readi_eq h.wf h.noHoles, hoff, h16, hmin]
  · rfl
  · rw [UInt32.lt_iff_toNat_lt, UInt32.lt_iff_toNat_lt, UInt32.toNat_add, hoff, h16]
    omega

theorem dirlookupLoop (name : List UInt8) (fuel : ℕ) : ∀ i, s.ip.size.toNat < 16 * (i + fuel) →
    (State.dirlookupLoop sb name fuel (16 * i) s = .ok (none, s) ∧
        ∀ j v, i ≤ j → s.slots j ≠ some (key name dirSiz, v)) ∨
      ∃ j v, State.dirlookupLoop sb name fuel (16 * i) s = .ok (some (16 * j, v), s) ∧
        s.slots j = some (key name dirSiz, v) := by
  induction fuel with
  | zero =>
    intro i hfuel
    refine .inl ⟨rfl, fun j v hj hs => ?_⟩
    unfold State.slots at hs
    rw [if_neg (by omega)] at hs
    exact nomatch hs
  | succ fuel ih =>
    intro i hfuel
    unfold State.dirlookupLoop
    by_cases hi : 16 * i < s.ip.size.toNat
    · rw [if_pos hi, h.readi hi]
      simp only [ne_eq, not_true_eq_false, if_false]
      change (if (s.entry i).inum = 0 then _ else if namecmp name (s.entry i).name = 0 then
        Except.ok (some (16 * i, (s.entry i).inum), s) else _) = _ ∧ _ ∨ ∃ j v,
        (if (s.entry i).inum = 0 then _ else if namecmp name (s.entry i).name = 0 then
        Except.ok (some (16 * i, (s.entry i).inum), s) else _) = _ ∧ _
      -- the entry is another one, and the search goes on
      have hnext : (∀ v, s.slots i ≠ some (key name dirSiz, v)) →
          (State.dirlookupLoop sb name fuel (16 * i + 16) s = .ok (none, s) ∧
              ∀ j v, i ≤ j → s.slots j ≠ some (key name dirSiz, v)) ∨
            ∃ j v, State.dirlookupLoop sb name fuel (16 * i + 16) s = .ok (some (16 * j, v), s) ∧
              s.slots j = some (key name dirSiz, v) := fun hnot => by
        rcases ih (i + 1) (by omega) with ⟨heq, hrest⟩ | hfound
        · refine .inl ⟨heq, fun j v hj => ?_⟩
          rcases Nat.eq_or_lt_of_le hj with rfl | hlt
          · exact hnot v
          · exact hrest j v hlt
        · exact .inr hfound
      have hslot : s.slots i = if (s.entry i).inum ≠ 0 then
          some (key (s.entry i).name dirSiz, (s.entry i).inum) else none := by
        unfold State.slots
        by_cases hz : (s.entry i).inum ≠ 0
        · rw [if_pos ⟨hi, hz⟩, if_pos hz]
        · rw [if_neg fun hc => hz hc.2, if_neg hz]
      by_cases hz : (s.entry i).inum = 0
      · rw [if_pos hz]
        refine hnext fun v hv => ?_
        rw [hslot, if_neg (not_not.mpr hz)] at hv
        exact nomatch hv
      · rw [if_neg hz]
        rw [if_pos hz] at hslot
        by_cases hcmp : namecmp name (s.entry i).name = 0
        · rw [if_pos hcmp]
          have hkey := (FileTree.strncmp_eq_zero_iff _ _ _).mp hcmp
          exact .inr ⟨i, _, rfl, by rw [hslot, hkey]⟩
        · rw [if_neg hcmp]
          refine hnext fun v hv => ?_
          rw [hslot] at hv
          have hkey := (Prod.mk.inj (Option.some.inj hv)).1
          exact hcmp ((FileTree.strncmp_eq_zero_iff _ _ _).mpr hkey.symm)
    · rw [if_neg hi]
      refine .inl ⟨rfl, fun j v hj hs => ?_⟩
      unfold State.slots at hs
      rw [if_neg (by omega)] at hs
      exact nomatch hs

/-- `dirlookup` finds an entry under the name if there is one. -/
theorem dirlookup (name : List UInt8) :
    (s.dirlookup sb name = .ok (none, s) ∧ ∀ j v, s.slots j ≠ some (key name dirSiz, v)) ∨
      ∃ j v, s.dirlookup sb name = .ok (some (16 * j, v), s) ∧
      s.slots j = some (key name dirSiz, v) := by
  unfold State.dirlookup
  rw [if_neg (not_not.mpr h.type)]
  rcases h.dirlookupLoop name (s.ip.size.toNat / 16 + 1) 0 (by omega) with ⟨heq, hnot⟩ | hfound
  · exact .inl ⟨heq, fun j v => hnot j v (Nat.zero_le j)⟩
  · exact .inr hfound

theorem dirlinkLoop (fuel : ℕ) : ∀ i, 16 * i ≤ s.ip.size.toNat → s.ip.size.toNat < 16 * (i + fuel) →
    ∃ j, State.dirlinkLoop sb fuel (16 * i) s = .ok (16 * j, s) ∧ 16 * j ≤ s.ip.size.toNat ∧
      s.slots j = none ∧ ∀ j', i ≤ j' → j' < j → (s.entry j').inum ≠ 0 := by
  induction fuel with
  | zero =>
    intro i hi hfuel
    omega
  | succ fuel ih =>
    intro i hi hfuel
    have hmod := h.size
    unfold State.dirlinkLoop
    by_cases hlt : 16 * i < s.ip.size.toNat
    · rw [if_pos hlt, h.readi hlt]
      simp only [ne_eq, not_true_eq_false, if_false]
      change ∃ j, (if (s.entry i).inum = 0 then _ else _) = _ ∧ _
      by_cases hz : (s.entry i).inum = 0
      · rw [if_pos hz]
        exact ⟨i, rfl, hi, if_neg fun hc => hc.2 hz, fun j' _ _ => by omega⟩
      · rw [if_neg hz]
        obtain ⟨j, heq, hj, hfree, hused⟩ := ih (i + 1) (by omega) (by omega)
        refine ⟨j, heq, hj, hfree, fun j' hij hlt' => ?_⟩
        rcases Nat.eq_or_lt_of_le hij with rfl | hlt''
        · exact hz
        · exact hused j' hlt'' hlt'
    · rw [if_neg hlt]
      exact ⟨i, rfl, hi, if_neg fun hc => hlt hc.1, fun j' _ _ => by omega⟩

end Scans

/-! ## Entries in use -/

/-- Entry `i` is `de`, which is in use. -/
def State.Has (s : State) (i : ℕ) (de : Dirent) : Prop :=
  16 * i < s.ip.size.toNat ∧ s.entry i = de ∧ de.inum ≠ 0

theorem slots_eq_some_iff {k : List UInt8} {v : ℕ} :
    s.slots i = some (k, v) ↔ ∃ de, s.Has i de ∧ key de.name dirSiz = k ∧ de.inum = v := by
  unfold State.slots
  constructor
  · intro h
    split at h
    case isTrue hc =>
      obtain ⟨hk, hv⟩ := Prod.mk.inj (Option.some.inj h)
      exact ⟨_, ⟨hc.1, rfl, hc.2⟩, hk, hv⟩
    case isFalse => exact nomatch h
  · rintro ⟨de, ⟨hlt, rfl, hne⟩, rfl, rfl⟩
    exact if_pos ⟨hlt, hne⟩

theorem slots_of_has (h : ∀ de, s'.Has j de ↔ s.Has j de) : s'.slots j = s.slots j := by
  refine Option.ext fun x => ?_
  rw [slots_eq_some_iff, slots_eq_some_iff]
  simp only [h]

theorem has_congr (hsize : s'.ip.size = s.ip.size)
    (h : ∀ p, p < s.ip.size.toNat → s'.content p = s.content p)
    (hmod : s.ip.size.toNat % 16 = 0) (i : ℕ) (de : Dirent) : s'.Has i de ↔ s.Has i de := by
  unfold State.Has
  rw [hsize]
  refine and_congr_right fun hi => ?_
  rw [entry_congr fun p _ hp => h p (by omega)]

theorem length_strncpy (t : List UInt8) (n : ℕ) : (strncpy t n).length = n := by
  induction n generalizing t with
  | zero => rfl
  | succ n ih =>
    unfold strncpy
    split
    · exact List.length_replicate ..
    · rw [List.length_cons, ih]

theorem toDirent_direntBytes (name : List UInt8) {inum : ℕ} (h : inum ≤ 65535) :
    toDirent ((List.range 16).map fun j => (direntBytes name inum).getD j 0) =
    ⟨inum, strncpy name dirSiz⟩ := by
  have hlen : (direntBytes name inum).length = 16 := by
    unfold direntBytes
    rw [List.length_cons, List.length_cons, length_strncpy]
    rfl
  have hbytes : ((List.range 16).map fun j => (direntBytes name inum).getD j 0) =
    direntBytes name inum := by
    refine List.ext_getElem (by rw [List.length_map, List.length_range, hlen]) fun j h1 h2 => ?_
    rw [List.getElem_map, List.getElem_range, List.getD_eq_getElem _ _ h2]
  have hinum : getLE (fun i => (direntBytes name inum).getD i 0) 0 2 = inum % 256 ^ 2 :=
    getLE_of_bytes fun k hk => by
      match k, hk with
      | 0, _ => rfl
      | 1, _ => rfl
  rw [hbytes]
  unfold toDirent
  rw [hinum, Nat.mod_eq_of_lt (by omega)]
  rfl

theorem toDirent_zeros : (toDirent ((List.range 16).map fun _ => 0)).inum = 0 := by decide

/-! ## An entry is written -/

theorem type_finish {copyin : State.Source} {s₁ : State} (hwf : Wf sb s)
    (hmax : off + n ≤ 268 * 1024) (hcopied : Copied sb copyin n 0 off s t o s₁)
    (hlast : Last sb copyin n t o s₁ s') : ((s'.setSize o).iupdate sb).ip.type = s.ip.type := by
  obtain ⟨x, hx⟩ := (after_copied hwf hmax hcopied).ip
  obtain ⟨y, hy⟩ := (after_last hwf hmax hcopied hlast).ip
  show (s'.setSize o).ip.type = _
  unfold State.setSize
  split <;> simp only [hy, hx]

/-- In one block a write does all or nothing. -/
theorem writei_in_block {off n : UInt32} (hwf : Wf sb s) (h : ¬ s.Refuses off n)
    (hblock : off.toNat % 1024 + n.toNat ≤ 1024) (src : ℕ → UInt8) :
    ∃ (tot : ℕ) (s' : State), s.writei sb (fromBytes src) off n = .ok (tot, s') ∧
      Written sb s src off.toNat n.toNat tot s' ∧ (tot = 0 ∨ tot = n.toNat) ∧
      s'.ip.type = s.ip.type := by
  obtain ⟨-, hmax⟩ := State.Refuses.bounds h
  obtain ⟨tot, s', heq, hwritten⟩ := writei_written hwf h src
  obtain ⟨t, o, s₁, s'', heq', hcopied, hlast⟩ := writei_turns hwf h (fromBytes src)
  have htype := type_finish hwf hmax hcopied hlast
  rw [heq'] at heq
  cases heq
  refine ⟨_, _, heq', hwritten, ?_, htype⟩
  obtain ⟨hle, ho⟩ := end_offset hcopied
  cases hcopied with
  | refl => exact .inl rfl
  | turn hlt _ _ _ rest =>
    have hchunk : State.chunk n.toNat 0 off.toNat = n.toNat := by
      unfold State.chunk
      omega
    obtain ⟨h1, -, -⟩ := rest.progress (by omega)
    omega

theorem needed_of_slot (h : s.slot k ≠ 0) (hk : k < 268) : s.needed k 1 = 0 := by
  unfold State.needed
  rw [List.range'_one, List.countP_singleton, if_neg (by simpa using h), if_neg]
  rintro ⟨-, hge, hind⟩
  exact h (slot_of_no_indirect hind (by omega) hk)

inductive WritesEntry (s : State) (i : ℕ) (de : Dirent) (r : ℤ) (s' : State) : Prop where
  | failed (hr : r ≠ 16) (hlast : s.ip.size.toNat ≤ 16 * i) (hsame : ∀ j e, s'.Has j e ↔ s.Has j e)
  | written (hr : r = 16) (hother : ∀ j e, j ≠ i → (s'.Has j e ↔ s.Has j e))
      (hself : ∀ e, s'.Has i e ↔ e = de ∧ de.inum ≠ 0)

namespace Scans

variable (h : Scans sb s)

include h

theorem writeEntry (hi : 16 * i ≤ s.ip.size.toNat) (src : ℕ → UInt8) :
    ∃ r s', s.writei sb (fromBytes src) (UInt32.ofNat (16 * i)) 16 = .ok (r, s') ∧ Scans sb s' ∧
      WritesEntry s i (toDirent ((List.range 16).map src)) r s' := by
  have hsize := h.wf.size_le
  have hmod := h.size
  have hoff := toNat_ofNat_off h.wf hi
  have h16 : (16 : UInt32).toNat = 16 := rfl
  by_cases href : s.Refuses (UInt32.ofNat (16 * i)) 16
  · have hlast : s.ip.size.toNat ≤ 16 * i := by
      unfold State.Refuses at href
      rw [UInt32.lt_iff_toNat_lt, UInt32.lt_iff_toNat_lt, UInt32.toNat_add, hoff, h16] at href
      omega
    exact ⟨-1, s, writei_refused href _, h, .failed (by decide) hlast fun _ _ => Iff.rfl⟩
  obtain ⟨-, hmax⟩ := State.Refuses.bounds href
  obtain ⟨tot, s', heq, hwritten, htot, htype⟩ :=
    writei_in_block h.wf href (by rw [hoff, h16]; omega) src
  rw [hoff, h16] at hwritten hmax
  rw [h16] at htot
  have hsize' := hwritten.size
  refine ⟨tot, s', heq, ⟨hwritten.wf, hwritten.noHoles h.noHoles, htype.trans h.type, by omega⟩, ?_⟩
  rcases htot with rfl | rfl
  · refine .failed (by decide) ?_ fun j e => has_congr ?_ (fun p hp => ?_) hmod j e
    · -- there is a block for an entry that exists
      by_contra hlt
      have hspan : span (16 * i) 16 = 1 := by
        unfold span
        rw [if_neg (by decide)]
        omega
      have hslot := h.noHoles (16 * i / 1024) (by omega)
      have hall := hwritten.all
      rw [hspan, needed_of_slot hslot (by omega)] at hall
      exact absurd (hall (Nat.zero_le _)) (by decide)
    · exact UInt32.toNat_inj.mp (by omega)
    · rw [hwritten.bytes p (by omega), if_neg (by omega)]
  · refine .written rfl (fun j e hj => ?_) fun e => ?_
    · unfold State.Has
      by_cases hlt : 16 * j < s.ip.size.toNat
      · have hentry : s'.entry j = s.entry j :=
          entry_congr fun p hp hp' => by rw [hwritten.bytes p (by omega), if_neg (by omega)]
        rw [hentry]
        exact and_congr_left fun _ => ⟨fun _ => hlt, fun _ => by omega⟩
      · exact ⟨fun hc => by omega, fun hc => absurd hc.1 hlt⟩
    · have hentry : s'.entry i = toDirent ((List.range 16).map src) := by
        unfold State.entry
        congr 1
        refine List.map_congr_left fun j hj => ?_
        rw [List.mem_range] at hj
        rw [hwritten.bytes _ (by omega), if_pos (by omega), Nat.add_sub_cancel_left]
      unfold State.Has
      rw [hentry]
      constructor
      · rintro ⟨-, rfl, hne⟩
        exact ⟨rfl, hne⟩
      · rintro ⟨rfl, hne⟩
        exact ⟨by omega, rfl, hne⟩

end Scans

/-! ## `dirlink` and `sys_unlink` -/

/-- What `dirlink` leaves if the name is not there. -/
inductive Links (s : State) (name : List UInt8) (inum : ℕ) (r : ℤ) (s' : State) : Prop where
  | failed (hr : r = -1) (hfull : ∀ j, 16 * j < s.ip.size.toNat → (s.entry j).inum ≠ 0)
      (hsame : ∀ j e, s'.Has j e ↔ s.Has j e)
  | linked (i : ℕ) (hr : r = 0) (hfree : s.slots i = none)
      (hother : ∀ j e, j ≠ i → (s'.Has j e ↔ s.Has j e))
      (hself : ∀ e, s'.Has i e ↔ e = ⟨inum, strncpy name dirSiz⟩)

inductive Unlinks (s : State) (name : List UInt8) (r : ℤ) (s' : State) : Prop where
  | refused (hr : r = -1) (hs : s' = s)
      (hwhy : (namecmp name dot = 0 ∨ namecmp name dotdot = 0) ∨
      ∀ j v, s.slots j ≠ some (key name dirSiz, v))
  | unlinked (i v : ℕ) (hr : r = 0) (hfound : s.slots i = some (key name dirSiz, v))
      (hother : ∀ j e, j ≠ i → (s'.Has j e ↔ s.Has j e)) (hself : ∀ e, ¬ s'.Has i e)

theorem SameData.scans (hd : SameData sb s s') (h : Scans sb s) (hinum : s'.inum = s.inum)
    (htype : s'.ip.type = s.ip.type) (hsize : s'.ip.size = s.ip.size) : Scans sb s' := by
  refine ⟨hd.wf h.wf hinum (hsize ▸ h.wf.size_le), fun bn hbn => ?_, htype.trans h.type,
    hsize ▸ h.size⟩
  rw [hsize] at hbn
  rw [hd.slot h.wf]
  exact h.noHoles bn hbn

theorem SameData.has (hd : SameData sb s s') (h : Scans sb s)
    (hsize : s'.ip.size = s.ip.size) (i : ℕ) (de : Dirent) : s'.Has i de ↔ s.Has i de := by
  refine has_congr hsize (fun p hp => hd.content h.wf ?_) h.size i de
  have hle := h.wf.size_le
  omega

theorem sameData_nlink (hwf : Wf sb s) (v : UInt16) :
    SameData sb s ({ s with ip := { s.ip with nlink := v } }.iupdate sb) := by
  refine ⟨rfl, fun c hc => Disk.cache_store_of_ne ?_⟩
  have hlt := sb.iblock_lt hwf.inum_lt
  show c ≠ sb.iblock s.inum
  omega

namespace Scans

variable (h : Scans sb s)

include h

theorem dirlink_present {v : ℕ} (hs : s.slots j = some (key name dirSiz, v)) (inum : ℕ) :
    s.dirlink sb name inum = .ok (-1, s) := by
  unfold State.dirlink
  rcases h.dirlookup name with ⟨-, hnot⟩ | ⟨i, w, heq, -⟩
  · exact absurd hs (hnot j v)
  · rw [heq]

theorem dirlink_absent (hnot : ∀ j v, s.slots j ≠ some (key name dirSiz, v)) {inum : ℕ}
    (hpos : 1 ≤ inum) (hle : inum ≤ 65535) :
    ∃ r s', s.dirlink sb name inum = .ok (r, s') ∧ Scans sb s' ∧ Links s name inum r s' := by
  unfold State.dirlink
  rcases h.dirlookup name with ⟨heq, -⟩ | ⟨i, w, -, hs⟩
  · rw [heq]
    obtain ⟨i, hloop, hi, hfree, hused⟩ :=
      h.dirlinkLoop (s.ip.size.toNat / 16 + 1) 0 (by omega) (by omega)
    rw [Nat.mul_zero] at hloop
    obtain ⟨r, s', hwrite, hscans, hw⟩ :=
      h.writeEntry hi fun j => (direntBytes name inum).getD j 0
    simp only [hloop, hwrite]
    refine ⟨_, s', rfl, hscans, ?_⟩
    rw [toDirent_direntBytes name hle] at hw
    cases hw with
    | failed hr hlast hsame =>
      -- the loop has gone through all entries
      exact .failed (if_pos hr) (fun j hj => hused j (Nat.zero_le j) (by omega)) hsame
    | written hr hother hself =>
      refine .linked i (if_neg (not_not.mpr hr)) hfree hother fun e => (hself e).trans ?_
      exact and_iff_left (by show inum ≠ 0; omega)
  · exact absurd hs (hnot i w)

theorem unlink (name : List UInt8) (isDir : Bool) :
    ∃ r s', s.unlink sb name isDir = .ok (r, s') ∧ Scans sb s' ∧ Unlinks s name r s' := by
  unfold State.unlink
  by_cases hdot : namecmp name dot = 0 ∨ namecmp name dotdot = 0
  · rw [if_pos hdot]
    exact ⟨-1, s, rfl, h, .refused rfl rfl (.inl hdot)⟩
  rw [if_neg hdot]
  rcases h.dirlookup name with ⟨heq, hnot⟩ | ⟨i, v, heq, hs⟩
  · rw [heq]
    exact ⟨-1, s, rfl, h, .refused rfl rfl (.inr hnot)⟩
  · rw [heq]
    obtain ⟨de, ⟨hi, -⟩, -⟩ := slots_eq_some_iff.mp hs
    obtain ⟨r, s', hwrite, hscans, hw⟩ := h.writeEntry hi.le fun _ => 0
    simp only [hwrite]
    cases hw with
    | failed _ hlast => omega
    | written hr hother hself =>
      have hgone : ∀ e, ¬ s'.Has i e := fun e he => ((hself e).mp he).2 toDirent_zeros
      rw [if_neg (not_not.mpr hr)]
      cases isDir with
      | false => exact ⟨0, s', rfl, hscans, .unlinked i v rfl hs hother hgone⟩
      | true =>
        have hd := sameData_nlink hscans.wf (s'.ip.nlink - 1)
        refine ⟨0, _, rfl, hd.scans hscans rfl rfl rfl,
          .unlinked i v rfl hs (fun j e hj => ?_) fun e => ?_⟩
        · exact (hd.has hscans rfl j e).trans (hother j e hj)
        · exact fun he => hgone e ((hd.has hscans rfl i e).mp he)

end Scans

/-! ## Runs -/

/-- What happens elsewhere: blocks are allocated and freed, other files change. -/
structure Elsewhere (sb : Superblock) (s s' : State) : Prop where
  wf : Wf sb s'
  noHoles : NoHoles s'
  type : s'.ip.type = s.ip.type
  size : s'.ip.size = s.ip.size
  content : ∀ p, p < s.ip.size.toNat → s'.content p = s.content p

/-- Calls of `dirlink` and `sys_unlink` on a directory, and the map from keys to inode numbers that
they should make of `m₀`. -/
inductive DirRun (sb : Superblock) (s₀ : State) (m₀ : List UInt8 → Option ℕ) :
    State → (List UInt8 → Option ℕ) → Prop where
  | start : DirRun sb s₀ m₀ s₀ m₀
  | link {s s' : State} {m : List UInt8 → Option ℕ} {name : List UInt8} {inum : ℕ} {r : ℤ}
      (h : DirRun sb s₀ m₀ s m) (hpos : 1 ≤ inum) (hle : inum ≤ 65535)
      (heq : s.dirlink sb name inum = .ok (r, s')) :
      DirRun sb s₀ m₀ s' (if r = 0 then update m (key name dirSiz) (some inum) else m)
  | unlink {s s' : State} {m : List UInt8 → Option ℕ} {name : List UInt8} {isDir : Bool} {r : ℤ}
      (h : DirRun sb s₀ m₀ s m) (heq : s.unlink sb name isDir = .ok (r, s')) :
      DirRun sb s₀ m₀ s' (if r = 0 then update m (key name dirSiz) none else m)
  | elsewhere {s s' : State} {m : List UInt8 → Option ℕ} (h : DirRun sb s₀ m₀ s m)
      (he : Elsewhere sb s s') : DirRun sb s₀ m₀ s' m

variable {m m₀ : List UInt8 → Option ℕ} {s₀ : State} {inum : ℕ} {r : ℤ}

theorem Links.holds (h : Links s name inum r s') (hm : Holds s.slots m)
    (habs : m (key name dirSiz) = none) :
    Holds s'.slots (if r = 0 then update m (key name dirSiz) (some inum) else m) := by
  cases h with
  | failed hr _ hsame =>
    rw [if_neg (by omega)]
    exact hm.congr fun j => slots_of_has (hsame j)
  | linked i hr hfree hother hself =>
    rw [if_pos hr]
    refine (hm.insert hfree habs inum).congr fun j => ?_
    by_cases hj : j = i
    · subst hj
      rw [update_self, slots_eq_some_iff]
      refine ⟨⟨inum, strncpy name dirSiz⟩, (hself _).mpr rfl, FileTree.key_strncpy .., rfl⟩
    · rw [update_of_ne hj]
      exact slots_of_has fun e => hother j e hj

theorem Unlinks.holds (h : Unlinks s name r s') (hm : Holds s.slots m) :
    Holds s'.slots (if r = 0 then update m (key name dirSiz) none else m) := by
  cases h with
  | refused hr hs =>
    rw [if_neg (by omega), hs]
    exact hm
  | unlinked i v hr hfound hother hself =>
    rw [if_pos hr]
    refine (hm.erase hfound).congr fun j => ?_
    by_cases hj : j = i
    · subst hj
      rw [update_self, Option.eq_none_iff_forall_ne_some]
      rintro ⟨k, v⟩ hs
      obtain ⟨de, hde, -⟩ := slots_eq_some_iff.mp hs
      exact hself de hde
    · rw [update_of_ne hj]
      exact slots_of_has fun e => hother j e hj

theorem DirRun.holds (h : DirRun sb s₀ m₀ s m) (hs : Scans sb s₀) (hm : Holds s₀.slots m₀) :
    Scans sb s ∧ Holds s.slots m := by
  induction h with
  | start => exact ⟨hs, hm⟩
  | @link s s' m name inum r _ hpos hle heq ih =>
    obtain ⟨hscans, hholds⟩ := ih
    cases hget : m (key name dirSiz) with
    | some v =>
      obtain ⟨i, hi⟩ := (hholds.get _ _).mp hget
      rw [hscans.dirlink_present hi] at heq
      cases heq
      exact ⟨hscans, hholds⟩
    | none =>
      obtain ⟨r', s'', heq', hscans', hlinks⟩ :=
        hscans.dirlink_absent (hholds.absent_iff.mp hget) hpos hle
      rw [heq'] at heq
      cases heq
      exact ⟨hscans', hlinks.holds hholds hget⟩
  | @unlink s s' m name isDir r _ heq ih =>
    obtain ⟨hscans, hholds⟩ := ih
    obtain ⟨r', s'', heq', hscans', hunlinks⟩ := hscans.unlink name isDir
    rw [heq'] at heq
    cases heq
    exact ⟨hscans', hunlinks.holds hholds⟩
  | elsewhere _ he ih =>
    obtain ⟨hscans, hholds⟩ := ih
    refine ⟨⟨he.wf, he.noHoles, he.type.trans hscans.type, he.size ▸ hscans.size⟩, ?_⟩
    exact hholds.congr fun j => slots_of_has (has_congr he.size he.content hscans.size j)

/-- **Directories are maps** on keys, the bytes of a name up to NUL and 14 of them at most. In every
state of a run, `dirlookup` gives what the map has and where its entry is; no two entries in use
have the same key; `dirlink` of a key that is there returns -1 and changes nothing, and that of
another one changes no entry with another key; and so does `sys_unlink`, which removes just the
entry with the key. -/
theorem directories_are_maps (hs : Scans sb s₀) (hm : Holds s₀.slots m₀)
    (hrun : DirRun sb s₀ m₀ s m) :
    (∀ name, (m (key name dirSiz) = none ∧ s.dirlookup sb name = .ok (none, s)) ∨
      ∃ i de, m (key name dirSiz) = some de.inum ∧ s.Has i de ∧ key de.name dirSiz = key name dirSiz ∧
        s.dirlookup sb name = .ok (some (16 * i, de.inum), s)) ∧
    (∀ i j de de', s.Has i de → s.Has j de' → key de.name dirSiz = key de'.name dirSiz → i = j) ∧
    (∀ name inum, m (key name dirSiz) ≠ none → s.dirlink sb name inum = .ok (-1, s)) ∧
    (∀ name inum, 1 ≤ inum → inum ≤ 65535 → m (key name dirSiz) = none →
      ∃ r s', s.dirlink sb name inum = .ok (r, s') ∧
        ((r = 0 ∧ ∃ i, s'.Has i ⟨inum, strncpy name dirSiz⟩) ∨
        (r = -1 ∧ ∀ j de, s'.Has j de ↔ s.Has j de)) ∧
        ((∃ j, 16 * j < s.ip.size.toNat ∧ (s.entry j).inum = 0) → r = 0) ∧
        ∀ j de, key de.name dirSiz ≠ key name dirSiz → (s'.Has j de ↔ s.Has j de)) ∧
    ∀ name isDir, ∃ r s', s.unlink sb name isDir = .ok (r, s') ∧
      (((namecmp name dot = 0 ∨ namecmp name dotdot = 0) ∨ m (key name dirSiz) = none) ∧
        r = -1 ∧ s' = s ∨
        r = 0 ∧ ∀ j de, s'.Has j de ↔ s.Has j de ∧ key de.name dirSiz ≠ key name dirSiz) := by
  obtain ⟨hscans, hholds⟩ := hrun.holds hs hm
  have hslot : ∀ {i de}, s.Has i de → s.slots i = some (key de.name dirSiz, de.inum) := fun h =>
    slots_eq_some_iff.mpr ⟨_, h, rfl, rfl⟩
  refine ⟨fun name => ?_, fun i j de de' h h' hk => ?_, fun name inum hne => ?_,
    fun name inum hpos hle habs => ?_, fun name isDir => ?_⟩
  · rcases hscans.dirlookup name with ⟨heq, hnot⟩ | ⟨i, v, heq, hi⟩
    · exact .inl ⟨hholds.absent_iff.mpr hnot, heq⟩
    · obtain ⟨de, hde, hk, rfl⟩ := slots_eq_some_iff.mp hi
      exact .inr ⟨i, de, hholds.of_slot hi, hde, hk, heq⟩
  · have hi := hslot h
    rw [hk] at hi
    exact hholds.unique i j _ _ _ hi (hslot h')
  · obtain ⟨v, hv⟩ := Option.ne_none_iff_exists'.mp hne
    obtain ⟨i, hi⟩ := (hholds.get _ _).mp hv
    exact hscans.dirlink_present hi inum
  · obtain ⟨r, s', heq, -, hlinks⟩ := hscans.dirlink_absent (hholds.absent_iff.mp habs) hpos hle
    refine ⟨r, s', heq, ?_⟩
    cases hlinks with
    | failed hr hfull hsame =>
      refine ⟨.inr ⟨hr, hsame⟩, ?_, fun j de _ => hsame j de⟩
      rintro ⟨j, hj, hz⟩
      exact absurd hz (hfull j hj)
    | linked i hr hfree hother hself =>
      refine ⟨.inl ⟨hr, i, (hself _).mpr rfl⟩, fun _ => hr, fun j de hk => ?_⟩
      by_cases hj : j = i
      · subst hj
        rw [hself]
        constructor
        · rintro rfl
          exact absurd (FileTree.key_strncpy ..) hk
        · intro hde
          rw [hslot hde] at hfree
          exact nomatch hfree
      · exact hother j de hj
  · obtain ⟨r, s', heq, -, hunlinks⟩ := hscans.unlink name isDir
    refine ⟨r, s', heq, ?_⟩
    cases hunlinks with
    | refused hr hs' hwhy => exact .inl ⟨hwhy.imp_right hholds.absent_iff.mpr, hr, hs'⟩
    | unlinked i v hr hfound hother hself =>
      refine .inr ⟨hr, fun j de => ?_⟩
      by_cases hj : j = i
      · subst hj
        refine iff_of_false (hself de) ?_
        rintro ⟨hde, hk⟩
        rw [hslot hde] at hfound
        exact hk (Prod.mk.inj (Option.some.inj hfound)).1
      · rw [hother j de hj]
        refine (and_iff_left_of_imp fun hde hk => hj ?_).symm
        have hde' := hslot hde
        rw [hk] at hde'
        exact hholds.unique j i _ _ _ hde' hfound

def emptyDir : State where
  disk := { cache := fun b i => if b = 3 ∧ i = 0 then 15 else 0, home := fun _ _ => 0, log := [] }
  inum := 1
  ip := { Inode.zero with type := tDir, nlink := 1 }

theorem slot_emptyDir : ∀ k, k ≤ 268 → emptyDir.slot k = 0 := by decide +kernel

theorem scans_emptyDir : Scans smallSb emptyDir := by
  refine ⟨⟨by decide, by decide, by decide +kernel, fun k hk hne => ?_, fun k _ hk _ hne => ?_⟩,
    fun bn hbn => ?_, rfl, rfl⟩
  · exact absurd (slot_emptyDir k hk) hne
  · exact absurd (slot_emptyDir k hk) hne
  · exact absurd hbn (Nat.not_lt_zero _)

theorem holds_emptyDir : Holds emptyDir.slots fun _ => none := by
  have hnone : ∀ i, emptyDir.slots i = none := fun i => if_neg fun h => Nat.not_lt_zero _ h.1
  refine ⟨fun i j k v w h => ?_, fun k v => ⟨nofun, ?_⟩⟩
  · rw [hnone] at h
    exact nomatch h
  · rintro ⟨i, hi⟩
    rw [hnone] at hi
    exact nomatch hi

/-- As long as a name can be. -/
def longName : List UInt8 := List.replicate 14 97

/-- The long name is linked and unlinked, and another name is linked in its entry, the only one. -/
theorem directories_are_maps_link : ∃ s₁ s₂ s, emptyDir.dirlink smallSb longName 5 = .ok (0, s₁) ∧
    s₁.unlink smallSb longName false = .ok (0, s₂) ∧ s₂.dirlink smallSb [98] 6 = .ok (0, s) ∧
    s.ip.size = 16 ∧ s.dirlookup smallSb longName = .ok (none, s) ∧
    ∃ i de, s.Has i de ∧ de.inum = 6 ∧ s.dirlookup smallSb [98] = .ok (some (16 * i, 6), s) := by
  obtain ⟨s₁, s₂, s, h₁, h₂, h₃, hsize⟩ :
    ∃ s₁ s₂ s, emptyDir.dirlink smallSb longName 5 = .ok (0, s₁) ∧
      s₁.unlink smallSb longName false = .ok (0, s₂) ∧ s₂.dirlink smallSb [98] 6 = .ok (0, s) ∧
      s.ip.size = 16 := ⟨_, _, _, rfl, rfl, rfl, rfl⟩
  have hstart : DirRun smallSb emptyDir (fun _ => none) emptyDir fun _ => none := .start
  have hunlinked := (hstart.link (by decide) (by decide) h₁).unlink h₂
  have hmap := (directories_are_maps scans_emptyDir holds_emptyDir
    (hunlinked.link (by decide) (by decide) h₃)).1
  refine ⟨s₁, s₂, s, h₁, h₂, h₃, hsize, ?_, ?_⟩
  · rcases hmap longName with ⟨-, hnone⟩ | ⟨i, de, hget, -⟩
    · exact hnone
    · cases hget
  · rcases hmap [98] with ⟨hnone, -⟩ | ⟨i, de, hget, hhas, -, hfound⟩
    · cases hnone
    · have hinum : 6 = de.inum := Option.some.inj hget
      exact ⟨i, de, hhas, hinum.symm, hinum ▸ hfound⟩

end LazyXv6.Storage
