import Mathlib

/-!
# Link graphs

A link graph has directories, each with a list of the nodes that its entries name and with a parent.
A directory other than the root is linked while an entry names it. The links to a node are the
entries that name it and the linked directories whose parent it is.

In a well-formed graph a directory is named once at most, by an entry of its parent.
-/

namespace Lib

open Finset

structure LinkGraph (ν : Type) where
  root : ν
  dirs : Finset ν
  kids : ν → List ν
  parent : ν → ν

namespace LinkGraph

variable {ν : Type} [DecidableEq ν] {g g' : LinkGraph ν} {d x y i : ν}

def Linked (g : LinkGraph ν) (d : ν) : Prop := d = g.root ∨ ∃ x ∈ g.dirs, d ∈ g.kids x

instance (g : LinkGraph ν) (d : ν) : Decidable (g.Linked d) := inferInstanceAs (Decidable (_ ∨ _))

def named (g : LinkGraph ν) (i : ν) : ℕ := ∑ x ∈ g.dirs, (g.kids x).count i

def ups (g : LinkGraph ν) (i : ν) : Finset ν := {d ∈ g.dirs | g.Linked d ∧ g.parent d = i}

def links (g : LinkGraph ν) (i : ν) : ℕ := g.named i + (g.ups i).card

structure Wf (g : LinkGraph ν) : Prop where
  root_mem : g.root ∈ g.dirs
  root_parent : g.parent g.root = g.root
  root_named : g.named g.root = 0
  named_le : ∀ d ∈ g.dirs, g.named d ≤ 1
  parent_eq : ∀ x ∈ g.dirs, ∀ y ∈ g.kids x, y ∈ g.dirs → g.parent y = x

theorem named_pos_iff : 0 < g.named i ↔ ∃ x ∈ g.dirs, i ∈ g.kids x := by
  unfold named
  rw [sum_pos_iff]
  exact exists_congr fun x => and_congr_right fun _ => List.count_pos_iff

theorem named_pos (hx : x ∈ g.dirs) (hi : i ∈ g.kids x) : 0 < g.named i :=
  named_pos_iff.mpr ⟨x, hx, hi⟩

theorem named_pos_of_linked (h : g.Linked d) (hd : d ≠ g.root) : 0 < g.named d :=
  named_pos_iff.mpr (h.resolve_left hd)

omit [DecidableEq ν] in
theorem linked_of_mem (hx : x ∈ g.dirs) (hd : d ∈ g.kids x) : g.Linked d := .inr ⟨x, hx, hd⟩

theorem count_pair (x y i : ν) : [y, x].count i = [y].count i + [x].count i := by
  show ([y] ++ [x]).count i = _
  exact List.count_append

theorem mem_ups : d ∈ g.ups i ↔ d ∈ g.dirs ∧ g.Linked d ∧ g.parent d = i := mem_filter

theorem Wf.parent_mem (h : g.Wf) (hd : d ∈ g.dirs) (hl : g.Linked d) : g.parent d ∈ g.dirs := by
  obtain rfl | ⟨x, hx, hdx⟩ := hl
  · rw [h.root_parent]
    exact h.root_mem
  · rw [h.parent_eq x hx d hdx hd]
    exact hx

theorem Wf.root_links (h : g.Wf) : 0 < g.links g.root :=
  Nat.add_pos_right _ (card_pos.mpr ⟨g.root, mem_ups.mpr ⟨h.root_mem, .inl rfl, h.root_parent⟩⟩)

theorem Wf.ne_root (h : g.Wf) (hx : x ∈ g.dirs) (hy : y ∈ g.kids x) : y ≠ g.root := by
  rintro rfl
  exact (named_pos hx hy).ne' h.root_named

/-- The graphs are the same as far as directories go. -/
structure Agree (g g' : LinkGraph ν) : Prop where
  root : g'.root = g.root
  dirs : g'.dirs = g.dirs
  kids : ∀ z ∈ g.dirs, g'.kids z = g.kids z
  parent : ∀ z ∈ g.dirs, g'.parent z = g.parent z

theorem Agree.named_eq (h : Agree g g') (i : ν) : g'.named i = g.named i := by
  unfold named
  rw [h.dirs]
  exact sum_congr rfl fun z hz => by rw [h.kids z hz]

omit [DecidableEq ν] in
theorem Agree.linked_iff (h : Agree g g') : g'.Linked d ↔ g.Linked d := by
  unfold Linked
  rw [h.root, h.dirs]
  exact or_congr_right (exists_congr fun z => and_congr_right fun hz => by rw [h.kids z hz])

theorem Agree.links_eq (h : Agree g g') (i : ν) : g'.links i = g.links i := by
  have hups : g'.ups i = g.ups i := by
    unfold ups
    rw [h.dirs]
    exact filter_congr fun d hd => by rw [h.linked_iff, h.parent d hd]
  unfold links
  rw [h.named_eq, hups]

theorem Agree.wf (h : Agree g g') (hw : g.Wf) : g'.Wf := by
  refine ⟨?_, ?_, ?_, ?_, ?_⟩
  · rw [h.root, h.dirs]
    exact hw.root_mem
  · rw [h.root, h.parent _ hw.root_mem]
    exact hw.root_parent
  · rw [h.root, h.named_eq]
    exact hw.root_named
  · rw [h.dirs]
    intro d hd
    rw [h.named_eq]
    exact hw.named_le d hd
  · rw [h.dirs]
    intro z hz d hd hdd
    rw [h.parent d hdd]
    exact hw.parent_eq z hz d (h.kids z hz ▸ hd) hdd

theorem Wf.links_eq_zero (hw : g.Wf) (hnamed : ∀ x ∈ g.dirs, i ∉ g.kids x) (hi : i ∉ g.dirs) :
    g.links i = 0 := by
  have hn : g.named i = 0 := by
    by_contra hne
    obtain ⟨x, hx, hix⟩ := named_pos_iff.mp (Nat.pos_of_ne_zero hne)
    exact hnamed x hx hix
  have hu : g.ups i = ∅ := by
    refine filter_eq_empty_iff.mpr fun d hd hl => hi ?_
    rw [← hl.2]
    exact hw.parent_mem hd hl.1
  unfold links
  rw [hn, hu, card_empty]

/-! ## Entries -/

structure Edits (g g' : LinkGraph ν) (x : ν) : Prop where
  root : g'.root = g.root
  dirs : g'.dirs = g.dirs
  kids : ∀ z ∈ g.dirs, z ≠ x → g'.kids z = g.kids z
  parent : ∀ z ∈ g.dirs, g'.parent z = g.parent z

omit [DecidableEq ν] in
theorem Edits.symm (h : Edits g g' x) : Edits g' g x where
  root := h.root.symm
  dirs := h.dirs.symm
  kids z hz hne := (h.kids z (h.dirs ▸ hz) hne).symm
  parent z hz := (h.parent z (h.dirs ▸ hz)).symm

theorem Edits.named_add (h : Edits g g' x) (hx : x ∈ g.dirs) (i : ν) :
    g'.named i + (g.kids x).count i = g.named i + (g'.kids x).count i := by
  unfold named
  rw [h.dirs, ← add_sum_erase _ _ hx, ← add_sum_erase _ (fun z => (g.kids z).count i) hx]
  have hrest : ∑ z ∈ g.dirs.erase x, (g'.kids z).count i = ∑ z ∈ g.dirs.erase x,
    (g.kids z).count i := by
    refine sum_congr rfl fun z hz => ?_
    rw [h.kids z (mem_of_mem_erase hz) (ne_of_mem_erase hz)]
  rw [hrest]
  ring

theorem Edits.named_cons (h : Edits g g' x) (hx : x ∈ g.dirs)
    (hkids : (g'.kids x).Perm (y :: g.kids x)) (i : ν) : g'.named i = g.named i + [y].count i := by
  have hadd := h.named_add hx i
  rw [hkids.count_eq, ← List.singleton_append, List.count_append] at hadd
  omega

omit [DecidableEq ν] in
theorem Edits.mem_kids (h : Edits g g' x) (hkids : (g'.kids x).Perm (y :: g.kids x))
    (hne : d ≠ y) {z : ν} (hz : z ∈ g.dirs) : d ∈ g'.kids z ↔ d ∈ g.kids z := by
  rcases eq_or_ne z x with rfl | hzx
  · rw [hkids.mem_iff, List.mem_cons]
    exact or_iff_right hne
  · rw [h.kids z hz hzx]

omit [DecidableEq ν] in
theorem Edits.linked_iff (h : Edits g g' x) (hkids : (g'.kids x).Perm (y :: g.kids x))
    (hne : d ≠ y) : g'.Linked d ↔ g.Linked d := by
  unfold Linked
  rw [h.root, h.dirs]
  exact or_congr_right (exists_congr fun z => and_congr_right fun hz => h.mem_kids hkids hne hz)

/-- **An entry for a node that is no directory** counts for the node. -/
theorem Edits.links_cons (h : Edits g g' x) (hx : x ∈ g.dirs)
    (hkids : (g'.kids x).Perm (y :: g.kids x)) (hy : y ∉ g.dirs) (i : ν) :
    g'.links i = g.links i + [y].count i := by
  have hups : g'.ups i = g.ups i := by
    unfold ups
    rw [h.dirs]
    refine filter_congr fun d hd => ?_
    rw [h.linked_iff hkids (ne_of_mem_of_not_mem hd hy), h.parent d hd]
  unfold links
  rw [h.named_cons hx hkids, hups]
  ring

theorem Edits.wf_cons_iff (h : Edits g g' x) (hx : x ∈ g.dirs)
    (hkids : (g'.kids x).Perm (y :: g.kids x)) (hy : y ∉ g.dirs) : g'.Wf ↔ g.Wf := by
  have hnamed : ∀ d ∈ g.dirs, g'.named d = g.named d := by
    intro d hd
    have hne : y ≠ d := (ne_of_mem_of_not_mem hd hy).symm
    rw [h.named_cons hx hkids, List.count_cons_of_ne hne, List.count_nil, Nat.add_zero]
  have hmem : ∀ z ∈ g.dirs, ∀ d ∈ g.dirs, (d ∈ g'.kids z ↔ d ∈ g.kids z) := fun z hz d hd =>
    h.mem_kids hkids (ne_of_mem_of_not_mem hd hy) hz
  constructor
  · rintro ⟨hroot, hparent, hrn, hle, heq⟩
    rw [h.root, h.dirs] at hroot
    rw [h.root, h.parent _ hroot] at hparent
    rw [h.root, hnamed _ hroot] at hrn
    rw [h.dirs] at hle heq
    refine ⟨hroot, hparent, hrn, fun d hd => hnamed d hd ▸ hle d hd, fun z hz d hd hdd => ?_⟩
    rw [← h.parent d hdd]
    exact heq z hz d ((hmem z hz d hdd).mpr hd) hdd
  · rintro ⟨hroot, hparent, hrn, hle, heq⟩
    refine ⟨?_, ?_, ?_, ?_, ?_⟩
    · rwa [h.root, h.dirs]
    · rwa [h.root, h.parent _ hroot]
    · rwa [h.root, hnamed _ hroot]
    · rw [h.dirs]
      exact fun d hd => (hnamed d hd).symm ▸ hle d hd
    · rw [h.dirs]
      intro z hz d hd hdd
      rw [h.parent d hdd]
      exact heq z hz d ((hmem z hz d hdd).mp hd) hdd

theorem Wf.not_linked_erase (hw : g.Wf) (h : Edits g g' x) (hx : x ∈ g.dirs)
    (hkids : (g.kids x).Perm (y :: g'.kids x)) (hy : y ∈ g.dirs) : ¬ g'.Linked y := by
  intro hl
  have hpos := named_pos_of_linked hl
    (h.root ▸ hw.ne_root hx (hkids.mem_iff.mpr List.mem_cons_self))
  have hle := hw.named_le y hy
  have hone : [y].count y = 1 := List.count_singleton_self
  have heq : g.named y = g'.named y + [y].count y := h.symm.named_cons (h.dirs ▸ hx) hkids y
  omega

/-- **The entry of a directory goes**: it counted for the directory and, by the parent, for `x`. -/
theorem Edits.links_erase_dir (h : Edits g g' x) (hx : x ∈ g.dirs) (hw : g.Wf)
    (hkids : (g.kids x).Perm (y :: g'.kids x)) (hy : y ∈ g.dirs) (i : ν) :
    g'.links i + [y, x].count i = g.links i := by
  have hyx : y ∈ g.kids x := hkids.mem_iff.mpr List.mem_cons_self
  have hnamed : ∀ i, g.named i = g'.named i + [y].count i :=
    h.symm.named_cons (h.dirs ▸ hx) hkids
  have hlinked : ¬ g'.Linked y := hw.not_linked_erase h hx hkids hy
  have hups : g.ups i = if x = i then insert y (g'.ups i) else g'.ups i := by
    ext d
    have hd : d ∈ g.ups i ↔ d ∈ g'.ups i ∨ d = y ∧ x = i := by
      rw [mem_ups, mem_ups, h.dirs]
      rcases eq_or_ne d y with rfl | hne
      · rw [hw.parent_eq x hx d hyx hy]
        simp [hlinked, hy, linked_of_mem hx hyx]
      · have hiff : g.Linked d ↔ g'.Linked d := h.symm.linked_iff hkids hne
        rw [hiff]
        constructor
        · rintro ⟨hd, hl, hp⟩
          exact .inl ⟨hd, hl, h.parent d hd ▸ hp⟩
        · rintro (⟨hd, hl, hp⟩ | ⟨he, -⟩)
          · exact ⟨hd, hl, h.parent d hd ▸ hp⟩
          · exact absurd he hne
    rw [hd]
    split <;> simp_all [or_comm]
  have hy' : y ∉ g'.ups i := fun hm => hlinked (mem_ups.mp hm).2.1
  have hcard : (g.ups i).card = (g'.ups i).card + [x].count i := by
    rw [hups]
    split
    · rename_i hxi
      rw [card_insert_of_notMem hy', hxi, List.count_singleton_self]
    · rename_i hxi
      rw [List.count_cons_of_ne hxi, List.count_nil, Nat.add_zero]
  unfold links
  rw [hnamed i, hcard, count_pair]
  ring

theorem Edits.wf_erase_dir (h : Edits g g' x) (hx : x ∈ g.dirs) (hw : g.Wf)
    (hkids : (g.kids x).Perm (y :: g'.kids x)) : g'.Wf := by
  have hnamed : ∀ i, g'.named i ≤ g.named i := by
    intro i
    rw [h.symm.named_cons (h.dirs ▸ hx) hkids i]
    exact Nat.le_add_right _ _
  refine ⟨?_, ?_, ?_, ?_, ?_⟩
  · rw [h.root, h.dirs]
    exact hw.root_mem
  · rw [h.root, h.parent _ hw.root_mem]
    exact hw.root_parent
  · rw [h.root]
    exact Nat.le_zero.mp (hw.root_named ▸ hnamed _)
  · rw [h.dirs]
    exact fun d hd => (hnamed d).trans (hw.named_le d hd)
  · rw [h.dirs]
    intro z hz d hd hdd
    rw [h.parent d hdd]
    refine hw.parent_eq z hz d ?_ hdd
    rcases eq_or_ne z x with rfl | hzx
    · exact hkids.mem_iff.mpr (List.mem_cons_of_mem _ hd)
    · rwa [← h.kids z hz hzx]

/-! ## Directories -/

/-- A new directory `y`, with an entry in `x`. -/
structure Grows (g g' : LinkGraph ν) (x y : ν) : Prop where
  root : g'.root = g.root
  dirs : g'.dirs = insert y g.dirs
  new : y ∉ g.dirs
  kids : ∀ z ∈ g.dirs, z ≠ x → g'.kids z = g.kids z
  entry : (g'.kids x).Perm (y :: g.kids x)
  empty : g'.kids y = []
  parent : ∀ z ∈ g.dirs, g'.parent z = g.parent z
  parent_new : g'.parent y = x

theorem Grows.edits (h : Grows g g' x y) : Edits g { g' with dirs := g.dirs } x :=
  ⟨h.root, rfl, h.kids, h.parent⟩

theorem Grows.named_eq (h : Grows g g' x y) (hx : x ∈ g.dirs) (i : ν) :
    g'.named i = g.named i + [y].count i := by
  rw [← h.edits.named_cons hx h.entry i]
  unfold named
  rw [h.dirs, sum_insert h.new, h.empty, List.count_nil, Nat.zero_add]

theorem Grows.linked_iff (h : Grows g g' x y) (hne : d ≠ y) : g'.Linked d ↔ g.Linked d := by
  rw [← h.edits.linked_iff h.entry hne]
  unfold Linked
  rw [h.dirs]
  simp [h.empty]

theorem Grows.linked_new (h : Grows g g' x y) (hx : x ∈ g.dirs) : g'.Linked y :=
  linked_of_mem (h.dirs ▸ mem_insert_of_mem hx) (h.entry.mem_iff.mpr List.mem_cons_self)

theorem Grows.links_eq (h : Grows g g' x y) (hx : x ∈ g.dirs) (i : ν) :
    g'.links i = g.links i + [y, x].count i := by
  have hups : g'.ups i = if x = i then insert y (g.ups i) else g.ups i := by
    have hold : {d ∈ g.dirs | g'.Linked d ∧ g'.parent d = i} = g.ups i := by
      unfold ups
      refine filter_congr fun d hd => ?_
      rw [h.linked_iff (ne_of_mem_of_not_mem hd h.new), h.parent d hd]
    show ({d ∈ g'.dirs | g'.Linked d ∧ g'.parent d = i} : Finset ν) = _
    rw [h.dirs, filter_insert, hold, h.parent_new]
    simp [h.linked_new hx]
  have hy : y ∉ g.ups i := fun hm => h.new (mem_ups.mp hm).1
  have hcard : (g'.ups i).card = (g.ups i).card + [x].count i := by
    rw [hups]
    split
    · rename_i hxi
      rw [card_insert_of_notMem hy, hxi, List.count_singleton_self]
    · rename_i hxi
      rw [List.count_cons_of_ne hxi, List.count_nil, Nat.add_zero]
  unfold links
  rw [h.named_eq hx, hcard, count_pair]
  ring

theorem Grows.wf (h : Grows g g' x y) (hx : x ∈ g.dirs) (hw : g.Wf) (hy : g.named y = 0) :
    g'.Wf := by
  have hnamed : ∀ d ∈ g.dirs, g'.named d = g.named d := by
    intro d hd
    have hne : y ≠ d := (ne_of_mem_of_not_mem hd h.new).symm
    rw [h.named_eq hx, List.count_cons_of_ne hne, List.count_nil, Nat.add_zero]
  refine ⟨?_, ?_, ?_, ?_, ?_⟩
  · rw [h.root, h.dirs]
    exact mem_insert_of_mem hw.root_mem
  · rw [h.root, h.parent _ hw.root_mem]
    exact hw.root_parent
  · rw [h.root, hnamed _ hw.root_mem]
    exact hw.root_named
  · rw [h.dirs, forall_mem_insert]
    refine ⟨?_, fun d hd => (hnamed d hd).symm ▸ hw.named_le d hd⟩
    rw [h.named_eq hx, hy, List.count_singleton_self]
  · rw [h.dirs, forall_mem_insert]
    refine ⟨fun d hd => absurd hd (h.empty ▸ List.not_mem_nil), fun z hz d hd hdd => ?_⟩
    rcases mem_insert.mp hdd with rfl | hdd
    · rw [h.parent_new]
      by_contra hzx
      rw [h.kids z hz (Ne.symm hzx)] at hd
      exact (named_pos hz hd).ne' hy
    · rw [h.parent d hdd]
      exact hw.parent_eq z hz d
        ((h.edits.mem_kids h.entry (ne_of_mem_of_not_mem hdd h.new) hz).mp hd) hdd

structure Drops (g g' : LinkGraph ν) (x : ν) : Prop where
  root : g'.root = g.root
  dirs : g'.dirs = g.dirs.erase x
  kids : ∀ z ∈ g.dirs, z ≠ x → g'.kids z = g.kids z
  parent : ∀ z ∈ g.dirs, z ≠ x → g'.parent z = g.parent z

theorem Drops.named_add (h : Drops g g' x) (hx : x ∈ g.dirs) (i : ν) :
    g'.named i + (g.kids x).count i = g.named i := by
  unfold named
  rw [h.dirs, ← add_sum_erase _ _ hx, add_comm]
  refine congrArg _ (sum_congr rfl fun z hz => ?_)
  rw [h.kids z (mem_of_mem_erase hz) (ne_of_mem_erase hz)]

theorem Wf.kids_not_mem (hw : g.Wf) (hx : x ∈ g.dirs) (h0 : g.links x = 0) (hy : y ∈ g.kids x) :
    y ∉ g.dirs := by
  intro hyd
  have hmem : y ∈ g.ups x := mem_ups.mpr ⟨hyd, linked_of_mem hx hy, hw.parent_eq x hx y hy hyd⟩
  have hpos : 0 < (g.ups x).card := card_pos.mpr ⟨y, hmem⟩
  unfold links at h0
  omega

theorem Drops.linked_iff (h : Drops g g' x) (hw : g.Wf) (hx : x ∈ g.dirs) (h0 : g.links x = 0)
    (hd : d ∈ g.dirs) : g'.Linked d ↔ g.Linked d := by
  unfold Linked
  rw [h.root, h.dirs]
  refine or_congr_right ⟨?_, ?_⟩
  · rintro ⟨z, hz, hdz⟩
    have hz' := mem_of_mem_erase hz
    exact ⟨z, hz', h.kids z hz' (ne_of_mem_erase hz) ▸ hdz⟩
  · rintro ⟨z, hz, hdz⟩
    have hzx : z ≠ x := by
      rintro rfl
      exact hw.kids_not_mem hx h0 hdz hd
    exact ⟨z, mem_erase.mpr ⟨hzx, hz⟩, (h.kids z hz hzx).symm ▸ hdz⟩

theorem Wf.not_linked (hw : g.Wf) (h0 : g.links x = 0) : ¬ g.Linked x := by
  rintro (rfl | hl)
  · exact hw.root_links.ne' h0
  · have hpos := named_pos_iff.mpr hl
    unfold links at h0
    omega

theorem Drops.links_add (h : Drops g g' x) (hw : g.Wf) (hx : x ∈ g.dirs) (h0 : g.links x = 0)
    (i : ν) : g'.links i + (g.kids x).count i = g.links i := by
  have hxl := hw.not_linked h0
  have hups : g'.ups i = g.ups i := by
    ext d
    rw [mem_ups, mem_ups, h.dirs, mem_erase]
    constructor
    · rintro ⟨⟨hdx, hd⟩, hl, hp⟩
      exact ⟨hd, (h.linked_iff hw hx h0 hd).mp hl, h.parent d hd hdx ▸ hp⟩
    · rintro ⟨hd, hl, hp⟩
      have hdx : d ≠ x := by
        rintro rfl
        exact hxl hl
      exact ⟨⟨hdx, hd⟩, (h.linked_iff hw hx h0 hd).mpr hl, (h.parent d hd hdx).symm ▸ hp⟩
  unfold links
  rw [hups, ← h.named_add hx i]
  ring

theorem Drops.wf (h : Drops g g' x) (hw : g.Wf) (hx : x ∈ g.dirs) (h0 : g.links x = 0) : g'.Wf := by
  have hroot : g.root ≠ x := by
    rintro rfl
    exact hw.root_links.ne' h0
  have hnamed : ∀ i, g'.named i ≤ g.named i := by
    intro i
    rw [← h.named_add hx i]
    exact Nat.le_add_right _ _
  refine ⟨?_, ?_, ?_, ?_, ?_⟩
  · rw [h.root, h.dirs]
    exact mem_erase.mpr ⟨hroot, hw.root_mem⟩
  · rw [h.root, h.parent _ hw.root_mem hroot]
    exact hw.root_parent
  · rw [h.root]
    exact Nat.le_zero.mp (hw.root_named ▸ hnamed _)
  · rw [h.dirs]
    exact fun d hd => (hnamed d).trans (hw.named_le d (mem_of_mem_erase hd))
  · rw [h.dirs]
    intro z hz d hd hdd
    have hz' := mem_of_mem_erase hz
    have hdd' := mem_of_mem_erase hdd
    rw [h.parent d hdd' (ne_of_mem_erase hdd)]
    exact hw.parent_eq z hz' d (h.kids z hz' (ne_of_mem_erase hz) ▸ hd) hdd'

/-! ## What steps keep

A property of a graph and of the nodes that lost an entry together with its directory. -/

variable {I : LinkGraph ν → List ν → Prop} {l : List ν}

structure Steady (I : LinkGraph ν → List ν → Prop) : Prop where
  agree : ∀ {g g' l}, Agree g g' → I g l → I g' l
  erase : ∀ {g g' x y l}, Edits g g' x → x ∈ g.dirs → (g.kids x).Perm (y :: g'.kids x) →
    y ∉ g.dirs → I g l → I g' l
  drop : ∀ {g g' x l}, Drops g g' x → g.Wf → x ∈ g.dirs → g.links x = 0 → I g l →
    I g' (g.kids x ++ l)

/-- New entries in `x` keep it. -/
structure Adds (I : LinkGraph ν → List ν → Prop) (x : ν) : Prop where
  entry : ∀ {g g' y l}, Edits g g' x → (g'.kids x).Perm (y :: g.kids x) → y ∉ g.dirs → x ∈ g.dirs →
    I g l → I g' l
  dir : ∀ {g g' y l}, Grows g g' x y → x ∈ g.dirs → I g l → I g' l

/-- Erasing the entry of the empty directory `y` in `x` keeps it. -/
def Removes (I : LinkGraph ν → List ν → Prop) (x y : ν) : Prop :=
  ∀ {g g' l}, Edits g g' x → g.Wf → x ∈ g.dirs → (g.kids x).Perm (y :: g'.kids x) → y ∈ g.dirs →
    g.kids y = [] → I g l → I g' l

/-- A directory that is not linked is empty; those in `A` are linked, and nothing was lost. -/
structure Barren (A : ν → Prop) (g : LinkGraph ν) (l : List ν) : Prop where
  empty : ∀ d ∈ g.dirs, ¬ g.Linked d → g.kids d = []
  linked : ∀ d ∈ g.dirs, A d → g.Linked d
  lost : l = []

variable {A : ν → Prop} {D : ν → ν → Prop}

omit [DecidableEq ν] in
theorem ne_nil_of_perm {k k' : List ν} (h : k.Perm (y :: k')) : k ≠ [] := by
  rintro rfl
  exact absurd h.nil_eq (List.cons_ne_nil y k').symm

theorem steady_barren : Steady (Barren A) where
  agree ha h := by
    refine ⟨fun d hd hl => ?_, fun d hd hA => ?_, h.lost⟩
    all_goals rw [ha.dirs] at hd
    · rw [ha.linked_iff] at hl
      rw [ha.kids d hd, h.empty d hd hl]
    · exact ha.linked_iff.mpr (h.linked d hd hA)
  erase {g g' x y l} he hx hkids hy h := by
    have hiff : ∀ d ∈ g.dirs, (g.Linked d ↔ g'.Linked d) := fun d hd =>
      he.symm.linked_iff hkids (ne_of_mem_of_not_mem hd hy)
    refine ⟨fun d hd hl => ?_, fun d hd hA => ?_, h.lost⟩
    all_goals rw [he.dirs] at hd
    · rw [← hiff d hd] at hl
      have hnil := h.empty d hd hl
      rcases eq_or_ne d x with rfl | hne
      · exact absurd hnil (ne_nil_of_perm hkids)
      · rw [he.kids d hd hne, hnil]
    · exact (hiff d hd).mp (h.linked d hd hA)
  drop {g g' x l} hd hw hx h0 h := by
    have hnil := h.empty x hx (hw.not_linked h0)
    refine ⟨fun d hdd hl => ?_, fun d hdd hA => ?_, by rw [hnil, h.lost, List.nil_append]⟩
    all_goals
      rw [hd.dirs] at hdd
      have hmem := mem_of_mem_erase hdd
    · rw [hd.linked_iff hw hx h0 hmem] at hl
      rw [hd.kids d hmem (ne_of_mem_erase hdd), h.empty d hmem hl]
    · exact (hd.linked_iff hw hx h0 hmem).mpr (h.linked d hmem hA)

theorem Barren.linked_of_links (h : Barren A g l) (hw : g.Wf) (hd : d ∈ g.dirs)
    (h0 : g.links d ≠ 0) : g.Linked d := by
  by_contra hl
  have hnil := h.empty d hd hl
  have hnamed : g.named d = 0 := by
    by_contra hne
    exact hl (.inr (named_pos_iff.mp (Nat.pos_of_ne_zero hne)))
  obtain ⟨x, hx⟩ : (g.ups d).Nonempty := by
    rw [← card_pos]
    unfold links at h0
    omega
  obtain ⟨hxd, hlx, hp⟩ := mem_ups.mp hx
  rcases hlx with rfl | ⟨z, hz, hxz⟩
  · exact hl (.inl (hp.symm.trans hw.root_parent))
  · rw [hw.parent_eq z hz x hxz hxd] at hp
    rw [hp, hnil] at hxz
    exact absurd hxz List.not_mem_nil

theorem adds_barren (hA : A x) : Adds (Barren A) x where
  entry {g g' y l} he hkids hy hx h := by
    have hiff : ∀ d ∈ g.dirs, (g'.Linked d ↔ g.Linked d) := fun d hd =>
      he.linked_iff hkids (ne_of_mem_of_not_mem hd hy)
    refine ⟨fun d hd hl => ?_, fun d hd hAd => ?_, h.lost⟩
    all_goals rw [he.dirs] at hd
    · rw [hiff d hd] at hl
      have hne : d ≠ x := by
        rintro rfl
        exact hl (h.linked d hd hA)
      rw [he.kids d hd hne, h.empty d hd hl]
    · exact (hiff d hd).mpr (h.linked d hd hAd)
  dir {g g' y l} hg hx h := by
    refine ⟨fun d hd hl => ?_, fun d hd hAd => ?_, h.lost⟩
    all_goals
      rw [hg.dirs, mem_insert] at hd
      rcases hd with rfl | hd
    · exact hg.empty
    · rw [hg.linked_iff (ne_of_mem_of_not_mem hd hg.new)] at hl
      have hne : d ≠ x := by
        rintro rfl
        exact hl (h.linked d hd hA)
      rw [hg.kids d hd hne, h.empty d hd hl]
    · exact hg.linked_new hx
    · exact (hg.linked_iff (ne_of_mem_of_not_mem hd hg.new)).mpr (h.linked d hd hAd)

theorem removes_barren (hA : ∀ d, ¬ A d) : Removes (Barren A) x y := by
  intro g g' l he hw hx hkids hy hempty h
  refine ⟨fun d hd hl => ?_, fun d _ hAd => absurd hAd (hA d), h.lost⟩
  rw [he.dirs] at hd
  have hyx : y ≠ x := by
    rintro rfl
    exact ne_nil_of_perm hkids hempty
  rcases eq_or_ne d y with rfl | hne
  · rw [he.kids d hd hyx, hempty]
  · rw [← he.symm.linked_iff hkids hne] at hl
    have hnil := h.empty d hd hl
    rcases eq_or_ne d x with rfl | hdx
    · exact absurd hnil (ne_nil_of_perm hkids)
    · rw [he.kids d hd hdx, hnil]

/-- The parent of a directory that is not linked is. As long as `y` is linked, an entry for it in
`x` may go: `x` is linked, and `y` is the parent only of directories that are. -/
structure Rooted (D : ν → ν → Prop) (g : LinkGraph ν) (l : List ν) : Prop where
  parent : ∀ d ∈ g.dirs, ¬ g.Linked d → g.parent d ∈ g.dirs ∧ g.Linked (g.parent d)
  free : ∀ x ∈ g.dirs, ∀ y ∈ g.dirs, D x y → g.Linked y →
    g.Linked x ∧ ∀ d ∈ g.dirs, ¬ g.Linked d → g.parent d ≠ y

omit [DecidableEq ν] in
/-- A step that keeps the parents and links of the directories that stay, where those that go are
not linked. -/
theorem Rooted.mono {l' : List ν} (h : Rooted D g l) (hsub : ∀ d ∈ g'.dirs, d ∈ g.dirs)
    (hkeep : ∀ d ∈ g.dirs, g.Linked d → d ∈ g'.dirs)
    (hl : ∀ d ∈ g.dirs, (g'.Linked d ↔ g.Linked d)) (hp : ∀ d ∈ g'.dirs, g'.parent d = g.parent d) :
    Rooted D g' l' where
  parent d hd hnot := by
    have hpar := h.parent d (hsub d hd) (mt (hl d (hsub d hd)).mpr hnot)
    rw [hp d hd]
    exact ⟨hkeep _ hpar.1 hpar.2, (hl _ hpar.1).mpr hpar.2⟩
  free x hx y hy hD hly := by
    obtain ⟨hlx, hrest⟩ := h.free x (hsub x hx) y (hsub y hy) hD ((hl y (hsub y hy)).mp hly)
    refine ⟨(hl x (hsub x hx)).mpr hlx, fun d hd hnot => ?_⟩
    rw [hp d hd]
    exact hrest d (hsub d hd) (mt (hl d (hsub d hd)).mpr hnot)

theorem steady_rooted : Steady (Rooted D) where
  agree ha h := h.mono (fun _ hd => ha.dirs ▸ hd) (fun _ hd _ => ha.dirs ▸ hd)
    (fun _ _ => ha.linked_iff) fun d hd => ha.parent d (ha.dirs ▸ hd)
  erase he _ hkids hy h := h.mono (fun _ hd => he.dirs ▸ hd) (fun _ hd _ => he.dirs ▸ hd)
    (fun _ hd => (he.symm.linked_iff hkids (ne_of_mem_of_not_mem hd hy)).symm)
    fun d hd => he.parent d (he.dirs ▸ hd)
  drop {g g' x l} hd hw hx h0 h := by
    refine h.mono (fun d hdd => ?_) (fun d hdd hl => ?_) (fun d hdd => hd.linked_iff hw hx h0 hdd)
      fun d hdd => ?_
    · rw [hd.dirs] at hdd
      exact mem_of_mem_erase hdd
    · rw [hd.dirs]
      refine mem_erase.mpr ⟨?_, hdd⟩
      rintro rfl
      exact hw.not_linked h0 hl
    · rw [hd.dirs] at hdd
      exact hd.parent d (mem_of_mem_erase hdd) (ne_of_mem_erase hdd)

theorem adds_rooted (hD : ∀ x y, ¬ D x y) : Adds (Rooted D) x where
  entry he hkids hy _ h := h.mono (fun _ hd => he.dirs ▸ hd) (fun _ hd _ => he.dirs ▸ hd)
    (fun _ hd => he.linked_iff hkids (ne_of_mem_of_not_mem hd hy)) fun d hd =>
    he.parent d (he.dirs ▸ hd)
  dir {g g' y l} hg hx h := by
    refine ⟨fun d hd hl => ?_, fun x _ y _ hxy => absurd hxy (hD x y)⟩
    rw [hg.dirs, mem_insert] at hd
    rcases hd with rfl | hd
    · exact absurd (hg.linked_new hx) hl
    · rw [hg.linked_iff (ne_of_mem_of_not_mem hd hg.new)] at hl
      obtain ⟨hp, hlp⟩ := h.parent d hd hl
      rw [hg.parent d hd, hg.dirs]
      exact ⟨mem_insert_of_mem hp, (hg.linked_iff (ne_of_mem_of_not_mem hp hg.new)).mpr hlp⟩

theorem removes_rooted (hD : ∀ a b, D a b → a = x ∧ b = y) (hxy : D x y) :
    Removes (Rooted D) x y := by
  intro g g' l he hw hx hkids hy hempty h
  have hyx : y ∈ g.kids x := hkids.mem_iff.mpr List.mem_cons_self
  have hgone := hw.not_linked_erase he hx hkids hy
  have hne : x ≠ y := by
    rintro rfl
    exact ne_nil_of_perm hkids hempty
  obtain ⟨hlx, hfree⟩ := h.free x hx y hy hxy (linked_of_mem hx hyx)
  refine ⟨fun d hd hl => ?_, fun a _ b _ hab hlb => ?_⟩
  · rw [he.dirs] at hd ⊢
    rw [he.parent d hd]
    rcases eq_or_ne d y with rfl | hdy
    · rw [hw.parent_eq x hx d hyx hd]
      exact ⟨hx, (he.symm.linked_iff hkids hne).mp hlx⟩
    · have hl' : ¬ g.Linked d := mt (he.symm.linked_iff hkids hdy).mp hl
      obtain ⟨hp, hlp⟩ := h.parent d hd hl'
      exact ⟨hp, (he.symm.linked_iff hkids (hfree d hd hl')).mp hlp⟩
  · rw [(hD a b hab).2] at hlb
    exact absurd hlb hgone

end LinkGraph

end Lib
