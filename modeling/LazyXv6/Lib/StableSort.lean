import Mathlib

/-!
# Stable sorting

`StableSort key xs ys`: `ys` is `xs` in the order of the keys, and entries with one key stand as
they stood. A list has one such rearrangement only (`unique`).
-/

namespace Lib

variable {α κ : Type} [LinearOrder κ] {key : α → κ} {xs ys xs' ys' : List α} {k : κ}
    {le : α → α → Bool}

structure StableSort (key : α → κ) (xs ys : List α) : Prop where
  sorted : ys.Pairwise fun a b => key a ≤ key b
  ties : ∀ k, ys.filter (fun a => key a = k) = xs.filter fun a => key a = k

theorem mem_of_ties {a : α} (h : ∀ k, ys.filter (fun a => key a = k) = xs.filter fun a => key a = k)
    (ha : a ∈ ys) : a ∈ xs := by
  have hmem : a ∈ ys.filter fun b => key b = key a := List.mem_filter.mpr ⟨ha, by simp⟩
  rw [h] at hmem
  exact (List.mem_filter.mp hmem).1

theorem eq_of_ties (hx : xs.Pairwise fun a b => key a ≤ key b)
    (hy : ys.Pairwise fun a b => key a ≤ key b)
    (h : ∀ k, ys.filter (fun a => key a = k) = xs.filter fun a => key a = k) : ys = xs := by
  induction ys generalizing xs with
  | nil =>
    cases xs with
    | nil => rfl
    | cons x xs => exact nomatch mem_of_ties (fun k => (h k).symm) (List.mem_cons_self (a := x))
  | cons y ys ih =>
    cases xs with
    | nil => exact nomatch mem_of_ties h (List.mem_cons_self (a := y))
    | cons x xs =>
      obtain ⟨hy1, hys⟩ := List.pairwise_cons.mp hy
      obtain ⟨hx1, hxs⟩ := List.pairwise_cons.mp hx
      -- both heads have the least key
      have hyx : key y ≤ key x := by
        rcases List.mem_cons.mp (mem_of_ties (fun k => (h k).symm)
          (List.mem_cons_self (a := x))) with he | hmem
        · rw [he]
        · exact hy1 x hmem
      have hxy : key x ≤ key y := by
        rcases List.mem_cons.mp (mem_of_ties h (List.mem_cons_self (a := y))) with he | hmem
        · rw [he]
        · exact hx1 y hmem
      have hkey : key y = key x := le_antisymm hyx hxy
      have hhead := h (key x)
      rw [List.filter_cons_of_pos (by simpa using hkey), List.filter_cons_of_pos (by simp)] at hhead
      obtain rfl : y = x := (List.cons.inj hhead).1
      refine congrArg (y :: ·) (ih hxs hys fun k => ?_)
      have hk := h k
      by_cases he : key y = k
      · rw [List.filter_cons_of_pos (by simpa using he),
          List.filter_cons_of_pos (by simpa using he)] at hk
        exact (List.cons.inj hk).2
      · rwa [List.filter_cons_of_neg (by simpa using he),
          List.filter_cons_of_neg (by simpa using he)] at hk

theorem StableSort.unique (h : StableSort key xs ys) (h' : StableSort key xs ys') : ys = ys' :=
  eq_of_ties h'.sorted h.sorted fun k => (h.ties k).trans (h'.ties k).symm

theorem StableSort.refl (h : xs.Pairwise fun a b => key a ≤ key b) :
    StableSort key xs xs := ⟨h, fun _ => rfl⟩

theorem filter_merge (hle : ∀ a b, le a b = true ↔ key a ≤ key b)
    (hx : xs.Pairwise fun a b => key a ≤ key b) :
    (List.merge xs ys le).filter (fun a => key a = k) =
      xs.filter (fun a => key a = k) ++ ys.filter fun a => key a = k := by
  induction xs generalizing ys with
  | nil => simp
  | cons x xs ihx =>
    obtain ⟨hx1, hxs⟩ := List.pairwise_cons.mp hx
    induction ys with
    | nil => simp
    | cons y ys ihy =>
      rw [List.cons_merge_cons]
      by_cases hxy : le x y = true
      · rw [if_pos hxy, List.filter_cons (x := x), List.filter_cons (x := x), ihx hxs]
        split
        · rfl
        · rfl
      · rw [if_neg hxy, List.filter_cons (x := y), List.filter_cons (x := y), ihy]
        rw [hle, not_le] at hxy
        split
        case isTrue hk =>
          -- no entry of the left list has the key of `y`
          have hnil : (x :: xs).filter (fun a => key a = k) = [] := by
            refine List.filter_eq_nil_iff.mpr fun a ha hak => ?_
            have hya : key y < key a := by
              rcases List.mem_cons.mp ha with rfl | ha
              · exact hxy
              · exact hxy.trans_le (hx1 a ha)
            exact hya.ne ((of_decide_eq_true hk).trans (of_decide_eq_true hak).symm)
          rw [hnil, List.nil_append, List.nil_append]
        · rfl

theorem StableSort.merge (hle : ∀ a b, le a b = true ↔ key a ≤ key b) (hx : StableSort key xs xs')
    (hy : StableSort key ys ys') : StableSort key (xs ++ ys) (List.merge xs' ys' le) := by
  refine ⟨?_, fun k => ?_⟩
  · have hmerge := List.pairwise_merge
      (fun a b c h h' => (hle a c).mpr (((hle a b).mp h).trans ((hle b c).mp h')))
      (fun a b => ?_) xs' ys' (hx.sorted.imp (hle _ _).mpr) (hy.sorted.imp (hle _ _).mpr)
    · exact hmerge.imp (hle _ _).mp
    · rw [Bool.or_eq_true, hle, hle]
      exact le_total _ _
  · rw [filter_merge hle hx.sorted, hx.ties, hy.ties, List.filter_append]

end Lib
