import LazyXv6.Lib.Runs

/-!
# Pools of workers

A worker is the list of the atomic actions that are left to it. A step of the pool runs the first
action of one worker on the shared state. `Executes W as T`: the workers `W` have run the actions
`as`, in this order, and `T` is left to them. `Interleaves W as`: the same, with nothing left.
-/

namespace Lib

variable {σ α : Type}

structure Pool (σ α : Type) where
  shared : σ
  todo : List (List α)

def Pool.step (act : σ → α → σ) (p : Pool σ α) (i : ℕ) : Option (Pool σ α) :=
  match p.todo[i]? with
  | some (a :: rest) => some ⟨act p.shared a, p.todo.set i rest⟩
  | _ => none

theorem Pool.step_eq_some {act : σ → α → σ} {p p' : Pool σ α} {i : ℕ} :
    p.step act i = some p' ↔ ∃ a rest, p.todo[i]? = some (a :: rest) ∧
    p' = ⟨act p.shared a, p.todo.set i rest⟩ := by
  unfold Pool.step
  split
  · next a rest h => simp [h, eq_comm]
  · next h => simpa using fun a rest h' => absurd h' (h a rest)

/-- Nothing is left to any worker. -/
def Idle (T : List (List α)) : Prop := ∀ w ∈ T, w = []

instance (T : List (List α)) : Decidable (Idle T) :=
  decidable_of_iff (∀ w ∈ T, w.isEmpty = true) (by simp [Idle])

theorem Pool.step_of_idle {act : σ → α → σ} {p : Pool σ α} (h : Idle p.todo) (i : ℕ) :
    p.step act i = none := by
  unfold Pool.step
  split
  · next a rest hi => cases h _ (List.mem_of_getElem? hi)
  · rfl

inductive Executes : List (List α) → List α → List (List α) → Prop where
  | nil {W : List (List α)} : Executes W [] W
  | snoc {W T : List (List α)} {as rest : List α} {a : α} {i : ℕ} : Executes W as T →
      T[i]? = some (a :: rest) → Executes W (as ++ [a]) (T.set i rest)

def Interleaves (W : List (List α)) (as : List α) : Prop := ∃ T, Executes W as T ∧ Idle T

variable {W T U : List (List α)} {as bs rest : List α} {a : α} {i : ℕ}

theorem flatten_set_perm (h : T[i]? = some (a :: rest)) :
    T.flatten.Perm (a :: (T.set i rest).flatten) := by
  induction T generalizing i with
  | nil => simp at h
  | cons w T ih =>
    cases i with
    | zero =>
      rw [List.getElem?_cons_zero, Option.some.injEq] at h
      rw [h]
      exact .refl _
    | succ i =>
      rw [List.getElem?_cons_succ] at h
      simp only [List.set_cons_succ, List.flatten_cons]
      exact ((ih h).append_left w).trans List.perm_middle

theorem Executes.perm (h : Executes W as T) : (as ++ T.flatten).Perm W.flatten := by
  induction h with
  | nil => exact .refl _
  | snoc _ hi ih =>
    rw [List.append_assoc, List.singleton_append]
    exact ((flatten_set_perm hi).symm.append_left _).trans ih

theorem Idle.flatten_eq_nil (h : Idle T) : T.flatten = [] := List.flatten_eq_nil_iff.mpr h

theorem Interleaves.perm (h : Interleaves W as) : as.Perm W.flatten := by
  obtain ⟨T, hT, hidle⟩ := h
  have := hT.perm
  rwa [hidle.flatten_eq_nil, List.append_nil] at this

theorem Executes.sublist (h : Executes W as T) {w : List α} (hw : W[i]? = some w) :
    ∃ pre t, T[i]? = some t ∧ w = pre ++ t ∧ pre.Sublist as := by
  induction h with
  | nil => exact ⟨[], w, hw, rfl, .refl []⟩
  | @snoc T as rest a j _ hj ih =>
    obtain ⟨pre, t, ht, rfl, hsub⟩ := ih
    by_cases hij : j = i
    · subst hij
      rw [hj] at ht
      cases ht
      refine ⟨pre ++ [a], rest, ?_, by simp, hsub.append_right [a]⟩
      exact List.getElem?_set_self (List.getElem?_eq_some_iff.mp hj).1
    · exact ⟨pre, t, by rw [List.getElem?_set_ne hij, ht], rfl,
        hsub.trans (List.sublist_append_left as [a])⟩

theorem Interleaves.sublist (h : Interleaves W as) {w : List α} (hw : w ∈ W) : w.Sublist as := by
  obtain ⟨T, hT, hidle⟩ := h
  obtain ⟨i, hi⟩ := List.mem_iff_getElem?.mp hw
  obtain ⟨pre, t, ht, rfl, hsub⟩ := hT.sublist hi
  rw [hidle t (List.mem_of_getElem? ht), List.append_nil]
  exact hsub

theorem Executes.trans (h : Executes W as T) (h' : Executes T bs U) : Executes W (as ++ bs) U := by
  induction h' with
  | nil => rwa [List.append_nil]
  | snoc _ hi ih =>
    rw [← List.append_assoc]
    exact .snoc ih hi

theorem executes_worker {w : List α} (hi : W[i]? = some w) : Executes W w (W.set i []) := by
  induction w generalizing W with
  | nil =>
    obtain ⟨hlt, he⟩ := List.getElem?_eq_some_iff.mp hi
    have hset := List.set_getElem_self hlt
    rw [he] at hset
    rw [hset]
    exact .nil
  | cons a w ih =>
    have hstep : Executes W ([] ++ [a]) (W.set i w) := .snoc .nil hi
    have hlt := (List.getElem?_eq_some_iff.mp hi).1
    have := hstep.trans (ih (List.getElem?_set_self hlt))
    rwa [List.set_set] at this

theorem exists_interleaves (T : List (List α)) : ∃ as, Interleaves T as := by
  induction hn : T.flatten.length generalizing T with
  | zero =>
    exact ⟨[], T, .nil, List.flatten_eq_nil_iff.mp (List.length_eq_zero_iff.mp hn)⟩
  | succ n ih =>
    have hne : T.flatten ≠ [] := by
      intro h
      rw [h] at hn
      cases hn
    have hex : ∃ w ∈ T, w ≠ [] := by
      simpa [List.flatten_eq_nil_iff] using hne
    obtain ⟨w, hw, hwne⟩ := hex
    obtain ⟨i, hi⟩ := List.mem_iff_getElem?.mp hw
    obtain ⟨a, rest, rfl⟩ := List.exists_cons_of_ne_nil hwne
    have hlen := (flatten_set_perm hi).length_eq
    obtain ⟨as, U, hU, hidle⟩ := ih (T.set i rest) (by rw [List.length_cons] at hlen; omega)
    exact ⟨([] ++ [a]) ++ as, U, (Executes.nil.snoc hi).trans hU, hidle⟩

theorem exists_interleaves_first {w : List α} (hw : w ∈ W) : ∃ as, Interleaves W (w ++ as) := by
  obtain ⟨i, hi⟩ := List.mem_iff_getElem?.mp hw
  obtain ⟨as, U, hU, hidle⟩ := exists_interleaves (W.set i [])
  exact ⟨as, U, (executes_worker hi).trans hU, hidle⟩

/-! ## Workers that carry data -/

section Map

variable {β : Type} {f : α → β}

theorem Executes.map (f : α → β) (h : Executes W as T) :
    Executes (W.map (List.map f)) (as.map f) (T.map (List.map f)) := by
  induction h with
  | nil => exact .nil
  | @snoc T as rest a i _ hi ih =>
    rw [List.map_append, List.map_set]
    exact .snoc ih (by rw [List.getElem?_map, hi]; rfl)

theorem Executes.of_map {ys : List β} {V : List (List β)} (h : Executes (W.map (List.map f)) ys V) :
    ∃ as T, Executes W as T ∧ ys = as.map f ∧ V = T.map (List.map f) := by
  induction h with
  | nil => exact ⟨[], W, .nil, rfl, rfl⟩
  | @snoc V ys rest y i _ hi ih =>
    obtain ⟨as, T, hT, rfl, rfl⟩ := ih
    rw [List.getElem?_map, Option.map_eq_some_iff] at hi
    obtain ⟨w, hw, he⟩ := hi
    obtain ⟨a, w', rfl, rfl, rfl⟩ := List.map_eq_cons_iff.mp he
    exact ⟨as ++ [a], T.set i w', hT.snoc hw, by simp, by rw [List.map_set]⟩

theorem interleaves_map_iff {ys : List β} :
    Interleaves (W.map (List.map f)) ys ↔ ∃ as, Interleaves W as ∧ ys = as.map f := by
  have hidle : ∀ T : List (List α), Idle (T.map (List.map f)) ↔ Idle T := fun T => by
    simp [Idle]
  constructor
  · rintro ⟨V, hV, hVidle⟩
    obtain ⟨as, T, hT, rfl, rfl⟩ := hV.of_map
    exact ⟨as, ⟨T, hT, (hidle T).mp hVidle⟩, rfl⟩
  · rintro ⟨as, ⟨T, hT, hTidle⟩, rfl⟩
    exact ⟨_, hT.map f, (hidle T).mpr hTidle⟩

end Map

/-! ## A round of a pool inside a system

The states `mk p` of a system are those where the pool `p` is at work: action `some i` runs worker
`i`, and the main thread (`none`) waits until the workers have ended. -/

section Round

variable {τ : Type} {next : τ → Option ℕ → Option τ} (mk : Pool σ α → τ) {act : σ → α → σ}
    {P : τ → Prop} {s : σ}

theorem reach_round (hwork : ∀ p i, next (mk p) (some i) = (p.step act i).map mk)
    (h : Executes W as T) : Reach next (mk ⟨s, W⟩) (mk ⟨as.foldl act s, T⟩) := by
  induction h with
  | nil => exact .refl _
  | @snoc T as rest a i _ hi ih =>
    refine ih.step (a := some i) ?_
    rw [hwork, Pool.step_eq_some.mpr ⟨a, rest, hi, rfl⟩, List.foldl_append]
    rfl

/-- A round ends, whatever its order, in what the system does when the workers have ended. -/
theorem alwaysEnds_round (hwork : ∀ p i, next (mk p) (some i) = (p.step act i).map mk)
    (hmain : ∀ p, ¬Idle p.todo → next (mk p) none = none)
    (hidle : ∀ as T, Executes W as T → Idle T → AlwaysEnds next P (mk ⟨as.foldl act s, T⟩)) :
    AlwaysEnds next P (mk ⟨s, W⟩) := by
  suffices hall : ∀ n as T, Executes W as T → T.flatten.length = n →
      AlwaysEnds next P (mk ⟨as.foldl act s, T⟩) from hall _ [] W .nil rfl
  intro n
  induction n with
  | zero =>
    intro as T hT hn
    exact hidle as T hT (List.flatten_eq_nil_iff.mp (List.length_eq_zero_iff.mp hn))
  | succ n ih =>
    intro as T hT hn
    have hbusy : ¬Idle T := fun h => by
      rw [h.flatten_eq_nil] at hn
      cases hn
    refine .intro (fun hstuck => ?_) fun a s' ha => ?_
    · -- some worker has an action left
      have hwait : ∀ (i : ℕ) (a : α) (rest : List α), T[i]? ≠ some (a :: rest) := by
        intro i a rest hi
        have := hstuck (some i)
        rw [hwork, Pool.step_eq_some.mpr ⟨a, rest, hi, rfl⟩] at this
        cases this
      refine absurd (fun w hw => ?_) hbusy
      obtain ⟨i, hi⟩ := List.mem_iff_getElem?.mp hw
      cases w with
      | nil => rfl
      | cons a rest => exact absurd hi (hwait i a rest)
    · cases a with
      | none =>
        rw [hmain _ hbusy] at ha
        cases ha
      | some i =>
        rw [hwork] at ha
        obtain ⟨p', hp', rfl⟩ := Option.map_eq_some_iff.mp ha
        obtain ⟨a, rest, hi, rfl⟩ := Pool.step_eq_some.mp hp'
        have hlen := (flatten_set_perm hi).length_eq
        rw [List.length_cons] at hlen
        dsimp only at hlen
        have := ih (as ++ [a]) (T.set i rest) (hT.snoc hi) (by omega)
        rwa [List.foldl_append] at this

theorem alwaysEnds_idle (hwork : ∀ p i, next (mk p) (some i) = (p.step act i).map mk)
    {p : Pool σ α} (hidle : Idle p.todo) {t : τ} (hmain : next (mk p) none = some t)
    (ht : AlwaysEnds next P t) : AlwaysEnds next P (mk p) := by
  refine .intro (fun hstuck => ?_) fun a s' ha => ?_
  · rw [hstuck none] at hmain
    cases hmain
  · cases a with
    | none =>
      rw [hmain] at ha
      cases ha
      exact ht
    | some i =>
      rw [hwork, Pool.step_of_idle hidle] at ha
      cases ha

end Round

end Lib
