import LazyXv6.Console.Model

/-!
# What a reader of the console gets

An editor collects a line until it is committed, by a newline, by `^D`, or because there is no room
for more (`Editor`). Whatever the readers do in between, the ring of `console.c` holds what was
committed and not yet read, followed by the line being edited (`Shows`).
-/

namespace LazyXv6.Console

open Lib Lib.SmallFin Function

structure Editor where
  /-- All that was ever committed, and how much of it was given to readers. -/
  committed : List UInt8
  given : ℕ
  /-- The line that can still be edited. -/
  line : List UInt8

namespace Editor

/-- What is committed and not given out yet. -/
def unread (ed : Editor) : List UInt8 := ed.committed.drop ed.given

def commit (ed : Editor) : Editor := { ed with committed := ed.committed ++ ed.line, line := [] }

/-- A character is accepted if there is room for it, and a NUL never. -/
def accepts (ed : Editor) (c : UInt8) : Bool :=
  c ≠ 0 ∧ ed.unread.length + ed.line.length < inputBufSize

/-- A character that is accepted becomes a part of the line, and may commit it. -/
def add (ed : Editor) (c : UInt8) : Editor :=
  let ed := { ed with line := ed.line ++ [c] }
  if c = newline ∨ c = ctrl 'D' ∨ ed.unread.length + ed.line.length = inputBufSize then ed.commit
  else ed

def type (ed : Editor) (c : UInt8) : Editor :=
  if c = ctrl 'P' then ed
  else if c = ctrl 'U' then { ed with line := [] }
  else if c = ctrl 'H' ∨ c = delete then { ed with line := ed.line.dropLast }
  else if ed.accepts c then ed.add (if c = carriageReturn then newline else c)
  else ed

def give (ed : Editor) : Editor := { ed with given := ed.given + 1 }

end Editor

variable {N : ℕ} {s s' : State N} {ed : Editor} {p : Fin N} {c : UInt8} {n target : ℤ}
    {log : List (Event N)}

def Event.apply (ed : Editor) : Event N → Editor
  | .typed c => ed.type c
  | .took .. => ed.give
  | .returned .. => ed

def edited (log : List (Event N)) : Editor := log.foldl Event.apply ⟨[], 0, []⟩

/-- The bytes that readers took, in order. -/
def delivered (log : List (Event N)) : List UInt8 :=
  log.filterMap fun
    | .took _ c => some c
    | _ => none

/-- What is in the buffer between two indices. -/
def State.between (s : State N) (i j : UInt32) : List UInt8 :=
  (List.range (j - i).toNat).map fun k => s.buf ((i + UInt32.ofNat k).toNat % inputBufSize)

theorem edited_concat (log : List (Event N)) (ev : Event N) :
    edited (log ++ [ev]) = ev.apply (edited log) := List.foldl_concat ..

theorem delivered_concat (log : List (Event N)) (ev : Event N) :
    delivered (log ++ [ev]) = delivered log ++ delivered [ev] := List.filterMap_append ..

/-! ## The ring -/

/-- The ring and its indices show what the editor has. -/
structure Shows (s : State N) (ed : Editor) : Prop where
  given_le : ed.given ≤ ed.committed.length
  r : s.r = UInt32.ofNat ed.given
  w : s.w = UInt32.ofNat ed.committed.length
  e : s.e = UInt32.ofNat (ed.committed.length + ed.line.length)
  fits : ed.unread.length + ed.line.length ≤ inputBufSize
  holds : RingHolds inputBufSize s.buf ed.given (ed.unread ++ ed.line)

theorem length_unread (ed : Editor) : ed.unread.length = ed.committed.length - ed.given :=
  List.length_drop

namespace Shows

variable (h : Shows s ed)

include h

theorem bound : ed.committed.length + ed.line.length ≤ ed.given + 128 := by
  have hfits : ed.unread.length + ed.line.length ≤ 128 := h.fits
  have hle := h.given_le
  rw [length_unread] at hfits
  omega

theorem w_sub_r : (s.w - s.r).toNat = ed.unread.length := by
  have hb := h.bound
  rw [h.w, h.r, counter_sub h.given_le (by omega), length_unread]

theorem e_sub_r : (s.e - s.r).toNat = ed.unread.length + ed.line.length := by
  have hb := h.bound
  have hle := h.given_le
  rw [h.e, h.r, counter_sub (by omega) (by omega), length_unread]
  omega

theorem e_sub_w : (s.e - s.w).toNat = ed.line.length := by
  have hb := h.bound
  have hle := h.given_le
  rw [h.e, h.w, counter_sub (by omega) (by omega)]
  omega

theorem e_eq_w : s.e = s.w ↔ ed.line = [] := by
  have hb := h.bound
  have hle := h.given_le
  rw [h.e, h.w, eq_comm, counter_inj (by omega) (by omega), ← List.length_eq_zero_iff]
  omega

theorem r_eq_w : s.r = s.w ↔ ed.unread = [] := by
  have hb := h.bound
  have hle := h.given_le
  rw [h.r, h.w, counter_inj hle (by omega), ← List.length_eq_zero_iff, length_unread]
  omega

theorem index_e : s.e.toNat % inputBufSize =
    (ed.given + (ed.unread ++ ed.line).length) % inputBufSize := by
  have hle := h.given_le
  rw [h.e, counter_index (by decide), List.length_append, length_unread]
  congr 1
  omega

theorem between_r_w : s.between s.r s.w = ed.unread := by
  unfold State.between
  rw [h.w_sub_r, h.r]
  have hread : RingHolds inputBufSize s.buf ed.given ed.unread := fun j hj =>
    (h.holds j (by rw [List.length_append]; omega)).trans (List.getElem_append_left hj)
  refine Eq.trans (List.map_congr_left fun j _ => ?_) hread.read
  rw [← UInt32.ofNat_add, counter_index (by decide)]

theorem between_w_e : s.between s.w s.e = ed.line := by
  have hle := h.given_le
  unfold State.between
  rw [h.e_sub_w, h.w]
  have hread : RingHolds inputBufSize s.buf ed.committed.length ed.line := by
    intro j hj
    have hindex : ed.committed.length + j = ed.given + (ed.unread.length + j) := by
      rw [length_unread]
      omega
    rw [hindex, h.holds (ed.unread.length + j) (by rw [List.length_append]; omega),
      List.getElem_append_right (by omega)]
    simp only [Nat.add_sub_cancel_left]
  refine Eq.trans (List.map_congr_left fun j _ => ?_) hread.read
  rw [← UInt32.ofNat_add, counter_index (by decide)]

theorem erase (hne : ed.line ≠ []) :
    Shows { s with e := s.e - 1 } { ed with line := ed.line.dropLast } := by
  have hpos : 0 < ed.line.length := List.length_pos_iff.mpr hne
  have hlen : ed.line.dropLast.length = ed.line.length - 1 := List.length_dropLast
  have hfits := h.fits
  refine ⟨h.given_le, h.r, h.w, ?_, ?_, fun j hj => ?_⟩
  · show s.e - 1 = UInt32.ofNat (ed.committed.length + ed.line.dropLast.length)
    have hsucc : ed.committed.length + ed.line.length = ed.committed.length + (ed.line.length - 1) +
      1 := by omega
    rw [h.e, hlen, hsucc, ← counter_succ]
    exact UInt32.add_sub_cancel ..
  · show ed.unread.length + ed.line.dropLast.length ≤ inputBufSize
    omega
  · have hpre : ed.unread ++ ed.line = ed.unread ++ ed.line.dropLast ++ [ed.line.getLast hne] := by
      rw [List.append_assoc, List.dropLast_append_getLast]
    have hj' : j < (ed.unread ++ ed.line.dropLast).length := hj
    refine (h.holds j ?_).trans ?_
    · rw [hpre, List.length_append]
      omega
    · simp only [hpre]
      exact List.getElem_append_left hj'

/-- `^U` takes the whole line, since it has no newline. -/
theorem killLine (hplain : newline ∉ ed.line) (k : ℕ) (hk : ed.line.length = k) :
    Shows { s with e := State.killLine s.buf s.w k s.e } { ed with line := [] } := by
  induction k generalizing s ed with
  | zero =>
    have hnil : ed.line = [] := List.length_eq_zero_iff.mp hk
    rw [← hnil]
    exact h
  | succ k ih =>
    have hne : ed.line ≠ [] := by
      rintro hnil
      rw [hnil] at hk
      exact nomatch hk
    have hlast : s.buf ((s.e - 1).toNat % inputBufSize) ≠ newline := by
      have herase := (h.erase hne).index_e
      have hcell := h.holds (ed.unread ++ ed.line.dropLast).length (by
        rw [List.length_append, List.length_append, List.length_dropLast]
        omega)
      intro heq
      refine hplain ?_
      have hpre : ed.unread ++ ed.line = ed.unread ++ ed.line.dropLast ++ [ed.line.getLast hne] := by
        rw [List.append_assoc, List.dropLast_append_getLast]
      have hget : ed.line.getLast hne = newline := by
        rw [← heq]
        refine Eq.trans ?_ ((congrArg s.buf herase).trans hcell).symm
        simp only [hpre]
        exact (List.getElem_concat_length rfl (by simp)).symm
      exact hget ▸ List.getLast_mem hne
    have hew : s.e ≠ s.w := fun heq => hne (h.e_eq_w.mp heq)
    unfold State.killLine
    rw [if_pos ⟨hew, hlast⟩]
    refine ih (h.erase hne) (fun hmem => hplain (List.dropLast_subset _ hmem)) ?_
    show ed.line.dropLast.length = k
    rw [List.length_dropLast]
    omega

theorem unread_commit : ed.commit.unread = ed.unread ++ ed.line :=
  List.drop_append_of_le_length h.given_le

theorem commit : Shows { s with w := s.e } ed.commit := by
  have hfits := h.fits
  have hlen : ed.commit.committed.length = ed.committed.length + ed.line.length :=
    List.length_append
  refine ⟨?_, h.r, ?_, ?_, ?_, ?_⟩
  · show ed.given ≤ ed.commit.committed.length
    have hle := h.given_le
    omega
  · rw [hlen]
    exact h.e
  · rw [hlen]
    exact h.e
  · rw [h.unread_commit, List.length_append]
    exact hfits
  · rw [h.unread_commit]
    show RingHolds inputBufSize s.buf ed.given (ed.unread ++ ed.line ++ [])
    rw [List.append_nil]
    exact h.holds

theorem push (hroom : ed.unread.length + ed.line.length < inputBufSize) (c : UInt8) :
    Shows { s with buf := update s.buf (s.e.toNat % inputBufSize) c, e := s.e + 1 }
      { ed with line := ed.line ++ [c] } := by
  refine ⟨h.given_le, h.r, h.w, ?_, ?_, ?_⟩
  · show s.e + 1 = UInt32.ofNat (ed.committed.length + (ed.line ++ [c]).length)
    rw [h.e, counter_succ, List.length_append, List.length_singleton, ← Nat.add_assoc]
  · show ed.unread.length + (ed.line ++ [c]).length ≤ inputBufSize
    rw [List.length_append, List.length_singleton]
    omega
  · show RingHolds _ (update s.buf (s.e.toNat % inputBufSize) c) ed.given
      (ed.unread ++ (ed.line ++ [c]))
    rw [h.index_e, ← List.append_assoc]
    exact h.holds.push (by rwa [List.length_append]) c

theorem congr {s' : State N} (hbuf : s'.buf = s.buf) (hr : s'.r = s.r) (hw : s'.w = s.w)
    (he : s'.e = s.e) : Shows s' ed :=
  ⟨h.given_le, hr.trans h.r, hw.trans h.w, he.trans h.e, h.fits, hbuf ▸ h.holds⟩

theorem store (hroom : ed.unread.length + ed.line.length < inputBufSize) (c : UInt8) :
    Shows (s.store c) (ed.add (if c = carriageReturn then newline else c)) := by
  unfold State.store Editor.add
  generalize (if c = carriageReturn then newline else c) = c
  have hpush := h.push hroom c
  have hfull : s.e + 1 - s.r = 128 ↔
      { ed with line := ed.line ++ [c] }.unread.length + (ed.line ++ [c]).length = inputBufSize := by
    rw [← UInt32.toNat_inj, show (s.e + 1 - s.r).toNat = _ from hpush.e_sub_r]
    exact Iff.rfl
  simp only [hfull]
  split
  · exact hpush.commit.congr rfl rfl rfl rfl
  · exact hpush

theorem consoleintr (hplain : newline ∉ ed.line) (c : UInt8) :
    Shows (s.consoleintr c) (ed.type c) := by
  have hroom : s.e - s.r < 128 ↔ ed.unread.length + ed.line.length < inputBufSize := by
    rw [UInt32.lt_iff_toNat_lt, h.e_sub_r]
    exact Iff.rfl
  have haccepts : c ≠ 0 ∧ s.e - s.r < 128 ↔ ed.accepts c = true := by
    rw [hroom]
    simp [Editor.accepts]
  unfold State.consoleintr Editor.type
  by_cases hp : c = ctrl 'P'
  · rwa [if_pos hp, if_pos hp]
  by_cases hu : c = ctrl 'U'
  · rw [if_neg hp, if_neg hp, if_pos hu, if_pos hu, h.e_sub_w]
    exact h.killLine hplain _ rfl
  by_cases hh : c = ctrl 'H' ∨ c = delete
  · rw [if_neg hp, if_neg hp, if_neg hu, if_neg hu, if_pos hh, if_pos hh]
    by_cases hnil : ed.line = []
    · rw [if_neg (not_not.mpr (h.e_eq_w.mpr hnil)), hnil, List.dropLast_nil, ← hnil]
      exact h
    · rw [if_pos fun hew => hnil (h.e_eq_w.mp hew)]
      exact h.erase hnil
  rw [if_neg hp, if_neg hp, if_neg hu, if_neg hu, if_neg hh, if_neg hh]
  by_cases ha : c ≠ 0 ∧ s.e - s.r < 128
  · rw [if_pos ha, if_pos (haccepts.mp ha)]
    exact h.store (hroom.mp ha.2) c
  · rwa [if_neg ha, if_neg fun ha' => ha (haccepts.mpr ha')]

/-- A byte is read: the oldest one that is committed. -/
theorem take (hne : s.r ≠ s.w) :
    Shows { s with r := s.r + 1 } ed.give ∧ ed.committed.take (ed.given + 1) =
      ed.committed.take ed.given ++ [s.buf (s.r.toNat % inputBufSize)] := by
  have hlt : ed.given < ed.committed.length := by
    have hle := h.given_le
    rcases Nat.lt_or_ge ed.given ed.committed.length with hlt | hge
    · exact hlt
    · exact absurd (h.r_eq_w.mpr (List.drop_eq_nil_of_le hge)) hne
  have hunread : ed.unread = ed.committed[ed.given] :: ed.give.unread :=
    List.drop_eq_getElem_cons hlt
  have hholds := h.holds
  have hfits := h.fits
  rw [hunread] at hholds hfits
  refine ⟨⟨hlt, ?_, h.w, h.e, ?_, hholds.pop⟩, ?_⟩
  · show s.r + 1 = UInt32.ofNat (ed.given + 1)
    rw [h.r, counter_succ]
  · show ed.give.unread.length + ed.line.length ≤ inputBufSize
    rw [List.length_cons] at hfits
    omega
  · rw [h.r, counter_index (by decide), hholds.head, List.take_append_getElem hlt]

end Shows

theorem plain_type (h : newline ∉ ed.line) (c : UInt8) : newline ∉ (ed.type c).line := by
  unfold Editor.type
  split
  · exact h
  split
  · exact List.not_mem_nil
  split
  · exact fun hmem => h (List.dropLast_subset _ hmem)
  split
  · unfold Editor.add
    generalize (if c = carriageReturn then newline else c) = c
    simp only
    split
    · exact List.not_mem_nil
    · rename_i hc
      intro hmem
      rcases List.mem_append.mp hmem with hmem | hmem
      · exact h hmem
      · exact hc (.inl (List.mem_singleton.mp hmem).symm)
  · exact h

theorem take_type (h : ed.given ≤ ed.committed.length) (c : UInt8) :
    (ed.type c).committed.take (ed.type c).given = ed.committed.take ed.given := by
  unfold Editor.type
  split
  · rfl
  split
  · rfl
  split
  · rfl
  split
  · unfold Editor.add
    generalize (if c = carriageReturn then newline else c) = c
    simp only
    split
    · exact List.take_append_of_le_length h
    · rfl
  · rfl

/-! ## Runs -/

/-- After a `^D` was taken, the call returns 0. -/
def EofReturns : List (Event N) → Prop
  | [] => True
  | .took p c :: log => (c = ctrl 'D' → log.head? = some (.returned p 0)) ∧ EofReturns log
  | .typed _ :: log | .returned .. :: log => EofReturns log

theorem EofReturns.append {log' : List (Event N)} (h : EofReturns log) (h' : EofReturns log') :
    EofReturns (log ++ log') := by
  induction log with
  | nil => exact h'
  | cons ev log ih =>
    cases ev with
    | typed | returned => exact ih h
    | took p c =>
      refine ⟨fun hc => ?_, ih h.2⟩
      have hhead := h.1 hc
      cases log with
      | nil => exact nomatch hhead
      | cons ev log => exact hhead

theorem EofReturns.next {l l' : List (Event N)} (h : EofReturns (l ++ .took p (ctrl 'D') :: l')) :
    l'.head? = some (.returned p 0) := by
  induction l with
  | nil => exact h.1 rfl
  | cons ev l ih =>
    cases ev with
    | typed | returned => exact ih h
    | took p c => exact ih h.2

/-- No more bytes are to go than were asked for. -/
def Pc.Ok : Pc → Prop
  | .user => True
  | .acquire n target | .read n target | .readSleep n target | .sleeping n target => n ≤ target

theorem Pc.Ok.wake {pc : Pc} (h : pc.Ok) : (State.wake pc).Ok := by
  cases pc <;> exact h

/-- The ring is that of an editor, and readers have what it gave out. -/
structure Edits (s : State N) : Prop where
  ring : Shows s (edited s.log)
  plain : newline ∉ (edited s.log).line
  delivered : delivered s.log = (edited s.log).committed.take (edited s.log).given
  counts : ∀ p, (s.pc p).Ok

structure Inv (s : State N) : Prop extends Edits s where
  eof : EofReturns s.log

theorem inv_boot (buf : ℕ → UInt8) : Inv (boot buf : State N) :=
  ⟨⟨⟨le_rfl, rfl, rfl, rfl, Nat.zero_le _, ringHolds_nil⟩, List.not_mem_nil, rfl, fun _ => trivial⟩,
    trivial⟩

theorem counts_setPc (h : ∀ q, (s.pc q).Ok) {pc : Pc} (hpc : pc.Ok) (q : Fin N) :
    ((s.setPc p pc).pc q).Ok := by
  show (update s.pc p pc q).Ok
  by_cases hq : q = p
  · subst hq
    rwa [update_self]
  · rw [update_of_ne hq]
    exact h q

theorem rest_consoleintr (s : State N) (c : UInt8) : (s.consoleintr c).log = s.log ∧
    ∀ p, (s.consoleintr c).pc p = s.pc p ∨ (s.consoleintr c).pc p = State.wake (s.pc p) := by
  unfold State.consoleintr State.store
  split
  · exact ⟨rfl, fun _ => .inl rfl⟩
  split
  · exact ⟨rfl, fun _ => .inl rfl⟩
  split
  · split
    · exact ⟨rfl, fun _ => .inl rfl⟩
    · exact ⟨rfl, fun _ => .inl rfl⟩
  split
  · generalize (if c = carriageReturn then newline else c) = c
    simp only
    split
    · exact ⟨rfl, fun _ => .inr rfl⟩
    · exact ⟨rfl, fun _ => .inl rfl⟩
  · exact ⟨rfl, fun _ => .inl rfl⟩

namespace Edits

theorem quiet (h : Edits s) (hbuf : s'.buf = s.buf) (hr : s'.r = s.r) (hw : s'.w = s.w)
    (he : s'.e = s.e) (hlog : s'.log = s.log) (hpc : ∀ q, (s'.pc q).Ok) : Edits s' :=
  ⟨hlog ▸ h.ring.congr hbuf hr hw he, hlog ▸ h.plain, hlog ▸ h.delivered, hpc⟩

theorem ret (h : Edits s) (p : Fin N) (v : ℤ) : Edits (s.ret p v) := by
  have hed : edited (s.ret p v).log = edited s.log := edited_concat ..
  refine ⟨?_, ?_, ?_, counts_setPc h.counts trivial⟩
  · rw [hed]
    exact h.ring.congr rfl rfl rfl rfl
  · rw [hed]
    exact h.plain
  · rw [hed, ← h.delivered]
    exact (delivered_concat ..).trans (List.append_nil _)

theorem took (h : Edits s) (hne : s.r ≠ s.w) (p : Fin N)
    (hc : s.buf (s.r.toNat % inputBufSize) = c) :
    Edits ({ s with r := s.r + 1 }.note (.took p c)) := by
  obtain ⟨hshows, htake⟩ := h.ring.take hne
  rw [hc] at htake
  have hed : edited ({ s with r := s.r + 1 }.note (.took p c)).log = (edited s.log).give :=
    edited_concat ..
  refine ⟨?_, ?_, ?_, h.counts⟩
  · rw [hed]
    exact hshows.congr rfl rfl rfl rfl
  · rw [hed]
    exact h.plain
  · rw [hed]
    refine (delivered_concat ..).trans ?_
    rw [h.delivered]
    exact htake.symm

theorem consoleintr (h : Edits s) (c : UInt8) : Edits ((s.note (.typed c)).consoleintr c) := by
  have hlog : ((s.note (.typed c)).consoleintr c).log = s.log ++ [.typed c] :=
    (rest_consoleintr ..).1
  have hed : edited ((s.note (.typed c)).consoleintr c).log = (edited s.log).type c := by
    rw [hlog, edited_concat]
    rfl
  refine ⟨?_, ?_, ?_, fun p => ?_⟩
  · rw [hed]
    have hsame : Shows (s.note (.typed c)) (edited s.log) := h.ring.congr rfl rfl rfl rfl
    exact hsame.consoleintr h.plain c
  · rw [hed]
    exact plain_type h.plain c
  · rw [hed, take_type h.ring.given_le, ← h.delivered, hlog, delivered_concat]
    exact List.append_nil _
  · rcases (rest_consoleintr (s.note (.typed c)) c).2 p with hp | hp
    · exact hp ▸ h.counts p
    · exact hp ▸ (h.counts p).wake

end Edits

namespace Inv

theorem ret (h : Inv s) (p : Fin N) (v : ℤ) : Inv (s.ret p v) :=
  ⟨h.toEdits.ret p v, h.eof.append trivial⟩

theorem quiet (h : Inv s) (hbuf : s'.buf = s.buf) (hr : s'.r = s.r) (hw : s'.w = s.w)
    (he : s'.e = s.e) (hlog : s'.log = s.log) (hpc : ∀ q, (s'.pc q).Ok) : Inv s' :=
  ⟨h.toEdits.quiet hbuf hr hw he hlog hpc, hlog ▸ h.eof⟩

theorem consoleintr (h : Inv s) (c : UInt8) : Inv ((s.note (.typed c)).consoleintr c) := by
  refine ⟨h.toEdits.consoleintr c, ?_⟩
  rw [(rest_consoleintr ..).1]
  exact h.eof.append trivial

theorem consoleread (h : Inv s) (p : Fin N) (hn : n ≤ target) : Inv (s.consoleread p n target) := by
  unfold State.consoleread
  split
  case isFalse => exact h.ret p _
  split
  · split
    · exact h.ret p _
    · exact h.quiet rfl rfl rfl rfl rfl (counts_setPc h.counts hn)
  case isFalse hne =>
    generalize hc : s.buf (s.r.toNat % inputBufSize) = c
    simp only
    split
    · split
      · -- the index goes forth and back
        have hback : Inv { s with r := s.r + 1 - 1 } :=
          h.quiet rfl (UInt32.add_sub_cancel ..) rfl rfl rfl h.counts
        exact hback.ret p _
      case isFalse hlt =>
        rw [show target - n = 0 by omega]
        refine ⟨(h.toEdits.took hne p hc).ret p 0, ?_⟩
        show EofReturns (s.log ++ [.took p c] ++ [.returned p 0])
        rw [List.append_assoc]
        exact h.eof.append ⟨fun _ => rfl, trivial⟩
    case isFalse hnot =>
      have htook : Inv ({ s with r := s.r + 1 }.note (.took p c)) :=
        ⟨h.toEdits.took hne p hc, h.eof.append ⟨fun hd => absurd hd hnot, trivial⟩⟩
      split
      · exact htook.ret p _
      · refine htook.quiet rfl rfl rfl rfl rfl (counts_setPc htook.counts ?_)
        show n - 1 ≤ target
        omega

theorem next (h : Inv s) (a : Act N) (hs : next s a = some s') : Inv s' := by
  cases a with
  | consoleintr c =>
    obtain ⟨-, hs⟩ := Option.ite_none_right_eq_some.mp hs
    cases hs
    exact h.consoleintr c
  | consoleread p n =>
    obtain ⟨-, hs⟩ := Option.ite_none_right_eq_some.mp hs
    cases hs
    exact h.quiet rfl rfl rfl rfl rfl (counts_setPc h.counts (le_refl n))
  | kill p =>
    cases hs
    exact h.quiet rfl rfl rfl rfl rfl (counts_setPc h.counts (h.counts p).wake)
  | go p =>
    have hok := h.counts p
    simp only [Console.next, State.go] at hs
    split at hs
    · exact nomatch hs
    · exact nomatch hs
    · rename_i n target hpc
      rw [hpc] at hok
      obtain ⟨-, hs⟩ := Option.ite_none_right_eq_some.mp hs
      cases hs
      exact h.quiet rfl rfl rfl rfl rfl (counts_setPc h.counts hok)
    · rename_i n target hpc
      rw [hpc] at hok
      cases hs
      exact h.consoleread p hok
    · rename_i n target hpc
      rw [hpc] at hok
      cases hs
      exact h.quiet rfl rfl rfl rfl rfl (counts_setPc h.counts hok)

theorem of_reach {buf : ℕ → UInt8} (h : Reach Console.next (boot buf) s) : Inv s :=
  h.invariant (fun _ a _ hi hs => hi.next a hs) (inv_boot buf)

end Inv

/-- **The line discipline.** In every state that is reached, the indices bound the ring; what was
committed is what readers took, in this order, followed by what is in the ring up to `w`; and
whoever takes a `^D` returns 0. -/
theorem console_delivers {buf : ℕ → UInt8} (h : Reach next (boot buf) s) :
    s.w - s.r ≤ s.e - s.r ∧ s.e - s.r ≤ 128 ∧
    (edited s.log).committed = delivered s.log ++ s.between s.r s.w ∧
    (edited s.log).line = s.between s.w s.e ∧
    ∀ l l' p, s.log = l ++ .took p (ctrl 'D') :: l' → l'.head? = some (.returned p 0) := by
  have hi := Inv.of_reach h
  have hfits := hi.ring.fits
  refine ⟨?_, ?_, ?_, ?_, fun l l' p hlog => ?_⟩
  · rw [UInt32.le_iff_toNat_le, hi.ring.w_sub_r, hi.ring.e_sub_r]
    omega
  · rw [UInt32.le_iff_toNat_le, hi.ring.e_sub_r]
    exact hfits
  · rw [hi.delivered, hi.ring.between_r_w]
    exact (List.take_append_drop ..).symm
  · exact hi.ring.between_w_e.symm
  · have heof := hi.eof
    rw [hlog] at heof
    exact heof.next

/-- One process reads what was typed: `ab`, a backspace, `c`, a return, and `^D`. -/
def typing : List (Act 1) :=
  [.consoleread 0 10, .go 0, .go 0, .go 0] ++ [97, 98, 8, 99, 13, 4].map .consoleintr ++
    [.go 0, .go 0, .go 0, .go 0, .consoleread 0 10, .go 0, .go 0]

theorem console_delivers_typing : ∃ s : State 1, runActs next (boot fun _ => 0) typing = some s ∧
    delivered s.log = [97, 99, 10, 4] ∧ s.log.getLast? = some (.returned 0 0) ∧
    (edited s.log).committed = delivered s.log ++ s.between s.r s.w := by
  obtain ⟨s, hs, hdel, hlast⟩ : ∃ s ∈ runActs next (boot fun _ => 0) typing,
      delivered s.log = [97, 99, 10, 4] ∧ s.log.getLast? = some (.returned 0 0) := by decide +kernel
  exact ⟨s, hs, hdel, hlast, (console_delivers (reach_of_runActs hs)).2.2.1⟩

end LazyXv6.Console
