import LazyXv6.Pipe.Model

/-!
# A pipe is a queue

Whatever the processes do in between, a step puts a byte at the end of the queue, takes one from its
front or leaves the queue alone (`next_queue`). The counters `nread` and `nwrite` are the numbers of
bytes given out and accepted, modulo `2^32`.
-/

namespace LazyXv6.Pipe

open Lib Lib.SmallFin Function

structure Queue where
  data : ℕ → UInt8
  nread : UInt32
  nwrite : UInt32
  accepted : List UInt8
  taken : List UInt8
  delivered : List UInt8
  lost : Bool

namespace Queue

def put (q : Queue) (ch : UInt8) : Queue :=
  { q with
    data := update q.data (q.nwrite.toNat % pipeSize) ch
    nwrite := q.nwrite + 1
    accepted := q.accepted ++ [ch] }

def take (q : Queue) (copyout : Bool) : Queue :=
  let ch := q.data (q.nread.toNat % pipeSize)
  { q with
    nread := q.nread + 1
    taken := q.taken ++ [ch]
    delivered := if copyout then q.delivered ++ [ch] else q.delivered
    lost := q.lost || !copyout }

/-- What is in the ring, from `nread` to `nwrite`. -/
def ring (q : Queue) : List UInt8 :=
  (List.range (q.nwrite - q.nread).toNat).map fun j =>
    q.data ((q.nread + UInt32.ofNat j).toNat % pipeSize)

/-- The ring holds what was accepted and not given out yet. -/
structure Ok (q : Queue) (rest : List UInt8) : Prop where
  nread : q.nread = UInt32.ofNat q.taken.length
  nwrite : q.nwrite = UInt32.ofNat q.accepted.length
  accepted : q.accepted = q.taken ++ rest
  length : rest.length ≤ pipeSize
  holds : RingHolds pipeSize q.data q.taken.length rest
  delivered : q.lost = false → q.delivered = q.taken

end Queue

/-! ## Counters -/

section

variable {a b : ℕ}

theorem full_iff (h : b ≤ a) (hlt : a ≤ b + pipeSize) :
    UInt32.ofNat a = UInt32.ofNat b + 512 ↔ a = b + pipeSize := by
  unfold pipeSize at hlt ⊢
  rw [← UInt32.toNat_inj, UInt32.toNat_add, UInt32.toNat_ofNat', UInt32.toNat_ofNat']
  show a % 2 ^ 32 = (b % 2 ^ 32 + 512) % 2 ^ 32 ↔ _
  omega

end

namespace Queue

variable {q : Queue} {rest : List UInt8}

theorem Ok.length_accepted (h : q.Ok rest) : q.accepted.length = q.taken.length + rest.length := by
  rw [h.accepted, List.length_append]

theorem Ok.put (h : q.Ok rest) (hroom : q.nwrite ≠ q.nread + 512) (ch : UInt8) :
    (q.put ch).Ok (rest ++ [ch]) := by
  have hlen := h.length_accepted
  have hle := h.length
  have hlt : rest.length < pipeSize := by
    rw [h.nread, h.nwrite, ne_eq, full_iff (by omega) (by omega)] at hroom
    omega
  refine ⟨h.nread, ?_, ?_, ?_, ?_, h.delivered⟩
  · show q.nwrite + 1 = UInt32.ofNat (q.accepted ++ [ch]).length
    rw [h.nwrite, counter_succ, List.length_append, List.length_singleton]
  · show q.accepted ++ [ch] = q.taken ++ (rest ++ [ch])
    rw [h.accepted, List.append_assoc]
  · rw [List.length_append, List.length_singleton]
    omega
  · show RingHolds pipeSize (update q.data (q.nwrite.toNat % pipeSize) ch) _ _
    rw [h.nwrite, counter_index (by decide), hlen]
    exact h.holds.push hlt ch

theorem Ok.counters (h : q.Ok rest) : q.accepted.length < q.taken.length + 2 ^ 32 := by
  have hlen := h.length_accepted
  have hle : rest.length ≤ 512 := h.length
  omega

theorem Ok.take (h : q.Ok rest) (hne : q.nread ≠ q.nwrite) (copyout : Bool) :
    ∃ rest', (q.take copyout).Ok rest' := by
  have hlen := h.length_accepted
  have hle := h.length
  cases rest with
  | nil =>
    refine absurd ?_ hne
    rw [h.nread, h.nwrite, counter_inj (by omega) h.counters]
    simpa using hlen.symm
  | cons ch rest =>
    rw [List.length_cons] at hle
    have hch : q.data (q.nread.toNat % pipeSize) = ch := by
      rw [h.nread, counter_index (by decide)]
      exact h.holds.head
    refine ⟨rest, ?_, h.nwrite, ?_, by omega, ?_, ?_⟩
    · show q.nread + 1 = UInt32.ofNat (q.taken ++ [_]).length
      rw [h.nread, counter_succ, List.length_append, List.length_singleton]
    · show q.accepted = q.taken ++ [_] ++ rest
      rw [hch, h.accepted, List.append_assoc]
      rfl
    · show RingHolds pipeSize q.data (q.taken ++ [_]).length rest
      rw [List.length_append, List.length_singleton]
      exact h.holds.pop
    · intro hlost
      obtain ⟨hold, hok⟩ := Bool.or_eq_false_iff.mp hlost
      have hok : copyout = true := by simpa using hok
      show (if copyout then q.delivered ++ [_] else _) = q.taken ++ [_]
      rw [if_pos hok, h.delivered hold]

theorem Ok.ring_eq (h : q.Ok rest) : q.ring = rest := by
  have hlen := h.length_accepted
  have hle := h.length
  unfold ring
  rw [h.nwrite, h.nread, counter_sub (by omega) h.counters,
    show q.accepted.length - q.taken.length = rest.length by omega]
  refine Eq.trans (List.map_congr_left fun j _ => ?_) h.holds.read
  rw [← UInt32.ofNat_add, counter_index (by decide)]

theorem Ok.pending_le (h : q.Ok rest) : (q.nwrite - q.nread).toNat ≤ pipeSize := by
  have hlen := h.length_accepted
  have hle := h.length
  rw [h.nwrite, h.nread, counter_sub (by omega) h.counters]
  omega

end Queue

/-! ## Steps -/

variable {N : ℕ} {s s' : State N} {p : Fin N}

def State.queue (s : State N) : Queue :=
  ⟨s.data, s.nread, s.nwrite, s.accepted, s.taken, s.delivered, s.lost⟩

inductive Moves : Queue → Queue → Prop where
  | same (q : Queue) : Moves q q
  | put (q : Queue) (ch : UInt8) (h : q.nwrite ≠ q.nread + 512) : Moves q (q.put ch)
  | take (q : Queue) (copyout : Bool) (h : q.nread ≠ q.nwrite) : Moves q (q.take copyout)

theorem pipewrite_moves (s : State N) (p : Fin N) (n : ℤ) (i : ℕ) (io : Io) :
    Moves s.queue (s.pipewrite p n i io).queue := by
  unfold State.pipewrite
  split
  case isFalse => exact .same _
  split
  · exact .same _
  split
  · exact .same _
  case isFalse hroom =>
    split
    · exact .same _
    case h_2 ch _ => exact .put s.queue ch hroom

theorem piperead_moves (s : State N) (p : Fin N) (n : ℤ) :
    Moves s.queue (s.piperead p n).queue := by
  unfold State.piperead
  split
  · split
    · exact .same _
    · exact .same _
  · exact .same _

theorem pipereadCopy_moves (s : State N) (p : Fin N) (n : ℤ) (i : ℕ) (io : Io) :
    Moves s.queue (s.pipereadCopy p n i io).queue := by
  have htake : ∀ ok, s.nread ≠ s.nwrite → Moves s.queue (s.queue.take ok) :=
    fun ok h => .take s.queue ok h
  unfold State.pipereadCopy
  split
  case isFalse => exact .same _
  split
  case isTrue => exact .same _
  case isFalse hne =>
    dsimp only
    split
    · have h := htake true hne
      unfold Queue.take at h
      rw [Bool.not_true, Bool.or_false] at h
      exact h
    · have h := htake false hne
      unfold Queue.take at h
      rw [Bool.not_false, Bool.or_true] at h
      exact h

theorem visit_queue {q : Fin N} {chan : Chan} (h : s.visit p q chan = some s') :
    s'.queue = s.queue := by
  unfold State.visit at h
  split at h
  · cases h
    rfl
  split at h
  · exact nomatch h
  · cases h
    split
    · rfl
    · rfl
  · cases h
    rfl

theorem go_moves {io : Io} (h : s.go p io = some s') : Moves s.queue s'.queue := by
  unfold State.go at h
  split at h
  case h_1 | h_2 => exact nomatch h
  case h_3 call _ =>
    obtain ⟨-, he⟩ := Option.ite_none_right_eq_some.mp h
    cases he
    exact .same _
  case h_4 n i _ _ =>
    cases h
    exact pipewrite_moves s p n i io
  case h_5 n _ =>
    cases h
    exact piperead_moves s p n
  case h_6 n i _ =>
    cases h
    exact pipereadCopy_moves s p n i io
  case h_7 | h_11 | h_12 =>
    cases h
    exact .same _
  case h_8 writable _ =>
    cases h
    unfold State.pipeclose
    split
    · exact .same _
    · exact .same _
  case h_9 k _ =>
    cases h
    cases k with
    | sleep | written | done => exact .same _
  case h_10 chan q qs k _ =>
    obtain ⟨s₁, h₁, he⟩ := Option.map_eq_some_iff.mp h
    cases he
    show Moves s.queue s₁.queue
    rw [visit_queue h₁]
    exact .same _

/-- **Every step of any process is a move of the queue.** -/
theorem next_moves {a : Act N} (h : next s a = some s') : Moves s.queue s'.queue := by
  cases a with
  | go p io => exact go_moves h
  | pipewrite | piperead =>
    obtain ⟨-, he⟩ := Option.ite_none_right_eq_some.mp h
    cases he
    exact .same _
  | pipeclose p writable =>
    obtain ⟨-, he⟩ := Option.ite_none_right_eq_some.mp h
    obtain ⟨s₁, h₁, he⟩ := Option.map_eq_some_iff.mp he
    cases he
    have hsame : s₁.queue = s.queue := by
      unfold State.closeEnd at h₁
      split at h₁
      · exact nomatch h₁
      split at h₁
      · obtain ⟨-, he⟩ := Option.ite_none_right_eq_some.mp h₁
        cases he
        rfl
      · obtain ⟨-, he⟩ := Option.ite_none_right_eq_some.mp h₁
        cases he
        rfl
    show Moves s.queue s₁.queue
    rw [hsame]
    exact .same _
  | kill q =>
    unfold next State.kill at h
    dsimp only at h
    split at h
    · exact nomatch h
    · cases h
      exact .same _
    · cases h
      exact .same _

theorem Moves.ok {q q' : Queue} (h : Moves q q') (hq : ∃ rest, q.Ok rest) : ∃ rest, q'.Ok rest := by
  obtain ⟨rest, hrest⟩ := hq
  cases h with
  | same => exact ⟨rest, hrest⟩
  | put ch hroom => exact ⟨rest ++ [ch], hrest.put hroom ch⟩
  | take ok hne => exact hrest.take hne ok

theorem ok_pipealloc (data : ℕ → UInt8) : (pipealloc data : State N).queue.Ok [] :=
  ⟨rfl, rfl, rfl, Nat.zero_le _, ringHolds_nil, fun _ => rfl⟩

/-- **A pipe is a first-in first-out queue** of at most `PIPESIZE` bytes, under every interleaving
and however often the counters wrap. -/
theorem pipe_fifo (data : ℕ → UInt8) (h : Reach next (pipealloc data) s) :
    (s.nwrite - s.nread).toNat ≤ pipeSize ∧ s.taken ++ s.queue.ring = s.accepted ∧
      (s.lost = false → s.delivered ++ s.queue.ring = s.accepted) := by
  obtain ⟨rest, hok⟩ := h.invariant (I := fun s => ∃ rest, s.queue.Ok rest)
    (fun _ _ _ hi hs => (next_moves hs).ok hi) ⟨[], ok_pipealloc data⟩
  have hacc : s.taken ++ s.queue.ring = s.accepted := by
    rw [hok.ring_eq]
    exact hok.accepted.symm
  refine ⟨hok.pending_le, hacc, fun hlost => ?_⟩
  rw [← hacc]
  exact congrArg (· ++ s.queue.ring) (hok.delivered hlost)

/-- A process writes three bytes and another reads one of them. -/
def threeBytes : List (Act 2) :=
  [.pipewrite 0 3, .go 0 ⟨none, true⟩, .go 0 ⟨some 7, true⟩, .go 0 ⟨some 8, true⟩,
    .go 0 ⟨some 9, true⟩, .go 0 ⟨none, true⟩, .go 0 ⟨none, true⟩, .go 0 ⟨none, true⟩,
    .go 0 ⟨none, true⟩, .piperead 1 1, .go 1 ⟨none, true⟩, .go 1 ⟨none, true⟩, .go 1 ⟨none, true⟩]

theorem pipe_fifo_threeBytes :
    ∃ s : State 2, s.delivered = [7] ∧ s.lost = false ∧ s.accepted = [7, 8, 9] ∧
      s.delivered ++ s.queue.ring = s.accepted := by
  obtain ⟨s, hs, hdel, hlost, hacc⟩ : ∃ s ∈ runActs next (pipealloc fun _ => 0) threeBytes,
      s.delivered = [7] ∧ s.lost = false ∧ s.accepted = [7, 8, 9] := by decide +kernel
  exact ⟨s, hdel, hlost, hacc, (pipe_fifo _ (reach_of_runActs hs)).2.2 hlost⟩

end LazyXv6.Pipe
