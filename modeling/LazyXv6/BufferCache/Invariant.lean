import LazyXv6.BufferCache.Model

/-!
# What holds of the buffers

All buffers are in one ring (`Linked`), a buffer is referenced as often as its count says
(`Inv.count`), no block of the root device has two buffers, and the data of a block is what was left
in its buffer or what is on the disk (`Content`).
-/

namespace LazyXv6.BufferCache

open Lib Function

variable {n : ℕ} {Proc Data : Type}

/-! ## The ring of buffers -/

/-- The links from the head go through all buffers, in both directions. -/
def Linked (k : Links (Node n)) : Prop := ∃ l : List (Fin n), k.Ring none (l.map some) ∧ ∀ b, b ∈ l

section

variable {k : Links (Node n)} {l : List (Fin n)} {found : Fin n → Bool} {b : Fin n}

theorem search_eq_find {x : Node n} {fuel : ℕ} (h : (x :: (l.map some ++ [none])).IsChain k.Joined)
    (hf : l.length < fuel) : search k.next found fuel (k.next x) = l.find? found := by
  induction l generalizing x fuel with
  | nil =>
    obtain ⟨hx, -⟩ := (List.isChain_cons_cons.mp h).1
    obtain ⟨fuel, rfl⟩ := Nat.exists_eq_add_of_lt hf
    rw [hx]
    simp [search]
  | cons b l ih =>
    obtain ⟨⟨hx, -⟩, hrest⟩ := List.isChain_cons_cons.mp h
    obtain ⟨fuel, rfl⟩ : ∃ f, fuel = f + 1 := ⟨fuel - 1, by omega⟩
    have hlen : l.length < fuel := by
      rw [List.length_cons] at hf
      omega
    rw [hx, search, List.find?_cons]
    cases hb : found b with
    | true => simp
    | false =>
      simp only [Bool.false_eq_true, if_false]
      exact ih hrest hlen

theorem Linked.length (h : k.Ring none (l.map some)) : l.length < n + 1 := by
  have hnodup : l.Nodup := (List.nodup_cons.mp h.nodup).2.of_map some
  have hcard := hnodup.length_le_card
  rw [Fintype.card_fin] at hcard
  omega

theorem search_next (h : Linked k) :
    ∃ l : List (Fin n), (∀ b, b ∈ l) ∧
    search k.next found (n + 1) (k.next none) = l.find? found := by
  obtain ⟨l, hring, hall⟩ := h
  exact ⟨l, hall, search_eq_find hring.chain (Linked.length hring)⟩

theorem search_prev (h : Linked k) :
    ∃ l : List (Fin n), (∀ b, b ∈ l) ∧
    search k.prev found (n + 1) (k.prev none) = l.find? found := by
  obtain ⟨l, hring, hall⟩ := h
  have hswap := hring.swap
  rw [← List.map_reverse] at hswap
  refine ⟨l.reverse, fun b => List.mem_reverse.mpr (hall b), ?_⟩
  exact search_eq_find (k := k.swap) hswap.chain (Linked.length hswap)

theorem Linked.toFront (h : Linked k) (b : Fin n) :
    Linked ((k.remove (some b)).insertFront none (some b)) := by
  obtain ⟨l, hring, hall⟩ := h
  obtain ⟨l₁, l₂, rfl⟩ := List.append_of_mem (hall b)
  rw [List.map_append, List.map_cons] at hring
  have hnodup := (List.nodup_cons.mp hring.nodup).2
  have hrest := hring.remove
  have hb : some b ∉ none :: (l₁.map some ++ l₂.map some) := by
    obtain ⟨-, hb₂, hdis⟩ := List.nodup_append.mp hnodup
    intro hmem
    rcases List.mem_append.mp ((List.mem_cons.mp hmem).resolve_left nofun) with hm | hm
    · exact hdis _ hm _ List.mem_cons_self rfl
    · exact (List.nodup_cons.mp hb₂).1 hm
  refine ⟨b :: (l₁ ++ l₂), ?_, fun c => ?_⟩
  · rw [List.map_cons, List.map_append]
    exact hrest.insertFront hb
  · have hc := hall c
    simp only [List.mem_append, List.mem_cons] at hc ⊢
    tauto

theorem linked_binit : Linked (binit : Links (Node n)) := by
  have hfold : ∀ (bs acc : List (Fin n)) (k : Links (Node n)), k.Ring none (acc.map some) →
    (bs ++ acc).Nodup →
      (bs.foldl (fun k b => k.insertFront none (some b)) k).Ring none
      ((bs.reverse ++ acc).map some) := by
    intro bs
    induction bs with
    | nil => exact fun acc k h _ => h
    | cons b bs ih =>
      intro acc k h hnd
      obtain ⟨hb, hnd'⟩ := List.nodup_cons.mp hnd
      rw [List.foldl_cons, List.reverse_cons, List.append_assoc]
      apply ih (b :: acc)
      · apply h.insertFront
        intro hmem
        have hacc : some b ∈ acc.map some := (List.mem_cons.mp hmem).resolve_left nofun
        exact hb (by simpa using Or.inr hacc)
      · exact List.nodup_middle.mpr hnd
  refine ⟨(List.finRange n).reverse, ?_, fun b => by simp⟩
  have hring := hfold (List.finRange n) [] ⟨fun _ => none, fun _ => none⟩ (Links.ring_nil rfl rfl)
    (by simpa using List.nodup_finRange n)
  rwa [List.append_nil] at hring

end

/-! ## References and contents -/

/-- The call has a reference to `b`, apart from a lock. -/
def Pc.refs (b : Fin n) : Pc n → Bool
  | idle | reading .. => false
  | locking c _ _ | releasing c => decide (c = b)

def Pc.block : Pc n → Option (Fin n × ℕ × ℕ)
  | idle | releasing _ => none
  | locking b dev blockno | reading b dev blockno => some (b, dev, blockno)

structure Content (s : State n Proc Data) (b : Fin n) : Prop where
  invalid : s.valid b = false → s.dirty b = false ∧ s.left (s.blockno b) = none ∧
    ∀ p, s.lock b = some p → ∃ dev blockno, s.pc p = .reading b dev blockno
  clean : s.valid b = true → s.dirty b = false → s.data b = s.disk (s.blockno b)
  data : s.valid b = true → s.data b = (s.left (s.blockno b)).getD (s.disk (s.blockno b))
  pinned : s.dirty b = true → 0 < s.pins b ∨ s.lock b ≠ none
  unref : s.refcnt b = 0 → s.left (s.blockno b) = none

variable [Fintype Proc]

/-- The references to each buffer: pins, a lock, and calls before they have it or after they had
it. -/
def Counted (refcnt pins : Fin n → ℕ) (lock : Fin n → Option Proc) (pc : Proc → Pc n) : Prop :=
  ∀ b, (refcnt b : ℤ) = pins b + unit (lock b).isSome + tally (fun _ c => c.refs b) pc

structure Inv (s : State n Proc Data) : Prop where
  linked : Linked s.links
  count : Counted s.refcnt s.pins s.lock s.pc
  reading : ∀ p b dev blockno, s.pc p = .reading b dev blockno → s.lock b = some p
  block : ∀ p b dev blockno, (s.pc p).block = some (b, dev, blockno) → s.dev b = dev ∧
    s.blockno b = blockno
  dev : ∀ b, s.dev b ≠ ROOTDEV → s.refcnt b = 0 ∧ s.dirty b = false
  unique : ∀ b c, s.dev b = ROOTDEV → s.dev c = ROOTDEV → s.blockno b = s.blockno c → b = c
  content : ∀ b, s.dev b = ROOTDEV → Content s b
  uncached : ∀ k, (∀ b, s.dev b = ROOTDEV → s.blockno b ≠ k) → s.left k = none

variable {s s' : State n Proc Data} {b c : Fin n} {p q : Proc}

theorem Counted.move [DecidableEq Proc] {refcnt pins refcnt' pins' : Fin n → ℕ}
    {lock lock' : Fin n → Option Proc} {pc : Proc → Pc n} {x y : Pc n}
    (h : Counted refcnt pins lock pc) (hx : pc p = x) (hrefs : ∀ c, c ≠ b → x.refs c = false ∧
      y.refs c = false) (hr : ∀ c, c ≠ b → refcnt' c = refcnt c)
    (hm : ∀ c, c ≠ b → pins' c = pins c) (hl : ∀ c, c ≠ b → lock' c = lock c)
    (heq : (refcnt' b : ℤ) - refcnt b = (pins' b - pins b) +
      (unit (lock' b).isSome - unit (lock b).isSome) + (unit (y.refs b) - unit (x.refs b))) :
    Counted refcnt' pins' lock' (update pc p y) := by
  intro c
  have hcount := h c
  rw [tally_update, hx]
  rcases eq_or_ne c b with rfl | hne
  · omega
  · obtain ⟨hxc, hyc⟩ := hrefs c hne
    rw [hr c hne, hm c hne, hl c hne, hxc, hyc]
    omega

theorem Counted.stay {refcnt pins refcnt' pins' : Fin n → ℕ} {lock : Fin n → Option Proc}
    {pc : Proc → Pc n} (h : Counted refcnt pins lock pc) (hr : ∀ c, c ≠ b → refcnt' c = refcnt c)
    (hm : ∀ c, c ≠ b → pins' c = pins c) (heq : (refcnt' b : ℤ) - refcnt b = pins' b - pins b) :
    Counted refcnt' pins' lock pc := by
  intro c
  have hcount := h c
  rcases eq_or_ne c b with rfl | hne
  · omega
  · rw [hr c hne, hm c hne]
    exact hcount

theorem Inv.unreferenced (h : Inv s) (hb : s.refcnt b = 0) :
    s.pins b = 0 ∧ s.lock b = none ∧ ∀ p, (s.pc p).refs b = false := by
  have hcount := h.count b
  have htally := tally_nonneg (fun _ c => Pc.refs b c) s.pc
  have hunit := unit_nonneg (s.lock b).isSome
  have hlock : (s.lock b).isSome = false := by
    cases hl : (s.lock b).isSome with
    | false => rfl
    | true =>
      rw [hl, unit_true] at hcount
      omega
  refine ⟨by omega, by simpa using hlock, fun p => ?_⟩
  cases hp : (s.pc p).refs b with
  | false => rfl
  | true =>
    have hone := one_le_tally (P := fun _ c => Pc.refs b c) (t := s.pc) (i := p) hp
    omega

theorem Inv.refcnt_pos_of_lock (h : Inv s) (hb : s.lock b = some p) : 0 < s.refcnt b := by
  rcases Nat.eq_zero_or_pos (s.refcnt b) with h0 | hpos
  · exact absurd (hb.symm.trans (h.unreferenced h0).2.1) nofun
  · exact hpos

theorem Inv.refcnt_pos_of_refs (h : Inv s) (hb : (s.pc p).refs b = true) : 0 < s.refcnt b := by
  rcases Nat.eq_zero_or_pos (s.refcnt b) with h0 | hpos
  · exact absurd (hb.symm.trans ((h.unreferenced h0).2.2 p)) nofun
  · exact hpos

theorem Inv.dev_eq (h : Inv s) (hb : 0 < s.refcnt b) : s.dev b = ROOTDEV := by
  by_contra hdev
  have := (h.dev b hdev).1
  omega

theorem Inv.not_dirty (h : Inv s) (hb : s.refcnt b = 0) : s.dirty b = false := by
  obtain ⟨hpins, hlock, -⟩ := h.unreferenced hb
  by_cases hdev : s.dev b = ROOTDEV
  · cases hd : s.dirty b with
    | false => rfl
    | true =>
      rcases (h.content b hdev).pinned hd with hp | hl
      · omega
      · exact absurd hlock hl
  · exact (h.dev b hdev).2

theorem Inv.valid (h : Inv s) (hb : s.lock b = some p) (hp : s.pc p = .idle) :
    s.valid b = true := by
  cases hv : s.valid b with
  | true => rfl
  | false =>
    obtain ⟨_, _, hread⟩ := ((h.content b (h.dev_eq (h.refcnt_pos_of_lock hb))).invalid hv).2.2 p hb
    exact absurd (hp.symm.trans hread) nofun

omit [Fintype Proc] in
theorem Content.congr (h : Content s b) (hblock : s'.blockno b = s.blockno b)
    (hvalid : s'.valid b = s.valid b) (hdirty : s'.dirty b = s.dirty b)
    (hdata : s'.data b = s.data b) (hdisk : s'.disk (s.blockno b) = s.disk (s.blockno b))
    (hleft : s'.left (s.blockno b) = s.left (s.blockno b)) (hpins : 0 < s.pins b → 0 < s'.pins b)
    (hlock : s'.lock b = s.lock b) (href : s'.refcnt b = 0 → s.refcnt b = 0)
    (hpc : ∀ p dev blockno, s.lock b = some p → s.valid b = false →
      s.pc p = .reading b dev blockno → s'.pc p = .reading b dev blockno) : Content s' b where
  invalid hv := by
    rw [hvalid] at hv
    obtain ⟨hd, hl, hp⟩ := h.invalid hv
    rw [hdirty, hblock, hleft, hlock]
    refine ⟨hd, hl, fun p hb => ?_⟩
    obtain ⟨dev, blockno, hread⟩ := hp p hb
    exact ⟨dev, blockno, hpc p dev blockno hb hv hread⟩
  clean hv hd := by
    rw [hvalid] at hv
    rw [hdirty] at hd
    rw [hdata, hblock, hdisk]
    exact h.clean hv hd
  data hv := by
    rw [hvalid] at hv
    rw [hdata, hblock, hdisk, hleft]
    exact h.data hv
  pinned hd := by
    rw [hdirty] at hd
    rw [hlock]
    exact (h.pinned hd).imp_left hpins
  unref hr := by
    rw [hblock, hleft]
    exact h.unref (href hr)

end LazyXv6.BufferCache
