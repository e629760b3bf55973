import LazyXv6.BufferCache.Invariant

/-!
# The cache is coherent

Every step that keeps to the rules keeps `Inv`; what `bread` returns follows from it.
-/

namespace LazyXv6.BufferCache

open Lib Function

variable {n : ℕ} {Proc Data : Type} [Fintype Proc] [DecidableEq Proc]
variable {s s' : State n Proc Data} {b c : Fin n} {p q : Proc} {dev blockno : ℕ}

/-! ## `bget` -/

omit [Fintype Proc] [DecidableEq Proc] in
theorem cached_some (h : Linked s.links) (hc : s.cached dev blockno = some b) :
    s.dev b = dev ∧ s.blockno b = blockno := by
  obtain ⟨l, -, hl⟩ := search_next h
  have hfound := List.find?_some (hl.symm.trans hc)
  simpa using hfound

omit [Fintype Proc] [DecidableEq Proc] in
theorem cached_none (h : Linked s.links) (hc : s.cached dev blockno = none) (b : Fin n)
    (hd : s.dev b = dev) : s.blockno b ≠ blockno := by
  obtain ⟨l, hall, hl⟩ := search_next h
  have hnot := List.find?_eq_none.mp (hl.symm.trans hc) b (hall b)
  simpa [hd] using hnot

omit [Fintype Proc] [DecidableEq Proc] in
theorem unused_some (h : Linked s.links) (hu : s.unused = some b) : s.refcnt b = 0 := by
  obtain ⟨l, -, hl⟩ := search_prev h
  have hfound := List.find?_some (hl.symm.trans hu)
  simpa using hfound

omit [Fintype Proc] in
theorem reading_of_update {y : Pc n} (hy : ∀ b dev blockno, y ≠ .reading b dev blockno)
    (hq : update s.pc p y q = .reading b dev blockno) : q ≠ p ∧
    s.pc q = .reading b dev blockno := by
  have hqp : q ≠ p := by
    rintro rfl
    rw [update_self] at hq
    exact hy _ _ _ hq
  rw [update_of_ne hqp] at hq
  exact ⟨hqp, hq⟩

omit [Fintype Proc] in
theorem reading_update {y : Pc n} (hp : ∀ d k, s.pc p ≠ .reading c d k)
    (hq : s.pc q = .reading c dev blockno) : update s.pc p y q = .reading c dev blockno := by
  rwa [update_of_ne]
  rintro rfl
  exact hp _ _ hq

omit [Fintype Proc] in
theorem block_of_update {y : Pc n} {x : Fin n × ℕ × ℕ} (hy : y.block = none)
    (hq : (update s.pc p y q).block = some x) : (s.pc q).block = some x := by
  rcases eq_or_ne q p with rfl | hqp
  · rw [update_self, hy] at hq
    exact nomatch hq
  · rwa [update_of_ne hqp] at hq

omit [DecidableEq Proc] in
/-- The references to a buffer of the root device do not matter for the other devices. -/
theorem Inv.dev_update (h : Inv s) (hb : s.dev b = ROOTDEV) (m : ℕ) (c : Fin n)
    (hc : s.dev c ≠ ROOTDEV) : update s.refcnt b m c = 0 ∧ s.dirty c = false := by
  rw [update_of_ne]
  · exact h.dev c hc
  rintro rfl
  exact hc hb

theorem Inv.hit (h : Inv s) (hp : s.pc p = .idle) (hdev : s.dev b = dev)
    (hblock : s.blockno b = blockno) (hroot : dev = ROOTDEV) :
    Inv ({ s with refcnt := update s.refcnt b (s.refcnt b + 1) }.setPc p
      (.locking b dev blockno)) where
  linked := h.linked
  count := by
    refine h.count.move (b := b) hp (fun c hc => ⟨rfl, decide_eq_false hc.symm⟩)
      (fun c hc => update_of_ne hc ..) (fun _ _ => rfl) (fun _ _ => rfl) ?_
    simp [State.setPc, Pc.refs]
  reading q c d k hq := h.reading q c d k
    (reading_of_update (y := .locking b dev blockno) nofun hq).2
  block q c d k hq := by
    have hq : (update s.pc p (.locking b dev blockno) q).block = some (c, d, k) := hq
    rcases eq_or_ne q p with rfl | hqp
    · rw [update_self] at hq
      cases hq
      exact ⟨hdev, hblock⟩
    · rw [update_of_ne hqp] at hq
      exact h.block q c d k hq
  dev := h.dev_update (hdev.trans hroot) _
  unique := h.unique
  content c hc := by
    refine (h.content c hc).congr rfl rfl rfl rfl rfl rfl id rfl (fun hr => ?_) fun q d k _ _ hq => ?_
    · have hr : update s.refcnt b (s.refcnt b + 1) c = 0 := hr
      rcases eq_or_ne c b with rfl | hne
      · rw [update_self] at hr
        omega
      · rwa [update_of_ne hne] at hr
    · exact reading_update (by simp [hp]) hq
  uncached := h.uncached

/-- The buffer of no reference gets a new block. -/
theorem Inv.recycle (h : Inv s) (hp : s.pc p = .idle) (hb : s.refcnt b = 0) (hroot : dev = ROOTDEV)
    (hnew : ∀ c, s.dev c = dev → s.blockno c ≠ blockno) :
    Inv ({ s with
      dev := update s.dev b dev
      blockno := update s.blockno b blockno
      valid := update s.valid b false
      refcnt := update s.refcnt b 1 }.setPc p (.locking b dev blockno)) := by
  obtain ⟨hpins, hlock, hrefs⟩ := h.unreferenced hb
  have hdirty := h.not_dirty hb
  subst hroot
  -- Nothing is left of the old block, and nothing was left of the new one.
  have hleft : s.left blockno = none := h.uncached blockno hnew
  have hold : s.dev b = ROOTDEV → s.left (s.blockno b) = none := fun hd => (h.content b hd).unref hb
  refine ⟨h.linked, ?_, fun q c d k hq => ?_, fun q c d k hq => ?_, fun c hc => ?_,
    fun c d hc hd hcd => ?_, fun c hc => ?_, fun k hk => ?_⟩
  · refine h.count.move (b := b) hp (fun c hc => ⟨rfl, decide_eq_false hc.symm⟩)
      (fun c hc => update_of_ne hc ..) (fun _ _ => rfl) (fun _ _ => rfl) ?_
    simp [State.setPc, Pc.refs, hb]
  · exact h.reading q c d k (reading_of_update (y := .locking b ROOTDEV blockno) nofun hq).2
  · replace hq : (update s.pc p (.locking b ROOTDEV blockno) q).block = some (c, d, k) := hq
    show update s.dev b ROOTDEV c = d ∧ update s.blockno b blockno c = k
    rcases eq_or_ne q p with rfl | hqp
    · rw [update_self] at hq
      cases hq
      exact ⟨update_self .., update_self ..⟩
    · rw [update_of_ne hqp] at hq
      -- Another call has a reference to its buffer, so it is not this one.
      have hne : c ≠ b := by
        rintro rfl
        cases hx : s.pc q with
        | idle | releasing =>
          rw [hx] at hq
          exact nomatch hq
        | locking =>
          have hr := hrefs q
          rw [hx] at hq hr
          cases hq
          simp [Pc.refs] at hr
        | reading =>
          have hl := h.reading q _ _ _ hx
          rw [hx] at hq
          cases hq
          exact absurd (hlock.symm.trans hl) nofun
      rw [update_of_ne hne, update_of_ne hne]
      exact h.block q c d k hq
  · replace hc : update s.dev b ROOTDEV c ≠ ROOTDEV := hc
    have hne : c ≠ b := by
      rintro rfl
      exact hc (update_self ..)
    rw [update_of_ne hne] at hc
    show update s.refcnt b 1 c = 0 ∧ _
    rw [update_of_ne hne]
    exact h.dev c hc
  · replace hc : update s.dev b ROOTDEV c = ROOTDEV := hc
    have hd : update s.dev b ROOTDEV d = ROOTDEV := hd
    have hcd : update s.blockno b blockno c = update s.blockno b blockno d := hcd
    rcases eq_or_ne c b with rfl | hcb
    · rcases eq_or_ne d c with rfl | hdc
      · rfl
      · rw [update_of_ne hdc] at hd hcd
        rw [update_self] at hcd
        exact absurd hcd.symm (hnew d hd)
    · rw [update_of_ne hcb] at hc hcd
      rcases eq_or_ne d b with rfl | hdb
      · rw [update_self] at hcd
        exact absurd hcd (hnew c hc)
      · rw [update_of_ne hdb] at hd hcd
        exact h.unique c d hc hd hcd
  · replace hc : update s.dev b ROOTDEV c = ROOTDEV := hc
    rcases eq_or_ne c b with rfl | hcb
    · have hk : update s.blockno c blockno c = blockno := update_self ..
      have hinv : update s.valid c false c = false := update_self ..
      have hleft' : s.left (update s.blockno c blockno c) = none := by rw [hk, hleft]
      refine ⟨fun _ => ⟨hdirty, hleft', fun q hq => ?_⟩, fun hv => ?_, fun hv => ?_, fun hd => ?_,
        fun _ => hleft'⟩
      · exact absurd (hlock.symm.trans hq) nofun
      · exact absurd (hinv.symm.trans hv) nofun
      · exact absurd (hinv.symm.trans hv) nofun
      · exact absurd (hdirty.symm.trans hd) nofun
    · rw [update_of_ne hcb] at hc
      refine (h.content c hc).congr (update_of_ne hcb ..) (update_of_ne hcb ..) rfl rfl rfl rfl id rfl
        (fun hr => ?_) fun q d k _ _ hq => ?_
      · have hr : update s.refcnt b 1 c = 0 := hr
        rwa [update_of_ne hcb] at hr
      · exact reading_update (by simp [hp]) hq
  · have hk : ∀ c, update s.dev b ROOTDEV c = ROOTDEV → update s.blockno b blockno c ≠ k := hk
    by_cases hcached : ∃ c, s.dev c = ROOTDEV ∧ s.blockno c = k
    · obtain ⟨c, hc, rfl⟩ := hcached
      rcases eq_or_ne c b with rfl | hcb
      · exact hold hc
      · have := hk c
        rw [update_of_ne hcb, update_of_ne hcb] at this
        exact absurd rfl (this hc)
    · exact h.uncached k fun c hc hck => hcached ⟨c, hc, hck⟩

theorem Inv.bget (h : Inv s) (hp : s.pc p = .idle) (hroot : dev = ROOTDEV) :
    Inv (s.bget p dev blockno) := by
  unfold State.bget
  split
  case h_1 b hc =>
    obtain ⟨hdev, hblock⟩ := cached_some h.linked hc
    exact h.hit hp hdev hblock hroot
  case h_2 hc =>
    split
    case h_1 b hu => exact h.recycle hp (unused_some h.linked hu) hroot (cached_none h.linked hc)
    case h_2 => exact ⟨h.linked, h.count, h.reading, h.block, h.dev, h.unique, fun b hb =>
      (h.content b hb).congr rfl rfl rfl rfl rfl rfl id rfl id fun _ _ _ _ _ hq => hq, h.uncached⟩

/-! ## The rest of `bread` -/

theorem Inv.acquiresleep (h : Inv s) (hp : s.pc p = .locking b dev blockno)
    (hlock : s.lock b = none) :
    Inv ({ s with lock := update s.lock b (some p) }.setPc p (.reading b dev blockno)) where
  linked := h.linked
  count := by
    refine h.count.move (b := b) hp (fun c hc => ⟨decide_eq_false hc.symm, rfl⟩) (fun _ _ => rfl)
      (fun _ _ => rfl) (fun c hc => update_of_ne hc ..) ?_
    simp [State.setPc, Pc.refs, hlock]
  reading q c d k hq := by
    replace hq : update s.pc p (.reading b dev blockno) q = .reading c d k := hq
    show update s.lock b (some p) c = some q
    rcases eq_or_ne q p with rfl | hqp
    · rw [update_self] at hq
      cases hq
      exact update_self ..
    · rw [update_of_ne hqp] at hq
      have hl := h.reading q c d k hq
      have hcb : c ≠ b := ne_of_apply_ne s.lock (by simp [hlock, hl])
      rw [update_of_ne hcb]
      exact hl
  block q c d k hq := by
    replace hq : (update s.pc p (.reading b dev blockno) q).block = some (c, d, k) := hq
    rcases eq_or_ne q p with rfl | hqp
    · rw [update_self] at hq
      exact h.block q c d k (hp ▸ hq)
    · rw [update_of_ne hqp] at hq
      exact h.block q c d k hq
  dev := h.dev
  unique := h.unique
  content c hc := by
    have hold := h.content c hc
    rcases eq_or_ne c b with rfl | hcb
    · refine ⟨fun hv => ⟨(hold.invalid hv).1, (hold.invalid hv).2.1, fun q hq => ?_⟩, hold.clean,
        hold.data, fun _ => .inr ?_, hold.unref⟩
      · replace hq : update s.lock c (some p) c = some q := hq
        rw [update_self] at hq
        cases hq
        exact ⟨dev, blockno, update_self ..⟩
      · show update s.lock c (some p) c ≠ none
        rw [update_self]
        exact nofun
    · refine hold.congr rfl rfl rfl rfl rfl rfl id (update_of_ne hcb ..) id fun q d k _ _ hq => ?_
      exact reading_update (by simp [hp]) hq
  uncached := h.uncached

/-- `bread` returns; `data'` and `valid'` are as before, or the block was read. -/
theorem Inv.readDone (h : Inv s) (hp : s.pc p = .reading b dev blockno) {data' : Fin n → Data}
    {valid' : Fin n → Bool} (hdata : ∀ c, c ≠ b → data' c = s.data c)
    (hvalid : ∀ c, c ≠ b → valid' c = s.valid c) (hb : valid' b = true)
    (hread : s.valid b = true ∧ data' b = s.data b ∨ s.valid b = false ∧
      data' b = s.disk (s.blockno b)) :
    Inv ({ s with data := data', valid := valid' }.setPc p .idle) where
  linked := h.linked
  count := by
    refine h.count.move (b := b) hp (fun c _ => ⟨rfl, rfl⟩) (fun _ _ => rfl) (fun _ _ => rfl)
      (fun _ _ => rfl) ?_
    simp [State.setPc, Pc.refs]
  reading q c d k hq := h.reading q c d k (reading_of_update (y := .idle) nofun hq).2
  block q c d k hq := h.block q c d k (block_of_update (y := .idle) rfl hq)
  dev := h.dev
  unique := h.unique
  content c hc := by
    have hold := h.content c hc
    rcases eq_or_ne c b with rfl | hcb
    · rcases hread with ⟨hv, hd⟩ | ⟨hv, hd⟩
      · exact {
          invalid := fun hno => absurd (hb.symm.trans hno) nofun
          clean := fun _ hdirty => hd.trans (hold.clean hv hdirty)
          data := fun _ => hd.trans (hold.data hv)
          pinned := hold.pinned
          unref := hold.unref }
      · obtain ⟨-, hleft, -⟩ := hold.invalid hv
        exact {
          invalid := fun hno => absurd (hb.symm.trans hno) nofun
          clean := fun _ _ => hd
          data := fun _ => by
            show data' c = (s.left (s.blockno c)).getD (s.disk (s.blockno c))
            rw [hleft]
            exact hd
          pinned := hold.pinned
          unref := hold.unref }
    · refine hold.congr rfl (hvalid c hcb) rfl (hdata c hcb) rfl rfl id rfl id fun q d k _ _ hq => ?_
      exact reading_update (by simp [hp, hcb.symm]) hq
  uncached := h.uncached

/-! ## `brelse`, `bpin` and `bunpin` -/

omit [Fintype Proc] [DecidableEq Proc] in
theorem decref_left (hne : s.blockno c ≠ s.blockno b) :
    (s.decref b).left (s.blockno c) = s.left (s.blockno c) := by
  show (if _ then update s.left (s.blockno b) none else s.left) (s.blockno c) = _
  split
  · exact update_of_ne hne ..
  · rfl

omit [DecidableEq Proc] in
/-- A buffer loses a reference, and what is left in it is on the disk if that was the last one. -/
theorem Inv.content_decref (h : Inv s) (hb : s.dev b = ROOTDEV) {links' : Links (Node n)}
    {pins' : Fin n → ℕ} {pc' : Proc → Pc n} (hpins : ∀ c, c ≠ b → pins' c = s.pins c)
    (hkeep : s.lock b = none → 0 < s.pins b → 0 < pins' b)
    (hzero : s.refcnt b - 1 = 0 → s.dirty b = false) (hpc : ∀ q c d k, s.pc q = .reading c d k →
      pc' q = .reading c d k) (c : Fin n) (hc : s.dev c = ROOTDEV) :
    Content { s.decref b with links := links', pins := pins', pc := pc' } c := by
  have hold := h.content c hc
  rcases eq_or_ne c b with rfl | hcb
  · have hleft : ∀ {P : Option Data → Prop}, (s.refcnt c - 1 = 0 → P none) → P (s.left (s.blockno c)) →
        P ((s.decref c).left (s.blockno c)) := by
      intro P h0 h1
      show P ((if _ then update s.left (s.blockno c) none else s.left) (s.blockno c))
      split
      case isTrue hz =>
        rw [update_self]
        exact h0 hz
      case isFalse => exact h1
    refine ⟨fun hv => ⟨(hold.invalid hv).1, ?_, fun q hq => ?_⟩, hold.clean, fun hv => ?_,
      fun hd => ?_, fun hr => ?_⟩
    · exact hleft (P := fun o => o = none) (fun _ => rfl) (hold.invalid hv).2.1
    · obtain ⟨d, k, hread⟩ := (hold.invalid hv).2.2 q hq
      exact ⟨d, k, hpc q c d k hread⟩
    · exact hleft (P := fun o => s.data c = o.getD (s.disk (s.blockno c)))
        (fun hz => hold.clean hv (hzero hz)) (hold.data hv)
    · cases hl : s.lock c with
      | none => exact .inl (hkeep hl ((hold.pinned hd).resolve_right fun hno => hno hl))
      | some q =>
        refine .inr fun hno => ?_
        exact absurd (hl.symm.trans hno) nofun
    · replace hr : update s.refcnt c (s.refcnt c - 1) c = 0 := hr
      rw [update_self] at hr
      show (if _ then update s.left (s.blockno c) none else s.left) (s.blockno c) = none
      rw [if_pos hr, update_self]
  · have hne : s.blockno c ≠ s.blockno b := fun he => hcb (h.unique c b hc hb he)
    refine hold.congr rfl rfl rfl rfl rfl (decref_left hne) (fun hp => ?_) rfl (fun hr => ?_)
      fun q d k _ _ hq => hpc q c d k hq
    · show 0 < pins' c
      rw [hpins c hcb]
      exact hp
    · replace hr : update s.refcnt b (s.refcnt b - 1) c = 0 := hr
      rwa [update_of_ne hcb] at hr

omit [Fintype Proc] [DecidableEq Proc] in
theorem decref_uncached (huncached : ∀ k, (∀ c, s.dev c = ROOTDEV → s.blockno c ≠ k) →
    s.left k = none) (k : ℕ) (hk : ∀ c, s.dev c = ROOTDEV → s.blockno c ≠ k) : (s.decref b).left k =
    none := by
  show (if _ then update s.left (s.blockno b) none else s.left) k = none
  split
  · rcases eq_or_ne k (s.blockno b) with rfl | hne
    · exact update_self ..
    · exact (update_of_ne hne ..).trans (huncached k hk)
  · exact huncached k hk

theorem Inv.release (h : Inv s) (hp : s.pc p = .releasing b) {links' : Links (Node n)}
    (hlinks : Linked links') : Inv ({ s.decref b with links := links' }.setPc p .idle) := by
  have hrefs : (s.pc p).refs b = true := by simp [hp, Pc.refs]
  have hpos := h.refcnt_pos_of_refs hrefs
  have hb := h.dev_eq hpos
  have hother : ∀ q c d k, s.pc q = .reading c d k → update s.pc p .idle q = .reading c d k :=
    fun _ _ _ _ hq => reading_update (by simp [hp]) hq
  have hcount : Counted (update s.refcnt b (s.refcnt b - 1)) s.pins s.lock
    (update s.pc p .idle) := by
    refine h.count.move (b := b) hp (fun c hc => ⟨decide_eq_false hc.symm, rfl⟩)
      (fun c hc => update_of_ne hc ..) (fun _ _ => rfl) (fun _ _ => rfl) ?_
    simp only [update_self, Pc.refs, decide_true, unit_true, unit_false]
    omega
  refine ⟨hlinks, hcount, fun q c d k hq => ?_, fun q c d k hq => ?_, h.dev_update hb _, h.unique,
    h.content_decref hb (fun _ _ => rfl) (fun _ hm => hm) (fun hz => ?_) hother,
    decref_uncached h.uncached⟩
  · exact h.reading q c d k (reading_of_update (y := .idle) nofun hq).2
  · exact h.block q c d k (block_of_update (y := .idle) rfl hq)
  · -- The last reference was this one, so there is neither a pin nor a lock.
    have hcb := hcount b
    rw [update_self, hz] at hcb
    have htally := tally_nonneg (fun _ c => Pc.refs b c) (update s.pc p .idle)
    have hunit := unit_nonneg (s.lock b).isSome
    cases hd : s.dirty b with
    | false => rfl
    | true =>
      rcases (h.content b hb).pinned hd with hpin | hlock
      · omega
      · have hsome : (s.lock b).isSome = true := Option.isSome_iff_ne_none.mpr hlock
        rw [hsome, unit_true] at hcb
        omega

theorem Inv.brelse (h : Inv s) (hp : s.pc p = .idle) (hb : s.lock b = some p)
    (hrule : s.dirty b = true → 0 < s.pins b) :
    Inv ({ s with lock := update s.lock b none }.setPc p (.releasing b)) where
  linked := h.linked
  count := by
    refine h.count.move (b := b) hp (fun c hc => ⟨rfl, decide_eq_false hc.symm⟩) (fun _ _ => rfl)
      (fun _ _ => rfl) (fun c hc => update_of_ne hc ..) ?_
    simp [State.setPc, Pc.refs, hb]
  reading q c d k hq := by
    obtain ⟨hqp, hq⟩ := reading_of_update (y := .releasing b) nofun hq
    have hl := h.reading q c d k hq
    have hcb : c ≠ b := by
      rintro rfl
      exact hqp (Option.some.inj (hl.symm.trans hb))
    exact (update_of_ne hcb ..).trans hl
  block q c d k hq := h.block q c d k (block_of_update (y := .releasing b) rfl hq)
  dev := h.dev
  unique := h.unique
  content c hc := by
    have hold := h.content c hc
    rcases eq_or_ne c b with rfl | hcb
    · refine ⟨fun hv => absurd ((h.valid hb hp).symm.trans hv) nofun, hold.clean, hold.data,
        fun hd => .inl (hrule hd), hold.unref⟩
    · refine hold.congr rfl rfl rfl rfl rfl rfl id (update_of_ne hcb ..) id fun q d k _ _ hq => ?_
      exact reading_update (by simp [hp]) hq
  uncached := h.uncached

omit [DecidableEq Proc] in
theorem Inv.bpin (h : Inv s) (hb : s.lock b = some p) :
    Inv { s with
      refcnt := update s.refcnt b (s.refcnt b + 1), pins := update s.pins b (s.pins b + 1) } where
  linked := h.linked
  count := by
    refine h.count.stay (b := b) (fun c hc => update_of_ne hc ..) (fun c hc => update_of_ne hc ..) ?_
    simp
  reading := h.reading
  block := h.block
  dev := h.dev_update (h.dev_eq (h.refcnt_pos_of_lock hb)) _
  unique := h.unique
  content c hc := by
    refine (h.content c hc).congr rfl rfl rfl rfl rfl rfl (fun hm => ?_) rfl (fun hr => ?_)
      fun _ _ _ _ _ hq => hq
    · show 0 < update s.pins b (s.pins b + 1) c
      rcases eq_or_ne c b with rfl | hcb
      · rw [update_self]
        omega
      · rwa [update_of_ne hcb]
    · replace hr : update s.refcnt b (s.refcnt b + 1) c = 0 := hr
      rcases eq_or_ne c b with rfl | hcb
      · rw [update_self] at hr
        omega
      · rwa [update_of_ne hcb] at hr
  uncached := h.uncached

omit [DecidableEq Proc] in
theorem Inv.bunpin (h : Inv s) (hb : s.lock b = some p) (hpin : 0 < s.pins b) :
    Inv { s.decref b with pins := update s.pins b (s.pins b - 1) } := by
  have hdev := h.dev_eq (h.refcnt_pos_of_lock hb)
  -- The lock is a reference of its own, so this is not the last one.
  have htwo : 1 < s.refcnt b := by
    have hcount := h.count b
    rw [hb, Option.isSome_some, unit_true] at hcount
    have htally := tally_nonneg (fun _ c => Pc.refs b c) s.pc
    omega
  refine ⟨h.linked, ?_, h.reading, h.block, h.dev_update hdev _, h.unique,
    h.content_decref hdev (fun c hc => update_of_ne hc ..) (fun hl => ?_) (fun hz => ?_)
    (fun _ _ _ _ hq => hq), decref_uncached h.uncached⟩
  · refine h.count.stay (b := b) (fun c hc => update_of_ne hc ..) (fun c hc => update_of_ne hc ..) ?_
    simp only [State.decref, update_self]
    omega
  · exact absurd (hb.symm.trans hl) nofun
  · omega

/-! ## Data -/

omit [DecidableEq Proc] in
theorem Inv.bwrite (h : Inv s) (hp : s.pc p = .idle) (hb : s.lock b = some p) :
    Inv { s with
      disk := update s.disk (s.blockno b) (s.data b), dirty := update s.dirty b false } where
  linked := h.linked
  count := h.count
  reading := h.reading
  block := h.block
  dev c hc := by
    refine ⟨(h.dev c hc).1, ?_⟩
    show update s.dirty b false c = false
    rcases eq_or_ne c b with rfl | hcb
    · exact update_self ..
    · exact (update_of_ne hcb ..).trans (h.dev c hc).2
  unique := h.unique
  content c hc := by
    have hold := h.content c hc
    rcases eq_or_ne c b with rfl | hcb
    · have hdisk : update s.disk (s.blockno c) (s.data c) (s.blockno c) = s.data c := update_self ..
      refine ⟨fun hv => absurd ((h.valid hb hp).symm.trans hv) nofun, fun _ _ => hdisk.symm,
        fun hv => ?_, fun hd => ?_, hold.unref⟩
      · show s.data c = (s.left (s.blockno c)).getD
          (update s.disk (s.blockno c) (s.data c) (s.blockno c))
        rw [hdisk]
        have hdata := hold.data hv
        cases hl : s.left (s.blockno c) with
        | none => rfl
        | some d =>
          rw [hl] at hdata
          exact hdata
      · replace hd : update s.dirty c false c = true := hd
        rw [update_self] at hd
        exact nomatch hd
    · have hdev := h.dev_eq (h.refcnt_pos_of_lock hb)
      have hne : s.blockno c ≠ s.blockno b := fun he => hcb (h.unique c b hc hdev he)
      exact hold.congr rfl rfl (update_of_ne hcb ..) rfl (update_of_ne hne ..) rfl id rfl id
        fun _ _ _ _ _ hq => hq
  uncached := h.uncached

omit [DecidableEq Proc] in
theorem Inv.modify (h : Inv s) (hp : s.pc p = .idle) (hb : s.lock b = some p) (d : Data) :
    Inv { s with
      data := update s.data b d
      dirty := update s.dirty b true
      left := update s.left (s.blockno b) (some d) } := by
  have hpos := h.refcnt_pos_of_lock hb
  have hdev := h.dev_eq hpos
  refine ⟨h.linked, h.count, h.reading, h.block, fun c hc => ⟨(h.dev c hc).1, ?_⟩, h.unique,
    fun c hc => ?_, fun k hk => ?_⟩
  · have hcb : c ≠ b := by
      rintro rfl
      exact hc hdev
    exact (update_of_ne hcb ..).trans (h.dev c hc).2
  · have hold := h.content c hc
    rcases eq_or_ne c b with rfl | hcb
    · refine ⟨fun hv => absurd ((h.valid hb hp).symm.trans hv) nofun, fun _ hd => ?_, fun _ => ?_,
        fun _ => .inr ?_, fun hr => ?_⟩
      · replace hd : update s.dirty c true c = false := hd
        rw [update_self] at hd
        exact nomatch hd
      · show update s.data c d c = (update s.left (s.blockno c) (some d) (s.blockno c)).getD _
        rw [update_self, update_self]
        rfl
      · exact fun hno => absurd (hb.symm.trans hno) nofun
      · exact absurd hr hpos.ne'
    · have hne : s.blockno c ≠ s.blockno b := fun he => hcb (h.unique c b hc hdev he)
      exact hold.congr rfl rfl (update_of_ne hcb ..) (update_of_ne hcb ..) rfl
        (update_of_ne hne ..) id rfl id fun _ _ _ _ _ hq => hq
  · exact (update_of_ne (hk b hdev).symm ..).trans (h.uncached k hk)

/-! ## Runs -/

omit [DecidableEq Proc] in
theorem Inv.panic (h : Inv s) (e : Panic) : Inv { s with panic := some e } :=
  ⟨h.linked, h.count, h.reading, h.block, h.dev, h.unique, fun b hb =>
    (h.content b hb).congr rfl rfl rfl rfl rfl rfl id rfl id fun _ _ _ _ _ hq => hq, h.uncached⟩

theorem Inv.go (h : Inv s) (hs : s.go p = some s') : Inv s' := by
  unfold State.go at hs
  split at hs
  case h_1 => exact nomatch hs
  case h_2 b dev blockno hp =>
    obtain ⟨hlock, he⟩ := Option.ite_none_right_eq_some.mp hs
    cases he
    exact h.acquiresleep hp hlock
  case h_3 b dev blockno hp =>
    split at hs
    case isTrue hv =>
      cases hs
      exact h.readDone hp (fun _ _ => rfl) (fun _ _ => rfl) hv (.inl ⟨hv, rfl⟩)
    case isFalse hv =>
      cases hs
      exact h.readDone hp (fun c hc => update_of_ne hc ..) (fun c hc => update_of_ne hc ..)
        (update_self ..) (.inr ⟨Bool.eq_false_iff.mpr hv, update_self ..⟩)
  case h_4 b hp =>
    dsimp only at hs
    split at hs
    · cases hs
      exact h.release hp (h.linked.toFront b)
    · cases hs
      exact h.release hp h.linked

theorem Inv.next {a : Act n Proc Data} (h : Inv s) (hu : Usage s a) (hs : next s a = some s') :
    Inv s' := by
  obtain ⟨-, hs⟩ := Option.ite_none_right_eq_some.mp hs
  cases a with
  | bread p dev blockno =>
    obtain ⟨hp, he⟩ := Option.ite_none_right_eq_some.mp hs
    cases he
    exact h.bget hp hu
  | bwrite p b =>
    obtain ⟨hp, he⟩ := Option.ite_none_right_eq_some.mp hs
    cases he
    unfold State.bwrite
    split
    case isTrue hb => exact h.bwrite hp hb
    case isFalse => exact h.panic .bwrite
  | brelse p b =>
    obtain ⟨hp, he⟩ := Option.ite_none_right_eq_some.mp hs
    cases he
    unfold State.brelse
    split
    case isTrue hb => exact h.brelse hp hb hu
    case isFalse => exact h.panic .brelse
  | bpin p b =>
    obtain ⟨hp, he⟩ := Option.ite_none_right_eq_some.mp hs
    cases he
    exact h.bpin hu
  | bunpin p b =>
    obtain ⟨hp, he⟩ := Option.ite_none_right_eq_some.mp hs
    cases he
    exact h.bunpin hu.1 hu.2
  | modify p b d =>
    obtain ⟨hp, he⟩ := Option.ite_none_right_eq_some.mp hs
    cases he
    exact h.modify hp hu d
  | go p => exact h.go hs

omit [DecidableEq Proc] in
theorem inv_boot (disk : ℕ → Data) (zero : Data) : Inv (boot disk zero : State n Proc Data) where
  linked := linked_binit
  count b := by
    show (0 : ℤ) = 0 + unit false + tally (fun _ c => Pc.refs b c) (fun _ : Proc => .idle)
    rw [tally_eq_zero fun _ => rfl]
    rfl
  reading _ _ _ _ := nofun
  block _ _ _ _ := nofun
  dev _ _ := ⟨rfl, rfl⟩
  unique _ _ := nofun
  content _ := nofun
  uncached _ _ := rfl

/-! ## Coherence -/

/-- What callers can rely on in a state. -/
structure Coherent (s : State n Proc Data) : Prop where
  linked : Linked s.links
  /-- A block of the root device has one buffer. -/
  unique : ∀ b c, s.dev b = ROOTDEV → s.dev c = ROOTDEV → s.blockno b = s.blockno c → b = c
  recycled : ∀ a s' b, next s a = some s' → (s'.dev b, s'.blockno b) ≠ (s.dev b, s.blockno b) →
    s.refcnt b = 0
  /-- `bread` returns the locked buffer of the block, with what was left in it while it was
  referenced, or else with what is on the disk. -/
  returned : ∀ p b dev blockno s', s.pc p = .reading b dev blockno → next s (.go p) = some s' →
    s'.lock b = some p ∧ s'.dev b = dev ∧ s'.blockno b = blockno ∧
    s'.data b = (s.left blockno).getD (s.disk blockno)

omit [Fintype Proc] in
theorem bget_recycled (h : Linked s.links)
    (hne : ((s.bget p dev blockno).dev b, (s.bget p dev blockno).blockno b) ≠
      (s.dev b, s.blockno b)) : s.refcnt b = 0 := by
  unfold State.bget at hne
  split at hne
  · exact absurd rfl hne
  · split at hne
    case h_1 c hu =>
      have hbc : b = c := by
        by_contra hbc
        apply hne
        show (update s.dev c dev b, update s.blockno c blockno b) = _
        rw [update_of_ne hbc, update_of_ne hbc]
      rw [hbc]
      exact unused_some h hu
    · exact absurd rfl hne

omit [Fintype Proc] in
theorem step_recycled {a : Act n Proc Data} (h : Linked s.links) (hs : step s a = some s')
    (hne : (s'.dev b, s'.blockno b) ≠ (s.dev b, s.blockno b)) : s.refcnt b = 0 := by
  cases a with
  | bread p dev blockno =>
    obtain ⟨-, he⟩ := Option.ite_none_right_eq_some.mp hs
    cases he
    exact bget_recycled h hne
  | bwrite p c =>
    obtain ⟨-, he⟩ := Option.ite_none_right_eq_some.mp hs
    cases he
    unfold State.bwrite at hne
    split at hne
    all_goals exact absurd rfl hne
  | brelse p c =>
    obtain ⟨-, he⟩ := Option.ite_none_right_eq_some.mp hs
    cases he
    unfold State.brelse at hne
    split at hne
    all_goals exact absurd rfl hne
  | bpin | bunpin | modify =>
    obtain ⟨-, he⟩ := Option.ite_none_right_eq_some.mp hs
    cases he
    exact absurd rfl hne
  | go p =>
    replace hs : s.go p = some s' := hs
    unfold State.go at hs
    split at hs
    case h_1 => exact nomatch hs
    case h_2 =>
      obtain ⟨-, he⟩ := Option.ite_none_right_eq_some.mp hs
      cases he
      exact absurd rfl hne
    case h_3 =>
      split at hs
      all_goals
        cases hs
        exact absurd rfl hne
    case h_4 =>
      dsimp only at hs
      split at hs
      all_goals
        cases hs
        exact absurd rfl hne

theorem Inv.returned (h : Inv s) (hp : s.pc p = .reading b dev blockno) (hs : s.go p = some s') :
    s'.lock b = some p ∧ s'.dev b = dev ∧ s'.blockno b = blockno ∧
      s'.data b = (s.left blockno).getD (s.disk blockno) := by
  have hlock := h.reading p b dev blockno hp
  obtain ⟨hdev, hblock⟩ := h.block p b dev blockno (hp ▸ rfl)
  have hcontent := h.content b (h.dev_eq (h.refcnt_pos_of_lock hlock))
  subst hdev hblock
  unfold State.go at hs
  rw [hp] at hs
  dsimp only at hs
  split at hs
  case isTrue hv =>
    cases hs
    exact ⟨hlock, rfl, rfl, hcontent.data hv⟩
  case isFalse hv =>
    cases hs
    obtain ⟨-, hleft, -⟩ := hcontent.invalid (Bool.eq_false_iff.mpr hv)
    refine ⟨hlock, rfl, rfl, ?_⟩
    show update s.data b _ b = _
    rw [update_self, hleft]
    rfl

/-- **The buffer cache is coherent** in every run that keeps to the rules. -/
theorem buffer_cache_coherent {disk : ℕ → Data} {zero : Data}
    (h : ReachIf next Usage (boot disk zero) s) : Coherent s := by
  have hinv : Inv s := h.invariant (fun _ _ _ hs hu ha => hs.next hu ha) (inv_boot disk zero)
  refine ⟨hinv.linked, hinv.unique, fun a s' b hs hne => ?_, fun p b dev blockno s' hp hs => ?_⟩
  · exact step_recycled hinv.linked (Option.ite_none_right_eq_some.mp hs).2 hne
  · exact hinv.returned hp (Option.ite_none_right_eq_some.mp hs).2

/-- A block that was changed and pinned is read again by another process; the disk still has the old
data. -/
theorem buffer_cache_coherent_pinned :
    ∃ s : State 2 (Fin 2) ℕ, ReachIf next Usage (boot (fun _ => 0) 0) s ∧
    Coherent s ∧ s.lock 0 = some 1 ∧ s.blockno 0 = 5 ∧ s.data 0 = 9 ∧ s.disk 5 = 0 := by
  obtain ⟨s, hs, hprop⟩ : ∃ s ∈ runActsIf next Usage (boot (fun _ => 0) 0 : State 2 (Fin 2) ℕ)
      [.bread 0 ROOTDEV 5, .go 0, .go 0, .modify 0 0 9, .bpin 0 0, .brelse 0 0, .bread 1 ROOTDEV 5,
        .go 0, .go 1, .go 1], s.lock 0 = some 1 ∧ s.blockno 0 = 5 ∧ s.data 0 = 9 ∧ s.disk 5 = 0 := by
    decide +kernel
  have hreach := reachIf_of_runActsIf hs
  exact ⟨s, hreach, buffer_cache_coherent hreach, hprop⟩

end LazyXv6.BufferCache
