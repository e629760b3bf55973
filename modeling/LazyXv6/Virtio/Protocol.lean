import LazyXv6.Virtio.Descriptors

/-!
# What holds between the driver and the device

A chain belongs to the process that allocated it (`Chains`). A request that is on its way is in one
of four places: in the avail ring, with the device, served by it, or in the used ring; `flight` is
all of them. Its process waits for `b->disk` to be cleared, which happens when the request leaves
the used ring (`Requests`).
-/

namespace LazyXv6.Virtio

open Lib Function

variable {Proc Buf : Type}

namespace Pc

def call : Pc Buf → Option (Call Buf)
  | idle => none
  | lock c | alloc c | sleepFree c | publish c _ | wait c _ _ | sleepBuf c _ _ | relock c _ _ =>
    some c

def idx : Pc Buf → Option Chain
  | publish _ idx | wait _ idx _ | sleepBuf _ idx _ | relock _ idx _ => some idx
  | _ => none

def serial : Pc Buf → Option ℕ
  | wait _ _ k | sleepBuf _ _ k | relock _ _ k => some k
  | _ => none

def holds : Pc Buf → Bool
  | alloc _ | publish .. | wait .. => true
  | _ => false

/-- The two places differ in the lock only, as far as there is a request. -/
structure Same (x y : Pc Buf) : Prop where
  idx : y.idx = x.idx
  serial : y.serial = x.serial
  call : x.idx ≠ none → y.call = x.call

theorem Same.refl (x : Pc Buf) : Same x x := ⟨rfl, rfl, fun _ => rfl⟩

theorem same_wake (x : Pc Buf) : Same x x.wake := by
  cases x
  all_goals exact ⟨rfl, rfl, fun _ => rfl⟩

theorem call_wake (x : Pc Buf) : x.wake.call = x.call := by
  cases x
  all_goals rfl

end Pc

structure Chains (s : State Proc Buf) : Prop where
  form : ∀ p c idx, (s.pc p).call = some c → (s.pc p).idx = some idx → Formatted s c idx
  disjoint : ∀ p q idx jdx i, (s.pc p).idx = some idx → (s.pc q).idx = some jdx → i ∈ idx.toList →
    i ∈ jdx.toList → p = q
  owned : ∀ i, i < NUM → s.free i = false → ∃ p idx, (s.pc p).idx = some idx ∧ i ∈ idx.toList

/-- A ring with its 16-bit indices holds the queue `q`; `start` entries were consumed before. -/
structure Ring16 (cell : ℕ → ℕ) (lo hi : UInt16) (start : ℕ) (q : List ℕ) : Prop where
  lo : lo = .ofNat start
  hi : hi = .ofNat (start + q.length)
  holds : RingHolds NUM cell start q

/-- The requests on their way, from the avail ring to the used ring. -/
def State.flight (s : State Proc Buf) (av us : List (ℕ × ℕ)) : List (ℕ × ℕ) :=
  av ++ (s.working ++ (s.served ++ us))

structure Requests (s : State Proc Buf) (av us : List (ℕ × ℕ)) : Prop where
  heads : ((s.flight av us).map Prod.fst).Nodup
  owner : ∀ e ∈ s.flight av us, ∃ p idx, (s.pc p).idx = some idx ∧ (s.pc p).serial = some e.2 ∧
    idx.i0 = e.1
  publish : ∀ p c idx, (s.pc p).call = some c → (s.pc p).idx = some idx → (s.pc p).serial = none →
    s.disk c.b = true ∧ s.avail (s.availIdx.toNat % NUM) = idx.i0
  serial_lt : ∀ p k, (s.pc p).serial = some k → k < s.published
  waits : ∀ p c idx k, (s.pc p).call = some c → (s.pc p).idx = some idx → (s.pc p).serial = some k →
    (idx.i0, k) ∈ s.flight av us ∧ s.disk c.b = true ∨
      (idx.i0, k) ∉ s.flight av us ∧ s.disk c.b = false ∧ .completed k c.req c.b ∈ s.log
  serial : ∀ p q k, (s.pc p).serial = some k → (s.pc q).serial = some k → p = q
  done : ∀ e ∈ s.served ++ us, (s.info e.1).status = 0 ∧
    ∀ p c, (s.pc p).call = some c → (s.pc p).serial = some e.2 → .completed e.2 c.req c.b ∈ s.log
  returned : ∀ p k c, .returned p k c ∈ s.log → .completed k c.req c.b ∈ s.log

/-- The queues `av` and `us` are what the rings hold. -/
structure Good (s : State Proc Buf) (av us : List (ℕ × ℕ)) (start : ℕ) : Prop where
  panic : s.panic = none
  lock : ∀ p, (s.pc p).holds = true → s.lock = some (.proc p)
  locked : ∀ p c, (s.pc p).call = some c → s.locked c.b = some p
  chains : Chains s
  avail : Ring16 s.avail s.seen s.availIdx s.fetched (av.map Prod.fst)
  published : s.published = s.fetched + av.length
  serials : av.map Prod.snd = List.range' s.fetched av.length
  used : Ring16 s.used s.usedIdx s.usedEnd start (us.map Prod.fst)
  requests : Requests s av us

def Inv (s : State Proc Buf) : Prop := ∃ av us start, Good s av us start

variable {s s' : State Proc Buf} {av us av' us' : List (ℕ × ℕ)} {start : ℕ} {p q : Proc}
    {c : Call Buf}

/-! ## How many requests there are -/

theorem Pc.call_of_idx {x : Pc Buf} {idx : Chain} (h : x.idx = some idx) :
    ∃ c, x.call = some c := by
  cases x with
  | publish c | wait c | sleepBuf c | relock c => exact ⟨c, rfl⟩
  | _ => exact nomatch h

theorem Pc.holds_of_publish {x : Pc Buf} {idx : Chain} (hidx : x.idx = some idx)
    (hk : x.serial = none) : x.holds = true := by
  cases x with
  | publish => rfl
  | idle | lock | alloc | sleepFree => exact nomatch hidx
  | wait | sleepBuf | relock => exact nomatch hk

theorem Chains.formatted (h : Chains s) {idx : Chain} (hp : (s.pc p).idx = some idx) :
    ∃ c, (s.pc p).call = some c ∧ Formatted s c idx := by
  obtain ⟨c, hc⟩ := Pc.call_of_idx hp
  exact ⟨c, hc, h.form p c idx hc hp⟩

theorem Requests.owner_eq (h : Requests s av us) (hch : Chains s) {idx : Chain} {e : ℕ × ℕ}
    (he : e ∈ s.flight av us) (hp : (s.pc p).idx = some idx) (hi : e.1 ∈ idx.toList) :
    (s.pc p).serial = some e.2 ∧ idx.i0 = e.1 := by
  obtain ⟨q, jdx, hq, hk, hj⟩ := h.owner e he
  have hej : e.1 ∈ jdx.toList := by
    rw [← hj]
    exact List.mem_cons_self
  obtain rfl := hch.disjoint p q idx jdx e.1 hp hq hi hej
  obtain rfl := Option.some.inj (hp.symm.trans hq)
  exact ⟨hk, hj⟩

/-- A chain takes more than its head, so there are fewer requests than descriptors. -/
theorem Requests.length_lt (h : Requests s av us) (hch : Chains s) :
    (s.flight av us).length < NUM := by
  rcases Nat.eq_zero_or_pos (s.flight av us).length with h0 | hpos
  · rw [h0]
    decide
  obtain ⟨e, he⟩ := List.exists_mem_of_length_pos hpos
  obtain ⟨p, idx, hp, -, -⟩ := h.owner e he
  obtain ⟨c, -, hform⟩ := hch.formatted hp
  have hsub : ((s.flight av us).map Prod.fst).toFinset ⊆ (Finset.range NUM).erase idx.i1 := by
    intro i hi
    obtain ⟨e', he', rfl⟩ := List.mem_map.mp (List.mem_toFinset.mp hi)
    obtain ⟨q, jdx, hq, -, hj⟩ := h.owner e' he'
    obtain ⟨d, -, hform'⟩ := hch.formatted hq
    refine Finset.mem_erase.mpr ⟨fun h1 => ?_, Finset.mem_range.mpr ?_⟩
    · have hi1 : e'.1 ∈ idx.toList := by
        rw [h1]
        exact List.mem_cons_of_mem _ List.mem_cons_self
      have h01 : idx.i0 = idx.i1 := (h.owner_eq hch he' hp hi1).2.trans h1
      exact (List.nodup_cons.mp hform.nodup).1 (h01 ▸ List.mem_cons_self)
    · exact hform'.lt e'.1 (hj ▸ List.mem_cons_self)
  have hcard := Finset.card_le_card hsub
  rw [List.toFinset_card_of_nodup h.heads, List.length_map,
    Finset.card_erase_of_mem (Finset.mem_range.mpr
      (hform.lt _ (List.mem_cons_of_mem _ List.mem_cons_self))), Finset.card_range] at hcard
  exact Nat.lt_succ_of_le hcard

theorem Good.av_length (h : Good s av us start) : av.length < NUM := by
  have hlen := h.requests.length_lt h.chains
  unfold State.flight at hlen
  rw [List.length_append] at hlen
  omega

theorem Good.us_length (h : Good s av us start) : us.length < NUM := by
  have hlen := h.requests.length_lt h.chains
  unfold State.flight at hlen
  simp only [List.length_append] at hlen
  omega

/-! ## Rings -/

section

variable {cell : ℕ → ℕ} {lo hi : UInt16} {l : List ℕ} {x : ℕ}

theorem toNat_ofNat_mod (a : ℕ) : (UInt16.ofNat a).toNat % NUM = a % NUM :=
  ring_index (M := 2 ^ 16) (by decide) a

theorem ofNat_succ (a : ℕ) :
    UInt16.ofNat a + 1 = UInt16.ofNat (a + 1) := (UInt16.ofNat_add a 1).symm

theorem Ring16.lo_eq_hi (h : Ring16 cell lo hi start l) (hl : l.length < NUM) :
    lo = hi ↔ l = [] := by
  have hlen : start % 2 ^ 16 = (start + l.length) % 2 ^ 16 ↔ l.length = 0 := by
    have hl : l.length < 8 := hl
    omega
  rw [h.lo, h.hi, ← UInt16.toNat_inj, UInt16.toNat_ofNat', UInt16.toNat_ofNat', hlen,
    List.length_eq_zero_iff]

theorem Ring16.head (h : Ring16 cell lo hi start (x :: l)) : cell (lo.toNat % NUM) = x := by
  rw [h.lo, toNat_ofNat_mod]
  exact h.holds.head

theorem Ring16.pop (h : Ring16 cell lo hi start (x :: l)) :
    Ring16 cell (lo + 1) hi (start + 1) l where
  lo := by rw [h.lo, ofNat_succ]
  hi := by
    rw [h.hi, List.length_cons]
    congr 1
    omega
  holds := h.holds.pop

theorem Ring16.update_end (h : Ring16 cell lo hi start l) (hl : l.length < NUM) (x : ℕ) :
    Ring16 (update cell (hi.toNat % NUM) x) lo hi start l where
  lo := h.lo
  hi := h.hi
  holds := by
    rw [h.hi, toNat_ofNat_mod]
    exact h.holds.update_end hl x

theorem Ring16.concat (h : Ring16 cell lo hi start l) (hx : cell (hi.toNat % NUM) = x) :
    Ring16 cell lo (hi + 1) start (l ++ [x]) where
  lo := h.lo
  hi := by
    rw [h.hi, ofNat_succ, List.length_append, List.length_singleton]
    rfl
  holds := by
    rw [h.hi, toNat_ofNat_mod] at hx
    exact h.holds.concat hx

end

/-! ## Frames -/

theorem WokenFree.same {pc pc' : Proc → Pc Buf} (h : WokenFree pc pc') (q : Proc) :
    (pc q).Same (pc' q) ∧ (pc' q).call = (pc q).call ∧ ((pc' q).holds = true → pc' q = pc q) := by
  rcases h q with hq | ⟨c, hq, hq'⟩
  · rw [hq]
    exact ⟨.refl _, rfl, fun _ => rfl⟩
  · rw [hq, hq']
    exact ⟨⟨rfl, rfl, fun _ => rfl⟩, rfl, nofun⟩

theorem Chains.frame (h : Chains s) (hsame : ∀ q, (s.pc q).Same (s'.pc q))
    (hfree : s'.free = s.free) (hdesc : KeepsBusy s s'.desc) (hops : s'.ops = s.ops)
    (hinfo : ∀ i, (s'.info i).b = (s.info i).b) : Chains s' where
  form p c idx hc hp := by
    rw [(hsame p).idx] at hp
    rw [(hsame p).call (hp ▸ nofun)] at hc
    have hform := h.form p c idx hc hp
    have hmem0 : idx.i0 ∈ idx.toList := List.mem_cons_self
    have hmem1 : idx.i1 ∈ idx.toList := List.mem_cons_of_mem _ List.mem_cons_self
    have hmem2 : idx.i2 ∈ idx.toList :=
      List.mem_cons_of_mem _ (List.mem_cons_of_mem _ List.mem_cons_self)
    exact {
      nodup := hform.nodup
      lt := hform.lt
      busy := by
        rw [hfree]
        exact hform.busy
      desc0 := (hdesc _ (hform.busy _ hmem0)).trans hform.desc0
      desc1 := (hdesc _ (hform.busy _ hmem1)).trans hform.desc1
      desc2 := (hdesc _ (hform.busy _ hmem2)).trans hform.desc2
      ops := by
        rw [hops]
        exact hform.ops
      info := (hinfo _).trans hform.info }
  disjoint p q idx jdx i hp hq := by
    rw [(hsame p).idx] at hp
    rw [(hsame q).idx] at hq
    exact h.disjoint p q idx jdx i hp hq
  owned i hi hbusy := by
    rw [hfree] at hbusy
    obtain ⟨p, idx, hp, hmem⟩ := h.owned i hi hbusy
    exact ⟨p, idx, (hsame p).idx.trans hp, hmem⟩

theorem Requests.frame (h : Requests s av us) (hsame : ∀ q, (s.pc q).Same (s'.pc q))
    (hflight : (s'.flight av' us').Perm (s.flight av us)) (hdisk : s'.disk = s.disk)
    (havail : s'.avail = s.avail) (hidx : s'.availIdx = s.availIdx)
    (hpub : s'.published = s.published) (hlog : ∀ x ∈ s.log, x ∈ s'.log)
    (hdone : ∀ e ∈ s'.served ++ us', (s'.info e.1).status = 0 ∧
      ∀ p c, (s'.pc p).call = some c → (s'.pc p).serial = some e.2 → .completed e.2 c.req c.b ∈ s'.log)
    (hret : ∀ p k c, .returned p k c ∈ s'.log → .returned p k c ∈ s.log) : Requests s' av' us' where
  heads := (hflight.map Prod.fst).nodup_iff.mpr h.heads
  owner e he := by
    obtain ⟨p, idx, hp, hk, hi⟩ := h.owner e (hflight.mem_iff.mp he)
    exact ⟨p, idx, (hsame p).idx.trans hp, (hsame p).serial.trans hk, hi⟩
  publish p c idx hc hp hk := by
    rw [(hsame p).idx] at hp
    rw [(hsame p).call (hp ▸ nofun)] at hc
    rw [(hsame p).serial] at hk
    rw [hdisk, havail, hidx]
    exact h.publish p c idx hc hp hk
  serial_lt p k hk := by
    rw [(hsame p).serial] at hk
    rw [hpub]
    exact h.serial_lt p k hk
  waits p c idx k hc hp hk := by
    rw [(hsame p).idx] at hp
    rw [(hsame p).call (hp ▸ nofun)] at hc
    rw [(hsame p).serial] at hk
    rw [hflight.mem_iff, hdisk]
    exact (h.waits p c idx k hc hp hk).imp_right fun ⟨hno, hd, hdone⟩ => ⟨hno, hd, hlog _ hdone⟩
  serial p q k hp hq := by
    rw [(hsame p).serial] at hp
    rw [(hsame q).serial] at hq
    exact h.serial p q k hp hq
  done := hdone
  returned p k c hmem := hlog _ (h.returned p k c (hret p k c hmem))

theorem Good.move (h : Good s av us start) {desc' : ℕ → Desc Buf} {pc' : Proc → Pc Buf}
    {lock' : Option (Holder Proc)} (hsame : ∀ q, (s.pc q).Same (pc' q)) (hdesc : KeepsBusy s desc')
    (hlocked : ∀ q c, (pc' q).call = some c → s.locked c.b = some q)
    (hlock : ∀ q, (pc' q).holds = true → lock' = some (.proc q)) :
    Good { s with desc := desc', pc := pc', lock := lock' } av us start where
  panic := h.panic
  lock := hlock
  locked := hlocked
  chains := h.chains.frame hsame rfl hdesc rfl fun _ => rfl
  avail := h.avail
  published := h.published
  serials := h.serials
  used := h.used
  requests := h.requests.frame hsame (.refl _) rfl rfl rfl rfl (fun _ hx => hx) (fun e he => by
      obtain ⟨hst, hc⟩ := h.requests.done e he
      refine ⟨hst, fun p c hcall hk => ?_⟩
      have hk : (s.pc p).serial = some e.2 := (hsame p).serial.symm.trans hk
      refine hc p c ?_ hk
      rw [← (hsame p).call ?_]
      · exact hcall
      · cases hpc : s.pc p with
        | wait | sleepBuf | relock => exact nofun
        | _ =>
          rw [hpc] at hk
          exact nomatch hk)
    fun _ _ _ hx => hx

theorem Good.relocked (h : Good s av us start) {locked' : Buf → Option Proc}
    (hlocked : ∀ q c, (s.pc q).call = some c → locked' c.b = some q) :
    Good { s with locked := locked' } av us start where
  panic := h.panic
  lock := h.lock
  locked := hlocked
  chains := h.chains.frame (fun _ => .refl _) rfl (fun _ _ => rfl) rfl fun _ => rfl
  avail := h.avail
  published := h.published
  serials := h.serials
  used := h.used
  requests := h.requests.frame (fun _ => .refl _) (.refl _) rfl rfl rfl rfl
    (fun _ hx => hx) h.requests.done fun _ _ _ hx => hx

theorem Good.lock_eq (h : Good s av us start) (hp : (s.pc p).holds = true)
    (hq : (s.pc q).holds = true) : p = q :=
  Holder.proc.inj (Option.some.inj ((h.lock p hp).symm.trans (h.lock q hq)))

theorem Good.buf_ne (h : Good s av us start) {d : Call Buf} (hp : (s.pc p).call = some c)
    (hq : (s.pc q).call = some d) (hne : q ≠ p) : d.b ≠ c.b := by
  intro hb
  have h1 := h.locked p c hp
  have h2 := h.locked q d hq
  rw [hb] at h2
  exact hne (Option.some.inj (h2.symm.trans h1))

end LazyXv6.Virtio
