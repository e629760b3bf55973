import LazyXv6.Pipe.Model

/-!
# Who wakes the users of a pipe

A process sleeps in `piperead` while the pipe is empty, and in `pipewrite` while it is full. Whoever
changes that wakes all sleepers before it releases `pi->lock` (`Pc.owes`), with one exception: a
`pipewrite` that was killed returns without a `wakeup`, even if it has put bytes in the ring before.
-/

namespace LazyXv6.Pipe

open Lib Lib.SmallFin Function

variable {N : ℕ} {s s' : State N} {p q : Fin N} {chan : Chan}

/-- What a sleeper on the channel waits for is not there. -/
def State.Blocked (s : State N) : Chan → Prop
  | .nread => s.nread = s.nwrite ∧ s.writeopen = true
  | .nwrite => s.nwrite = s.nread + 512 ∧ s.readopen = true

instance (s : State N) : ∀ chan, Decidable (s.Blocked chan)
  | .nread => inferInstanceAs (Decidable (_ ∧ _))
  | .nwrite => inferInstanceAs (Decidable (_ ∧ _))

/-- While nobody has the lock, every sleeper has a reason to sleep. -/
def State.Served (s : State N) : Prop :=
  s.lock = none → ∀ p chan call, s.pc p = .sleeping chan call → s.Blocked chan

/-- The process is in `sleep(chan, &pi->lock)`, asleep or about to be. -/
def Pc.inSleep (chan : Chan) : Pc N → Bool
  | .falling c _ | .sleeping c _ => decide (c = chan)
  | _ => false

def Pc.locked : Pc N → Bool
  | .write .. | .read _ | .readCopy .. | .readSleep _ | .close _ | .wakeup .. => true
  | .user | .acquire _ | .falling .. | .sleeping .. | .runnable _ => false

/-- The process is going to sleep on the channel. -/
def Pc.toSleep : Pc N → Option Chan
  | .readSleep _ => some .nread
  | .wakeup _ _ (.sleep ..) => some .nwrite
  | _ => none

/-- The process is going to wake `q` from its sleep on the channel. -/
def Pc.owes (chan : Chan) (q : Fin N) : Pc N → Prop
  | .write _ _ placed => chan = .nread ∧ placed = true
  | .readCopy .. => chan = .nwrite
  | .close writable => chan = if writable then .nread else .nwrite
  | .wakeup c visit _ => c = chan ∧ q ∈ visit
  | _ => False

/-- A `pipewrite` that gives up (no reader is left, or it was killed) has put no byte in the ring
since it has the lock, or nobody sleeps for one. -/
def Announces (s : State N) : Act N → Prop
  | .go p _ =>
    match s.pc p with
    | .write n i true => (i : ℤ) < n → (!s.readopen || s.killed p) = true →
        ∀ q, (s.pc q).inSleep .nread = false
    | _ => True
  | _ => True

instance (s : State N) : ∀ a, Decidable (Announces s a)
  | .go p _ => by
    unfold Announces
    dsimp only
    split
    · infer_instance
    · infer_instance
  | .pipewrite .. | .piperead .. | .pipeclose .. | .kill _ => .isTrue trivial

structure Inv (s : State N) : Prop where
  lock : ∀ p, (s.pc p).locked = true → s.lock = some p
  toSleep : ∀ p chan, (s.pc p).toSleep = some chan → s.Blocked chan
  served : ∀ p chan, (s.pc p).inSleep chan = true → s.Blocked chan ∨ ∃ q, (s.pc q).owes chan p

theorem Pc.locked_of_owes {c : Pc N} (h : c.owes chan q) : c.locked = true := by
  cases c with
  | write | readCopy | close | wakeup => rfl
  | user | acquire | read | readSleep | falling | sleeping | runnable => exact h.elim

theorem Pc.locked_of_toSleep {c : Pc N} (h : c.toSleep = some chan) : c.locked = true := by
  cases c with
  | readSleep | wakeup => rfl
  | _ => cases h

theorem Inv.eq_of_locked (h : Inv s) (hp : (s.pc p).locked = true) (hq : (s.pc q).locked = true) :
    q = p := Option.some.inj ((h.lock q hq).symm.trans (h.lock p hp))

theorem Inv.serves (h : Inv s) : s.Served := by
  intro hlock p chan call hp
  have hsleep : (s.pc p).inSleep chan = true := by
    rw [hp]
    exact decide_eq_true rfl
  refine (h.served p chan hsleep).resolve_right fun ⟨q, hq⟩ => ?_
  exact absurd ((h.lock q (Pc.locked_of_owes hq)).symm.trans hlock) nofun

/-! ## Kinds of steps -/

structure SameEnds (s s' : State N) : Prop where
  nread : s'.nread = s.nread
  nwrite : s'.nwrite = s.nwrite
  readopen : s'.readopen = s.readopen
  writeopen : s'.writeopen = s.writeopen

theorem SameEnds.blocked (h : SameEnds s s') (hb : s.Blocked chan) : s'.Blocked chan := by
  cases chan with
  | nread =>
    unfold State.Blocked
    rw [h.nread, h.nwrite, h.writeopen]
    exact hb
  | nwrite =>
    unfold State.Blocked
    rw [h.nread, h.nwrite, h.readopen]
    exact hb

theorem Inv.idle (h : Inv s) {c : Pc N} (hold : (s.pc p).locked = false) (hnew : c.locked = false)
    (hsleep : ∀ chan, c.inSleep chan = true → (s.pc p).inSleep chan = true)
    (hpc : s'.pc = update s.pc p c) (hlock : s'.lock = s.lock) (hsame : SameEnds s s') :
    Inv s' := by
  have hother : ∀ q, (s'.pc q).locked = true → s'.pc q = s.pc q := by
    intro q hq
    rw [hpc] at hq ⊢
    refine update_of_ne ?_ ..
    rintro rfl
    rw [update_self, hnew] at hq
    exact nomatch hq
  refine ⟨fun q hq => ?_, fun q c hq => ?_, fun q chan hq => ?_⟩
  · rw [hlock]
    exact h.lock q (hother q hq ▸ hq)
  · have hsleep : (s.pc q).toSleep = some c := hother q (Pc.locked_of_toSleep hq) ▸ hq
    exact hsame.blocked (h.toSleep q c hsleep)
  · have hq' : (s.pc q).inSleep chan = true := by
      rw [hpc] at hq
      rcases eq_or_ne q p with rfl | hne
      · rw [update_self] at hq
        exact hsleep chan hq
      · rwa [update_of_ne hne] at hq
    rcases h.served q chan hq' with hb | ⟨r, hr⟩
    · exact .inl (hsame.blocked hb)
    · have hne : r ≠ p := by
        rintro rfl
        rw [Pc.locked_of_owes hr] at hold
        exact nomatch hold
      refine .inr ⟨r, ?_⟩
      rw [hpc, update_of_ne hne]
      exact hr

theorem Inv.run (h : Inv s) {x y : Pc N} (hx : s.pc p = x) (hlocked : x.locked = true)
    (hpc : s'.pc = update s.pc p y) (hlock : y.locked = true → s'.lock = some p)
    (hfull : ∀ c, y.toSleep = some c → s'.Blocked c)
    (hself : ∀ chan, y.inSleep chan = true → s'.Blocked chan)
    (hother : ∀ q chan, q ≠ p → (s.pc q).inSleep chan = true → s.Blocked chan ∨ x.owes chan q →
      s'.Blocked chan ∨ y.owes chan q) : Inv s' := by
  subst hx
  have hself' : s'.pc p = y := by
    rw [hpc]
    exact update_self ..
  have hp : ∀ q, (s'.pc q).locked = true → q = p := by
    intro q hq
    by_contra hne
    rw [hpc, update_of_ne hne] at hq
    exact hne (h.eq_of_locked hlocked hq)
  refine ⟨fun q hq => ?_, fun q c hq => ?_, fun q chan hq => ?_⟩
  · obtain rfl := hp q hq
    rw [hself'] at hq
    exact hlock hq
  · obtain rfl := hp q (Pc.locked_of_toSleep hq)
    rw [hself'] at hq
    exact hfull c hq
  · rcases eq_or_ne q p with rfl | hne
    · rw [hself'] at hq
      exact .inl (hself chan hq)
    · rw [hpc, update_of_ne hne] at hq
      have hold : s.Blocked chan ∨ (s.pc p).owes chan q := by
        refine (h.served q chan hq).imp_right fun ⟨r, hr⟩ => ?_
        rwa [h.eq_of_locked hlocked (Pc.locked_of_owes hr)] at hr
      refine (hother q chan hne hq hold).imp_right fun ho => ⟨p, ?_⟩
      rw [hself']
      exact ho

theorem Inv.toWakeup (h : Inv s) {s₁ : State N} {x : Pc N} {k : After} (hx : s.pc p = x)
    (hlocked : x.locked = true) (hpc : s₁.pc = s.pc) (hlock : s₁.lock = s.lock)
    (hk : ∀ n i, k = .sleep n i → s₁.Blocked .nwrite)
    (hother : ∀ c, c ≠ chan → (∃ q, s.Blocked c ∨ x.owes c q) → s₁.Blocked c) :
    Inv (s₁.wakeup p chan k) := by
  refine h.run hx hlocked (congrArg (update · p _) hpc) (fun _ => ?_) (fun c he => ?_) nofun
    fun q c _ _ hold => ?_
  · show s₁.lock = some p
    rw [hlock]
    exact h.lock p (hx ▸ hlocked)
  · cases k with
    | sleep n i =>
      cases he
      exact hk n i rfl
    | _ => cases he
  · by_cases hc : c = chan
    · exact .inr ⟨hc.symm, List.mem_finRange q⟩
    · exact .inl (hother c hc ⟨q, hold⟩)

/-! ## The steps -/

theorem Inv.pipewrite (h : Inv s) {n : ℤ} {i : ℕ} {placed : Bool} {io : Io}
    (hpc : s.pc p = .write n i placed) (ha : Announces s (.go p io)) :
    Inv (s.pipewrite p n i io) := by
  have hfree : ∀ {k}, (∀ n i, k = After.sleep n i → s.Blocked .nwrite) →
    Inv (s.wakeup p .nread k) := by
    intro k hk
    refine h.toWakeup hpc rfl rfl rfl hk fun c hc hold => ?_
    obtain ⟨q, hb | ho⟩ := hold
    · exact hb
    · exact absurd ho.1 hc
  unfold State.pipewrite
  split
  case isFalse => exact hfree nofun
  case isTrue hn =>
  split
  case isTrue hgive =>
    refine h.run hpc rfl rfl nofun nofun nofun fun q c _ hq hold => ?_
    rcases hold with hb | ⟨rfl, rfl⟩
    · exact .inl hb
    · unfold Announces at ha
      simp only [hpc] at ha
      rw [ha hn hgive q] at hq
      exact nomatch hq
  case isFalse hgive =>
  split
  case isTrue hfull =>
    have hopen : s.readopen = true := by
      cases hr : s.readopen with
      | true => rfl
      | false =>
        rw [hr] at hgive
        exact absurd rfl hgive
    exact hfree fun n i _ => ⟨hfull, hopen⟩
  case isFalse hroom =>
  split
  · exact hfree nofun
  · refine h.run hpc rfl rfl (fun _ => h.lock p (by rw [hpc]; rfl)) nofun nofun fun q c _ _ hold => ?_
    cases c with
    | nread => exact .inr ⟨rfl, rfl⟩
    | nwrite =>
      rcases hold with hb | ho
      · exact absurd hb.1 hroom
      · exact nomatch ho.1

/-- A step of a process that owes nobody anything. -/
theorem Inv.quiet (h : Inv s) {x y : Pc N} (hx : s.pc p = x) (hlocked : x.locked = true)
    (howes : ∀ c q, ¬x.owes c q) (hpc : s'.pc = update s.pc p y)
    (hlock : y.locked = true → s'.lock = s.lock) (hsame : SameEnds s s')
    (hfull : ∀ c, y.toSleep = some c → s.Blocked c)
    (hself : ∀ c, y.inSleep c = true → s.Blocked c) : Inv s' := by
  refine h.run hx hlocked hpc (fun hy => ?_) (fun c hc => hsame.blocked (hfull c hc))
    (fun c hc => hsame.blocked (hself c hc)) fun q c _ _ hold => ?_
  · rw [hlock hy]
    exact h.lock p (hx ▸ hlocked)
  · exact .inl (hsame.blocked (hold.resolve_right (howes c q)))

theorem Inv.piperead (h : Inv s) {n : ℤ} (hpc : s.pc p = .read n) : Inv (s.piperead p n) := by
  unfold State.piperead
  split
  case isTrue hempty =>
    split
    · exact h.quiet hpc rfl (fun _ _ => id) rfl nofun ⟨rfl, rfl, rfl, rfl⟩ nofun nofun
    · refine h.quiet hpc rfl (fun _ _ => id) rfl (fun _ => rfl) ⟨rfl, rfl, rfl, rfl⟩
        (fun c hc => ?_) nofun
      cases hc
      exact hempty
  case isFalse =>
    exact h.quiet hpc rfl (fun _ _ => id) rfl (fun _ => rfl) ⟨rfl, rfl, rfl, rfl⟩ nofun nofun

theorem Inv.readSleep (h : Inv s) {n : ℤ} (hpc : s.pc p = .readSleep n) :
    Inv (s.release.setPc p (.falling .nread (.read n))) := by
  refine h.quiet hpc rfl (fun _ _ => id) rfl nofun ⟨rfl, rfl, rfl, rfl⟩ nofun fun c hc => ?_
  obtain rfl : Chan.nread = c := of_decide_eq_true hc
  exact h.toSleep p .nread (by rw [hpc]; rfl)

theorem Inv.pipereadCopy (h : Inv s) {n : ℤ} {i : ℕ} {io : Io} (hpc : s.pc p = .readCopy n i) :
    Inv (s.pipereadCopy p n i io) := by
  have hfree : Inv (s.wakeup p .nwrite .done) := by
    refine h.toWakeup hpc rfl rfl rfl nofun fun c hc hold => ?_
    obtain ⟨q, hb | ho⟩ := hold
    · exact hb
    · exact absurd ho hc
  unfold State.pipereadCopy
  split
  case isFalse => exact hfree
  split
  case isTrue => exact hfree
  case isFalse hne =>
    -- Nobody sleeps for a byte, for there is one.
    have hread : ∀ q, ¬(s.Blocked .nread ∨ (Pc.readCopy n i : Pc N).owes .nread q) := by
      rintro q (hb | ho)
      · exact hne hb.1
      · exact nomatch ho
    dsimp only
    split
    · refine h.run hpc rfl rfl (fun _ => h.lock p (by rw [hpc]; rfl)) nofun nofun fun q c _ _ hold => ?_
      cases c with
      | nread => exact absurd hold (hread q)
      | nwrite => exact .inr rfl
    · refine h.toWakeup hpc rfl rfl rfl nofun fun c hc hold => ?_
      obtain ⟨q, hold⟩ := hold
      cases c with
      | nread => exact absurd hold (hread q)
      | nwrite => exact absurd rfl hc

theorem Inv.pipeclose (h : Inv s) {writable : Bool} (hpc : s.pc p = .close writable) :
    Inv (s.pipeclose p writable) := by
  unfold State.pipeclose
  cases writable with
  | true =>
    refine h.toWakeup hpc rfl rfl rfl nofun fun c hc hold => ?_
    obtain ⟨q, hb | ho⟩ := hold
    · cases c with
      | nread => exact absurd rfl hc
      | nwrite => exact hb
    · exact absurd ho hc
  | false =>
    refine h.toWakeup hpc rfl rfl rfl nofun fun c hc hold => ?_
    obtain ⟨q, hb | ho⟩ := hold
    · cases c with
      | nread => exact hb
      | nwrite => exact absurd rfl hc
    · exact absurd ho hc

theorem Inv.afterWakeup (h : Inv s) {k : After} (hpc : s.pc p = .wakeup chan [] k) :
    Inv (s.afterWakeup p k) := by
  have howes : ∀ c (q : Fin N), ¬(Pc.wakeup chan [] k).owes c q := by simp [Pc.owes]
  cases k with
  | sleep n i =>
    refine h.quiet hpc rfl howes rfl nofun ⟨rfl, rfl, rfl, rfl⟩ nofun fun c hc => ?_
    obtain rfl : Chan.nwrite = c := of_decide_eq_true hc
    exact h.toSleep p .nwrite (by rw [hpc]; rfl)
  | written | done => exact h.quiet hpc rfl howes rfl nofun ⟨rfl, rfl, rfl, rfl⟩ nofun nofun

theorem Inv.visit (h : Inv s) (hv : s.visit p q chan = some s') :
    Inv s' ∧ s'.pc p = s.pc p ∧ (q ≠ p → (s'.pc q).inSleep chan = false) := by
  unfold State.visit at hv
  split at hv
  case isTrue hqp =>
    cases hv
    exact ⟨h, rfl, fun hne => absurd hqp hne⟩
  case isFalse hqp =>
    split at hv
    · exact nomatch hv
    case h_2 c call hq =>
      cases hv
      split
      case isTrue hc =>
        refine ⟨h.idle (p := q) (c := .runnable call) ?_ ?_ nofun rfl rfl ⟨rfl, rfl, rfl, rfl⟩, ?_,
          fun _ => ?_⟩
        · rw [hq]
          rfl
        · rfl
        · exact update_of_ne (Ne.symm hqp) ..
        · show (update s.pc q _ q).inSleep chan = false
          rw [update_self]
          rfl
      case isFalse hc =>
        refine ⟨h, rfl, fun _ => ?_⟩
        rw [hq]
        exact decide_eq_false hc
    case h_3 hf hs =>
      cases hv
      refine ⟨h, rfl, fun _ => ?_⟩
      cases hq : s.pc q with
      | falling c call => exact absurd hq (hf c call)
      | sleeping c call => exact absurd hq (hs c call)
      | _ => rfl

theorem Inv.wakeup (h : Inv s) {qs : List (Fin N)} {k : After}
    (hpc : s.pc p = .wakeup chan (q :: qs) k) (hv : s.visit p q chan = some s') :
    Inv (s'.setPc p (.wakeup chan qs k)) := by
  obtain ⟨h', hpc', hq⟩ := h.visit hv
  rw [hpc] at hpc'
  refine h'.run hpc' rfl rfl (fun _ => h'.lock p (by rw [hpc']; rfl))
    (fun c he => h'.toSleep p c ?_) nofun fun r c hr hsleep hold => ?_
  · rw [hpc']
    cases k with
    | sleep => exact he
    | _ => cases he
  · rcases hold with hb | ⟨rfl, ho⟩
    · exact .inl hb
    · rcases List.mem_cons.mp ho with rfl | hmem
      · rw [hq hr] at hsleep
        exact nomatch hsleep
      · exact .inr ⟨rfl, hmem⟩

theorem Inv.acquire (h : Inv s) {call : Call} (hpc : s.pc p = .acquire call)
    (hlock : s.lock = none) : Inv ({ s with lock := some p }.setPc p (State.enter call)) := by
  have hnobody : ∀ q, (s.pc q).locked = false := by
    intro q
    cases hq : (s.pc q).locked with
    | false => rfl
    | true => exact absurd ((h.lock q hq).symm.trans hlock) nofun
  have hblocked : ∀ q chan, (s.pc q).inSleep chan = true → s.Blocked chan := by
    intro q chan hq
    refine (h.served q chan hq).resolve_right fun ⟨r, hr⟩ => ?_
    exact absurd ((Pc.locked_of_owes hr).symm.trans (hnobody r)) nofun
  have hsame : SameEnds s ({ s with lock := some p }.setPc p (State.enter call)) :=
    ⟨rfl, rfl, rfl, rfl⟩
  have hpc' : ∀ q, ({ s with lock := some p }.setPc p (State.enter call)).pc q =
      if q = p then State.enter call else s.pc q := fun q => update_apply ..
  refine ⟨fun q hq => ?_, fun q c hq => ?_, fun q chan hq => .inl (hsame.blocked ?_)⟩
  · rw [hpc'] at hq
    split at hq
    case isTrue he => rw [he]; rfl
    case isFalse => exact absurd (hq.symm.trans (hnobody q)) nofun
  · rw [hpc'] at hq
    split at hq
    case isTrue =>
      cases call with
      | write | read | close => exact nomatch hq
    case isFalse => exact absurd ((Pc.locked_of_toSleep hq).symm.trans (hnobody q)) nofun
  · rw [hpc'] at hq
    split at hq
    case isTrue =>
      cases call with
      | write | read | close => exact nomatch hq
    case isFalse => exact hblocked q chan hq

theorem Inv.go (h : Inv s) {io : Io} (ha : Announces s (.go p io)) (hs : s.go p io = some s') :
    Inv s' := by
  unfold State.go at hs
  split at hs
  case h_1 | h_2 => exact nomatch hs
  case h_3 call hpc =>
    obtain ⟨hlock, he⟩ := Option.ite_none_right_eq_some.mp hs
    cases he
    exact h.acquire hpc hlock
  case h_4 n i placed hpc =>
    cases hs
    exact h.pipewrite hpc ha
  case h_5 n hpc =>
    cases hs
    exact h.piperead hpc
  case h_6 n i hpc =>
    cases hs
    exact h.pipereadCopy hpc
  case h_7 n hpc =>
    cases hs
    exact h.readSleep hpc
  case h_8 writable hpc =>
    cases hs
    exact h.pipeclose hpc
  case h_9 chan k hpc =>
    cases hs
    exact h.afterWakeup hpc
  case h_10 chan q qs k hpc =>
    obtain ⟨s₁, hv, he⟩ := Option.map_eq_some_iff.mp hs
    cases he
    exact h.wakeup hpc hv
  case h_11 chan call hpc =>
    cases hs
    refine h.idle (p := p) ?_ rfl (fun c hc => ?_) rfl rfl ⟨rfl, rfl, rfl, rfl⟩
    · rw [hpc]
      rfl
    · rw [hpc]
      exact hc
  case h_12 call hpc =>
    cases hs
    refine h.idle (p := p) (c := .acquire call) ?_ rfl nofun rfl rfl ⟨rfl, rfl, rfl, rfl⟩
    rw [hpc]
    rfl

theorem Inv.start (h : Inv s) {call : Call} (hpc : s.pc p = .user)
    (hpc' : s'.pc = update s.pc p (.acquire call)) (hlock : s'.lock = s.lock)
    (hsame : SameEnds s s') : Inv s' := by
  refine h.idle (p := p) (c := .acquire call) ?_ rfl nofun hpc' hlock hsame
  rw [hpc]
  rfl

theorem Inv.kill (h : Inv s) (hs : s.kill q = some s') : Inv s' := by
  unfold State.kill at hs
  split at hs
  · exact nomatch hs
  case h_2 c call hq =>
    cases hs
    refine h.idle (p := q) (c := .runnable call) ?_ rfl nofun rfl rfl ⟨rfl, rfl, rfl, rfl⟩
    rw [hq]
    rfl
  case h_3 =>
    cases hs
    exact ⟨h.lock, h.toSleep, h.served⟩

theorem Inv.next {a : Act N} (h : Inv s) (ha : Announces s a) (hs : next s a = some s') :
    Inv s' := by
  cases a with
  | go p io => exact h.go ha hs
  | pipewrite | piperead =>
    obtain ⟨⟨hpc, -⟩, he⟩ := Option.ite_none_right_eq_some.mp hs
    cases he
    exact h.start hpc rfl rfl ⟨rfl, rfl, rfl, rfl⟩
  | pipeclose p writable =>
    obtain ⟨hpc, he⟩ := Option.ite_none_right_eq_some.mp hs
    obtain ⟨s₁, h₁, he⟩ := Option.map_eq_some_iff.mp he
    cases he
    unfold State.closeEnd at h₁
    split at h₁
    · exact nomatch h₁
    split at h₁
    · obtain ⟨-, he⟩ := Option.ite_none_right_eq_some.mp h₁
      cases he
      exact h.start hpc rfl rfl ⟨rfl, rfl, rfl, rfl⟩
    · obtain ⟨-, he⟩ := Option.ite_none_right_eq_some.mp h₁
      cases he
      exact h.start hpc rfl rfl ⟨rfl, rfl, rfl, rfl⟩
  | kill q => exact h.kill hs

theorem inv_pipealloc (data : ℕ → UInt8) : Inv (pipealloc data : State N) := ⟨nofun, nofun, nofun⟩

/-- **No user of a pipe is left asleep** in a run in which no `pipewrite` gives up after it has put
bytes in the ring that somebody sleeps for. -/
theorem no_user_left_asleep (data : ℕ → UInt8) (h : ReachIf next Announces (pipealloc data) s) :
    s.Served :=
  (h.invariant (fun _ _ _ hi ha hs => hi.next ha hs) (inv_pipealloc data)).serves

/-- A process goes to sleep in `piperead`, and another puts one of two bytes in the pipe. -/
def sleeperAndByte : List (Act 2) :=
  [.piperead 1 1, .go 1 ⟨none, true⟩, .go 1 ⟨none, true⟩, .go 1 ⟨none, true⟩, .go 1 ⟨none, true⟩,
    .pipewrite 0 2, .go 0 ⟨none, true⟩, .go 0 ⟨some 7, true⟩]

/-- The writer puts in the other byte, too, and wakes the reader. -/
theorem no_user_left_asleep_written :
    ∃ s : State 2, s.lock = none ∧ s.accepted = [7, 8] ∧ s.pc 1 = .runnable (.read 1) ∧
    s.Served := by
  obtain ⟨s, hs, hlock, hacc, hpc⟩ :
    ∃ s ∈ runActsIf next Announces (pipealloc fun _ => 0) (sleeperAndByte ++
      [.go 0 ⟨some 8, true⟩, .go 0 ⟨none, true⟩, .go 0 ⟨none, true⟩, .go 0 ⟨none, true⟩,
        .go 0 ⟨none, true⟩]), s.lock = none ∧ s.accepted = [7, 8] ∧ s.pc 1 = .runnable (.read 1) := by
    decide +kernel
  exact ⟨s, hlock, hacc, hpc, no_user_left_asleep _ (reachIf_of_runActsIf hs)⟩

/-- The writer is killed before the other byte: it returns, and the reader sleeps on beside the
byte. -/
theorem strands_pipe_reader : ∃ s : State 2, Reach next (pipealloc fun _ => 0) s ∧ ¬s.Served := by
  obtain ⟨s, hs, hlock, hpc, hnot⟩ : ∃ s ∈ runActs next (pipealloc fun _ => 0) (sleeperAndByte ++
      [.kill 0, .go 0 ⟨some 8, true⟩]),
      s.lock = none ∧ s.pc 1 = .sleeping .nread (.read 1) ∧ ¬s.Blocked .nread := by decide +kernel
  exact ⟨s, reach_of_runActs hs, fun h => hnot (h hlock 1 .nread _ hpc)⟩

end LazyXv6.Pipe
