import LazyXv6.ExitWait.Model

/-!
# What holds between parents and children

`Pc.Ok` says what a process may rely on where it is. A process in its last steps has no children,
and its parent does not sleep any more when it becomes a zombie; a process that scans the table in
`wait` has its zombies still ahead of it. `Effect` is what one step does.

A zombie can come to a sleeping `init` by `reparent`, which makes it a child of `init` and then
wakes `init`. In between (`Excused`) the exiting process has `wait_lock`.
-/

namespace LazyXv6.ExitWait

open Lib Lib.SmallFin Function

variable {n : ℕ}

namespace Pc

/-- In `sleep(p, &wait_lock)`, asleep or about to be. -/
def inSleep : Pc n → Bool
  | falling _ | asleep _ => true
  | _ => false

def holdsWait : Pc n → Bool
  | reparent .. | reparentWake .. | exitWake .. | exitSelf _ | exitRelease | waitScan ..
  | waitSleep _ | waitRelease _ => true
  | _ => false

/-- Not a process, or one that exits. -/
def mortal : Pc n → Bool
  | unused | used .. | exitLock _ | reparent .. | reparentWake .. | exitWake ..
  | exitSelf _ | exitRelease | exitSched | zombie => true
  | _ => false

/-- There is a process, and it can move by itself or be woken. -/
def runs : Pc n → Bool
  | unused | used .. | zombie => false
  | _ => true

/-- There is a process, or what is left of one. -/
def born : Pc n → Bool
  | unused | used .. => false
  | _ => true

end Pc

/-- `reparent` is about to wake `init`. -/
def State.Excused (s : State n) : Prop :=
  ∃ e status rest visit, s.pc e = .reparentWake status rest visit ∧ 0 ∈ visit

section

variable (s : State n) (p : Slot n)

def Pc.Ok : Pc n → Prop
  | .unused | .used .. | .exitRelease | .exitSched | .zombie => ∀ q, s.parent q ≠ some p
  | .forkCopy np => s.pc np = .used p true
  | .forkParent np => s.pc np = .used p false
  | .forkRun np => s.pc np = .used p false ∧ s.parent np = some p
  | .reparent _ rest | .reparentWake _ rest _ => ∀ q, s.parent q = some p → q ∈ rest
  | .exitWake _ visit => (∀ q, s.parent q ≠ some p) ∧
      ∀ r, s.parent p = some r → (s.pc r).inSleep = true → r ∈ visit
  | .exitSelf _ => (∀ q, s.parent q ≠ some p) ∧ ∀ r, s.parent p = some r → (s.pc r).inSleep = false
  | .waitScan _ rest _ => ∀ q, s.parent q = some p → (s.pc q).state = .zombie → q ∈ rest
  | .waitSleep _ => ∀ q, s.parent q = some p → (s.pc q).state ≠ .zombie
  | .falling _ | .asleep _ =>
    ∀ q, s.parent q = some p → (s.pc q).state = .zombie → p = 0 ∧ s.Excused
  | .user | .exitLock _ | .waitLock _ | .waitRelease _ => True

end

structure Inv (s : State n) : Prop where
  ok : ∀ p, (s.pc p).Ok s p
  lock : ∀ p, (s.pc p).holdsWait = true → s.waitLock = some p
  init : (s.pc 0).mortal = false
  forker : ∀ q p, s.parent q = some p → p = 0 ∨ s.forker q = some p
  parent : ∀ q, q ≠ 0 → (s.pc q).born = true → s.parent q ≠ none

inductive Moved (s s' : State n) (p r : Slot n) : Prop where
  | same (h : s'.pc r = s.pc r)
  | woken (addr : Bool) (h : s.pc r = .asleep addr) (h' : s'.pc r = .waitLock addr)
  | alloc (h : s.pc r = .unused) (h' : s'.pc r = .used p true)
  | forked (locked : Bool) (h : s.pc r = .used p locked)
      (h' : s'.pc r = .unused ∨ s'.pc r = .used p false ∨ s'.pc r = .user ∧ s'.parent r = some p)
  | freed (h : s.pc r = .zombie) (h' : s'.pc r = .unused)

inductive Adopted (s s' : State n) (p q : Slot n) : Prop where
  | same (h : s'.parent q = s.parent q) (h' : s'.forker q = s.forker q)
  | none (h : s'.parent q = none) (hq : s'.pc q = .unused)
  | forked (hq : s.pc q = .used p false) (hlock : s.waitLock = .none) (h : s'.parent q = some p)
      (h' : s'.forker q = some p)
  | init (hlock : s.waitLock = some p) (h : s.parent q = some p) (h' : s'.parent q = some 0)
      (he : s'.Excused)

structure Effect (s s' : State n) (p : Slot n) : Prop where
  runs : (s.pc p).runs = true
  moved : ∀ r, r ≠ p → Moved s s' p r
  adopted : ∀ q, Adopted s s' p q
  lock : s'.waitLock = s.waitLock ∨ s.waitLock = none ∨ s.waitLock = some p
  zombies : ∀ q, (s'.pc q).state = .zombie → (s.pc q).state = .zombie ∨ q = p ∧
    ∃ st, s.pc p = .exitSelf st
  sleepers : ∀ q, (s'.pc q).inSleep = true → (s.pc q).inSleep = true ∨ s.waitLock = some p
  excused : s.Excused → s'.Excused ∨ (s'.pc 0).inSleep = false
  holds : (s'.pc p).holdsWait = true → s'.waitLock = some p
  ok : (s'.pc p).Ok s' p
  init : p = 0 → (s'.pc p).mortal = false

section

variable {s s' : State n} {p q r : Slot n}

/-! ## One process against the others -/

theorem Effect.kid (e : Effect s s' p) (hr : r ≠ p) (hq : s'.parent q = some r) :
    s.parent q = some r ∨ r = 0 ∧ s'.Excused ∧ s.waitLock = some p := by
  rcases e.adopted q with ⟨h, -⟩ | ⟨h, -⟩ | ⟨-, -, h, -⟩ | ⟨hlock, -, h, he⟩
  · rw [← h]
    exact .inl hq
  · rw [h] at hq
    exact nomatch hq
  · rw [h] at hq
    exact absurd (Option.some.inj hq).symm hr
  · rw [h] at hq
    exact .inr ⟨(Option.some.inj hq).symm, he, hlock⟩

theorem Effect.noKids (e : Effect s s' p) (hr : r ≠ p) (h0 : r ≠ 0) (h : ∀ q, s.parent q ≠ some r)
    (q : Slot n) : s'.parent q ≠ some r := by
  intro hq
  rcases e.kid hr hq with hold | ⟨hr0, -⟩
  · exact h q hold
  · exact h0 hr0

theorem Effect.parent_eq (e : Effect s s' p) (hr : r ≠ p) (hlock : s.waitLock = some r) {a : Slot n}
    (ha : s'.parent r = some a) : s.parent r = some a := by
  rcases e.adopted r with ⟨h, -⟩ | ⟨h, -⟩ | ⟨-, hnone, -, -⟩ | ⟨hp, -, -, -⟩
  · rw [← h]
    exact ha
  · rw [h] at ha
    exact nomatch ha
  · exact absurd (hlock.symm.trans hnone) nofun
  · exact absurd (Option.some.inj (hlock.symm.trans hp)) hr

/-- A process that did not move relies on the same as before. -/
theorem Effect.ok_same (e : Effect s s' p) (h : Inv s) (hr : r ≠ p) (hsame : s'.pc r = s.pc r) :
    (s.pc r).Ok s' r := by
  have hok := h.ok r
  have hlock : (s.pc r).holdsWait = true → s.waitLock = some r := h.lock r
  have hmortal : (s.pc r).mortal = true → r ≠ 0 := by
    rintro hm rfl
    exact absurd (hm.symm.trans h.init) nofun
  have hne : s.waitLock = some r → s.waitLock ≠ some p := by
    intro h1 h2
    exact hr (Option.some.inj (h1.symm.trans h2))
  -- What a `fork` of `r` made is out of reach for others.
  have hused : ∀ np locked, s.pc np = .used r locked → s'.pc np = .used r locked := by
    intro np locked hnp
    have hnp' : np ≠ p := by
      rintro rfl
      have hruns := e.runs
      rw [hnp] at hruns
      exact nomatch hruns
    rcases e.moved np hnp' with ⟨hs⟩ | ⟨_, hs, -⟩ | ⟨hs, -⟩ | ⟨_, hs, -⟩ | ⟨hs, -⟩
    · rw [hs, hnp]
    · exact absurd (hnp.symm.trans hs) nofun
    · exact absurd (hnp.symm.trans hs) nofun
    · exact absurd (Pc.used.inj (hnp.symm.trans hs)).1 hr
    · exact absurd (hnp.symm.trans hs) nofun
  have hsleep : s.waitLock = some r → ∀ a, (s'.pc a).inSleep = true → (s.pc a).inSleep = true := by
    intro hl a ha
    exact (e.sleepers a ha).resolve_right (hne hl)
  have hlie : ∀ addr, (s.pc r = .falling addr ∨ s.pc r = .asleep addr) →
      (∀ q, s.parent q = some r → (s.pc q).state = .zombie → r = 0 ∧ s.Excused) →
      ∀ q, s'.parent q = some r → (s'.pc q).state = .zombie → r = 0 ∧ s'.Excused := by
    intro addr hpc hold q hq hz
    have hin : (s.pc r).inSleep = true := by
      rcases hpc with hpc | hpc
      all_goals
        rw [hpc]
        rfl
    rcases e.kid hr hq with hkid | ⟨h0, he, -⟩
    · rcases e.zombies q hz with hz' | ⟨rfl, st, hst⟩
      · obtain ⟨h0, he⟩ := hold q hkid hz'
        refine ⟨h0, (e.excused he).resolve_right fun hno => ?_⟩
        rw [← h0, hsame, hin] at hno
        exact nomatch hno
      · have hself := h.ok q
        rw [hst] at hself
        rw [hself.2 r hkid] at hin
        exact nomatch hin
    · exact ⟨h0, he⟩
  cases hpc : s.pc r with
  | unused | used | exitRelease | exitSched | zombie =>
    rw [hpc] at hok hmortal
    exact e.noKids hr (hmortal rfl) hok
  | forkCopy np | forkParent np =>
    rw [hpc] at hok
    exact hused np _ hok
  | forkRun np =>
    rw [hpc] at hok
    refine ⟨hused np _ hok.1, ?_⟩
    rcases e.adopted np with ⟨hs, -⟩ | ⟨-, hs⟩ | ⟨hs, -, -, -⟩ | ⟨-, hs, -, -⟩
    · rw [hs]
      exact hok.2
    · exact absurd ((hused np _ hok.1).symm.trans hs) nofun
    · exact absurd (Pc.used.inj (hok.1.symm.trans hs)).1 hr
    · exact absurd (Option.some.inj (hok.2.symm.trans hs)) hr
  | reparent st rest | reparentWake st rest visit =>
    rw [hpc] at hok hmortal
    intro q hq
    rcases e.kid hr hq with hold | ⟨h0, -⟩
    · exact hok q hold
    · exact absurd h0 (hmortal rfl)
  | exitWake st visit =>
    rw [hpc] at hok hmortal hlock
    refine ⟨e.noKids hr (hmortal rfl) hok.1, fun a ha hin => ?_⟩
    exact hok.2 a (e.parent_eq hr (hlock rfl) ha) (hsleep (hlock rfl) a hin)
  | exitSelf st =>
    rw [hpc] at hok hmortal hlock
    refine ⟨e.noKids hr (hmortal rfl) hok.1, fun a ha => ?_⟩
    have hold := hok.2 a (e.parent_eq hr (hlock rfl) ha)
    cases hin : (s'.pc a).inSleep with
    | false => rfl
    | true => exact absurd ((hsleep (hlock rfl) a hin).symm.trans hold) nofun
  | waitScan addr rest hk | waitSleep addr =>
    rw [hpc] at hok hlock
    intro q hq hz
    rcases e.kid hr hq with hkid | ⟨-, -, hp⟩
    · rcases e.zombies q hz with hz' | ⟨rfl, st, hst⟩
      · exact hok q hkid hz'
      · have hp : s.waitLock = some q := h.lock q (by rw [hst]; rfl)
        exact absurd hp (hne (hlock rfl))
    · exact absurd hp (hne (hlock rfl))
  | falling addr =>
    rw [hpc] at hok
    exact hlie addr (.inl hpc) hok
  | asleep addr =>
    rw [hpc] at hok
    exact hlie addr (.inr hpc) hok
  | user | exitLock | waitLock | waitRelease => trivial

/-- **A step of one process keeps the invariant of all.** -/
theorem Effect.inv (e : Effect s s' p) (h : Inv s) : Inv s' := by
  have hne0 : ∀ r, (s.pc r).mortal = true → r ≠ 0 := by
    rintro r hm rfl
    exact absurd (hm.symm.trans h.init) nofun
  refine ⟨fun r => ?_, fun r hr => ?_, ?_, fun q a hq => ?_, fun q hq hborn => ?_⟩
  · rcases eq_or_ne r p with rfl | hr
    · exact e.ok
    have hok := h.ok r
    have hmortal := hne0 r
    rcases e.moved r hr with ⟨hs⟩ | ⟨_, -, hs'⟩ | ⟨hs, hs'⟩ | ⟨locked, hs,
      hs' | hs' | ⟨hs', -⟩⟩ | ⟨hs, hs'⟩
    · rw [hs]
      exact e.ok_same h hr hs
    · rw [hs']
      trivial
    · rw [hs] at hok hmortal
      rw [hs']
      exact e.noKids hr (hmortal rfl) hok
    · rw [hs] at hok hmortal
      rw [hs']
      exact e.noKids hr (hmortal rfl) hok
    · rw [hs] at hok hmortal
      rw [hs']
      exact e.noKids hr (hmortal rfl) hok
    · rw [hs']
      trivial
    · rw [hs] at hok hmortal
      rw [hs']
      exact e.noKids hr (hmortal rfl) hok
  · rcases eq_or_ne r p with rfl | hrp
    · exact e.holds hr
    have hold : (s.pc r).holdsWait = true := by
      rcases e.moved r hrp with ⟨hs⟩ | ⟨_, -, hs'⟩ | ⟨-, hs'⟩ | ⟨_, -, hs' | hs' | ⟨hs', -⟩⟩ | ⟨-, hs'⟩
      · rwa [hs] at hr
      all_goals
        rw [hs'] at hr
        exact nomatch hr
    have hlock := h.lock r hold
    rcases e.lock with hl | hl | hl
    · rw [hl]
      exact hlock
    · exact absurd (hlock.symm.trans hl) nofun
    · exact absurd (Option.some.inj (hlock.symm.trans hl)) hrp
  · rcases eq_or_ne 0 p with rfl | h0
    · exact e.init rfl
    have hinit := h.init
    rcases e.moved 0 h0 with ⟨hs⟩ | ⟨_, -, hs'⟩ | ⟨hs, -⟩ | ⟨_, hs, -⟩ | ⟨hs, -⟩
    · rw [hs]
      exact hinit
    · rw [hs']
      rfl
    all_goals
      rw [hs] at hinit
      exact nomatch hinit
  · rcases e.adopted q with ⟨hs, hf⟩ | ⟨hs, -⟩ | ⟨-, -, hs, hf⟩ | ⟨-, -, hs, -⟩
    · rw [hs] at hq
      rw [hf]
      exact h.forker q a hq
    · rw [hs] at hq
      exact nomatch hq
    · rw [hs] at hq
      rw [hf]
      exact .inr hq
    · rw [hs] at hq
      exact .inl (Option.some.inj hq).symm
  · rcases e.adopted q with ⟨hs, -⟩ | ⟨-, hs⟩ | ⟨-, -, hs, -⟩ | ⟨-, -, hs, -⟩
    · -- A process that is born in this step has its parent already.
      by_cases hold : (s.pc q).born = true
      · rw [hs]
        exact h.parent q hq hold
      · rcases eq_or_ne q p with rfl | hqp
        · have hruns := e.runs
          cases hpc : s.pc q with
          | unused | used =>
            rw [hpc] at hruns
            exact nomatch hruns
          | _ =>
            rw [hpc] at hold
            exact absurd rfl hold
        rcases e.moved q hqp with ⟨hm⟩ | ⟨_, hm, -⟩ | ⟨-, hm⟩ | ⟨_, -, hm | hm | ⟨-, hm⟩⟩ | ⟨hm, -⟩
        · rw [hm] at hborn
          exact absurd hborn hold
        · rw [hm] at hold
          exact absurd rfl hold
        · rw [hm] at hborn
          exact nomatch hborn
        · rw [hm] at hborn
          exact nomatch hborn
        · rw [hm] at hborn
          exact nomatch hborn
        · rw [hm]
          exact nofun
        · rw [hm] at hold
          exact absurd rfl hold
    · rw [hs] at hborn
      exact nomatch hborn
    · rw [hs]
      exact nofun
    · rw [hs]
      exact nofun

end

end LazyXv6.ExitWait
