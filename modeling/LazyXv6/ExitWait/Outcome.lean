import LazyXv6.ExitWait.Steps

/-!
# Every exit is waited for at most once

A step either leaves the zombies alone (`KeepsZombies`), or it forks, makes a zombie or frees one
(`ZombieStep`). The log of exits and frees follows from that (`LogInv`).
-/

namespace LazyXv6.ExitWait

open Lib Function

variable {n : ℕ} {s s' s'' : State n} {p q r : Slot n}

/-- The step touches no zombie and uses no free slot. -/
structure KeepsZombies (s s' : State n) : Prop where
  log : s'.log = s.log
  gen : s'.gen = s.gen
  zombie : ∀ q, (s'.pc q).state = .zombie ↔ (s.pc q).state = .zombie
  values : ∀ q, (s.pc q).state = .zombie → s'.pid q = s.pid q ∧ s'.xstate q = s.xstate q
  unused : ∀ q, s.pc q = .unused → s'.pc q = .unused

inductive ZombieStep (s : State n) : Act n → State n → Prop where
  | keeps {a : Act n} {s' : State n} (h : KeepsZombies s s') : ZombieStep s a s'
  | fork (p np : Slot n) (hp : s.pc p = .user) (hnp : s.pc np = .unused) :
      ZombieStep s (.fork p np)
        ({ s with pid := update s.pid np s.nextpid
                  nextpid := s.nextpid + 1
                  gen := update s.gen np (s.gen np + 1) }.setPc np (.used p true) |>.setPc p
                  (.forkCopy np))
  | exited (p : Slot n) (ok : Bool) (status : ℤ) (hp : s.pc p = .exitSelf status) :
      ZombieStep s (.go p ok)
        ({ s with xstate := update s.xstate p status
                  log := .exited p (s.gen p) (s.pid p) status :: s.log }.setPc p .exitRelease)
  | freed (p q : Slot n) (ok addr : Bool) (rest : List (Slot n)) (havekids : Bool)
      (hp : s.pc p = .waitScan addr (q :: rest) havekids) (hparent : s.parent q = some p)
      (hq : s.pc q = .zombie) :
      ZombieStep s (.go p ok)
        ({ s with log := .freed p q (s.gen q) (s.pid q) (s.xstate q) :: s.log }.freeproc q |>.setPc p
          (.waitRelease (some (s.pid q, if addr then some (s.xstate q) else none))))

/-! ## Steps that keep the zombies -/

theorem KeepsZombies.refl (s : State n) : KeepsZombies s s :=
  ⟨rfl, rfl, fun _ => .rfl, fun _ _ => ⟨rfl, rfl⟩, fun _ h => h⟩

theorem KeepsZombies.trans (h : KeepsZombies s s') (h' : KeepsZombies s' s'') :
    KeepsZombies s s'' where
  log := h'.log.trans h.log
  gen := h'.gen.trans h.gen
  zombie q := (h'.zombie q).trans (h.zombie q)
  values q hq := by
    obtain ⟨hpid, hx⟩ := h.values q hq
    obtain ⟨hpid', hx'⟩ := h'.values q ((h.zombie q).mpr hq)
    exact ⟨hpid'.trans hpid, hx'.trans hx⟩
  unused q hq := h'.unused q (h.unused q hq)

theorem KeepsZombies.move {x y : Pc n} (hx : s.pc p = x) (hpc : s'.pc = update s.pc p y)
    (hlog : s'.log = s.log) (hgen : s'.gen = s.gen) (hpid : s'.pid = s.pid)
    (hxstate : s'.xstate = s.xstate) (hz : y.state = .zombie ↔ x.state = .zombie)
    (hu : x ≠ .unused) : KeepsZombies s s' where
  log := hlog
  gen := hgen
  zombie q := by
    rw [hpc]
    rcases eq_or_ne q p with rfl | hq
    · rw [update_self, hx]
      exact hz
    · rw [update_of_ne hq]
  values q _ := by
    rw [hpid, hxstate]
    exact ⟨rfl, rfl⟩
  unused q hq := by
    have hqp : q ≠ p := by
      rintro rfl
      exact hu (hx.symm.trans hq)
    rw [hpc, update_of_ne hqp, hq]

theorem KeepsZombies.setPc {x y : Pc n} (hx : s.pc p = x)
    (hz : y.state = .zombie ↔ x.state = .zombie) (hu : x ≠ .unused) :
    KeepsZombies s (s.setPc p y) :=
  .move hx rfl rfl rfl rfl rfl hz hu

theorem KeepsZombies.acquire {x y : Pc n} (hx : s.pc p = x) (hs : s.acquire p y = some s')
    (hz : y.state = .zombie ↔ x.state = .zombie) (hu : x ≠ .unused) : KeepsZombies s s' := by
  obtain ⟨-, he⟩ := Option.ite_none_right_eq_some.mp hs
  cases he
  exact .move hx rfl rfl rfl rfl rfl hz hu

theorem KeepsZombies.freeproc {locked : Bool} (hq : s.pc q = .used p locked) :
    KeepsZombies s (s.freeproc q) where
  log := rfl
  gen := rfl
  zombie r := by
    show (update s.pc q _ r).state = _ ↔ _
    rcases eq_or_ne r q with rfl | hr
    · rw [update_self, hq]
      exact ⟨nofun, nofun⟩
    · rw [update_of_ne hr]
  values r hr := by
    have hrq : r ≠ q := ne_of_state hq hr nofun
    exact ⟨update_of_ne hrq .., update_of_ne hrq ..⟩
  unused r hr := by
    have hrq : r ≠ q := ne_of_apply_ne s.pc (by simp [hq, hr])
    exact (update_of_ne hrq ..).trans hr

theorem KeepsZombies.visit {chan : Option (Slot n)} (hs : s.visit p q chan = some s') :
    KeepsZombies s s' := by
  rcases (visit_cases hs).1 with rfl | ⟨addr, hq, -, rfl⟩
  · exact .refl s'
  · exact .setPc hq ⟨nofun, nofun⟩ nofun

theorem visit_pc_self {chan : Option (Slot n)} (hs : s.visit p q chan = some s') :
    s'.pc p = s.pc p := by
  rcases (visit_cases hs).1 with rfl | ⟨addr, -, hqp, rfl⟩
  · rfl
  · exact update_of_ne hqp.symm ..

/-! ## All steps -/

theorem scan_zombieStep {addr hk ok : Bool} {rest : List (Slot n)}
    (hp : s.pc p = .waitScan addr (q :: rest) hk) (hs : s.scan p q addr ok rest hk = some s') :
    ZombieStep s (.go p ok) s' := by
  have hmove : ∀ y : Pc n, y.state ≠ .zombie → ZombieStep s (.go p ok) (s.setPc p y) := fun y hy =>
    .keeps (.setPc hp ⟨fun h => absurd h hy, nofun⟩ nofun)
  unfold State.scan at hs
  split at hs
  case isFalse =>
    cases hs
    exact hmove _ nofun
  case isTrue hq =>
  split at hs
  · exact nomatch hs
  case isFalse hlocked =>
  split at hs
  case isFalse =>
    cases hs
    exact hmove _ nofun
  case isTrue hz =>
  split at hs
  · cases hs
    exact hmove _ nofun
  · cases hs
    exact .freed p q ok addr rest hk hp hq (Pc.eq_zombie hz hlocked)

theorem go_zombieStep (h : Inv s) {ok : Bool} (hs : s.go p ok = some s') :
    ZombieStep s (.go p ok) s' := by
  have hnone : ∀ {x y : Pc n}, x.state ≠ .zombie → y.state ≠ .zombie →
      (y.state = .zombie ↔ x.state = .zombie) :=
      fun hx hy => ⟨fun h => absurd h hy, fun h => absurd h hx⟩
  unfold State.go at hs
  split at hs
  case h_1 | h_2 | h_3 | h_4 | h_5 => exact nomatch hs
  case h_6 np hp =>
    have hnp : s.pc np = .used p true := h.okAt hp
    have hne : p ≠ np := ne_of_apply_ne s.pc (by simp [hp, hnp])
    have hp' : ∀ y, update s.pc np y p = .forkCopy np := fun y => (update_of_ne hne ..).trans hp
    split at hs
    · cases hs
      have hcopied : KeepsZombies s (s.setPc np (.used p false)) := .setPc hnp (hnone nofun nofun) nofun
      exact .keeps (hcopied.trans (.setPc (hp' _) (hnone nofun nofun) nofun))
    · cases hs
      exact .keeps (.trans (.freeproc hnp) (.setPc (hp' _) (hnone nofun nofun) nofun))
  case h_7 np hp =>
    obtain ⟨-, he⟩ := Option.ite_none_right_eq_some.mp hs
    cases he
    exact .keeps (.move hp rfl rfl rfl rfl rfl (hnone nofun nofun) nofun)
  case h_8 np hp =>
    cases hs
    have hnp : s.pc np = .used p false := (h.okAt hp).1
    have hne : p ≠ np := ne_of_apply_ne s.pc (by simp [hp, hnp])
    have hborn : KeepsZombies s (s.setPc np .user) := .setPc hnp (hnone nofun nofun) nofun
    exact .keeps (hborn.trans (.setPc ((update_of_ne hne ..).trans hp) (hnone nofun nofun) nofun))
  case h_9 st hp | h_19 addr hp => exact .keeps (.acquire hp hs (hnone nofun nofun) nofun)
  case h_10 st hp | h_12 st rest hp | h_14 st hp | h_24 addr hp =>
    cases hs
    exact .keeps (.setPc hp (hnone nofun nofun) nofun)
  case h_11 st q rest hp =>
    split at hs
    · cases hs
      exact .keeps (.move hp rfl rfl rfl rfl rfl (hnone nofun nofun) nofun)
    · cases hs
      exact .keeps (.setPc hp (hnone nofun nofun) nofun)
  case h_13 st rest q qs hp | h_15 st q qs hp =>
    obtain ⟨s₁, hv, he⟩ := Option.map_eq_some_iff.mp hs
    cases he
    exact .keeps (.trans (.visit hv) (.setPc ((visit_pc_self hv).trans hp) (hnone nofun nofun) nofun))
  case h_16 st hp =>
    cases hs
    exact .exited p ok st hp
  case h_17 hp =>
    cases hs
    exact .keeps (.move hp rfl rfl rfl rfl rfl ⟨fun _ => rfl, fun _ => rfl⟩ nofun)
  case h_18 hp =>
    cases hs
    exact .keeps (.setPc hp ⟨fun _ => rfl, fun _ => rfl⟩ nofun)
  case h_20 addr hk hp =>
    split at hs
    · cases hs
      exact .keeps (.move hp rfl rfl rfl rfl rfl (hnone nofun nofun) nofun)
    · cases hs
      exact .keeps (.move hp rfl rfl rfl rfl rfl (hnone nofun nofun) nofun)
  case h_21 addr hp | h_23 ret hp =>
    cases hs
    exact .keeps (.move hp rfl rfl rfl rfl rfl (hnone nofun nofun) nofun)
  case h_22 addr q rest hk hp => exact scan_zombieStep hp hs

theorem next_zombieStep {a : Act n} (h : Inv s) (hs : next s a = some s') : ZombieStep s a s' := by
  cases a with
  | go p ok => exact go_zombieStep h hs
  | fork p np =>
    obtain ⟨⟨hp, hnp⟩, he⟩ := Option.ite_none_right_eq_some.mp hs
    cases he
    exact .fork p np hp hnp
  | exit p status =>
    obtain ⟨⟨hp, -⟩, he⟩ := Option.ite_none_right_eq_some.mp hs
    cases he
    exact .keeps (.setPc hp ⟨nofun, nofun⟩ nofun)
  | wait p addr =>
    obtain ⟨hp, he⟩ := Option.ite_none_right_eq_some.mp hs
    cases he
    exact .keeps (.setPc hp ⟨nofun, nofun⟩ nofun)
  | kill q =>
    have hs : s.kill q = some s' := hs
    unfold State.kill at hs
    split at hs
    · exact nomatch hs
    split at hs
    case h_1 addr hq =>
      cases hs
      exact .keeps (.move hq rfl rfl rfl rfl rfl ⟨nofun, nofun⟩ nofun)
    case h_2 =>
      cases hs
      exact .keeps ⟨rfl, rfl, fun _ => .rfl, fun _ _ => ⟨rfl, rfl⟩, fun _ h => h⟩

/-! ## The log -/

/-- The process that an entry says was freed: its slot, and which of the slot's processes. -/
def Event.freedProc : Event n → Option (Slot n × ℕ)
  | exited .. => none
  | freed _ q gen _ _ => some (q, gen)

structure LogInv (s : State n) : Prop where
  exited : ∀ q, (s.pc q).state = .zombie → .exited q (s.gen q) (s.pid q) (s.xstate q) ∈ s.log
  before : ∀ p q gen pid st, .freed p q gen pid st ∈ s.log → .exited q gen pid st ∈ s.log
  past : ∀ p q gen pid st, .freed p q gen pid st ∈ s.log → gen ≤ s.gen q ∧
    (gen = s.gen q → s.pc q = .unused)
  once : (s.log.filterMap Event.freedProc).Nodup

theorem LogInv.step {a : Act n} (h : LogInv s) (hs : ZombieStep s a s') : LogInv s' := by
  cases hs with
  | keeps hk =>
    refine ⟨fun q hq => ?_, ?_, ?_, ?_⟩
    · have hz := (hk.zombie q).mp hq
      obtain ⟨hpid, hx⟩ := hk.values q hz
      rw [hk.log, hk.gen, hpid, hx]
      exact h.exited q hz
    · rw [hk.log]
      exact h.before
    · rw [hk.log, hk.gen]
      intro p q gen pid st hf
      obtain ⟨hle, hu⟩ := h.past p q gen pid st hf
      exact ⟨hle, fun he => hk.unused q (hu he)⟩
    · rw [hk.log]
      exact h.once
  | fork p np hp hnp =>
    have hne : np ≠ p := ne_of_apply_ne s.pc (by simp [hp, hnp])
    refine ⟨fun q hq => ?_, h.before, fun p' q gen pid st hf => ?_, h.once⟩
    · have hq : (update (update s.pc np (.used p true)) p (.forkCopy np) q).state = .zombie := hq
      have hqp : q ≠ p := ne_of_state (update_self ..) hq nofun
      have hqn : q ≠ np := by
        rintro rfl
        rw [update_of_ne hqp, update_self] at hq
        exact nomatch hq
      rw [update_of_ne hqp, update_of_ne hqn] at hq
      show .exited q (update s.gen np _ q) (update s.pid np _ q) _ ∈ s.log
      rw [update_of_ne hqn, update_of_ne hqn]
      exact h.exited q hq
    · obtain ⟨hle, hu⟩ := h.past p' q gen pid st hf
      show gen ≤ update s.gen np _ q ∧ (gen = update s.gen np _ q → _)
      rcases eq_or_ne q np with rfl | hqn
      · rw [update_self]
        exact ⟨by omega, fun he => absurd he (by omega)⟩
      · rw [update_of_ne hqn]
        refine ⟨hle, fun he => ?_⟩
        have hq := hu he
        have hqp : q ≠ p := ne_of_apply_ne s.pc (by simp [hp, hq])
        show update (update s.pc np _) p _ q = _
        rw [update_of_ne hqp, update_of_ne hqn, hq]
  | exited p ok status hp =>
    refine ⟨fun q hq => ?_, fun p' q gen pid st hf => ?_, fun p' q gen pid st hf => ?_, h.once⟩
    · show .exited q (s.gen q) (s.pid q) (update s.xstate p status q) ∈ _ :: s.log
      rcases eq_or_ne q p with rfl | hqp
      · rw [update_self]
        exact List.mem_cons_self
      · have hq : (update s.pc p _ q).state = .zombie := hq
        rw [update_of_ne hqp] at hq ⊢
        exact List.mem_cons_of_mem _ (h.exited q hq)
    · have hf := (List.mem_cons.mp hf).resolve_left nofun
      exact List.mem_cons_of_mem _ (h.before p' q gen pid st hf)
    · have hf := (List.mem_cons.mp hf).resolve_left nofun
      obtain ⟨hle, hu⟩ := h.past p' q gen pid st hf
      refine ⟨hle, fun he => ?_⟩
      have hqp : q ≠ p := ne_of_apply_ne s.pc (by simp [hp, (hu he)])
      exact (update_of_ne hqp ..).trans (hu he)
  | freed p q ok addr rest hk hp hparent hq =>
    have hz : (s.pc q).state = .zombie := by
      rw [hq]
      rfl
    have hqp : q ≠ p := ne_of_apply_ne s.pc (by simp [hp, hq])
    have hfree : update (update s.pc q .unused) p
        (.waitRelease (some (s.pid q, if addr then some (s.xstate q) else none))) q = .unused := by
      rw [update_of_ne hqp, update_self]
    refine ⟨fun r hr => ?_, fun p' r gen pid st hf => ?_, fun p' r gen pid st hf => ?_, ?_⟩
    · have hr : (update (update s.pc q .unused) p
          (.waitRelease (some (s.pid q, if addr then some (s.xstate q) else none))) r).state =
          .zombie := hr
      have hrp : r ≠ p := ne_of_state (update_self ..) hr nofun
      have hrq : r ≠ q := ne_of_state hfree hr nofun
      rw [update_of_ne hrp, update_of_ne hrq] at hr
      show .exited r (s.gen r) (update s.pid q 0 r) (update s.xstate q 0 r) ∈ _ :: s.log
      rw [update_of_ne hrq, update_of_ne hrq]
      exact List.mem_cons_of_mem _ (h.exited r hr)
    · rcases List.mem_cons.mp hf with he | hf
      · cases he
        exact List.mem_cons_of_mem _ (h.exited q hz)
      · exact List.mem_cons_of_mem _ (h.before p' r gen pid st hf)
    · rcases List.mem_cons.mp hf with he | hf
      · cases he
        exact ⟨le_rfl, fun _ => hfree⟩
      · obtain ⟨hle, hu⟩ := h.past p' r gen pid st hf
        refine ⟨hle, fun he => ?_⟩
        have hr := hu he
        have hrp : r ≠ p := ne_of_apply_ne s.pc (by simp [hp, hr])
        have hrq : r ≠ q := ne_of_apply_ne s.pc (by simp [hq, hr])
        show update (update s.pc q _) p _ r = _
        rw [update_of_ne hrp, update_of_ne hrq, hr]
    · -- Whoever was freed from this slot before is an earlier process than this zombie.
      refine List.nodup_cons.mpr ⟨fun hmem => ?_, h.once⟩
      obtain ⟨e, he, hk⟩ := List.mem_filterMap.mp hmem
      cases e with
      | exited => exact nomatch hk
      | freed p' r gen pid st =>
        cases hk
        have hu := (h.past p' q (s.gen q) pid st he).2 rfl
        exact absurd (hq.symm.trans hu) nofun

theorem logInv_boot : LogInv (boot : State n) where
  exited q hq := by
    rcases eq_or_ne q 0 with rfl | h0
    · exact nomatch hq
    · have hpc : (boot : State n).pc q = .unused := update_of_ne h0 _ fun _ => Pc.unused
      rw [hpc] at hq
      exact nomatch hq
  before _ _ _ _ _ := nofun
  past _ _ _ _ _ := nofun
  once := List.nodup_nil

/-! ## The protocol -/

structure Promised (s : State n) : Prop where
  once : (s.log.filterMap Event.freedProc).Nodup
  /-- Who is freed has exited, with that process id and status. -/
  exited : ∀ p q gen pid st, .freed p q gen pid st ∈ s.log → .exited q gen pid st ∈ s.log
  /-- A zombie ends in a `wait` of its parent, which returns its process id and, if asked for, its
  status. -/
  reaped : ∀ a s' q, next s a = some s' → (s.pc q).state = .zombie → (s'.pc q).state ≠ .zombie →
    ∃ p ok addr rest havekids, a = .go p ok ∧ s.pc p = .waitScan addr (q :: rest) havekids ∧
      s.parent q = some p ∧ (p = 0 ∨ s.forker q = some p) ∧ s'.pc q = .unused ∧
      s'.pc p = .waitRelease (some (s.pid q, if addr then some (s.xstate q) else none)) ∧
      s'.log = .freed p q (s.gen q) (s.pid q) (s.xstate q) :: s.log
  /-- And nothing else is recorded as freed. -/
  recorded : ∀ a s' p q gen pid st, next s a = some s' → .freed p q gen pid st ∈ s'.log →
    .freed p q gen pid st ∈ s.log ∨ (s.pc q).state = .zombie ∧ (s'.pc q).state ≠ .zombie
  /-- A zombie has a parent, and a parent is neither unused nor a zombie. -/
  orphan : ∀ q, (s.pc q).state = .zombie → s.parent q ≠ none
  parent : ∀ p q, s.parent q = some p → (s.pc p).state ≠ .unused ∧ (s.pc p).state ≠ .zombie
  /-- Nobody sleeps with a zombie child, but for `init` when `reparent` is about to wake it. -/
  served : ∀ p q, (s.pc p).state = .sleeping → s.parent q = some p → (s.pc q).state = .zombie →
    p = 0 ∧ ∃ e st rest visit, s.waitLock = some e ∧
    s.pc e = .reparentWake st rest visit ∧ 0 ∈ visit

theorem reaped_of_zombieStep {a : Act n} (h : Inv s) (hs : ZombieStep s a s')
    (hz : (s.pc q).state = .zombie) (hz' : (s'.pc q).state ≠ .zombie) :
    ∃ p ok addr rest havekids, a = .go p ok ∧ s.pc p = .waitScan addr (q :: rest) havekids ∧
      s.parent q = some p ∧ (p = 0 ∨ s.forker q = some p) ∧ s'.pc q = .unused ∧
      s'.pc p = .waitRelease (some (s.pid q, if addr then some (s.xstate q) else none)) ∧
      s'.log = .freed p q (s.gen q) (s.pid q) (s.xstate q) :: s.log := by
  cases hs with
  | keeps hk => exact absurd ((hk.zombie q).mpr hz) hz'
  | fork p np hp hnp =>
    have hqp : q ≠ p := ne_of_state hp hz nofun
    have hqn : q ≠ np := ne_of_state hnp hz nofun
    have hz' : (update (update s.pc np _) p _ q).state ≠ .zombie := hz'
    rw [update_of_ne hqp, update_of_ne hqn] at hz'
    exact absurd hz hz'
  | exited p ok status hp =>
    have hqp : q ≠ p := ne_of_state hp hz nofun
    have hz' : (update s.pc p _ q).state ≠ .zombie := hz'
    rw [update_of_ne hqp] at hz'
    exact absurd hz hz'
  | freed p r ok addr rest hk hp hparent hr =>
    have hqp : q ≠ p := ne_of_state hp hz nofun
    rcases eq_or_ne q r with rfl | hqr
    · refine ⟨p, ok, addr, rest, hk, rfl, hp, hparent, h.forker q p hparent, ?_, update_self .., rfl⟩
      show update (update s.pc q _) p _ q = _
      rw [update_of_ne hqp, update_self]
    · have hz' : (update (update s.pc r _) p _ q).state ≠ .zombie := hz'
      rw [update_of_ne hqp, update_of_ne hqr] at hz'
      exact absurd hz hz'

theorem recorded_of_zombieStep {a : Act n} (hs : ZombieStep s a s') {gen : ℕ} {pid st : ℤ}
    (hf : .freed p q gen pid st ∈ s'.log) :
    .freed p q gen pid st ∈ s.log ∨ (s.pc q).state = .zombie ∧ (s'.pc q).state ≠ .zombie := by
  cases hs with
  | keeps hk =>
    rw [hk.log] at hf
    exact .inl hf
  | fork => exact .inl hf
  | exited => exact .inl ((List.mem_cons.mp hf).resolve_left nofun)
  | freed p' r ok addr rest hk hp hparent hr =>
    rcases List.mem_cons.mp hf with he | hf
    · cases he
      have hqp : q ≠ p := ne_of_apply_ne s.pc (by simp [hp, hr])
      refine .inr ⟨by rw [hr]; rfl, ?_⟩
      show (update (update s.pc q _) p _ q).state ≠ _
      rw [update_of_ne hqp, update_self]
      exact nofun
    · exact .inl hf

theorem Inv.parent_state (h : Inv s) (hq : s.parent q = some p) :
    (s.pc p).state ≠ .unused ∧ (s.pc p).state ≠ .zombie := by
  have hok := h.ok p
  cases hpc : s.pc p with
  | unused | exitRelease | exitSched | zombie =>
    rw [hpc] at hok
    exact absurd hq (hok q)
  | _ => exact ⟨nofun, nofun⟩

theorem Inv.orphan (h : Inv s) (hz : (s.pc q).state = .zombie) : s.parent q ≠ none := by
  have h0 : q ≠ 0 := by
    rintro rfl
    have hinit := h.init
    cases hpc : s.pc (0 : Slot n) with
    | zombie | exitRelease | exitSched =>
      rw [hpc] at hinit
      exact nomatch hinit
    | _ =>
      rw [hpc] at hz
      exact nomatch hz
  refine h.parent q h0 ?_
  cases hpc : s.pc q with
  | unused | used =>
    rw [hpc] at hz
    exact nomatch hz
  | _ => rfl

theorem Inv.served (h : Inv s) (hp : (s.pc p).state = .sleeping) (hq : s.parent q = some p)
    (hz : (s.pc q).state = .zombie) :
    p = 0 ∧ ∃ e st rest visit, s.waitLock = some e ∧ s.pc e = .reparentWake st rest visit ∧
    0 ∈ visit := by
  cases hpc : s.pc p with
  | asleep addr =>
    obtain ⟨h0, e, st, rest, visit, he, hmem⟩ := h.okAt hpc q hq hz
    exact ⟨h0, e, st, rest, visit, h.lockAt he rfl, he, hmem⟩
  | _ =>
    rw [hpc] at hp
    exact nomatch hp

/-- **In every run, exits are waited for as they should be.** -/
theorem exit_wait_protocol (h : Reach next boot s) : Promised s := by
  obtain ⟨hinv, hlog⟩ := h.invariant (I := fun s => Inv s ∧ LogInv s)
    (fun s a s' hs ha => ⟨hs.1.next ha, hs.2.step (next_zombieStep hs.1 ha)⟩)
    ⟨inv_boot, logInv_boot⟩
  exact {
    once := hlog.once
    exited := hlog.before
    reaped := fun a s' q hs => reaped_of_zombieStep hinv (next_zombieStep hinv hs)
    recorded := fun a s' p q gen pid st hs => recorded_of_zombieStep (next_zombieStep hinv hs)
    orphan := fun q => hinv.orphan
    parent := fun p q => hinv.parent_state
    served := fun p q => hinv.served }

section

private def forkActs (p np : Slot n) : List (Act n) := .fork p np :: List.replicate 3 (.go p true)

/-- `p` exits, and is a zombie afterwards. -/
private def exitActs (p : Slot n) (status : ℤ) : List (Act n) :=
  .exit p status :: List.replicate (2 * n + 8) (.go p true)

/-- `init` waits for a child that has exited with status `7`. -/
theorem exit_wait_protocol_oneChild : ∃ s : State 1, Reach next boot s ∧ Promised s ∧
    s.log = [.freed 0 1 1 2 7, .exited 1 1 2 7] ∧ s.pc 0 = .waitRelease (some (2, some 7)) := by
  obtain ⟨s, hs, hprop⟩ : ∃ s ∈ runActs next (boot : State 1)
      (forkActs 0 1 ++ exitActs 1 7 ++ .wait 0 true :: List.replicate 3 (.go 0 true)),
      s.log = [.freed 0 1 1 2 7, .exited 1 1 2 7] ∧ s.pc 0 = .waitRelease (some (2, some 7)) := by
    decide +kernel
  have hreach := reach_of_runActs hs
  exact ⟨s, hreach, exit_wait_protocol hreach, hprop⟩

/-- `init` sleeps in `wait` when a process that exits hands its zombie child on to it. -/
theorem init_asleep_with_zombie : ∃ s : State 2, Reach next boot s ∧ (s.pc 0).state = .sleeping ∧
    s.parent 2 = some 0 ∧ (s.pc 2).state = .zombie := by
  obtain ⟨s, hs, hprop⟩ : ∃ s ∈ runActs next (boot : State 2)
      (forkActs 0 1 ++ forkActs 1 2 ++ .wait 0 true :: List.replicate 7 (.go 0 true) ++ exitActs 2 7 ++
        .exit 1 0 :: List.replicate 4 (.go 1 true)),
      (s.pc 0).state = .sleeping ∧ s.parent 2 = some 0 ∧ (s.pc 2).state = .zombie := by decide +kernel
  exact ⟨s, reach_of_runActs hs, hprop⟩

end

end LazyXv6.ExitWait
