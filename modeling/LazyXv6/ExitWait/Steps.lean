import LazyXv6.ExitWait.Protocol

/-!
# The steps of exit and wait

Every step of `go`, and every start of a call, has an `Effect`.
-/

namespace LazyXv6.ExitWait

open Lib Function

variable {n : ℕ} {s s' : State n} {p q r : Slot n}

theorem Pc.eq_zombie {c : Pc n} (hz : c.state = .zombie) (hlocked : ¬c.locked = true) :
    c = .zombie := by
  cases c with
  | zombie => rfl
  | exitRelease | exitSched => exact absurd rfl hlocked
  | _ => cases hz

/-! ## Kinds of steps -/

section

variable {x y : Pc n}

theorem Moved.zombie (h : Moved s s' p r) (hz : (s'.pc r).state = .zombie) :
    (s.pc r).state = .zombie := by
  rcases h with ⟨hs⟩ | ⟨_, -, hs'⟩ | ⟨-, hs'⟩ | ⟨_, -, hs' | hs' | ⟨hs', -⟩⟩ | ⟨-, hs'⟩
  · rwa [hs] at hz
  all_goals
    rw [hs'] at hz
    exact nomatch hz

theorem Moved.inSleep (h : Moved s s' p r) (hin : (s'.pc r).inSleep = true) :
    (s.pc r).inSleep = true := by
  rcases h with ⟨hs⟩ | ⟨_, -, hs'⟩ | ⟨-, hs'⟩ | ⟨_, -, hs' | hs' | ⟨hs', -⟩⟩ | ⟨-, hs'⟩
  · rwa [hs] at hin
  all_goals
    rw [hs'] at hin
    exact nomatch hin

theorem Moved.reparentWake (h : Moved s s' p r) {st : ℤ} {rest visit : List (Slot n)}
    (hr : s.pc r = .reparentWake st rest visit) : s'.pc r = .reparentWake st rest visit := by
  rcases h with ⟨hs⟩ | ⟨_, hs, -⟩ | ⟨hs, -⟩ | ⟨_, hs, -⟩ | ⟨hs, -⟩
  · rw [hs, hr]
  all_goals exact absurd (hr.symm.trans hs) nofun

/-- A step, by what it does to the process itself and to each other one. -/
theorem Effect.of (hx : s.pc p = x) (hy : s'.pc p = y) (hruns : x.runs = true)
    (hmoved : ∀ r, r ≠ p → Moved s s' p r) (hadopted : ∀ q, Adopted s s' p q)
    (hlock : s'.waitLock = s.waitLock ∨ s.waitLock = none ∨ s.waitLock = some p)
    (hz : y.state = .zombie → x.state = .zombie ∨ ∃ st, x = .exitSelf st)
    (hsleep : y.inSleep = true → x.inSleep = true ∨ s.waitLock = some p)
    (hexc : ∀ st rest visit, x = .reparentWake st rest visit → 0 ∈ visit → s'.Excused ∨
      (s'.pc 0).inSleep = false) (hholds : y.holdsWait = true → s'.waitLock = some p)
    (hok : y.Ok s' p) (hinit : p = 0 → y.mortal = false) : Effect s s' p := by
  subst hx hy
  refine ⟨hruns, hmoved, hadopted, hlock, fun q hq => ?_, fun q hq => ?_, ?_, hholds, hok, hinit⟩
  · rcases eq_or_ne q p with rfl | hne
    · exact (hz hq).imp_right fun h => ⟨rfl, h⟩
    · exact .inl ((hmoved q hne).zombie hq)
  · rcases eq_or_ne q p with rfl | hne
    · exact hsleep hq
    · exact .inl ((hmoved q hne).inSleep hq)
  · rintro ⟨e, st, rest, visit, he, h0⟩
    rcases eq_or_ne e p with rfl | hne
    · exact hexc st rest visit he h0
    · exact .inl ⟨e, st, rest, visit, (hmoved e hne).reparentWake he, h0⟩

/-- Besides `p` the step changes at most `q`. -/
theorem Moved.pair (hpc : s'.pc = update (update s.pc q x) p y) (hq : s'.pc q = x → Moved s s' p q)
    (hr : r ≠ p) : Moved s s' p r := by
  rcases eq_or_ne r q with rfl | hrq
  · apply hq
    simp [hpc, hr]
  · apply Moved.same
    simp [hpc, hr, hrq]

theorem Effect.quiet (hx : s.pc p = x) (hpc : s'.pc = update s.pc p y)
    (hparent : s'.parent = s.parent) (hforker : s'.forker = s.forker) (hruns : x.runs = true)
    (hlock : s'.waitLock = s.waitLock ∨ s.waitLock = none ∨ s.waitLock = some p)
    (hz : y.state = .zombie → x.state = .zombie ∨ ∃ st, x = .exitSelf st)
    (hsleep : y.inSleep = true → x.inSleep = true ∨ s.waitLock = some p)
    (hexc : ∀ st rest visit, x = .reparentWake st rest visit → 0 ∉ visit)
    (hholds : y.holdsWait = true → s'.waitLock = some p) (hok : y.Ok s' p)
    (hinit : p = 0 → y.mortal = false) : Effect s s' p := by
  refine .of hx ?_ hruns (fun r hr => .same ?_) (fun q => .same ?_ ?_) hlock hz hsleep
    (fun st rest visit he h0 => absurd h0 (hexc st rest visit he)) hholds hok hinit
  · rw [hpc]
    exact update_self ..
  · rw [hpc]
    exact update_of_ne hr ..
  · rw [hparent]
  · rw [hforker]

end

theorem Inv.ne_zero (h : Inv s) (hm : (s.pc p).mortal = true) : p ≠ 0 := by
  rintro rfl
  exact absurd (hm.symm.trans h.init) nofun

theorem Inv.okAt (h : Inv s) {c : Pc n} (hpc : s.pc p = c) : c.Ok s p := hpc ▸ h.ok p

theorem Inv.lockAt (h : Inv s) {c : Pc n} (hpc : s.pc p = c) (hc : c.holdsWait = true) :
    s.waitLock = some p := by
  subst hpc
  exact h.lock p hc

theorem Inv.ne_zeroAt (h : Inv s) {c : Pc n} (hpc : s.pc p = c) (hc : c.mortal = true) : p ≠ 0 := by
  subst hpc
  exact h.ne_zero hc

theorem ne_of_state {pc : Slot n → Pc n} {x : Pc n} {st : ProcState} (hp : pc p = x)
    (hq : (pc q).state = st) (hx : x.state ≠ st) : q ≠ p := by
  rintro rfl
  exact hx (hp ▸ hq)

theorem ne_of_used {x : Pc n} {locked : Bool} (hp : s.pc p = x) (hx : x.runs = true)
    (hq : s.pc q = .used r locked) : q ≠ p := by
  rintro rfl
  cases hp.symm.trans hq
  cases hx

theorem zombie_of_update {y : Pc n} (hy : y.state ≠ .zombie)
    (hz : (update s.pc p y q).state = .zombie) : (s.pc q).state = .zombie := by
  rcases eq_or_ne q p with rfl | hne
  · rw [update_self] at hz
    exact absurd hz hy
  · rwa [update_of_ne hne] at hz

/-! ## `fork` -/

section

variable {np : Slot n}

theorem fork_effect (hp : s.pc p = .user) (hnp : s.pc np = .unused) (pid : Slot n → ℤ) (nextpid : ℤ)
    (gen : Slot n → ℕ) :
    Effect s ({ s with pid := pid, nextpid := nextpid, gen := gen }.setPc np
      (.used p true) |>.setPc p (.forkCopy np)) p := by
  have hne : np ≠ p := ne_of_apply_ne s.pc (by simp [hp, hnp])
  have hnp' : update (update s.pc np (.used p true)) p (.forkCopy np) np = .used p true := by
    rw [update_of_ne hne, update_self]
  refine .of hp (update_self ..) rfl (fun r => .pair rfl (.alloc hnp)) (fun q => .same rfl rfl)
    (.inl rfl) nofun nofun nofun nofun hnp' fun _ => rfl

theorem forkCopy_effect (h : Inv s) (hp : s.pc p = .forkCopy np) :
    Effect s ((s.setPc np (.used p false)).setPc p (.forkParent np)) p := by
  have hnp : s.pc np = .used p true := h.okAt hp
  have hne := ne_of_used hp rfl hnp
  have hnp' : update (update s.pc np (.used p false)) p (.forkParent np) np = .used p false := by
    rw [update_of_ne hne, update_self]
  refine .of hp (update_self ..) rfl (fun r => .pair rfl fun h => .forked true hnp (.inr (.inl h)))
    (fun q => .same rfl rfl) (.inl rfl) nofun nofun nofun nofun hnp' fun _ => rfl

theorem forkFails_effect (h : Inv s) (hp : s.pc p = .forkCopy np) :
    Effect s ((s.freeproc np).setPc p .user) p := by
  have hnp : s.pc np = .used p true := h.okAt hp
  have hne := ne_of_used hp rfl hnp
  refine .of hp (update_self ..) rfl (fun r => .pair rfl fun h => .forked true hnp (.inl h))
    (fun q => ?_) (.inl rfl) nofun nofun nofun nofun trivial fun _ => rfl
  rcases eq_or_ne q np with rfl | hqn
  · refine .none (update_self ..) ?_
    show update (update s.pc q _) p _ q = _
    rw [update_of_ne hne, update_self]
  · exact .same (update_of_ne hqn ..) rfl

theorem forkParent_effect (h : Inv s) (hp : s.pc p = .forkParent np) (hlock : s.waitLock = none) :
    Effect s ({ s with parent := update s.parent np (some p)
                       forker := update s.forker np (some p) }.setPc p (.forkRun np)) p := by
  have hnp : s.pc np = .used p false := h.okAt hp
  have hne := ne_of_used hp rfl hnp
  refine .of hp (update_self ..) rfl (fun r hr => .same (update_of_ne hr ..)) (fun q => ?_)
    (.inl rfl) nofun nofun nofun nofun ?_ fun _ => rfl
  · rcases eq_or_ne q np with rfl | hqn
    · exact .forked hnp hlock (update_self ..) (update_self ..)
    · exact .same (update_of_ne hqn ..) (update_of_ne hqn ..)
  · refine ⟨?_, update_self ..⟩
    show update s.pc p _ np = _
    rw [update_of_ne hne, hnp]

theorem forkRun_effect (h : Inv s) (hp : s.pc p = .forkRun np) :
    Effect s ((s.setPc np .user).setPc p .user) p := by
  obtain ⟨hnp, hparent⟩ := h.okAt hp
  exact .of hp (update_self ..) rfl
    (fun r => .pair rfl fun h => .forked false hnp (.inr (.inr ⟨h, hparent⟩)))
    (fun q => .same rfl rfl) (.inl rfl) nofun nofun nofun nofun trivial fun _ => rfl

end

/-! ## `wakeup` -/

theorem visit_cases {chan : Option (Slot n)} {s₁ : State n} (hv : s.visit p q chan = some s₁) :
    (s₁ = s ∨ ∃ addr, s.pc q = .asleep addr ∧ q ≠ p ∧ s₁ = s.setPc q (.waitLock addr)) ∧
      (chan = some q → q ≠ p → (s₁.pc q).inSleep = false) := by
  unfold State.visit at hv
  split at hv
  case isTrue hqp =>
    cases hv
    exact ⟨.inl rfl, fun _ hne => absurd hqp hne⟩
  case isFalse hqp =>
  split at hv
  · exact nomatch hv
  case isFalse hlocked =>
  split at hv
  case h_1 addr hq =>
    split at hv
    case isTrue hc =>
      cases hv
      refine ⟨.inr ⟨addr, hq, hqp, rfl⟩, fun _ _ => ?_⟩
      show (update s.pc q _ q).inSleep = false
      rw [update_self]
      rfl
    case isFalse hc =>
      cases hv
      exact ⟨.inl rfl, fun he => absurd he hc⟩
  case h_2 hasleep =>
    cases hv
    refine ⟨.inl rfl, fun _ _ => ?_⟩
    cases hq : s.pc q with
    | asleep addr => exact absurd hq (hasleep addr)
    | falling addr =>
      rw [hq] at hlocked
      exact absurd rfl hlocked
    | _ => rfl

theorem visit_moved {chan : Option (Slot n)} {s₁ : State n} {y : Pc n}
    (hv : s.visit p q chan = some s₁) (hr : r ≠ p) : Moved s (s₁.setPc p y) p r := by
  rcases (visit_cases hv).1 with rfl | ⟨addr, hq, hqp, rfl⟩
  · exact .same (update_of_ne hr ..)
  · exact .pair rfl (.woken addr hq) hr

theorem visit_rest {chan : Option (Slot n)} {s₁ : State n} (hv : s.visit p q chan = some s₁) :
    s₁.parent = s.parent ∧ s₁.forker = s.forker ∧ s₁.waitLock = s.waitLock := by
  rcases (visit_cases hv).1 with rfl | ⟨_, -, -, rfl⟩
  · exact ⟨rfl, rfl, rfl⟩
  · exact ⟨rfl, rfl, rfl⟩

theorem reparentWake_effect (h : Inv s) {st : ℤ} {rest qs : List (Slot n)} {s₁ : State n}
    (hp : s.pc p = .reparentWake st rest (q :: qs)) (hv : s.visit p q (some 0) = some s₁) :
    Effect s (s₁.setPc p (.reparentWake st rest qs)) p := by
  obtain ⟨hparent, hforker, hlock⟩ := visit_rest hv
  have hne := h.ne_zeroAt hp rfl
  refine .of hp (update_self ..) rfl (fun r hr => visit_moved hv hr) (fun a => .same ?_ ?_)
    (.inl hlock) nofun nofun (fun st' rest' visit he h0 => ?_) (fun _ => ?_) ?_ fun h0 =>
    absurd h0 hne
  · exact congrFun hparent a
  · exact congrFun hforker a
  · cases he
    rcases List.mem_cons.mp h0 with rfl | hmem
    · refine .inr ?_
      show (update s₁.pc p _ 0).inSleep = false
      rw [update_of_ne hne.symm]
      exact (visit_cases hv).2 rfl hne.symm
    · exact .inl ⟨p, st, rest, qs, update_self .., hmem⟩
  · exact hlock.trans (h.lockAt hp rfl)
  · intro a ha
    have ha : s.parent a = some p := (congrFun hparent a).symm.trans ha
    exact h.okAt hp a ha

theorem exitWake_effect (h : Inv s) {st : ℤ} {qs : List (Slot n)} {s₁ : State n}
    (hp : s.pc p = .exitWake st (q :: qs)) (hv : s.visit p q (s.parent p) = some s₁) :
    Effect s (s₁.setPc p (.exitWake st qs)) p := by
  obtain ⟨hparent, hforker, hlock⟩ := visit_rest hv
  have hne := h.ne_zeroAt hp rfl
  have hok := h.okAt hp
  refine .of hp (update_self ..) rfl (fun r hr => visit_moved hv hr) (fun a => .same ?_ ?_)
    (.inl hlock) nofun nofun nofun (fun _ => ?_) ⟨fun a ha => ?_, fun a ha hin => ?_⟩ fun h0 =>
    absurd h0 hne
  · exact congrFun hparent a
  · exact congrFun hforker a
  · exact hlock.trans (h.lockAt hp rfl)
  · exact hok.1 a ((congrFun hparent a).symm.trans ha)
  · have ha : s.parent p = some a := (congrFun hparent p).symm.trans ha
    have hap : a ≠ p := by
      rintro rfl
      exact hok.1 a ha
    have hold := (visit_moved (y := .exitWake st qs) hv hap).inSleep hin
    rcases List.mem_cons.mp (hok.2 a ha hold) with rfl | hmem
    · have hno := (visit_cases hv).2 ha hap
      have hin : (update s₁.pc p _ a).inSleep = true := hin
      rw [update_of_ne hap, hno] at hin
      exact nomatch hin
    · exact hmem

/-! ## `exit` -/

theorem reparent_effect (h : Inv s) {st : ℤ} {rest : List (Slot n)}
    (hp : s.pc p = .reparent st (q :: rest)) (hq : s.parent q = some p) :
    Effect s ({ s with parent := update s.parent q (some 0) }.setPc p
      (.reparentWake st rest (List.finRange (n + 1)))) p := by
  have hne := h.ne_zeroAt hp rfl
  have hlock := h.lockAt hp rfl
  refine .of hp (update_self ..) rfl (fun r hr => .same (update_of_ne hr ..)) (fun a => ?_)
    (.inl rfl) nofun nofun nofun (fun _ => hlock) (fun a ha => ?_) fun h0 => absurd h0 hne
  · rcases eq_or_ne a q with rfl | haq
    · exact .init hlock hq (update_self ..)
        ⟨p, st, rest, List.finRange (n + 1), update_self .., List.mem_finRange 0⟩
    · exact .same (update_of_ne haq ..) rfl
  · have ha : update s.parent q (some 0) a = some p := ha
    rcases eq_or_ne a q with rfl | haq
    · rw [update_self] at ha
      exact absurd (Option.some.inj ha).symm hne
    · rw [update_of_ne haq] at ha
      exact (List.mem_cons.mp (h.okAt hp a ha)).resolve_left haq

theorem exitSelf_effect (h : Inv s) {st : ℤ} (hp : s.pc p = .exitSelf st) (xstate : Slot n → ℤ)
    (log : List (Event n)) :
    Effect s ({ s with xstate := xstate, log := log }.setPc p .exitRelease) p :=
  .quiet hp rfl rfl rfl rfl (.inl rfl) (fun _ => .inr ⟨st, rfl⟩)
    nofun nofun (fun _ => h.lockAt hp rfl) (h.okAt hp).1 fun h0 => absurd h0 (h.ne_zeroAt hp rfl)

/-! ## `wait` -/

theorem scan_effect (h : Inv s) {addr hk copyout : Bool} {rest : List (Slot n)}
    (hp : s.pc p = .waitScan addr (q :: rest) hk) (hs : s.scan p q addr copyout rest hk = some s') :
    Effect s s' p := by
  have hlock := h.lockAt hp rfl
  have hok := h.okAt hp
  -- `q` is not a zombie child, so the ones that are left come after it.
  have hnext : ∀ hk', ¬(s.parent q = some p ∧ (s.pc q).state = .zombie) →
      Effect s (s.setPc p (.waitScan addr rest hk')) p := by
    intro hk' hnot
    refine .quiet hp rfl rfl rfl rfl (.inl rfl) nofun nofun nofun (fun _ => hlock) (fun a ha hz => ?_)
      fun _ => rfl
    have hz : (s.pc a).state = .zombie := zombie_of_update (y := .waitScan addr rest hk') nofun hz
    rcases List.mem_cons.mp (hok a ha hz) with rfl | hmem
    · exact absurd ⟨ha, hz⟩ hnot
    · exact hmem
  unfold State.scan at hs
  split at hs
  case isFalse hq =>
    cases hs
    exact hnext hk fun hnot => hq hnot.1
  case isTrue hq =>
  split at hs
  · exact nomatch hs
  case isFalse hlocked =>
  split at hs
  case isFalse hz =>
    cases hs
    exact hnext true fun hnot => hz hnot.2
  case isTrue hz =>
  split at hs
  · cases hs
    exact .quiet hp rfl rfl rfl rfl (.inl rfl) nofun nofun nofun (fun _ => hlock) trivial fun _ => rfl
  · cases hs
    have hqp : q ≠ p := by
      rintro rfl
      rw [hp] at hz
      exact nomatch hz
    have hzombie := Pc.eq_zombie hz hlocked
    refine .of hp (update_self ..) rfl (fun r => .pair rfl (.freed hzombie)) (fun a => ?_)
      (.inl rfl) nofun nofun nofun (fun _ => hlock) trivial fun _ => rfl
    rcases eq_or_ne a q with rfl | haq
    · refine .none (update_self ..) ?_
      show update (update s.pc a _) p _ a = _
      rw [update_of_ne hqp, update_self]
    · exact .same (update_of_ne haq ..) rfl

/-- A scan that has found no zombie: none of the children is one. -/
theorem waitSleep_effect (h : Inv s) {addr hk : Bool} (hp : s.pc p = .waitScan addr [] hk) :
    Effect s (s.setPc p (.waitSleep addr)) p := by
  refine .quiet hp rfl rfl rfl rfl (.inl rfl) nofun nofun nofun (fun _ => h.lockAt hp rfl)
    (fun a ha hz => ?_) fun _ => rfl
  have hz : (s.pc a).state = .zombie := zombie_of_update (y := .waitSleep addr) nofun hz
  exact absurd (h.okAt hp a ha hz) List.not_mem_nil

theorem falling_effect (h : Inv s) {addr : Bool} (hp : s.pc p = .waitSleep addr) :
    Effect s (s.release.setPc p (.falling addr)) p := by
  have hlock := h.lockAt hp rfl
  refine .quiet hp rfl rfl rfl rfl (.inr (.inr hlock)) nofun (fun _ => .inr hlock) nofun nofun
    (fun a ha hz => ?_) fun _ => rfl
  have hz : (s.pc a).state = .zombie := zombie_of_update (y := .falling addr) nofun hz
  exact absurd hz (h.okAt hp a ha)

theorem asleep_effect (h : Inv s) {addr : Bool} (hp : s.pc p = .falling addr) :
    Effect s (s.setPc p (.asleep addr)) p := by
  refine .quiet hp rfl rfl rfl rfl (.inl rfl) nofun (fun _ => .inl rfl)
    nofun nofun (fun a ha hz => ?_) fun _ => rfl
  have hz : (s.pc a).state = .zombie := zombie_of_update (y := .asleep addr) nofun hz
  obtain ⟨h0, e, st, rest, visit, he, hmem⟩ := h.okAt hp a ha hz
  have hep : e ≠ p := ne_of_apply_ne s.pc (by simp [he, hp])
  exact ⟨h0, e, st, rest, visit, (update_of_ne hep ..).trans he, hmem⟩

/-! ## All steps -/

theorem acquire_effect {x y : Pc n} (hp : s.pc p = x) (hs : s.acquire p y = some s')
    (hruns : x.runs = true) (hz : y.state ≠ .zombie) (hsleep : y.inSleep = false)
    (hexc : ∀ st rest visit, x = .reparentWake st rest visit → 0 ∉ visit)
    (hok : y.Ok ({ s with waitLock := some p }.setPc p y) p) (hinit : p = 0 → y.mortal = false) :
    Effect s s' p := by
  obtain ⟨hlock, he⟩ := Option.ite_none_right_eq_some.mp hs
  cases he
  exact .quiet hp rfl rfl rfl hruns (.inr (.inl hlock)) (fun h => absurd h hz)
    (fun h => absurd (hsleep.symm.trans h) nofun) hexc (fun _ => rfl) hok hinit

theorem go_effect (h : Inv s) {ok : Bool} (hs : s.go p ok = some s') : Effect s s' p := by
  unfold State.go at hs
  split at hs
  case h_1 | h_2 | h_3 | h_4 | h_5 => exact nomatch hs
  case h_6 np hp =>
    split at hs
    · cases hs
      exact forkCopy_effect h hp
    · cases hs
      exact forkFails_effect h hp
  case h_7 np hp =>
    obtain ⟨hlock, he⟩ := Option.ite_none_right_eq_some.mp hs
    cases he
    exact forkParent_effect h hp hlock
  case h_8 np hp =>
    cases hs
    exact forkRun_effect h hp
  case h_9 st hp =>
    exact acquire_effect hp hs rfl nofun rfl nofun (fun a _ => List.mem_finRange a)
      fun h0 => absurd h0 (h.ne_zeroAt hp rfl)
  case h_10 st hp =>
    cases hs
    refine .quiet hp rfl rfl rfl rfl (.inl rfl) nofun nofun nofun (fun _ => h.lockAt hp rfl)
      ⟨fun a ha => ?_, fun a _ _ => List.mem_finRange a⟩ fun h0 => absurd h0 (h.ne_zeroAt hp rfl)
    exact absurd (h.okAt hp a ha) List.not_mem_nil
  case h_11 st q rest hp =>
    split at hs
    case isTrue hq =>
      cases hs
      exact reparent_effect h hp hq
    case isFalse hq =>
      cases hs
      refine .quiet hp rfl rfl rfl rfl (.inl rfl) nofun nofun nofun (fun _ => h.lockAt hp rfl)
        (fun a ha => ?_) fun h0 => absurd h0 (h.ne_zeroAt hp rfl)
      rcases List.mem_cons.mp (h.okAt hp a ha) with rfl | hmem
      · exact absurd ha hq
      · exact hmem
  case h_12 st rest hp =>
    cases hs
    refine .quiet hp rfl rfl rfl rfl (.inl rfl) nofun nofun (fun st' rest' visit he => ?_)
      (fun _ => h.lockAt hp rfl) (h.okAt hp) fun h0 => absurd h0 (h.ne_zeroAt hp rfl)
    cases he
    exact List.not_mem_nil
  case h_13 st rest q qs hp =>
    obtain ⟨s₁, hv, he⟩ := Option.map_eq_some_iff.mp hs
    cases he
    exact reparentWake_effect h hp hv
  case h_14 st hp =>
    cases hs
    have hok := h.okAt hp
    refine .quiet hp rfl rfl rfl rfl (.inl rfl) nofun nofun nofun (fun _ => h.lockAt hp rfl)
      ⟨hok.1, fun a ha => ?_⟩ fun h0 => absurd h0 (h.ne_zeroAt hp rfl)
    have hap : a ≠ p := by
      rintro rfl
      exact hok.1 a ha
    show (update s.pc p _ a).inSleep = false
    rw [update_of_ne hap]
    cases hin : (s.pc a).inSleep with
    | false => rfl
    | true => exact absurd (hok.2 a ha hin) List.not_mem_nil
  case h_15 st q qs hp =>
    obtain ⟨s₁, hv, he⟩ := Option.map_eq_some_iff.mp hs
    cases he
    exact exitWake_effect h hp hv
  case h_16 st hp =>
    cases hs
    exact exitSelf_effect h hp _ _
  case h_17 hp =>
    cases hs
    exact .quiet hp rfl rfl rfl rfl (.inr (.inr (h.lockAt hp rfl)))
      (fun _ => .inl rfl) nofun nofun nofun (h.okAt hp) fun h0 => absurd h0 (h.ne_zeroAt hp rfl)
  case h_18 hp =>
    cases hs
    exact .quiet hp rfl rfl rfl rfl (.inl rfl) (fun _ => .inl rfl) nofun nofun nofun (h.okAt hp)
      fun h0 => absurd h0 (h.ne_zeroAt hp rfl)
  case h_19 addr hp =>
    exact acquire_effect hp hs rfl nofun rfl nofun (fun a _ _ => List.mem_finRange a) fun _ => rfl
  case h_20 addr hk hp =>
    split at hs
    · cases hs
      exact .quiet hp rfl rfl rfl rfl (.inr (.inr (h.lockAt hp rfl))) nofun nofun nofun nofun trivial
        fun _ => rfl
    · cases hs
      exact waitSleep_effect h hp
  case h_21 addr hp =>
    cases hs
    exact falling_effect h hp
  case h_22 addr q rest hk hp => exact scan_effect h hp hs
  case h_23 ret hp =>
    cases hs
    exact .quiet hp rfl rfl rfl rfl (.inr (.inr (h.lockAt hp rfl))) nofun nofun nofun nofun trivial
      fun _ => rfl
  case h_24 addr hp =>
    cases hs
    exact asleep_effect h hp

theorem Pc.Ok.congr {c : Pc n} (hpc : s'.pc = s.pc) (hparent : s'.parent = s.parent)
    (h : c.Ok s p) : c.Ok s' p := by
  unfold Pc.Ok State.Excused at h ⊢
  rw [hpc, hparent]
  exact h

theorem Inv.kill (h : Inv s) (hs : s.kill q = some s') : Inv s' := by
  unfold State.kill at hs
  split at hs
  · exact nomatch hs
  split at hs
  case h_1 addr hq =>
    cases hs
    have e : Effect s ({ s with killed := update s.killed q true }.setPc q (.waitLock addr)) q :=
      .quiet hq rfl rfl rfl rfl (.inl rfl) nofun nofun nofun nofun trivial fun _ => rfl
    exact e.inv h
  case h_2 =>
    cases hs
    exact ⟨fun p => (h.ok p).congr rfl rfl, h.lock, h.init, h.forker, h.parent⟩

theorem Inv.next {a : Act n} (h : Inv s) (hs : next s a = some s') : Inv s' := by
  cases a with
  | go p ok => exact (go_effect h hs).inv h
  | fork p np =>
    obtain ⟨⟨hp, hnp⟩, he⟩ := Option.ite_none_right_eq_some.mp hs
    cases he
    exact (fork_effect hp hnp _ _ _).inv h
  | exit p status =>
    obtain ⟨⟨hp, h0⟩, he⟩ := Option.ite_none_right_eq_some.mp hs
    cases he
    have e : Effect s (s.setPc p (.exitLock status)) p :=
      .quiet hp rfl rfl rfl rfl (.inl rfl) nofun nofun nofun nofun trivial fun he => absurd he h0
    exact e.inv h
  | wait p addr =>
    obtain ⟨hp, he⟩ := Option.ite_none_right_eq_some.mp hs
    cases he
    have e : Effect s (s.setPc p (.waitLock addr)) p :=
      .quiet hp rfl rfl rfl rfl (.inl rfl) nofun nofun nofun nofun trivial fun _ => rfl
    exact e.inv h
  | kill q => exact h.kill hs

theorem inv_boot : Inv (boot : State n) where
  ok p := by
    rcases eq_or_ne p 0 with rfl | hp
    · trivial
    · have hpc : (boot : State n).pc p = .unused := update_of_ne hp _ fun _ => Pc.unused
      rw [hpc]
      exact nofun
  lock p hp := by
    rcases eq_or_ne p 0 with rfl | h0
    · exact nomatch hp
    · have hpc : (boot : State n).pc p = .unused := update_of_ne h0 _ fun _ => Pc.unused
      rw [hpc] at hp
      exact nomatch hp
  init := rfl
  forker _ _ := nofun
  parent q hq hborn := by
    have hpc : (boot : State n).pc q = .unused := update_of_ne hq _ fun _ => Pc.unused
    rw [hpc] at hborn
    exact nomatch hborn

end LazyXv6.ExitWait
