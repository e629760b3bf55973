import LazyXv6.FileManager.Dispatch

/-!
# Outcomes of requests

Two processes report on a request: its thread, which takes it up and declines or completes it, and
the timer that it forks, which reports it as cancelled after `T - 1` seconds. The thread gives up
without a word if `T` seconds have passed, and kills the timer otherwise.

A timer reports at `requesttime + T` at the earliest (`TimerInv`), so that a thread that reads the
time later gives up. But the thread reads the time first and kills the timer afterwards. If the
timer reports in between, the request is both cancelled and taken up; `KillsInTime` excludes this
step.
-/

namespace LazyXv6.FileManager

open Function Lib Lib.SmallFin

variable {m : ℕ}

/-! ## Reports -/

inductive Report where
  | takenUp
  | declined
  | completed
  | cancelled
  deriving DecidableEq, Repr

def Event.report (i : Fin m) : Event m → Option Report
  | .requested .. => none
  | .takenUp j _ => if j = i then some .takenUp else none
  | .declined j _ => if j = i then some .declined else none
  | .completed j _ => if j = i then some .completed else none
  | .cancelled j _ => if j = i then some .cancelled else none

def reports (i : Fin m) (out : List (Event m)) : List Report := out.filterMap (Event.report i)

/-- What a thread that ends so has reported. -/
def Outcome.said : Outcome → List Report
  | .cancelled => []
  | .declined => [.takenUp, .declined]
  | .completed => [.takenUp, .completed]

def Pc.said : Pc → List Report
  | .taken _ | .entered | .working _ | .deleting _ => [.takenUp]
  | .finishing => [.takenUp, .completed]
  | .signal o | .unlock o | .returned o => o.said
  | _ => []

def Pc.forked : Pc → Bool
  | .idle | .start _ | .lock | .locked => false
  | _ => true

/-- The time that the thread has read and not yet acted on. -/
def Pc.operationStartTime : Pc → Option Int
  | .timed _ time => some time
  | _ => none

/-- The timer does not report between the thread's reading the time and its `kill`. -/
def KillsInTime (cfg : Config) (req : Fin m → UserRequest) (s : State m) : Act m → Prop
  | .timer i => ∀ time ∈ (s.pc i).operationStartTime, cfg.T ≤ time - (req i).requesttime
  | _ => True

instance (cfg : Config) (req : Fin m → UserRequest) (s : State m) :
    ∀ a, Decidable (KillsInTime cfg req s a)
  | .timer i => inferInstanceAs (Decidable (∀ time ∈ (s.pc i).operationStartTime, _))
  | .run _ | .signal .. | .spurious _ | .main | .tick => .isTrue trivial

@[simp] theorem reports_append (i : Fin m) (l l' : List (Event m)) :
    reports i (l ++ l') = reports i l ++ reports i l' := List.filterMap_append

section Steps

variable {cfg : Config} {req : Fin m → UserRequest} {bytes : Int → FileInfo m} {s s' : State m}
  {rq : UserRequest} {i j : Fin m} {now : Int} {fi : FileInfo m} {b : Bullet} {p : Pc}
  {e : Effect m}

theorem processReq_reports (h : processReq cfg rq i now fi b p = some e) :
    e.pc.said = p.said ++ reports i e.out ∧ .cancelled ∉ reports i e.out ∧ ∀ j, j ≠ i →
    reports j e.out = [] := by
  cases p <;> grind [processReq, Pc.said, Outcome.said, reports, Event.report]

/-- A thread's timer is armed by its fork and killed when the request is taken up. -/
theorem processReq_bullet (h : processReq cfg rq i now fi b p = some e) :
    (p = .locked ∧ e.bullet = .armed (wakeTime now (cfg.T - 1)) ∧ e.pc.forked = true ∧
      e.pc.said = []) ∨
      (∃ signalled time, p = .timed signalled time ∧ time - rq.requesttime < cfg.T ∧
        e.pc = .taken signalled ∧ e.bullet = if b = .printed then .printed else .killed) ∨
      e.bullet = b ∧ e.pc.forked = p.forked ∧ e.pc.said.isEmpty = p.said.isEmpty ∧ p ≠ .locked := by
  cases p <;> grind [processReq, Pc.said, Outcome.said, Pc.forked]

theorem processReq_time (h : processReq cfg rq i now fi b p = some e) :
    (∀ wake, e.pc ≠ .start wake) ∧
      (e.pc = .lock ∨ e.pc = .locked → (∃ wake, p = .start wake ∧ wake ≤ now) ∨ p = .lock) ∧
      ∀ signalled time, e.pc = .timed signalled time → p = .admitted signalled ∧ time = now := by
  cases p <;> grind [processReq]

/-! ## One thread and its timer -/

/-- What a step is to thread `i` and its timer. -/
inductive ThreadStep (cfg : Config) (req : Fin m → UserRequest) (s : State m) (a : Act m)
    (s' : State m) (i : Fin m) : Prop where
  | other (hpc : s'.pc i = s.pc i) (hb : s'.bullet i = s.bullet i)
      (hout : reports i s'.out = reports i s.out) (hclock : s.clock ≤ s'.clock)
  | run {e : Effect m} (he : processReq cfg (req i) i s.clock (s.files (fileOf req i)) (s.bullet i)
        (s.pc i) = some e)
      (hpc : s'.pc i = e.pc) (hb : s'.bullet i = e.bullet)
      (hout : reports i s'.out = reports i s.out ++ reports i e.out) (hclock : s'.clock = s.clock)
  /-- The thread is woken, or passes its signal. -/
  | signal (hpc : s.pc i = .waiting ∧ (∃ signalled, s'.pc i = .woken signalled) ∨
        ∃ o, s.pc i = .signal o ∧ s'.pc i = .unlock o)
      (hb : s'.bullet i = s.bullet i) (hout : reports i s'.out = reports i s.out)
      (hclock : s'.clock = s.clock)
  | create (hm : s.main = .create i) (hpc : s.pc i = .idle)
      (hpc' : s'.pc i = .start (wakeTime s.clock 1)) (hb : s'.bullet i = s.bullet i)
      (hout : reports i s'.out = reports i s.out) (hclock : s'.clock = s.clock)
  | timer {wake : Int} (ha : a = .timer i) (hpc : s'.pc i = s.pc i) (hb : s.bullet i = .armed wake)
      (hwake : wake ≤ s.clock) (hb' : s'.bullet i = .printed)
      (hout : reports i s'.out = reports i s.out ++ [.cancelled]) (hclock : s'.clock = s.clock)

theorem step_signal_rest {target : Option (Fin m)}
    (hs : step cfg req s (.signal i target) = some s') : s'.main = s.main ∧ s'.bullet = s.bullet ∧
    s'.out = s.out ∧ s'.clock = s.clock := by
  simp only [step] at hs
  split at hs
  · obtain ⟨-, hs⟩ := Option.ite_none_right_eq_some.mp hs
    cases hs
    exact ⟨rfl, rfl, rfl, rfl⟩
  · obtain ⟨-, hs⟩ := Option.ite_none_right_eq_some.mp hs
    cases hs
    exact ⟨rfl, rfl, rfl, rfl⟩
  · cases hs

theorem step_thread {a : Act m} (hd : Dispatched req bytes s) (hs : step cfg req s a = some s')
    (i : Fin m) : ThreadStep cfg req s a s' i := by
  cases a with
  | run j =>
    obtain ⟨e, he, rfl⟩ := Option.map_eq_some_iff.mp hs
    rcases eq_or_ne i j with rfl | hne
    · exact .run he (update_self ..) (update_self ..) (reports_append ..) rfl
    · refine .other (update_of_ne hne ..) (update_of_ne hne ..) ?_ le_rfl
      rw [reports_append, (processReq_reports he).2.2 i hne, List.append_nil]
  | signal j target =>
    obtain ⟨-, hb, hout, hclock⟩ := step_signal_rest hs
    have hb : s'.bullet i = s.bullet i := by rw [hb]
    have hout : reports i s'.out = reports i s.out := by rw [hout]
    obtain ⟨o, hpj, -, -, ⟨l, -, hpl, hp⟩ | ⟨-, hp⟩⟩ := step_signal hs
    · rcases eq_or_ne i j with rfl | hij
      · refine .signal (.inr ⟨o, hpj, ?_⟩) hb hout hclock
        rw [hp, update_self]
      · rcases eq_or_ne i l with rfl | hil
        · refine .signal (.inl ⟨hpl, true, ?_⟩) hb hout hclock
          rw [hp, update_of_ne hij, update_self]
        · refine .other ?_ hb hout hclock.ge
          rw [hp, update_of_ne hij, update_of_ne hil]
    · rcases eq_or_ne i j with rfl | hij
      · refine .signal (.inr ⟨o, hpj, ?_⟩) hb hout hclock
        rw [hp, update_self]
      · refine .other ?_ hb hout hclock.ge
        rw [hp, update_of_ne hij]
  | spurious j =>
    obtain ⟨hpj, hs⟩ := Option.ite_none_right_eq_some.mp hs
    cases hs
    rcases eq_or_ne i j with rfl | hij
    · exact .signal (.inl ⟨hpj, false, update_self ..⟩) rfl rfl rfl
    · exact .other (update_of_ne hij ..) rfl rfl le_rfl
  | main =>
    cases mainStep_inv hs with
    | @create j hj hm =>
      rcases eq_or_ne i ⟨j, hj⟩ with rfl | hij
      · refine .create hm ((hd.idle _).mpr ?_) (update_self ..) rfl rfl rfl
        rw [hm]
        exact le_rfl
      · exact .other (update_of_ne hij ..) rfl rfl le_rfl
    | count hj hm hwake =>
      refine .other rfl rfl ?_ le_rfl
      rw [reports_append]
      exact List.append_nil _
    | _ => exact .other rfl rfl rfl le_rfl
  | timer j =>
    obtain ⟨wake, hb, hwake, rfl⟩ := step_timer hs
    rcases eq_or_ne i j with rfl | hij
    · refine .timer rfl rfl hb hwake (update_self ..) ?_ rfl
      rw [reports_append]
      simp [reports, Event.report]
    · refine .other rfl (update_of_ne hij ..) ?_ le_rfl
      rw [reports_append]
      simp [reports, Event.report, hij.symm]
  | tick =>
    cases hs
    exact .other rfl rfl rfl (Int.le_add_one le_rfl)

/-! ## Timers -/

/-- Request `i` is dispatched at its time. -/
def OnTime (req : Fin m → UserRequest) (s : State m) (i : Fin m) : Prop :=
  (∀ wake, s.main = .sleep i wake → (req i).requesttime ≤ wake) ∧
    (s.main = .create i → (req i).requesttime ≤ s.clock)

theorem OnTime.step {a : Act m} (h : OnTime req s i) (hs : step cfg req s a = some s') :
    OnTime req s' i := by
  have hkeep : s'.main = s.main → s.clock ≤ s'.clock → OnTime req s' i := by
    intro hm hclock
    unfold OnTime
    rw [hm]
    exact ⟨h.1, fun hc => (h.2 hc).trans hclock⟩
  cases a with
  | run j =>
    obtain ⟨e, -, rfl⟩ := Option.map_eq_some_iff.mp hs
    exact hkeep rfl le_rfl
  | signal j target =>
    obtain ⟨hm, -, -, hclock⟩ := step_signal_rest hs
    exact hkeep hm hclock.ge
  | spurious j =>
    obtain ⟨-, hs⟩ := Option.ite_none_right_eq_some.mp hs
    cases hs
    exact hkeep rfl le_rfl
  | main =>
    cases mainStep_inv hs with
    | @sleep j wake hj hm hwake =>
      refine ⟨fun wake' hm' => ?_, nofun⟩
      cases hm'
      exact hwake
    | @count j wake hj hm hwake =>
      refine ⟨nofun, fun hm' => ?_⟩
      cases hm'
      exact (h.1 wake hm).trans hwake
    | _ => exact ⟨nofun, nofun⟩
  | timer j =>
    obtain ⟨_, -, -, rfl⟩ := step_timer hs
    exact hkeep rfl le_rfl
  | tick =>
    cases hs
    exact hkeep rfl (Int.le_add_one le_rfl)

/-- A timer is armed by the fork, after the request's first second, and reports at `T` seconds at
the earliest. -/
structure TimerInv (cfg : Config) (rq : UserRequest) (clock : Int) (p : Pc) (b : Bullet) :
    Prop where
  start : ∀ wake, p = .start wake → rq.requesttime + 1 ≤ wake
  begun : p = .lock ∨ p = .locked → rq.requesttime + 1 ≤ clock
  armed : ∀ wake, b = .armed wake → rq.requesttime + cfg.T ≤ wake
  printed : b = .printed → rq.requesttime + cfg.T ≤ clock
  unforked : p.forked = false → b = .none
  unsaid : p.forked = true → p.said = [] → (∃ wake, b = .armed wake) ∨ b = .printed

theorem TimerInv.step {a : Act m} (hT : 1 ≤ cfg.T) (hint : cfg.T ≤ 2 ^ 31 - 1)
    (h : TimerInv cfg (req i) s.clock (s.pc i) (s.bullet i)) (htime : OnTime req s i)
    (hs : ThreadStep cfg req s a s' i) :
    TimerInv cfg (req i) s'.clock (s'.pc i) (s'.bullet i) := by
  cases hs with
  | other hpc hb hout hclock =>
    rw [hpc, hb]
    exact ⟨h.start, fun hp => (h.begun hp).trans hclock, h.armed,
      fun hp => (h.printed hp).trans hclock, h.unforked, h.unsaid⟩
  | @run e he hpc hb hout hclock =>
    rw [hpc, hb, hclock]
    obtain ⟨hstart, hbegun, -⟩ := processReq_time he
    have hbegun' : e.pc = .lock ∨ e.pc = .locked → (req i).requesttime + 1 ≤ s.clock := by
      intro hp
      rcases hbegun hp with ⟨wake, hp, hle⟩ | hp
      · exact (h.start wake hp).trans hle
      · exact h.begun (.inl hp)
    rcases processReq_bullet he with ⟨hp, hb, hforked, -⟩ | ⟨signalled, time, hp, -, hp', hb⟩ |
      ⟨hb, hforked, hsaid, -⟩
    · have hbegan := h.begun (.inr hp)
      have hwake : wakeTime s.clock (cfg.T - 1) = s.clock + (cfg.T - 1) := by
        unfold wakeTime
        omega
      rw [hb, hwake]
      refine ⟨fun wake hp => absurd hp (hstart wake), hbegun', ?_, nofun, ?_, fun _ _ => ?_⟩
      · rintro wake ⟨rfl⟩
        omega
      · rw [hforked]
        exact nofun
      · exact .inl ⟨_, rfl⟩
    · refine ⟨fun wake hp => absurd hp (hstart wake), hbegun', fun wake hw => ?_, fun hpr => ?_, ?_, ?_⟩
      · rw [hb] at hw
        split at hw <;> cases hw
      · rw [hb] at hpr
        split at hpr
        · exact h.printed ‹_›
        · cases hpr
      · rw [hp']
        exact nofun
      · rw [hp']
        exact fun _ => nofun
    · rw [hb]
      refine ⟨fun wake hp => absurd hp (hstart wake), hbegun', h.armed, h.printed, ?_, ?_⟩
      · rw [hforked]
        exact h.unforked
      · rw [hforked, ← List.isEmpty_iff, hsaid, List.isEmpty_iff]
        exact h.unsaid
  | signal hpc hb hout hclock =>
    rw [hb, hclock]
    rcases hpc with ⟨hp, signalled, hp'⟩ | ⟨o, hp, hp'⟩
    · rw [hp] at h
      rw [hp']
      exact ⟨nofun, nofun, h.armed, h.printed, nofun, h.unsaid⟩
    · rw [hp] at h
      rw [hp']
      exact ⟨nofun, nofun, h.armed, h.printed, nofun, h.unsaid⟩
  | create hm hpc hpc' hb hout hclock =>
    have hsec : wakeTime s.clock 1 = s.clock + 1 := rfl
    rw [hpc] at h
    rw [hpc', hb, hclock, hsec]
    refine ⟨fun wake hp => ?_, nofun, h.armed, h.printed, h.unforked, nofun⟩
    cases hp
    have hle := htime.2 hm
    omega
  | timer ha hpc hb hwake hb' hout hclock =>
    rw [hpc, hb', hclock]
    refine ⟨h.start, h.begun, nofun, fun _ => (h.armed _ hb).trans hwake, fun hp => ?_,
      fun _ _ => .inr rfl⟩
    rw [h.unforked hp] at hb
    exact nomatch hb

/-! ## Reports -/

/-- What is reported is what the thread has said, and a cancellation if the timer has printed. -/
structure ReportInv (s : State m) (i : Fin m) : Prop where
  thread : (reports i s.out).filter (· ≠ .cancelled) = (s.pc i).said
  timer : .cancelled ∈ reports i s.out ↔ s.bullet i = .printed

theorem ReportInv.step {a : Act m} (h : ReportInv s i)
    (ht : TimerInv cfg (req i) s.clock (s.pc i) (s.bullet i)) (hs : ThreadStep cfg req s a s' i) :
    ReportInv s' i := by
  cases hs with
  | other hpc hb hout hclock => exact ⟨by rw [hout, hpc, h.thread], by rw [hout, hb, h.timer]⟩
  | @run e he hpc hb hout hclock =>
    obtain ⟨hsaid, hnot, -⟩ := processReq_reports he
    have hfilter : (reports i e.out).filter (· ≠ .cancelled) = reports i e.out := by
      refine List.filter_eq_self.mpr fun r hr => ?_
      rw [decide_eq_true_eq]
      rintro rfl
      exact hnot hr
    constructor
    · rw [hout, hpc, List.filter_append, hfilter, h.thread, hsaid]
    · rw [hout, hb, List.mem_append, or_iff_left hnot, h.timer]
      rcases processReq_bullet he with ⟨hp, hb, -⟩ | ⟨signalled, time, hp, -, -, hb⟩ | ⟨hb, -⟩
      · rw [hb, ht.unforked (by rw [hp]; rfl)]
        exact iff_of_false nofun nofun
      · rw [hb]
        split
        · exact iff_of_true ‹_› rfl
        · exact iff_of_false ‹_› nofun
      · rw [hb]
  | signal hpc hb hout hclock =>
    refine ⟨?_, by rw [hout, hb, h.timer]⟩
    rw [hout, h.thread]
    rcases hpc with ⟨hp, signalled, hp'⟩ | ⟨o, hp, hp'⟩ <;> rw [hp, hp'] <;> rfl
  | create hm hpc hpc' hb hout hclock =>
    exact ⟨by rw [hout, h.thread, hpc, hpc']; rfl, by rw [hout, hb, h.timer]⟩
  | timer ha hpc hb hwake hb' hout hclock =>
    constructor
    · rw [hout, hpc, List.filter_append, h.thread]
      exact List.append_nil _
    · rw [hout, hb']
      exact iff_of_true (List.mem_append_right _ (List.mem_singleton_self _)) rfl

structure KillInv (cfg : Config) (rq : UserRequest) (p : Pc) (b : Bullet) : Prop where
  timed : ∀ signalled time, p = .timed signalled time → time - rq.requesttime < cfg.T → b ≠ .printed
  killed : p.said ≠ [] → b = .killed

theorem KillInv.step {a : Act m} (h : KillInv cfg (req i) (s.pc i) (s.bullet i))
    (ht : TimerInv cfg (req i) s.clock (s.pc i) (s.bullet i)) (hkills : KillsInTime cfg req s a)
    (hs : ThreadStep cfg req s a s' i) : KillInv cfg (req i) (s'.pc i) (s'.bullet i) := by
  cases hs with
  | other hpc hb hout hclock =>
    rw [hpc, hb]
    exact h
  | @run e he hpc hb hout hclock =>
    rw [hpc, hb]
    obtain ⟨-, -, htimed⟩ := processReq_time he
    rcases processReq_bullet he with ⟨hp, hb, -, hsaid⟩ | ⟨signalled, time, hp, hlt, hp', hb⟩ |
      ⟨hb, -, hsaid, -⟩
    · rw [hb]
      exact ⟨fun _ _ _ _ => nofun, fun hne => absurd hsaid hne⟩
    · rw [hb, hp', if_neg (h.timed signalled time hp hlt)]
      exact ⟨nofun, fun _ => rfl⟩
    · rw [hb]
      refine ⟨fun signalled time hp hlt hpr => ?_, fun hne => h.killed fun hnil => hne ?_⟩
      · -- the time was read after the timer had printed
        obtain ⟨-, rfl⟩ := htimed signalled time hp
        have hle := ht.printed hpr
        omega
      · rw [← List.isEmpty_iff] at hnil ⊢
        rw [hsaid, hnil]
  | signal hpc hb hout hclock =>
    rw [hb]
    rcases hpc with ⟨hp, signalled, hp'⟩ | ⟨o, hp, hp'⟩
    · rw [hp']
      exact ⟨nofun, fun hne => absurd rfl hne⟩
    · rw [hp] at h
      rw [hp']
      exact ⟨nofun, h.killed⟩
  | create hm hpc hpc' hb hout hclock =>
    rw [hpc']
    exact ⟨nofun, fun hne => absurd rfl hne⟩
  | @timer wake ha hpc hb hwake hb' hout hclock =>
    subst ha
    rw [hpc]
    refine ⟨fun signalled time hp hlt => ?_, fun hne => ?_⟩
    · have hle := hkills time (by rw [hp]; rfl)
      omega
    · rw [h.killed hne] at hb
      exact nomatch hb

structure OutcomeInv (cfg : Config) (req : Fin m → UserRequest) (bytes : Int → FileInfo m)
    (s : State m) : Prop where
  dispatched : Dispatched req bytes s
  onTime : ∀ i, OnTime req s i
  timer : ∀ i, TimerInv cfg (req i) s.clock (s.pc i) (s.bullet i)
  report : ∀ i, ReportInv s i

theorem outcomeInv_init (cfg : Config) (req : Fin m → UserRequest) (bytes : Int → FileInfo m) :
    OutcomeInv cfg req bytes (init cfg bytes) where
  dispatched := dispatched_init cfg req bytes
  onTime _ := ⟨nofun, nofun⟩
  timer _ := ⟨nofun, nofun, nofun, nofun, fun _ => rfl, nofun⟩
  report _ := ⟨rfl, iff_of_false List.not_mem_nil nofun⟩

theorem OutcomeInv.step {a : Act m} (hT : 1 ≤ cfg.T) (hint : cfg.T ≤ 2 ^ 31 - 1)
    (h : OutcomeInv cfg req bytes s) (hs : step cfg req s a = some s') :
    OutcomeInv cfg req bytes s' where
  dispatched := h.dispatched.step hs
  onTime i := (h.onTime i).step hs
  timer i := (h.timer i).step hT hint (h.onTime i) (step_thread h.dispatched hs i)
  report i := (h.report i).step (h.timer i) (step_thread h.dispatched hs i)

/-- Every thread has returned and every timer has printed or is killed. -/
def Done (s : State m) : Prop :=
  (∀ i, ∃ o, s.pc i = .returned o) ∧ ∀ i wake, s.bullet i ≠ .armed wake

theorem OutcomeInv.outcome (h : OutcomeInv cfg req bytes s) (hdone : Done s) (i : Fin m) :
    .cancelled ∈ reports i s.out ∨ [.takenUp, .declined].Sublist (reports i s.out) ∨
      .completed ∈ reports i s.out := by
  obtain ⟨o, hp⟩ := hdone.1 i
  have hsaid := (h.report i).thread
  have hsub : (s.pc i).said.Sublist (reports i s.out) := hsaid ▸ List.filter_sublist
  rw [hp] at hsub
  cases o with
  | cancelled =>
    refine .inl ((h.report i).timer.mpr ?_)
    rcases (h.timer i).unsaid (by rw [hp]; rfl) (by rw [hp]; rfl) with ⟨wake, hb⟩ | hb
    · exact absurd hb (hdone.2 i wake)
    · exact hb
  | declined => exact .inr (.inl hsub)
  | completed => exact .inr (.inr (hsub.subset (List.mem_of_getLast? rfl)))

/-- A timer that prints before the `kill` gives its request two outcomes. -/
theorem two_outcomes (hs : step cfg req s (.timer i) = some s')
    (hlate : ¬ KillsInTime cfg req s (.timer i)) : ∃ t, step cfg req s' (.run i) = some t ∧
    .cancelled ∈ reports i t.out ∧ .takenUp ∈ reports i t.out := by
  simp only [KillsInTime, not_forall] at hlate
  obtain ⟨time, htime, hlt⟩ := hlate
  obtain ⟨signalled, hp⟩ : ∃ signalled, s.pc i = .timed signalled time := by
    cases hp : s.pc i <;> rw [hp] at htime <;> simp_all [Pc.operationStartTime]
  simp only [step] at hs
  split at hs
  · obtain ⟨-, hs⟩ := Option.ite_none_right_eq_some.mp hs
    cases hs
    have hrun : ∀ b now, processReq cfg (req i) i now (s.files (fileOf req i)) b (s.pc i) =
        some ⟨s.files (fileOf req i), .taken signalled,
          if b = .printed then .printed else .killed, [.takenUp i time]⟩ := by
      intro b now
      rw [hp]
      exact if_neg hlt
    refine ⟨_, Option.map_eq_some_iff.mpr ⟨_, hrun _ _, rfl⟩, ?_, ?_⟩ <;>
      simp [reports, Event.report]
  · cases hs

/-- **One outcome for each request.** In every run in which no timer reports between the thread's
reading the time and its `kill`, no request is both cancelled and taken up. In every run, a request
that is done was cancelled, declined after being taken up, or completed. A timer that reports in
between leaves the request cancelled and taken up. -/
theorem one_outcome (cfg : Config) (req : Fin m → UserRequest) (bytes : Int → FileInfo m)
    (hT : 1 ≤ cfg.T) (hint : cfg.T ≤ 2 ^ 31 - 1) :
    (∀ s, ReachIf (step cfg req) (KillsInTime cfg req) (init cfg bytes) s →
      ∀ i, ¬ (.cancelled ∈ reports i s.out ∧ .takenUp ∈ reports i s.out)) ∧
    (∀ s, Reach (step cfg req) (init cfg bytes) s → Done s →
      ∀ i, .cancelled ∈ reports i s.out ∨ [.takenUp, .declined].Sublist (reports i s.out) ∨
        .completed ∈ reports i s.out) ∧
    ∀ s i s', step cfg req s (.timer i) = some s' → ¬ KillsInTime cfg req s (.timer i) →
      ∃ t, step cfg req s' (.run i) = some t ∧
        .cancelled ∈ reports i t.out ∧ .takenUp ∈ reports i t.out := by
  refine ⟨fun s hs i => ?_, fun s hs hdone i => ?_, fun s i s' => two_outcomes⟩
  · have hinv := hs.invariant (I := fun t => OutcomeInv cfg req bytes t ∧
      ∀ i, KillInv cfg (req i) (t.pc i) (t.bullet i))
      (fun t a t' ht hkills hstep => ⟨ht.1.step hT hint hstep, fun i =>
        (ht.2 i).step (ht.1.timer i) hkills (step_thread ht.1.dispatched hstep i)⟩)
      ⟨outcomeInv_init cfg req bytes, fun _ => ⟨nofun, fun hne => absurd rfl hne⟩⟩
    rintro ⟨hcancelled, htaken⟩
    have hsaid : .takenUp ∈ (s.pc i).said := by
      rw [← (hinv.1.report i).thread]
      exact List.mem_filter.mpr ⟨htaken, rfl⟩
    have hkilled := (hinv.2 i).killed (List.ne_nil_of_mem hsaid)
    rw [(hinv.1.report i).timer, hkilled] at hcancelled
    exact nomatch hcancelled
  · have hinv := hs.invariant (I := OutcomeInv cfg req bytes)
      (fun t a t' ht hstep => ht.step hT hint hstep) (outcomeInv_init cfg req bytes)
    exact hinv.outcome hdone i

end Steps

def twoSeconds : Config := ⟨1, 1, 1, 1, 1, 2⟩

def readInTimeActs : List (Act 1) :=
  List.flatten [List.replicate 3 .main, [.tick], List.replicate 9 (.run 0), [.tick, .run 0, .run 0],
    [.signal 0 none, .run 0]]

/-- The READ is completed, and not cancelled as well. -/
theorem one_outcome_inTime :
    ∃ s, ReachIf (step twoSeconds soloRead) (KillsInTime twoSeconds soloRead)
      (init twoSeconds zeroBytes) s ∧ Done s ∧ .completed ∈ reports 0 s.out ∧
      ¬ (.cancelled ∈ reports 0 s.out ∧ .takenUp ∈ reports 0 s.out) := by
  obtain ⟨s, hs, hp, hb, hcompleted⟩ : ∃ s ∈ runActsIf (step twoSeconds soloRead)
      (KillsInTime twoSeconds soloRead) (init twoSeconds zeroBytes) readInTimeActs,
      s.pc 0 = .returned .completed ∧ s.bullet 0 = .killed ∧ .completed ∈ reports 0 s.out := by
    decide +kernel
  have hreach := reachIf_of_runActsIf hs
  refine ⟨s, hreach, ⟨fun i => ?_, fun i wake => ?_⟩, hcompleted,
    (one_outcome twoSeconds soloRead zeroBytes (by decide) (by decide)).1 s hreach 0⟩
  · rw [Subsingleton.elim i 0]
    exact ⟨_, hp⟩
  · rw [Subsingleton.elim i 0, hb]
    exact nofun

/-- The second ends, and the timer prints, between the thread's reading the time and its `kill`. -/
def lateKillActs : List (Act 1) :=
  List.flatten [List.replicate 3 .main, [.tick], List.replicate 6 (.run 0),
    [.tick, .timer 0, .run 0]]

/-- **A request that is both cancelled and taken up.** -/
theorem cancelled_and_takenUp :
    ¬ ∀ s, Reach (step twoSeconds soloRead) (init twoSeconds zeroBytes) s →
      ∀ i, ¬ (.cancelled ∈ reports i s.out ∧ .takenUp ∈ reports i s.out) := by
  intro hall
  obtain ⟨s, hs, h⟩ : ∃ s ∈
    runActs (step twoSeconds soloRead) (init twoSeconds zeroBytes) lateKillActs,
      .cancelled ∈ reports 0 s.out ∧ .takenUp ∈ reports 0 s.out := by decide +kernel
  exact hall s (reach_of_runActs hs) 0 h

end LazyXv6.FileManager
