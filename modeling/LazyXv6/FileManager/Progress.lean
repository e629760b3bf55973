import LazyXv6.FileManager.Dispatch
import LazyXv6.FileManager.Wakeup

/-!
# Progress of the file manager

A thread can be held up in three ways: it sleeps in `pthread_cond_wait`, it waits for its file's
mutex, or it is a DELETE that spins on a counter. Sleepers always leave somebody awake who will
signal, be let in or hold the file (`SleepInv`), whoever holds a mutex can go on, and a counter is
positive only while a thread that does not need the DELETE has yet to count itself out.

But a DELETE that finds its counter at zero keeps the mutex and reads the counter again in the
busy-wait; a request of the same slot that `main` counts in between makes it spin with the mutex
that the other thread needs. `CountsClear` excludes this step.
-/

namespace LazyXv6.FileManager

open Lib Lib.SmallFin

variable {m : ℕ}

def Unfinished (s : State m) : Prop := s.main ≠ .finished ∨ ∃ i, ∀ o, s.pc i ≠ .returned o

/-- The step is a thread's own, and not another test of the busy-wait. -/
def GetsOn (req : Fin m → UserRequest) (s : State m) : Act m → Prop
  | .run i => ∀ flagChecker, s.pc i = .spin flagChecker →
      (s.files (fileOf req i)).timeRequests (slot (req i)) ≤ 0
  | .signal .. | .main => True
  | .spurious _ | .timer _ | .tick => False

/-- Some thread gets on, now or at the end of its `sleep`. -/
def CanGoOn (cfg : Config) (req : Fin m → UserRequest) (s : State m) : Prop :=
  ∃ now, s.clock ≤ now ∧ ∃ a s', GetsOn req s a ∧ step cfg req { s with clock := now } a = some s'

def MainPc.counting : MainPc → Option ℕ
  | .sleep i _ => some i
  | _ => none

/-- `main` does not count a request while a DELETE with the mutex is about to test the same counter
again. -/
def CountsClear (req : Fin m → UserRequest) (s : State m) : Act m → Prop
  | .main => ∀ i j : Fin m, s.main.counting = some j.val → (req j).operation ≠ .delete →
      fileOf req i = fileOf req j → slot (req i) = slot (req j) → s.pc i ≠ .spin false
  | _ => True

instance (req : Fin m → UserRequest) (s : State m) : ∀ a, Decidable (CountsClear req s a)
  | .main => inferInstanceAs (Decidable (∀ _, _))
  | .run _ | .signal .. | .spurious _ | .timer _ | .tick => .isTrue trivial

/-! ## Sleepers -/

/-- The thread will signal, or finds its guard true while somebody else is in progress. -/
def Pc.awake : Pc → Bool
  | .woken _ | .test _ | .admitted _ | .timed .. | .taken _ | .entered | .working _ | .finishing
  | .deleting _ | .signal _ => true
  | _ => false

/-- Where a thread of file `f` sleeps, another one is awake. -/
def SleepInv (req : Fin m → UserRequest) (f : Int) (pc : Fin m → Pc) : Prop :=
  ∀ i, fileOf req i = f → pc i = .waiting → ∃ j, fileOf req j = f ∧ (pc j).awake = true

section Steps

variable {cfg : Config} {req : Fin m → UserRequest} {bytes : Int → FileInfo m} {s s' : State m}
  {rq : UserRequest} {i j : Fin m} {now f k : Int} {fi : FileInfo m} {b : Bullet} {p p' : Pc}
  {e : Effect m} {pc : Fin m → Pc}

theorem processReq_awake (h : processReq cfg rq i now fi b p = some e) :
    (p.awake = true → e.pc.awake = true ∨ e.pc = .waiting) ∧
      (e.pc = .waiting → p.performing = false ∧ guard cfg fi rq.operation = true) := by
  cases p <;> grind [processReq, Pc.awake, Pc.performing]

theorem Pc.awake_of_performing (h : p.performing = true) : p.awake = true := by
  cases p <;> simp_all [performing, awake]

theorem FileInv.exists_performing (h : FileInv cfg req f fi pc) (hc : 1 ≤ cfg.c) {o : Op}
    (hg : guard cfg fi o = true) : ∃ j, fileOf req j = f ∧ (pc j).performing = true := by
  have hr := h.readercount_nonneg
  have hw := h.writercount_nonneg
  have htotal := h.total
  have hpos : 0 < fi.readercount ∨ 0 < fi.writercount := by
    cases o <;> simp only [guard, Bool.or_eq_true, decide_eq_true_eq] at hg <;> omega
  have hfind : ∀ o', 0 < inProgress req f o' pc → ∃ j, fileOf req j = f ∧
    (pc j).performing = true := by
    intro o' ho
    obtain ⟨j, hj⟩ := exists_of_tally_pos ho
    simp only [Bool.and_eq_true, decide_eq_true_eq] at hj
    exact ⟨j, hj.1.1, hj.2⟩
  rcases hpos with hpos | hpos
  · exact hfind .read (h.readers ▸ hpos)
  · exact hfind .write (h.writers ▸ hpos)

theorem SleepInv.update (h : SleepInv req f pc) (hp : p' ≠ .waiting)
    (hawake : fileOf req i = f → (pc i).awake = true → p'.awake = true) :
    SleepInv req f (Function.update pc i p') := by
  intro l hl hw
  have hlw : pc l = .waiting := by
    rcases eq_or_ne l i with rfl | hne
    · rw [Function.update_self] at hw
      exact absurd hw hp
    · rwa [Function.update_of_ne hne] at hw
  obtain ⟨j, hj, haj⟩ := h l hl hlw
  refine ⟨j, hj, ?_⟩
  rcases eq_or_ne j i with rfl | hne
  · rw [Function.update_self]
    exact hawake hj haj
  · rwa [Function.update_of_ne hne]

theorem SleepInv.step {a : Act m} (h : SleepInv req f s.pc) (hc : 1 ≤ cfg.c)
    (hf : FileInv cfg req f (s.files f) s.pc) (hd : Dispatched req bytes s)
    (hs : step cfg req s a = some s') : SleepInv req f s'.pc := by
  cases a with
  | run i =>
    obtain ⟨e, he, rfl⟩ := Option.map_eq_some_iff.mp hs
    obtain ⟨hawake, hwait⟩ := processReq_awake he
    by_cases hew : e.pc = .waiting
    · intro l hl hw
      by_cases hi : fileOf req i = f
      · -- whoever goes to sleep leaves an access in progress
        obtain ⟨hperf, hg⟩ := hwait hew
        rw [hi] at hg
        obtain ⟨j, hj, hpj⟩ := hf.exists_performing hc hg
        have hne : j ≠ i := by
          rintro rfl
          rw [hperf] at hpj
          exact nomatch hpj
        refine ⟨j, hj, ?_⟩
        show (Function.update s.pc i e.pc j).awake = true
        rw [Function.update_of_ne hne]
        exact Pc.awake_of_performing hpj
      · have hli : l ≠ i := by
          rintro rfl
          exact hi hl
        have hw : Function.update s.pc i e.pc l = .waiting := hw
        rw [Function.update_of_ne hli] at hw
        obtain ⟨j, hj, haj⟩ := h l hl hw
        have hji : j ≠ i := by
          rintro rfl
          exact hi hj
        refine ⟨j, hj, ?_⟩
        show (Function.update s.pc i e.pc j).awake = true
        rwa [Function.update_of_ne hji]
    · exact h.update hew fun _ ha => (hawake ha).resolve_right hew
  | signal i target =>
    obtain ⟨o, hpi, -, -, ⟨j, hj, hpj, hp⟩ | ⟨hnone, hp⟩⟩ := step_signal hs
    · have hne : j ≠ i := by
        rintro rfl
        rw [hpi] at hpj
        exact nomatch hpj
      rw [hp]
      by_cases hi : fileOf req i = f
      · intro _ _ _
        refine ⟨j, hj.trans hi, ?_⟩
        rw [Function.update_of_ne hne, Function.update_self]
        rfl
      · have hwoken := h.update (i := j) (show Pc.woken true ≠ .waiting from nofun) fun _ _ => rfl
        exact hwoken.update nofun fun hi' => absurd hi' hi
    · rw [hp]
      by_cases hi : fileOf req i = f
      · intro l hl hw
        rcases eq_or_ne l i with rfl | hne
        · rw [Function.update_self] at hw
          exact nomatch hw
        · rw [Function.update_of_ne hne] at hw
          exact absurd hw (hnone l (hl.trans hi.symm))
      · exact h.update nofun fun hi' => absurd hi' hi
  | spurious i =>
    obtain ⟨hpi, hs⟩ := Option.ite_none_right_eq_some.mp hs
    cases hs
    exact h.update nofun fun _ _ => rfl
  | main =>
    cases mainStep_inv hs with
    | @create i hi hm =>
      refine h.update nofun fun _ ha => ?_
      have hidle : s.pc ⟨i, hi⟩ = .idle := (hd.idle _).mpr (by rw [hm]; exact le_rfl)
      rw [hidle] at ha
      exact nomatch ha
    | _ => exact h
  | timer i =>
    obtain ⟨_, -, -, rfl⟩ := step_timer hs
    exact h
  | tick =>
    cases hs
    exact h

/-! ## The busy-wait -/

theorem timeRequests_step {a : Act m} (hk0 : 0 ≤ k) (hk : k < 100)
    (hs : step cfg req s a = some s') : (s'.files f).timeRequests k = (s.files f).timeRequests k ∨
      (∃ i, s.pc i = .count ∧ fileOf req i = f ∧
        (s'.files f).timeRequests k ≤ (s.files f).timeRequests k) ∨
      a = .main ∧ ∃ j : Fin m, s.main.counting = some j.val ∧ (req j).operation ≠ .delete ∧
        fileOf req j = f ∧ slot (req j) = k ∧
        (s'.files f).timeRequests k = (s.files f).timeRequests k + 1 := by
  cases a with
  | run i =>
    obtain ⟨e, he, rfl⟩ := Option.map_eq_some_iff.mp hs
    show (Function.update s.files (fileOf req i) e.file f).timeRequests k = _ ∨
      (∃ l, s.pc l = .count ∧ fileOf req l = f ∧
        (Function.update s.files (fileOf req i) e.file f).timeRequests k ≤ _) ∨ _
    rcases eq_or_ne f (fileOf req i) with rfl | hne
    · rw [Function.update_self]
      rcases processReq_counter he with ⟨hp, -, htr⟩ | ⟨-, htr, -⟩
      · refine .inr (.inl ⟨i, hp, rfl, ?_⟩)
        rw [htr, FileInfo.timeRequests_fetchAdd _ (slot_lt _) hk0 hk]
        split <;> omega
      · exact .inl (FileInfo.timeRequests_congr htr hk0)
    · exact .inl (by rw [Function.update_of_ne hne])
  | signal i target =>
    obtain ⟨o, -, hf, -⟩ := step_signal hs
    rw [hf]
    exact .inl rfl
  | spurious i =>
    obtain ⟨-, hs⟩ := Option.ite_none_right_eq_some.mp hs
    cases hs
    exact .inl rfl
  | main =>
    cases mainStep_inv hs with
    | @count i wake hi hm hwake =>
      show (Function.update s.files _ _ f).timeRequests k = _ ∨ _ ∨ _ ∧
        ∃ j : Fin m, _ ∧ _ ∧ _ ∧ _ ∧ (Function.update s.files _ _ f).timeRequests k = _
      rcases eq_or_ne f (fileOf req ⟨i, hi⟩) with rfl | hne
      · rw [Function.update_self]
        unfold FileInfo.countIn
        by_cases hop : (req ⟨i, hi⟩).operation = .delete
        · exact .inl (by rw [if_pos hop])
        · rw [if_neg hop, FileInfo.timeRequests_fetchAdd _ (slot_lt _) hk0 hk]
          by_cases hslot : slot (req ⟨i, hi⟩) = k
          · exact .inr (.inr ⟨rfl, ⟨i, hi⟩, by rw [hm]; rfl, hop, rfl, hslot, if_pos hslot⟩)
          · exact .inl (if_neg hslot)
      · exact .inl (by rw [Function.update_of_ne hne])
    | _ => exact .inl rfl
  | timer i =>
    obtain ⟨_, -, -, rfl⟩ := step_timer hs
    exact .inl rfl
  | tick =>
    cases hs
    exact .inl rfl

theorem mainStep_pc (hs : step cfg req s .main = some s') (hp : ∀ wake, s'.pc i ≠ .start wake) :
    s'.pc i = s.pc i := by
  cases mainStep_inv hs with
  | @create l hl hm =>
    rcases eq_or_ne i ⟨l, hl⟩ with rfl | hne
    · exact absurd (Function.update_self ..) (hp _)
    · exact Function.update_of_ne hne ..
  | _ => rfl

/-- A DELETE in the busy-wait with the mutex finds its counter at zero. -/
def SpinInv (req : Fin m → UserRequest) (s : State m) : Prop :=
  ∀ i, s.pc i = .spin false → (s.files (fileOf req i)).timeRequests (slot (req i)) ≤ 0

theorem processReq_spin (h : processReq cfg rq i now fi b p = some e) (he : e.pc = .spin false) :
    p = .spin false ∨ fi.timeRequests (slot rq) ≤ 0 := by
  cases p <;> grind [processReq]

theorem SpinInv.step {a : Act m} (h : SpinInv req s) (hd : Dispatched req bytes s)
    (htime : ∀ i, 0 ≤ slot (req i)) (hclear : CountsClear req s a)
    (hs : step cfg req s a = some s') : SpinInv req s' := by
  intro i hi
  have hbefore : s.pc i = .spin false ∨
    (s.files (fileOf req i)).timeRequests (slot (req i)) ≤ 0 := by
    rcases hd.step_pc hs i with he | ⟨e, he, hp⟩ | ⟨-, b, hp⟩ | ⟨o, -, hp⟩ | ⟨-, wake, hp⟩
    · exact .inl (he ▸ hi)
    · exact processReq_spin he (hp ▸ hi)
    all_goals
      rw [hp] at hi
      exact nomatch hi
  have hle := hbefore.elim (h i) id
  rcases timeRequests_step (f := fileOf req i) (htime i) (slot_lt _) hs with heq |
    ⟨-, -, -, hdown⟩ | ⟨rfl, j, hj, hop, hfile, hslot, -⟩
  · rwa [heq]
  · exact hdown.trans hle
  · have hsame := mainStep_pc hs (i := i) (by rw [hi]; exact nofun)
    exact absurd (hsame ▸ hi) (hclear i j hj hop hfile.symm hslot.symm)

/-! ## Who can go on -/

theorem canGoOn_of_run (hnow : s.clock ≤ now) (hspin : ∀ flagChecker, s.pc i = .spin flagChecker →
      (s.files (fileOf req i)).timeRequests (slot (req i)) ≤ 0)
    (h : processReq cfg (req i) i now (s.files (fileOf req i)) (s.bullet i) (s.pc i) ≠ none) :
    CanGoOn cfg req s := by
  obtain ⟨e, he⟩ := Option.ne_none_iff_exists'.mp h
  exact ⟨now, hnow, .run i, _, hspin, Option.map_eq_some_iff.mpr ⟨e, he, rfl⟩⟩

theorem canGoOn_of_signal {o : Outcome} (h : s.pc i = .signal o) : CanGoOn cfg req s := by
  by_cases hnone : ∀ j, asleep req s (fileOf req i) j = false
  · refine ⟨s.clock, le_rfl, .signal i none, { s with pc := Function.update s.pc i (.unlock o) },
      trivial, ?_⟩
    simp only [step, h]
    exact if_pos hnone
  · obtain ⟨j, hj⟩ := not_forall.mp hnone
    refine ⟨s.clock, le_rfl, .signal i (some j), { s with
      pc := Function.update (Function.update s.pc j (.woken true)) i (.unlock o) }, trivial, ?_⟩
    simp only [step, h]
    exact if_pos (Bool.eq_true_of_not_eq_false hj)

theorem canGoOn_of_holds (hspin : SpinInv req s) (h : (s.pc i).holds = true) :
    CanGoOn cfg req s := by
  have hspin' : ∀ flagChecker, s.pc i = .spin flagChecker →
      (s.files (fileOf req i)).timeRequests (slot (req i)) ≤ 0 := by
    intro flagChecker hp
    cases flagChecker with
    | false => exact hspin i hp
    | true =>
      rw [hp] at h
      cases h
  cases hp : s.pc i with
  | signal o => exact canGoOn_of_signal hp
  | deleting wake =>
    refine canGoOn_of_run (i := i) (le_max_left s.clock wake) hspin' ?_
    rw [hp]
    simp [processReq]
  | spin | test | timed =>
    refine canGoOn_of_run (i := i) le_rfl hspin' ?_
    rw [hp]
    simp only [processReq]
    split <;> exact Option.some_ne_none _
  | taken signalled =>
    refine canGoOn_of_run (i := i) le_rfl hspin' ?_
    rw [hp]
    simp only [processReq]
    split
    · exact Option.some_ne_none _
    · split <;> exact Option.some_ne_none _
  | locked | count | peek | peekUnlock | admitted | entered | unlock =>
    refine canGoOn_of_run (i := i) le_rfl hspin' ?_
    rw [hp]
    exact Option.some_ne_none _
  | idle | start | lock | relock | waiting | woken | working | finishing | returned =>
    rw [hp] at h
    cases h

/-- The thread is neither asleep nor in the busy-wait without the mutex, and it is running. -/
def Pc.ready : Pc → Bool
  | .idle | .waiting | .spin true | .returned _ => false
  | _ => true

theorem Pc.ready_of_awake (h : p.awake = true) : p.ready = true := by
  cases p <;> simp_all [awake, ready]

theorem Pc.ready_of_beforeCount (hidle : p ≠ .idle) (h : p.beforeCount = true) :
    p.ready = true := by
  cases p <;> simp_all [beforeCount, ready]

theorem canGoOn_of_ready (hspin : SpinInv req s)
    (hf : FileInv cfg req (fileOf req i) (s.files (fileOf req i)) s.pc)
    (h : (s.pc i).ready = true) : CanGoOn cfg req s := by
  by_cases hholds : (s.pc i).holds = true
  · exact canGoOn_of_holds hspin hholds
  have hspin' : ∀ flagChecker, s.pc i = .spin flagChecker →
      (s.files (fileOf req i)).timeRequests (slot (req i)) ≤ 0 := by
    intro flagChecker hp
    rw [hp] at h hholds
    cases flagChecker with
    | false => exact absurd rfl hholds
    | true => cases h
  rcases hl : (s.files (fileOf req i)).lock with _ | j
  · cases hp : s.pc i with
    | start wake | working wake =>
      refine canGoOn_of_run (i := i) (le_max_left s.clock wake) hspin' ?_
      rw [hp]
      simp [processReq]
    | lock | relock | woken | finishing =>
      refine canGoOn_of_run (i := i) le_rfl hspin' ?_
      rw [hp]
      simp [processReq, hl]
    | spin flagChecker =>
      rw [hp] at h hholds
      cases flagChecker with
      | false => exact absurd rfl hholds
      | true => cases h
    | idle | waiting | returned =>
      rw [hp] at h
      cases h
    | _ =>
      rw [hp] at hholds
      exact absurd rfl hholds
  · exact canGoOn_of_holds hspin ((hf.lock j).mp hl).2

/-- What holds in every state that is reached without the defect. -/
structure ProgressInv (cfg : Config) (req : Fin m → UserRequest) (bytes : Int → FileInfo m)
    (s : State m) : Prop where
  inv : Inv cfg req s
  dispatched : Dispatched req bytes s
  sleep : ∀ f, 0 ≤ f → f < cfg.n → SleepInv req f s.pc
  spin : SpinInv req s

theorem progressInv_of_reachIf (htime : ∀ i, 0 ≤ slot (req i)) (hc : 1 ≤ cfg.c)
    (h : ReachIf (step cfg req) (CountsClear req) (init cfg bytes) s) :
    ProgressInv cfg req bytes s := by
  refine h.invariant (fun t a t' ht hclear hs => ?_)
    ⟨inv_init cfg req bytes (by omega), dispatched_init cfg req bytes, fun _ _ _ _ _ => nofun,
      fun _ => nofun⟩
  exact ⟨ht.inv.step htime hs, ht.dispatched.step hs, fun f h0 hn =>
    (ht.sleep f h0 hn).step hc (ht.inv.file f h0 hn) ht.dispatched hs,
    ht.spin.step ht.dispatched htime hclear hs⟩

theorem canGoOn_of_dispatching (hd : Dispatched req bytes s) {n : ℕ}
    (h : s.main = .dispatch n ∨ (∃ wake, s.main = .sleep n wake) ∨ s.main = .create n) :
    CanGoOn cfg req s := by
  suffices hstep : ∃ now, s.clock ≤ now ∧ mainStep req { s with clock := now } ≠ none by
    obtain ⟨now, hnow, hne⟩ := hstep
    obtain ⟨s', hs'⟩ := Option.ne_none_iff_exists'.mp hne
    exact ⟨now, hnow, .main, s', trivial, hs'⟩
  rcases h with hm | ⟨wake, hm⟩ | hm
  · refine ⟨s.clock, le_rfl, ?_⟩
    simp only [mainStep, hm]
    split <;> exact Option.some_ne_none _
  · have hn := ((hd.main n).1 wake hm)
    refine ⟨max s.clock wake, le_max_left .., ?_⟩
    simp only [mainStep, hm]
    rw [dif_pos ⟨hn, le_max_right ..⟩]
    exact Option.some_ne_none _
  · have hn := ((hd.main n).2 hm)
    refine ⟨s.clock, le_rfl, ?_⟩
    simp only [mainStep, hm]
    rw [dif_pos hn]
    exact Option.some_ne_none _

/-- Once `main` joins, a thread that has not returned lets some thread go on. -/
theorem ProgressInv.canGoOn_of_thread (h : ProgressInv cfg req bytes s)
    (hfile : ∀ i, 0 ≤ fileOf req i ∧ fileOf req i < cfg.n)
    (htime : ∀ i, 0 ≤ slot (req i))
    (hzero : ∀ f k, 0 ≤ k → k < 100 → (bytes f).timeRequests k = 0) (hall : ∀ i, s.pc i ≠ .idle)
    (hi : ∀ o, s.pc i ≠ .returned o) : CanGoOn cfg req s := by
  have hready : ∀ j, (s.pc j).ready = true → CanGoOn cfg req s := fun j hj =>
    canGoOn_of_ready h.spin (h.inv.file _ (hfile j).1 (hfile j).2) hj
  by_cases hr : (s.pc i).ready = true
  · exact hready i hr
  cases hp : s.pc i with
  | idle => exact absurd hp (hall i)
  | returned o => exact absurd hp (hi o)
  | waiting =>
    obtain ⟨j, -, hj⟩ := h.sleep _ (hfile i).1 (hfile i).2 i rfl hp
    exact hready j (Pc.ready_of_awake hj)
  | spin flagChecker =>
    by_cases hle : (s.files (fileOf req i)).timeRequests (slot (req i)) ≤ 0
    · refine canGoOn_of_run (i := i) le_rfl (fun _ _ => hle) ?_
      rw [hp]
      simp only [processReq]
      split <;> exact Option.some_ne_none _
    · -- the counter stands for a thread that has yet to count itself out
      have hlaw := h.dispatched.law (fileOf req i) _ (htime i) (slot_lt _)
      rw [hzero _ _ (htime i) (slot_lt _), zero_add] at hlaw
      obtain ⟨j, hj⟩ := exists_of_tally_pos (hlaw ▸ not_le.mp hle)
      simp only [pends, Bool.and_eq_true] at hj
      exact hready j (Pc.ready_of_beforeCount (hall j) hj.2.2)
  | _ =>
    rw [hp] at hr
    exact absurd rfl hr

theorem ProgressInv.canGoOn (h : ProgressInv cfg req bytes s)
    (hfile : ∀ i, 0 ≤ fileOf req i ∧ fileOf req i < cfg.n) (htime : ∀ i, 0 ≤ slot (req i))
    (hzero : ∀ f k, 0 ≤ k → k < 100 → (bytes f).timeRequests k = 0) (hunfinished : Unfinished s) :
    CanGoOn cfg req s := by
  have hjoined : s.main.dispatched m = m → ∀ i, s.pc i ≠ .idle := by
    intro hm i hi
    have hle := (h.dispatched.idle i).mp hi
    rw [hm] at hle
    exact absurd i.isLt (not_lt.mpr hle)
  cases hm : s.main with
  | dispatch n => exact canGoOn_of_dispatching h.dispatched (.inl hm)
  | sleep n wake => exact canGoOn_of_dispatching h.dispatched (.inr (.inl ⟨wake, hm⟩))
  | create n => exact canGoOn_of_dispatching h.dispatched (.inr (.inr hm))
  | join n =>
    have hall := hjoined (by rw [hm]; rfl)
    by_cases hn : ∃ hn : n < m, ∀ o, s.pc ⟨n, hn⟩ ≠ .returned o
    · obtain ⟨hn, hp⟩ := hn
      exact h.canGoOn_of_thread hfile htime hzero hall hp
    · refine ⟨s.clock, le_rfl, .main, ?_⟩
      by_cases hlt : n < m
      · obtain ⟨o, ho⟩ : ∃ o, s.pc ⟨n, hlt⟩ = .returned o := by
          by_contra hno
          exact hn ⟨hlt, fun o ho => hno ⟨o, ho⟩⟩
        refine ⟨{ s with main := .join (n + 1) }, trivial, ?_⟩
        simp only [step, mainStep, hm]
        rw [dif_pos hlt]
        simp only [ho]
      · refine ⟨{ s with main := .finished }, trivial, ?_⟩
        simp only [step, mainStep, hm]
        rw [dif_neg hlt]
  | finished =>
    rcases hunfinished with hne | ⟨i, hi⟩
    · exact absurd hm hne
    · exact h.canGoOn_of_thread hfile htime hzero (hjoined (by rw [hm]; rfl)) hi

/-! ## The defect -/

/-- A DELETE spins on a counter while it holds the mutex. -/
structure Jammed (req : Fin m → UserRequest) (s : State m) (i : Fin m) : Prop where
  spin : s.pc i = .spin false
  counter : 0 < (s.files (fileOf req i)).timeRequests (slot (req i))

/-- Whoever could lower the counter needs the mutex. -/
theorem Jammed.step {a : Act m} (h : Jammed req s i) (hd : Dispatched req bytes s)
    (htime : ∀ i, 0 ≤ slot (req i))
    (hf : FileInv cfg req (fileOf req i) (s.files (fileOf req i)) s.pc)
    (hs : step cfg req s a = some s') : Jammed req s' i := by
  have hspin := h.spin
  have hpos := h.counter
  constructor
  · rcases hd.step_pc hs i with he | ⟨e, he, hp⟩ | ⟨hp, -⟩ | ⟨o, hp, -⟩ | ⟨hp, -⟩
    · rw [he, hspin]
    · rw [hspin] at he
      simp only [processReq, if_pos hpos, Option.some.injEq] at he
      rw [hp, ← he]
    all_goals
      rw [hspin] at hp
      cases hp
  · rcases timeRequests_step (f := fileOf req i) (htime i) (slot_lt _) hs with heq |
      ⟨l, hl, hfile, -⟩ | ⟨-, j, -, -, -, -, heq⟩
    · rwa [heq]
    · have hli := hf.exclusive rfl (by rw [hspin]; rfl) hfile (by rw [hl]; rfl)
      rw [hli, hspin] at hl
      cases hl
    · omega

theorem jammed_of_reach (htime : ∀ i, 0 ≤ slot (req i)) (hinv : Inv cfg req s)
    (hd : Dispatched req bytes s) (h0 : 0 ≤ fileOf req i) (hn : fileOf req i < cfg.n)
    (h : Jammed req s i) (hs : Reach (step cfg req) s s') : Jammed req s' i := by
  have hall := hs.invariant (I := fun t => Inv cfg req t ∧ Dispatched req bytes t ∧ Jammed req t i)
    (fun t a t' ht hstep => ⟨ht.1.step htime hstep, ht.2.1.step hstep,
      ht.2.2.step ht.2.1 htime (ht.1.file _ h0 hn) hstep⟩) ⟨hinv, hd, h⟩
  exact hall.2.2

/-- Counting a request while a DELETE with the mutex tests the counter again jams the DELETE. -/
theorem exists_jammed (hd : Dispatched req bytes s) (htime : ∀ i, 0 ≤ slot (req i))
    (hzero : ∀ f k, 0 ≤ k → k < 100 → (bytes f).timeRequests k = 0)
    (hs : step cfg req s .main = some s') (hclear : ¬ CountsClear req s .main) :
    ∃ i, Jammed req s' i := by
  simp only [CountsClear, not_forall] at hclear
  obtain ⟨i, j, hj, hop, hfile, hslot, hi⟩ := hclear
  have hi := not_not.mp hi
  refine ⟨i, ?_, ?_⟩
  · have hpc : ∀ wake, s'.pc i ≠ .start wake := by
      intro wake hp
      rcases hd.step_pc hs i with he | ⟨e, he, hp'⟩ | ⟨hp', -⟩ | ⟨o, hp', -⟩ | ⟨hp', -⟩
      · rw [he, hi] at hp
        cases hp
      · rw [hi] at he
        grind [processReq]
      all_goals
        rw [hi] at hp'
        cases hp'
    rw [mainStep_pc hs hpc, hi]
  · have hpos : 0 ≤ (s.files (fileOf req j)).timeRequests (slot (req j)) := by
      rw [hd.law _ _ (htime j) (slot_lt _), hzero _ _ (htime j) (slot_lt _), zero_add]
      exact tally_nonneg _ _
    cases mainStep_inv hs with
    | @count n wake hn hm hwake =>
      obtain rfl : n = j.val := by
        rw [hm] at hj
        exact Option.some.inj hj
      show 0 < (Function.update s.files (fileOf req j) ((s.files (fileOf req j)).countIn (req j))
        (fileOf req i)).timeRequests (slot (req i))
      rw [hfile, hslot, Function.update_self]
      unfold FileInfo.countIn
      rw [if_neg hop, FileInfo.timeRequests_fetchAdd _ (slot_lt _) (htime j) (slot_lt _), if_pos rfl]
      omega
    | sleep _ hm _ | joinAll _ hm | create _ hm | join _ hm _ | finish _ hm =>
      rw [hm] at hj
      cases hj

/-- **LAZY gets on until all threads have returned**, in every run in which `main` counts no request
while a DELETE that holds the mutex is about to test the same counter again. From that step on the
DELETE spins and keeps the mutex. -/
theorem lazy_goes_on (cfg : Config) (req : Fin m → UserRequest) (bytes : Int → FileInfo m)
    (hc : 1 ≤ cfg.c) (hfile : ∀ i, 1 ≤ (req i).fileid ∧ (req i).fileid ≤ cfg.n)
    (htime : ∀ i, 0 ≤ slot (req i))
    (hzero : ∀ f k, 0 ≤ k → k < 100 → (bytes f).timeRequests k = 0) :
    (∀ s, ReachIf (step cfg req) (CountsClear req) (init cfg bytes) s → Unfinished s →
      CanGoOn cfg req s) ∧
    ∀ s s', Reach (step cfg req) (init cfg bytes) s →
      step cfg req s .main = some s' → ¬ CountsClear req s .main →
      ∃ i, ∀ t, Reach (step cfg req) s' t → s'.pc i = .spin false ∧ t.pc i = .spin false ∧
        (t.files (fileOf req i)).lock = some i ∧
        0 < (t.files (fileOf req i)).timeRequests (slot (req i)) := by
  have hvalid : ∀ i, 0 ≤ fileOf req i ∧ fileOf req i < cfg.n := by
    intro i
    have hi := hfile i
    unfold fileOf
    omega
  refine ⟨fun s hs hunfinished => ?_, fun s s' hs hstep hclear => ?_⟩
  · exact (progressInv_of_reachIf htime hc hs).canGoOn hvalid htime hzero hunfinished
  · obtain ⟨i, hi⟩ := exists_jammed (dispatched_of_reach hs) htime hzero hstep hclear
    refine ⟨i, fun t ht => ?_⟩
    have hinv := inv_of_reach htime (by omega) (hs.step hstep)
    have hd := dispatched_of_reach (hs.step hstep)
    have hjam := jammed_of_reach htime hinv hd (hvalid i).1 (hvalid i).2 hi ht
    have hfile := (inv_of_reach htime (by omega) ((hs.step hstep).trans ht)).file _ (hvalid i).1
      (hvalid i).2
    exact ⟨hi.spin, hjam.spin, (hfile.lock i).mpr ⟨rfl, by rw [hjam.spin]; rfl⟩, hjam.counter⟩

end Steps

/-- Two READs are in progress and the third sleeps. -/
theorem lazy_goes_on_threeReads :
    ∃ s, ReachIf (step oneFile threeReads) (CountsClear threeReads) (init oneFile zeroBytes) s ∧
      s.pc 2 = .waiting ∧ CanGoOn oneFile threeReads s := by
  obtain ⟨s, hs, hp⟩ : ∃ s ∈ runActsIf (step oneFile threeReads) (CountsClear threeReads)
      (init oneFile zeroBytes) (threeReadsActs.take 33), s.pc 2 = .waiting := by decide +kernel
  have hreach := reachIf_of_runActsIf hs
  refine ⟨s, hreach, hp, (lazy_goes_on oneFile threeReads zeroBytes (by decide) (by decide)
    (by decide) fun _ _ => zeroBytes_timeRequests).1 s hreach (.inr ⟨2, fun o => ?_⟩)⟩
  rw [hp]
  exact nofun

/-- A DELETE of file 1 at second 0 and a READ of it at second 100, which use one counter. -/
def deleteThenRead : Fin 2 → UserRequest :=
  fun i => if i = 0 then ⟨0, 1, .delete, 0⟩ else ⟨1, 1, .read, 100⟩

/-- The DELETE finds its counter at zero; before it looks again, 100 seconds later, the READ is
counted. -/
def deadlockActs : List (Act 2) :=
  List.flatten [List.replicate 3 .main, [.tick], List.replicate 4 (.run 0), List.replicate 99 .tick,
    List.replicate 4 .main, [.tick, .run 1]]

/-- **A deadlock**: the DELETE spins with the mutex, the READ waits for it and `main` for both. -/
theorem lazy_deadlocks :
    ¬ ∀ s, Reach (step oneFile deleteThenRead) (init oneFile zeroBytes) s → Unfinished s →
      CanGoOn oneFile deleteThenRead s := by
  intro hall
  obtain ⟨s, hs, h0, h1, hm, hl, hc⟩ : ∃ s ∈ runActs (step oneFile deleteThenRead)
      (init oneFile zeroBytes) deadlockActs, s.pc 0 = .spin false ∧ s.pc 1 = .lock ∧ s.main = .join 0 ∧
      (s.files 0).lock = some 0 ∧ 0 < (s.files 0).timeRequests 0 := by decide +kernel
  obtain ⟨now, -, a, s', hgets, hstep⟩ := hall s (reach_of_runActs hs) (.inl (by simp [hm]))
  cases a with
  | run i =>
    obtain rfl | rfl := (by decide : ∀ i : Fin 2, i = 0 ∨ i = 1) i
    · exact absurd (hgets false h0) (not_le.mpr hc)
    · obtain ⟨e, he, -⟩ := Option.map_eq_some_iff.mp hstep
      have hfile : (s.files (fileOf deleteThenRead 1)).lock = some 0 := hl
      simp [h1, processReq, hfile] at he
  | signal i target =>
    obtain ⟨o, hp, -⟩ := step_signal hstep
    have hp : s.pc i = .signal o := hp
    obtain rfl | rfl := (by decide : ∀ i : Fin 2, i = 0 ∨ i = 1) i
    · rw [h0] at hp
      cases hp
    · rw [h1] at hp
      cases hp
  | main =>
    have hnow : ({ s with clock := now } : State 2).main = .join 0 := hm
    cases mainStep_inv hstep with
    | @join n o hn hm' hp =>
      rw [hnow] at hm'
      cases hm'
      have hp : s.pc 0 = .returned o := hp
      rw [h0] at hp
      cases hp
    | @finish n hn hm' =>
      rw [hnow] at hm'
      cases hm'
      exact absurd hn (by decide)
    | sleep _ hm' _ | joinAll _ hm' | count _ hm' _ | create _ hm' =>
      rw [hnow] at hm'
      cases hm'
  | spurious | timer | tick => exact hgets

end LazyXv6.FileManager
