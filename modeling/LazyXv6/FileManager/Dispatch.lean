import LazyXv6.FileManager.Safety

/-!
# The dispatch counters

`main` counts each READ and WRITE in `time_requests` before it creates the thread, and the thread
counts itself out after it has forked its timer. `Dispatched` ties the counters to the places of the
threads: a counter is what `malloc` left in it plus the requests of its slot that are counted and
not yet counted out (`pending`). `main` never initialises the counters.
-/

namespace LazyXv6.FileManager

open Function Lib

variable {m : ℕ}

/-! ## Steps of `main` -/

def FileInfo.countIn (fi : FileInfo m) (rq : UserRequest) : FileInfo m :=
  if rq.operation = .delete then fi
  else fi.fetchAdd (slot rq) 1

inductive MainStep (req : Fin m → UserRequest) (s : State m) : State m → Prop where
  | sleep {i : ℕ} {wake : Int} (hi : i < m) (hm : s.main = .dispatch i)
      (hwake : (req ⟨i, hi⟩).requesttime ≤ wake) : MainStep req s { s with main := .sleep i wake }
  | joinAll {i : ℕ} (hi : m ≤ i) (hm : s.main = .dispatch i) :
      MainStep req s { s with main := .join 0 }
  | count {i : ℕ} {wake : Int} (hi : i < m) (hm : s.main = .sleep i wake)
      (hwake : wake ≤ s.clock) :
      MainStep req s { s with
        files := update s.files (fileOf req ⟨i, hi⟩)
          ((s.files (fileOf req ⟨i, hi⟩)).countIn (req ⟨i, hi⟩))
        out := s.out ++ [.requested ⟨i, hi⟩ (req ⟨i, hi⟩).requesttime]
        main := .create i }
  | create {i : ℕ} (hi : i < m) (hm : s.main = .create i) :
      MainStep req s { s with
        pc := update s.pc ⟨i, hi⟩ (.start (wakeTime s.clock 1))
        main := .dispatch (i + 1) }
  | join {i : ℕ} {o : Outcome} (hi : i < m) (hm : s.main = .join i)
      (hp : s.pc ⟨i, hi⟩ = .returned o) : MainStep req s { s with main := .join (i + 1) }
  | finish {i : ℕ} (hi : m ≤ i) (hm : s.main = .join i) :
      MainStep req s { s with main := .finished }

theorem mainStep_inv {req : Fin m → UserRequest} {s s' : State m} (h : mainStep req s = some s') :
    MainStep req s s' := by
  unfold mainStep at h
  split at h
  · rename_i i hm
    split at h <;> cases h
    · rename_i hi
      refine .sleep hi hm ?_
      split <;> omega
    · exact .joinAll (by omega) hm
  · rename_i i wake hm
    split at h <;> cases h
    rename_i hi
    exact .count hi.1 hm hi.2
  · rename_i i hm
    split at h <;> cases h
    exact .create ‹_› hm
  · rename_i i hm
    split at h
    · split at h <;> cases h
      exact .join ‹_› hm ‹_›
    · cases h
      exact .finish (by omega) hm
  · cases h

/-! ## The counters -/

def MainPc.counted (m : ℕ) : MainPc → ℕ
  | .dispatch i | .sleep i _ => i
  | .create i => i + 1
  | .join _ | .finished => m

/-- The thread has not executed its `atomic_fetch_sub`. -/
def Pc.beforeCount : Pc → Bool
  | .idle | .start _ | .lock | .locked | .count => true
  | _ => false

/-- Request `i` is one of the first `n`, uses counter `k` of file `f` and is at `p`, before its
`atomic_fetch_sub`. -/
def pends (req : Fin m → UserRequest) (f k : Int) (n : ℕ) (i : Fin m) (p : Pc) : Bool :=
  decide (i.val < n) && (decide (fileOf req i = f) && decide (slot (req i) = k) &&
    decide ((req i).operation ≠ .delete) && p.beforeCount)

/-- The READs and WRITEs on file `f` with request time `k` modulo 100 among the first `n` requests
whose thread has not executed its `atomic_fetch_sub`. -/
def pending (req : Fin m → UserRequest) (f k : Int) (n : ℕ) (pc : Fin m → Pc) : ℤ :=
  tally (pends req f k n) pc

structure Dispatched (req : Fin m → UserRequest) (bytes : Int → FileInfo m) (s : State m) :
    Prop where
  idle : ∀ i : Fin m, s.pc i = .idle ↔ s.main.dispatched m ≤ i
  main : ∀ i : ℕ, (∀ wake, s.main = .sleep i wake → i < m) ∧ (s.main = .create i → i < m)
  branch : ∀ i, s.pc i = .count → (req i).operation ≠ .delete
  law : ∀ f k, 0 ≤ k → k < 100 →
    (s.files f).timeRequests k = (bytes f).timeRequests k + pending req f k (s.main.counted m) s.pc

section Steps

variable {cfg : Config} {req : Fin m → UserRequest} {bytes : Int → FileInfo m} {s s' : State m}
  {rq : UserRequest} {i : Fin m} {now f k : Int} {fi : FileInfo m} {b : Bullet} {p : Pc}
  {e : Effect m} {n : ℕ}

@[simp] theorem FileInfo.counters_enter (fi : FileInfo m) (o : Op) :
    (fi.enter o).counters = fi.counters := by
  cases o <;> rfl

@[simp] theorem FileInfo.counters_leave (fi : FileInfo m) (o : Op) :
    (fi.leave o).counters = fi.counters := by
  cases o <;> rfl

theorem FileInfo.timeRequests_congr {fi fi' : FileInfo m} (h : fi'.counters = fi.counters)
    (hk : 0 ≤ k) : fi'.timeRequests k = fi.timeRequests k := by
  simp only [timeRequests, if_pos hk, h]

theorem processReq_counter (h : processReq cfg rq i now fi b p = some e) :
    (p = .count ∧ e.pc = .test false ∧ e.file = fi.fetchAdd (slot rq) (-1)) ∨
      p ≠ .count ∧ e.file.counters = fi.counters ∧
        (rq.operation ≠ .delete → e.pc.beforeCount = p.beforeCount) ∧
        (e.pc = .count → rq.operation ≠ .delete) ∧ e.pc ≠ .idle := by
  cases p <;> grind [processReq, Pc.beforeCount, FileInfo.counters_enter, FileInfo.counters_leave,
    FileInfo.setDeleted]

theorem MainPc.dispatched_le_counted (pc : MainPc) : pc.dispatched m ≤ pc.counted m := by
  cases pc with
  | create i => exact Nat.le_succ i
  | _ => exact le_rfl

theorem pending_update (hi : i.val < n) (pc : Fin m → Pc) :
    pending req f k n (update pc i p) = pending req f k n pc
      - unit (decide (fileOf req i = f) && decide (slot (req i) = k) &&
          decide ((req i).operation ≠ .delete) && (pc i).beforeCount)
      + unit (decide (fileOf req i = f) && decide (slot (req i) = k) &&
          decide ((req i).operation ≠ .delete) && p.beforeCount) := by
  unfold pending
  rw [tally_update]
  unfold pends
  rw [decide_eq_true hi, Bool.true_and, Bool.true_and]

theorem pending_succ (hn : n < m) {pc : Fin m → Pc} (hp : pc ⟨n, hn⟩ = .idle) :
    pending req f k (n + 1) pc = pending req f k n pc +
      unit (decide (fileOf req ⟨n, hn⟩ = f) && decide (slot (req ⟨n, hn⟩) = k) &&
        decide ((req ⟨n, hn⟩).operation ≠ .delete)) := by
  have hother : ∀ j : Fin m, j ≠ ⟨n, hn⟩ →
    pends req f k (n + 1) j (pc j) = pends req f k n j (pc j) := by
    intro j hj
    have hjn : j.val ≠ n := fun he => hj (Fin.ext he)
    have hlt : j.val < n + 1 ↔ j.val < n := by omega
    unfold pends
    rw [decide_eq_decide.mpr hlt]
  unfold pending
  rw [tally_eq_of_ne hother]
  unfold pends
  rw [hp]
  simp [Pc.beforeCount]

theorem Dispatched.run (h : Dispatched req bytes s) (hs : step cfg req s (.run i) = some s') :
    Dispatched req bytes s' := by
  obtain ⟨e, he, rfl⟩ := Option.map_eq_some_iff.mp hs
  have hact : s.pc i ≠ .idle := by
    intro hp
    rw [hp] at he
    exact nomatch he
  have hdisp : i.val < s.main.dispatched m := Nat.lt_of_not_le fun hle => hact ((h.idle i).mpr hle)
  have hcounted := hdisp.trans_le (MainPc.dispatched_le_counted s.main)
  have hcases := processReq_counter he
  have hbranch : e.pc = .count → (req i).operation ≠ .delete := by grind
  refine ⟨fun j => ?_, h.main, fun j hj => ?_, fun f k hk0 hk => ?_⟩
  · show update s.pc i e.pc j = .idle ↔ _
    rcases eq_or_ne j i with rfl | hne
    · have hidle : e.pc ≠ .idle := by grind
      rw [update_self]
      exact ⟨fun hp => absurd hp hidle, fun hle => absurd hdisp (Nat.not_lt.mpr hle)⟩
    · rw [update_of_ne hne]
      exact h.idle j
  · rcases eq_or_ne j i with rfl | hne
    · exact hbranch (by simpa using hj)
    · exact h.branch j (by simpa [update_of_ne hne] using hj)
  · have hlaw := h.law f k hk0 hk
    show (update s.files (fileOf req i) e.file f).timeRequests k = _ +
      pending req f k (s.main.counted m) (update s.pc i e.pc)
    rw [pending_update hcounted]
    rcases eq_or_ne f (fileOf req i) with rfl | hne
    · rw [update_self]
      rcases hcases with ⟨hp, hp', htr⟩ | ⟨-, htr, hsame, -⟩
      · have hop := h.branch i hp
        have hcount : Pc.count.beforeCount = true := rfl
        have htest : (Pc.test false).beforeCount = false := rfl
        rw [htr, hp, hp', hcount, htest, decide_eq_true rfl, decide_eq_true hop,
          FileInfo.timeRequests_fetchAdd _ (slot_lt _) hk0 hk]
        by_cases hslot : slot (req i) = k
        · simp only [hslot, if_true, decide_true, Bool.and_true, Bool.and_false, unit_true, unit_false]
          omega
        · simp only [hslot, if_false, decide_false, Bool.and_false, Bool.false_and, unit_false]
          omega
      · rw [FileInfo.timeRequests_congr htr hk0, hlaw]
        by_cases hop : (req i).operation = .delete
        · rw [decide_eq_false (not_not.mpr hop)]
          simp only [Bool.and_false, Bool.false_and, unit_false]
          omega
        · rw [hsame hop]
          omega
    · rw [update_of_ne hne, hlaw, decide_eq_false hne.symm]
      simp only [Bool.false_and, unit_false]
      omega

theorem Dispatched.keep (h : Dispatched req bytes s) (hf : s'.files = s.files)
    (hm : s'.main = s.main) (hp : ∀ i, s'.pc i = s.pc i ∨
      (s'.pc i).beforeCount = false ∧ (s.pc i).beforeCount = false) :
    Dispatched req bytes s' := by
  have hbefore : ∀ i, (s'.pc i).beforeCount = (s.pc i).beforeCount := by
    intro i
    rcases hp i with hi | hi
    · rw [hi]
    · rw [hi.1, hi.2]
  refine ⟨fun i => ?_, ?_, fun i hi => ?_, fun f k hk0 hk => ?_⟩
  · rw [hm, ← h.idle i]
    rcases hp i with hi | ⟨hi, hi'⟩
    · rw [hi]
    · refine iff_of_false ?_ ?_
      · intro he
        rw [he] at hi
        exact nomatch hi
      · intro he
        rw [he] at hi'
        exact nomatch hi'
  · rw [hm]
    exact h.main
  · rcases hp i with he | ⟨he, -⟩
    · exact h.branch i (he ▸ hi)
    · rw [hi] at he
      exact nomatch he
  · have hsame : pending req f k (s.main.counted m) s'.pc =
      pending req f k (s.main.counted m) s.pc := by
      refine tally_congr fun i => ?_
      unfold pends
      rw [hbefore i]
    rw [hf, hm, hsame]
    exact h.law f k hk0 hk

theorem Dispatched.mainStep (h : Dispatched req bytes s) (hs : MainStep req s s') :
    Dispatched req bytes s' := by
  have hidle := h.idle
  have hlaw := h.law
  cases hs with
  | @sleep i wake hi hm hwake =>
    rw [hm] at hidle hlaw
    refine ⟨hidle, fun j => ⟨?_, nofun⟩, h.branch, hlaw⟩
    rintro wake' ⟨rfl, rfl⟩
    exact hi
  | @joinAll i hi hm =>
    rw [hm] at hidle hlaw
    refine ⟨fun j => ?_, fun j => ⟨nofun, nofun⟩, h.branch, fun f k hk0 hk => ?_⟩
    · rw [hidle j]
      exact iff_of_false (not_le.mpr (j.isLt.trans_le hi)) (not_le.mpr j.isLt)
    · rw [hlaw f k hk0 hk]
      refine congrArg _ (tally_congr fun j => ?_)
      show pends req f k i j (s.pc j) = pends req f k m j (s.pc j)
      unfold pends
      rw [decide_eq_true (j.isLt.trans_le hi), decide_eq_true j.isLt]
  | @count i wake hi hm hwake =>
    rw [hm] at hidle hlaw
    refine ⟨hidle, fun j => ⟨nofun, ?_⟩, h.branch, fun f k hk0 hk => ?_⟩
    · rintro ⟨rfl⟩
      exact hi
    · have hlaw := hlaw f k hk0 hk
      show (update s.files _ _ f).timeRequests k = _ + pending req f k (i + 1) s.pc
      rw [pending_succ hi ((hidle ⟨i, hi⟩).mpr le_rfl)]
      have hn : MainPc.counted m (.sleep i wake) = i := rfl
      rw [hn] at hlaw
      rcases eq_or_ne f (fileOf req ⟨i, hi⟩) with rfl | hne
      · rw [update_self]
        unfold FileInfo.countIn
        by_cases hop : (req ⟨i, hi⟩).operation = .delete
        · simp [hop, hlaw]
        · rw [if_neg hop, FileInfo.timeRequests_fetchAdd _ (slot_lt _) hk0 hk]
          by_cases hslot : slot (req ⟨i, hi⟩) = k
          · simp [hop, hslot, hlaw]
            omega
          · simp [hslot, hlaw]
      · rw [update_of_ne hne, hlaw, decide_eq_false hne.symm]
        simp
  | @create i hi hm =>
    rw [hm] at hidle hlaw
    refine ⟨fun j => ?_, fun j => ⟨nofun, nofun⟩, fun j hj => ?_, fun f k hk0 hk => ?_⟩
    · show update s.pc ⟨i, hi⟩ _ j = .idle ↔ i + 1 ≤ j.val
      rcases eq_or_ne j ⟨i, hi⟩ with rfl | hne
      · rw [update_self]
        exact iff_of_false nofun (by simp)
      · have hji : j.val ≠ i := fun he => hne (Fin.ext he)
        rw [update_of_ne hne, hidle j]
        show i ≤ j.val ↔ _
        omega
    · rcases eq_or_ne j ⟨i, hi⟩ with rfl | hne
      · simp at hj
      · exact h.branch j (by simpa [update_of_ne hne] using hj)
    · show (s.files f).timeRequests k = _ + pending req f k (i + 1) (update s.pc _ _)
      rw [hlaw f k hk0 hk, pending_update (Nat.lt_succ_self i), (hidle ⟨i, hi⟩).mpr le_rfl]
      have hstart : ∀ wake, (Pc.start wake).beforeCount = Pc.idle.beforeCount := fun _ => rfl
      have hn : MainPc.counted m (.create i) = i + 1 := rfl
      rw [hstart, hn]
      omega
  | @join i o hi hm hp | @finish i hi hm =>
    rw [hm] at hidle hlaw
    exact ⟨hidle, fun j => ⟨nofun, nofun⟩, h.branch, hlaw⟩

theorem Dispatched.step {a : Act m} (h : Dispatched req bytes s)
    (hs : step cfg req s a = some s') : Dispatched req bytes s' := by
  cases a with
  | run i => exact h.run hs
  | signal i target =>
    obtain ⟨o, hpi, hf, hm, ⟨j, -, hpj, hp⟩ | ⟨-, hp⟩⟩ := step_signal hs
    · refine h.keep hf hm fun l => ?_
      rw [hp]
      rcases eq_or_ne l i with rfl | hli
      · exact .inr ⟨by simp [Pc.beforeCount], by rw [hpi]; rfl⟩
      · rcases eq_or_ne l j with rfl | hlj
        · exact .inr ⟨by simp [update_of_ne hli, Pc.beforeCount], by rw [hpj]; rfl⟩
        · exact .inl (by rw [update_of_ne hli, update_of_ne hlj])
    · refine h.keep hf hm fun l => ?_
      rw [hp]
      rcases eq_or_ne l i with rfl | hli
      · exact .inr ⟨by simp [Pc.beforeCount], by rw [hpi]; rfl⟩
      · exact .inl (update_of_ne hli ..)
  | spurious i =>
    obtain ⟨hpi, hs⟩ := Option.ite_none_right_eq_some.mp hs
    cases hs
    refine h.keep rfl rfl fun l => ?_
    rcases eq_or_ne l i with rfl | hli
    · exact .inr ⟨by simp [Pc.beforeCount], by rw [hpi]; rfl⟩
    · exact .inl (update_of_ne hli ..)
  | main => exact h.mainStep (mainStep_inv hs)
  | timer i =>
    obtain ⟨_, -, -, rfl⟩ := step_timer hs
    exact h.keep rfl rfl fun _ => .inl rfl
  | tick =>
    cases hs
    exact h.keep rfl rfl fun _ => .inl rfl

theorem Dispatched.step_pc {a : Act m} (h : Dispatched req bytes s)
    (hs : FileManager.step cfg req s a = some s') (i : Fin m) :
    s'.pc i = s.pc i ∨
      (∃ e, processReq cfg (req i) i s.clock (s.files (fileOf req i)) (s.bullet i) (s.pc i) =
        some e ∧ s'.pc i = e.pc) ∨
      (s.pc i = .waiting ∧ ∃ signalled, s'.pc i = .woken signalled) ∨
      (∃ o, s.pc i = .signal o ∧ s'.pc i = .unlock o) ∨
      s.pc i = .idle ∧ ∃ wake, s'.pc i = .start wake := by
  cases a with
  | run j =>
    obtain ⟨e, he, rfl⟩ := Option.map_eq_some_iff.mp hs
    rcases eq_or_ne i j with rfl | hne
    · exact .inr (.inl ⟨e, he, update_self ..⟩)
    · exact .inl (update_of_ne hne ..)
  | signal j target =>
    obtain ⟨o, hpj, -, -, ⟨l, -, hpl, hp⟩ | ⟨-, hp⟩⟩ := step_signal hs
    · rw [hp]
      rcases eq_or_ne i j with rfl | hij
      · exact .inr (.inr (.inr (.inl ⟨o, hpj, update_self ..⟩)))
      · rw [update_of_ne hij]
        rcases eq_or_ne i l with rfl | hil
        · exact .inr (.inr (.inl ⟨hpl, true, update_self ..⟩))
        · exact .inl (update_of_ne hil ..)
    · rw [hp]
      rcases eq_or_ne i j with rfl | hij
      · exact .inr (.inr (.inr (.inl ⟨o, hpj, update_self ..⟩)))
      · exact .inl (update_of_ne hij ..)
  | spurious j =>
    obtain ⟨hpj, hs⟩ := Option.ite_none_right_eq_some.mp hs
    cases hs
    rcases eq_or_ne i j with rfl | hij
    · exact .inr (.inr (.inl ⟨hpj, false, update_self ..⟩))
    · exact .inl (update_of_ne hij ..)
  | main =>
    cases mainStep_inv hs with
    | @create j hj hm =>
      rcases eq_or_ne i ⟨j, hj⟩ with rfl | hij
      · refine .inr (.inr (.inr (.inr ⟨(h.idle _).mpr ?_, _, update_self ..⟩)))
        rw [hm]
        exact le_rfl
      · exact .inl (update_of_ne hij ..)
    | _ => exact .inl rfl
  | timer j =>
    obtain ⟨_, -, -, rfl⟩ := step_timer hs
    exact .inl rfl
  | tick =>
    cases hs
    exact .inl rfl

theorem dispatched_init (cfg : Config) (req : Fin m → UserRequest) (bytes : Int → FileInfo m) :
    Dispatched req bytes (init cfg bytes) where
  idle i := iff_of_true rfl (Nat.zero_le i)
  main i := ⟨nofun, nofun⟩
  branch i := nofun
  law f k hk0 _ := by
    have hzero : pending req f k ((init cfg bytes).main.counted m) (init cfg bytes).pc = 0 :=
      tally_eq_zero fun i => by simp [pends, init, MainPc.counted]
    have hfile : ((init cfg bytes).files f).counters = (bytes f).counters := by
      simp only [init]
      split <;> rfl
    rw [hzero, FileInfo.timeRequests_congr hfile hk0, add_zero]

theorem dispatched_of_reach (h : Reach (step cfg req) (init cfg bytes) s) :
    Dispatched req bytes s :=
  h.invariant (fun _ _ _ hi hs => hi.step hs) (dispatched_init cfg req bytes)

/-- **The counters are exact if and only if they were zero to begin with**, and `main` leaves that
to `malloc`. -/
theorem counters_exact_iff (cfg : Config) (req : Fin m → UserRequest) (bytes : Int → FileInfo m) :
    (∀ s, Reach (step cfg req) (init cfg bytes) s → ∀ f, 0 ≤ f → f < cfg.n → ∀ k, 0 ≤ k → k < 100 →
      (s.files f).timeRequests k = pending req f k (s.main.counted m) s.pc) ↔
    ∀ f, 0 ≤ f → f < cfg.n → ∀ k, 0 ≤ k → k < 100 → (bytes f).timeRequests k = 0 := by
  constructor
  · intro h f h0 hn k hk0 hk
    have hlaw := (dispatched_init cfg req bytes).law f k hk0 hk
    have hexact := h _ (.refl _) f h0 hn k hk0 hk
    omega
  · intro h s hs f h0 hn k hk0 hk
    rw [(dispatched_of_reach hs).law f k hk0 hk, h f h0 hn k hk0 hk, zero_add]

end Steps

/-- `malloc` returns a one in every counter. -/
def oneBytes : Int → FileInfo m := fun _ => ⟨none, 0, 0, 0, 0, fun _ => 1, fun _ => 0⟩

/-- A READ of file 1 by user 7 at second 0. -/
def soloRead : Fin 1 → UserRequest := fun _ => ⟨7, 1, .read, 0⟩

/-- Before the first request a counter that `malloc` left at one says one. -/
theorem counters_uninitialised : ¬ ∀ (bytes : Int → FileInfo 1) (s : State 1),
    Reach (step oneFile soloRead) (init oneFile bytes) s →
      ∀ f, 0 ≤ f → f < oneFile.n → ∀ k, 0 ≤ k → k < 100 →
        (s.files f).timeRequests k = pending soloRead f k (s.main.counted 1) s.pc := by
  intro h
  have hone := h oneBytes _ (.refl _) 0 (by decide) (by decide) 0 (by decide) (by decide)
  exact absurd hone (by decide)

end LazyXv6.FileManager
