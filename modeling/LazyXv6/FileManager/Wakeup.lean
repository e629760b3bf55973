import LazyXv6.FileManager.Safety

/-!
# Wake-ups of the file manager

Every change of a file's counters issues one `pthread_cond_signal`, on a condition variable that
READs, WRITEs and DELETEs share. The signal may wake a thread whose guard is still true: it goes
back to sleep, and the wake-up is gone although another sleeper could have used it.

`Stranded` is the bad state: the mutex is free, no signalled thread is on its way to it, and a
thread sleeps although its guard is false. `KeepsWakeup` excludes the one step that loses a wake-up.
The invariant `WakeInv` bounds what sleepers could use by what the threads that answer for a wake-up
(`Pc.owes`) will pass on.
-/

namespace LazyXv6.FileManager

open Function Lib Lib.SmallFin

variable {m : ℕ}

/-- A thread sleeps on file `f` with its guard false, and nobody is going to wake it. -/
def Stranded (cfg : Config) (req : Fin m → UserRequest) (s : State m) (f : Int) : Prop :=
  (s.files f).lock = none ∧ (∀ i, fileOf req i = f → s.pc i ≠ .woken true) ∧
    ∃ i, fileOf req i = f ∧ s.pc i = .waiting ∧ guard cfg (s.files f) (req i).operation = false

/-- A signalled thread that finds its guard still true goes back to sleep only if no other sleeper
of the file could go on. -/
def KeepsWakeup (cfg : Config) (req : Fin m → UserRequest) (s : State m) : Act m → Prop
  | .run i => s.pc i = .test true → guard cfg (s.files (fileOf req i)) (req i).operation = true →
      ∀ j, fileOf req j = fileOf req i → s.pc j = .waiting →
        guard cfg (s.files (fileOf req i)) (req j).operation = true
  | _ => True

instance (cfg : Config) (req : Fin m → UserRequest) (s : State m) :
    ∀ a, Decidable (KeepsWakeup cfg req s a)
  | .run i => inferInstanceAs (Decidable (s.pc i = .test true → _ = true → ∀ _, _ → _ → _ = true))
  | .signal .. | .spurious .. | .main | .timer .. | .tick => .isTrue trivial

/-- How many threads of file `f` answer for a wake-up. -/
def owed (req : Fin m → UserRequest) (f : Int) (pc : Fin m → Pc) : ℤ :=
  tally (fun i p => decide (fileOf req i = f) && p.owes) pc

/-- Those among them that do not end the wake-up as a READ. -/
def owedOn (req : Fin m → UserRequest) (f : Int) (pc : Fin m → Pc) : ℤ :=
  tally (fun i p => decide (fileOf req i = f) &&
    (p.owes && (decide ((req i).operation ≠ .read) || p.willSignal))) pc

/-- What a sleeper of file `f` could use is owed to it, or not there. -/
structure WakeInv (cfg : Config) (req : Fin m → UserRequest) (f : Int) (fi : FileInfo m)
    (pc : Fin m → Pc) : Prop where
  read : ∀ i, fileOf req i = f → pc i = .waiting → (req i).operation = .read →
    cfg.c ≤ fi.concurrentAccess + owed req f pc
  write : ∀ i, fileOf req i = f → pc i = .waiting → (req i).operation = .write →
    0 < fi.writercount ∨ cfg.c ≤ fi.concurrentAccess + owed req f pc ∨ 1 ≤ owedOn req f pc
  delete : ∀ i, fileOf req i = f → pc i = .waiting → (req i).operation = .delete →
    0 < fi.readercount + fi.writercount ∨ 1 ≤ owed req f pc

section WakeInv

variable {cfg : Config} {req : Fin m → UserRequest} {f : Int} {fi fi' : FileInfo m}
  {pc : Fin m → Pc} {i : Fin m} {p' : Pc}

theorem owed_update_other (hi : fileOf req i ≠ f) :
    owed req f (update pc i p') = owed req f pc := by
  simp [owed, tally_update, hi]

theorem owedOn_update_other (hi : fileOf req i ≠ f) :
    owedOn req f (update pc i p') = owedOn req f pc := by
  simp [owedOn, tally_update, hi]

theorem owed_update (hi : fileOf req i = f) : owed req f (update pc i p') =
    owed req f pc - unit (pc i).owes + unit p'.owes := by
  simp [owed, tally_update, hi]

theorem owedOn_update (hi : fileOf req i = f) : owedOn req f (update pc i p') = owedOn req f pc
      - unit ((pc i).owes && (decide ((req i).operation ≠ .read) || (pc i).willSignal))
      + unit (p'.owes && (decide ((req i).operation ≠ .read) || p'.willSignal)) := by
  simp [owedOn, tally_update, hi]

theorem owed_nonneg : 0 ≤ owed req f pc := tally_nonneg _ _

theorem owedOn_nonneg : 0 ≤ owedOn req f pc := tally_nonneg _ _

/-- The sleepers stay asleep or wake up, the counters stay, and no debt is dropped. -/
theorem WakeInv.mono (h : WakeInv cfg req f fi pc) {pc' : Fin m → Pc}
    (hr : fi'.readercount = fi.readercount) (hw : fi'.writercount = fi.writercount)
    (ha : fi'.concurrentAccess = fi.concurrentAccess)
    (hsleep : ∀ j, fileOf req j = f → pc' j = .waiting → pc j = .waiting)
    (ho : owed req f pc ≤ owed req f pc') (hon : owedOn req f pc ≤ owedOn req f pc') :
    WakeInv cfg req f fi' pc' := by
  refine ⟨fun j hj hp hop => ?_, fun j hj hp hop => ?_, fun j hj hp hop => ?_⟩
  · have := h.read j hj (hsleep j hj hp) hop; omega
  · have := h.write j hj (hsleep j hj hp) hop; omega
  · have := h.delete j hj (hsleep j hj hp) hop; omega

theorem WakeInv.of_guards
    (h : ∀ j, fileOf req j = f → pc j = .waiting → guard cfg fi (req j).operation = true)
    (hr : 0 ≤ fi.readercount) (hw : 0 ≤ fi.writercount) : WakeInv cfg req f fi pc := by
  have ho : 0 ≤ owed req f pc := owed_nonneg
  refine ⟨fun j hj hp hop => ?_, fun j hj hp hop => ?_, fun j hj hp hop => ?_⟩
  all_goals
    have hg := h j hj hp
    simp only [hop, guard, Bool.or_eq_true, decide_eq_true_eq] at hg
    omega

theorem waiting_of_update {q : Pc} {j : Fin m} (hq : q ≠ .waiting)
    (hj : update pc i q j = .waiting) : pc j = .waiting := by
  rcases eq_or_ne j i with rfl | hne
  · rw [update_self] at hj; exact absurd hj hq
  · rwa [update_of_ne hne] at hj

theorem WakeInv.move_other (h : WakeInv cfg req f fi pc) (hi : fileOf req i ≠ f) :
    WakeInv cfg req f fi (update pc i p') := by
  refine h.mono rfl rfl rfl (fun j hj hp => ?_) (owed_update_other hi).ge
    (owedOn_update_other hi).ge
  have hne : j ≠ i := fun e => hi (e ▸ hj)
  rwa [update_of_ne hne] at hp

theorem WakeInv.move (h : WakeInv cfg req f fi pc) (hi : fileOf req i = f)
    (hr : fi'.readercount = fi.readercount) (hw : fi'.writercount = fi.writercount)
    (ha : fi'.concurrentAccess = fi.concurrentAccess) (hp' : p' ≠ .waiting)
    (howes : (pc i).owes = true → p'.owes = true)
    (hsig : (pc i).owes = true → (pc i).willSignal = true → p'.willSignal = true) :
    WakeInv cfg req f fi' (update pc i p') := by
  refine h.mono hr hw ha (fun j _ hp => waiting_of_update hp' hp) ?_ ?_
  · rw [owed_update hi]
    cases ho : (pc i).owes with
    | false => have := unit_nonneg p'.owes; simp; omega
    | true => rw [howes ho]; simp
  · rw [owedOn_update hi]
    cases ho : (pc i).owes with
    | false =>
      have := unit_nonneg (p'.owes && (decide ((req i).operation ≠ .read) || p'.willSignal)); simp_all
    | true =>
      rw [howes ho]
      cases hs : (pc i).willSignal with
      | false => cases hs' : p'.willSignal <;> cases (req i).operation <;> simp
      | true => rw [hsig ho hs]; simp

theorem WakeInv.localStep (h : WakeInv cfg req f fi pc) (hf : FileInv cfg req f fi pc)
    (hi : fileOf req i = f) (hs : LocalStep cfg (req i) i fi (pc i) fi' p')
    (hkeep : pc i = .test true → guard cfg fi (req i).operation = true →
      ∀ j, fileOf req j = f → pc j = .waiting → guard cfg fi (req j).operation = true) :
    WakeInv cfg req f fi' (update pc i p') := by
  have hr := hf.readercount_nonneg
  have hw := hf.writercount_nonneg
  cases hs with
  | quiet hsame _ _ _ _ howes hsig _ hp' =>
    exact h.move hi hsame.readercount hsame.writercount hsame.concurrentAccess hp' howes fun _ => hsig
  | acquire _ _ _ _ _ _ _ howes hsig _ hp' =>
    exact h.move hi rfl rfl rfl hp' (fun ho => howes.trans ho) (by simp [hsig])
  | release _ _ _ _ _ howes _ hp' =>
    exact h.move hi rfl rfl rfl hp' (by simp [howes]) (by simp [howes])
  | @wait sig hp hguard =>
    cases sig with
    | false =>
      -- A thread that was not signalled owed nothing; it joins the sleepers with its guard true.
      have ho : owed req f (update pc i .waiting) = owed req f pc := by
        rw [owed_update hi, hp]; simp [Pc.owes]
      have hon : owedOn req f (update pc i .waiting) = owedOn req f pc := by
        rw [owedOn_update hi, hp]; simp [Pc.owes]
      have hpos : 0 ≤ owed req f pc := owed_nonneg
      refine ⟨?_, ?_, ?_⟩
      all_goals
        rw [ho, forall_update_iff pc fun j p => fileOf req j = f → p = .waiting → _]
        refine ⟨fun _ _ hop => ?_, fun j _ => ?_⟩
      · simp only [hop, guard, decide_eq_true_eq] at hguard
        simp only; omega
      · exact h.read j
      · simp only [hop, guard, Bool.or_eq_true, decide_eq_true_eq] at hguard
        simp only; omega
      · rw [hon]; exact h.write j
      · simp only [hop, guard, Bool.or_eq_true, decide_eq_true_eq] at hguard
        simp only; omega
      · exact h.delete j
    | true =>
      refine WakeInv.of_guards (fun j hj hpj => ?_) hr hw
      refine (guard_congr _ (g := fi) rfl rfl rfl _).trans ?_
      rcases eq_or_ne j i with rfl | hne
      · exact hguard
      · rw [update_of_ne hne] at hpj
        exact hkeep hp hguard j hj hpj
  | @enter sig hp hdel hop =>
    have ho : owed req f pc - 1 ≤ owed req f (update pc i .entered) := by
      have := unit_le_one (pc i).owes
      have he : Pc.entered.owes = false := rfl
      rw [owed_update hi, he, unit_false]; omega
    have hpos : 0 ≤ owed req f (update pc i .entered) := owed_nonneg
    refine ⟨fun j hj hpj hopj => ?_, fun j hj hpj hopj => ?_, fun j hj hpj hopj => ?_⟩
    all_goals have hpj' := waiting_of_update (q := Pc.entered) (by simp) hpj
    · have := h.read j hj hpj' hopj
      cases hopi : (req i).operation <;> simp_all [FileInfo.enter] <;> omega
    · have hb := h.write j hj hpj' hopj
      cases hopi : (req i).operation with
      | read =>
        have hon : owedOn req f (update pc i .entered) = owedOn req f pc := by
          rw [owedOn_update hi, hp, hopi]; simp [Pc.owes, Pc.willSignal]
        simp only [FileInfo.enter, hon]
        omega
      | write => exact .inl (by simp only [FileInfo.enter]; omega)
      | delete => exact absurd hopi hop
    · left
      cases hopi : (req i).operation with
      | read | write => simp only [FileInfo.enter]; omega
      | delete => exact absurd hopi hop
  | finish hp hfree =>
    -- The thread counted out now owes the place it leaves.
    have ho : owed req f (update pc i (.signal .completed)) = owed req f pc + 1 := by
      rw [owed_update hi, hp]; simp [Pc.owes]
    have hon : owedOn req f (update pc i (.signal .completed)) = owedOn req f pc + 1 := by
      rw [owedOn_update hi, hp]; simp [Pc.owes, Pc.willSignal]
    have hpos : 0 ≤ owed req f pc := owed_nonneg
    have hposn : 0 ≤ owedOn req f pc := owedOn_nonneg
    refine ⟨fun j hj hpj hopj => ?_, fun j hj hpj hopj => ?_, fun j hj hpj hopj => ?_⟩
    · have := h.read j hj (waiting_of_update (q := Pc.signal .completed) (by simp) hpj) hopj
      cases hopi : (req i).operation <;> simp only [FileInfo.leave] <;> omega
    · exact .inr (.inr (by omega))
    · exact .inr (by omega)
  | delete hp =>
    exact h.move hi rfl rfl rfl (by simp) (fun _ => rfl) fun _ _ => rfl

/-- A signal hands the debt of its sender to the sleeper it wakes. -/
theorem WakeInv.signal (h : WakeInv cfg req f fi pc) {j : Fin m} {o : Outcome}
    (hi : fileOf req i = f) (hpi : pc i = .signal o) (hj : fileOf req j = f)
    (hpj : pc j = .waiting) :
    WakeInv cfg req f fi (update (update pc j (.woken true)) i (.unlock o)) := by
  have hne : i ≠ j := fun e => by rw [e, hpj] at hpi; cases hpi
  have hpi' : update pc j (.woken true) i = .signal o := by
    rw [update_of_ne hne, hpi]
  have ho : owed req f (update (update pc j (.woken true)) i (.unlock o)) =
      owed req f pc := by
    rw [owed_update hi, hpi', owed_update hj, hpj]; simp [Pc.owes]
  have hon : owedOn req f (update (update pc j (.woken true)) i (.unlock o)) =
      owedOn req f pc - 1 + unit (decide ((req j).operation ≠ .read)) := by
    rw [owedOn_update hi, hpi', owedOn_update hj, hpj]; simp [Pc.owes, Pc.willSignal]; omega
  have hposn : 1 ≤ owedOn req f pc :=
    one_le_tally (i := i) (by simp [hi, hpi, Pc.owes, Pc.willSignal])
  have hsleep : ∀ k, update (update pc j (Pc.woken true)) i (.unlock o) k = .waiting →
    pc k = .waiting := fun k hk =>
    waiting_of_update (q := Pc.woken true) (by simp) (waiting_of_update (q := Pc.unlock o) (by simp) hk)
  refine ⟨fun k hk hpk hop => ?_, fun k hk hpk hop => ?_, fun k hk hpk hop => ?_⟩
  · rw [ho]; exact h.read k hk (hsleep k hpk) hop
  · rw [ho, hon]
    cases hopj : (req j).operation with
    | read => exact .inr (.inl (h.read j hj hpj hopj))
    | write | delete => right; right; simp; omega
  · rw [ho]; exact h.delete k hk (hsleep k hpk) hop

theorem WakeInv.of_no_sleeper (h : ∀ j, fileOf req j = f → pc j ≠ .waiting) :
    WakeInv cfg req f fi pc :=
  ⟨fun j hj hp => absurd hp (h j hj), fun j hj hp => absurd hp (h j hj),
    fun j hj hp => absurd hp (h j hj)⟩

/-- **Nobody is stranded** where the mutex is free and no signalled thread is on its way. -/
theorem WakeInv.guard_of_quiet (h : WakeInv cfg req f fi pc) (hf : FileInv cfg req f fi pc)
    (hfree : fi.lock = none) (hnone : ∀ i, fileOf req i = f → pc i ≠ .woken true)
    (hi : fileOf req i = f) (hp : pc i = .waiting) : guard cfg fi (req i).operation = true := by
  have howes : ∀ j, fileOf req j = f → (pc j).owes = false := fun j hj => by
    have hh : (pc j).holds = false := by
      cases hb : (pc j).holds with
      | false => rfl
      | true => have := (hf.lock j).2 ⟨hj, hb⟩; rw [hfree] at this; cases this
    have hw := hnone j hj
    cases hpj : pc j with
    | woken sig => cases sig with
      | false => rfl
      | true => exact absurd hpj hw
    | test | admitted | timed | taken | deleting | signal => rw [hpj] at hh; cases hh
    | _ => rfl
  have ho : owed req f pc = 0 := tally_eq_zero fun j => by
    by_cases hj : fileOf req j = f <;> simp [hj, howes]
  have hon : owedOn req f pc = 0 := tally_eq_zero fun j => by
    by_cases hj : fileOf req j = f <;> simp [hj, howes]
  have hr := hf.readercount_nonneg
  have hw := hf.writercount_nonneg
  cases hop : (req i).operation with
  | read =>
    have := h.read i hi hp hop
    simp only [guard, decide_eq_true_eq]; omega
  | write =>
    have := h.write i hi hp hop
    simp only [guard, Bool.or_eq_true, decide_eq_true_eq]; omega
  | delete =>
    have := h.delete i hi hp hop
    simp only [guard, Bool.or_eq_true, decide_eq_true_eq]; omega

end WakeInv

section Step

variable {cfg : Config} {req : Fin m → UserRequest} {s s' : State m}

theorem wakeInv_init (bytes : Int → FileInfo m) (f : Int) :
    WakeInv cfg req f ((init cfg bytes).files f) (init cfg bytes).pc :=
  WakeInv.of_no_sleeper fun _ _ => nofun

/-- **A step that keeps its wake-up keeps the invariant of every file.** -/
theorem WakeInv.step {a : Act m} {f : Int} (htime : ∀ i, 0 ≤ slot (req i)) (hinv : Inv cfg req s)
    (hf : FileInv cfg req f (s.files f) s.pc) (hw : WakeInv cfg req f (s.files f) s.pc)
    (hkeep : KeepsWakeup cfg req s a) (h : step cfg req s a = some s') :
    WakeInv cfg req f (s'.files f) s'.pc := by
  cases a with
  | run i =>
    obtain ⟨fi', p', hl, hfiles, hp, -⟩ := step_run (htime i) h
    rw [hfiles, hp]
    rcases eq_or_ne (fileOf req i) f with rfl | hne
    · rw [update_self]; exact hw.localStep hf rfl hl hkeep
    · rw [update_of_ne hne.symm]; exact hw.move_other hne
  | signal i target =>
    obtain ⟨o, hpi, hfiles, -, ⟨j, hj, hpj, hp⟩ | ⟨hnone, hp⟩⟩ := step_signal h
    · rw [hfiles, hp]
      rcases eq_or_ne (fileOf req i) f with rfl | hne
      · exact hw.signal rfl hpi hj hpj
      · exact (hw.move_other (hj.trans_ne hne)).move_other hne
    · rw [hfiles, hp]
      rcases eq_or_ne (fileOf req i) f with rfl | hne
      · exact WakeInv.of_no_sleeper fun j hj hpj =>
          hnone j hj (waiting_of_update (q := Pc.unlock o) nofun hpj)
      · exact hw.move_other hne
  | spurious i =>
    obtain ⟨hpi, h⟩ := Option.ite_none_right_eq_some.mp h
    cases h
    rcases eq_or_ne (fileOf req i) f with rfl | hne
    · exact hw.move rfl rfl rfl rfl nofun (by rw [hpi]; nofun) (by rw [hpi]; nofun)
    · exact hw.move_other hne
  | main =>
    obtain ⟨hfiles, hp, -⟩ := mainStep_cases htime hinv.idle h
    obtain ⟨-, hreaders, hwriters, haccess, -⟩ := hfiles f
    rcases hp with hp | ⟨i, wake, hpi, hp⟩
    · rw [hp]; exact hw.mono hreaders hwriters haccess (fun _ _ => id) le_rfl le_rfl
    · rw [hp]
      rcases eq_or_ne (fileOf req i) f with rfl | hne
      · exact hw.move rfl hreaders hwriters haccess nofun (by rw [hpi]; nofun) (by rw [hpi]; nofun)
      · exact (hw.move_other hne).mono hreaders hwriters haccess (fun _ _ => id) le_rfl le_rfl
  | timer i =>
    obtain ⟨_, -, -, rfl⟩ := step_timer h
    exact hw
  | tick => cases h; exact hw

end Step

/-! ## The results -/

/-- A signalled thread that goes back to sleep over a sleeper that could go on strands it, unless
another signalled thread is on its way. -/
theorem stranded_of_lost_wakeup {cfg : Config} {req : Fin m → UserRequest} {s s' : State m}
    {i : Fin m} (h : step cfg req s (.run i) = some s') (hlost : ¬ KeepsWakeup cfg req s (.run i))
    (hnone : ∀ j, fileOf req j = fileOf req i → s.pc j ≠ .woken true) :
    Stranded cfg req s' (fileOf req i) := by
  simp only [KeepsWakeup, Classical.not_imp, not_forall] at hlost
  obtain ⟨hp, hg, j, hj, hpj, hgj⟩ := hlost
  simp only [step, hp, processReq, hg, if_true, Option.map_some, Option.some.injEq] at h
  subst h
  have hne : ∀ k, s.pc k = .waiting → k ≠ i := fun k hk e => by rw [e, hp] at hk; cases hk
  refine ⟨by simp, fun k hk => ?_, j, hj, ?_, ?_⟩
  · rcases eq_or_ne k i with rfl | hki
    · simp
    · simpa [update_of_ne hki] using hnone k hk
  · simp [update_of_ne (hne j hpj), hpj]
  · simp only [update_self]
    exact (guard_congr _ (g := s.files (fileOf req i)) rfl rfl rfl _).trans (by simpa using hgj)

/-- **Who keeps wake-ups strands nobody.** Where the requests' counters lie in the array: in every
run in which no signalled thread goes back to sleep over a sleeper that could go on, no reachable
state leaves a thread asleep with its guard false, the mutex free and no signalled thread on its
way. A step that breaks this strands the sleeper there and then, unless another signalled thread is
on its way. -/
theorem never_stranded (cfg : Config) (req : Fin m → UserRequest) (bytes : Int → FileInfo m)
    (htime : ∀ i, 0 ≤ slot (req i)) (hc : 1 ≤ cfg.c) :
    (∀ s, ReachIf (step cfg req) (KeepsWakeup cfg req) (init cfg bytes) s →
      ∀ f, 0 ≤ f → f < cfg.n → ¬ Stranded cfg req s f) ∧
    ∀ s i s', step cfg req s (.run i) = some s' → ¬ KeepsWakeup cfg req s (.run i) →
      (∀ j, fileOf req j = fileOf req i → s.pc j ≠ .woken true) →
      Stranded cfg req s' (fileOf req i) := by
  refine ⟨fun s hs f h0 hn => ?_, fun s i s' h hlost => stranded_of_lost_wakeup h hlost⟩
  have hinv := hs.invariant (I := fun t => Inv cfg req t ∧ WakeInv cfg req f (t.files f) t.pc)
    (fun t a t' ht hk hstep =>
      ⟨ht.1.step htime hstep, WakeInv.step htime ht.1 (ht.1.file f h0 hn) ht.2 hk hstep⟩)
    ⟨inv_init cfg req bytes (by omega), wakeInv_init bytes f⟩
  rintro ⟨hfree, hnone, i, hi, hp, hg⟩
  rw [hinv.2.guard_of_quiet (hinv.1.file f h0 hn) hfree hnone hi hp] at hg
  cases hg

def threeReads : Fin 3 → UserRequest := fun i => ⟨i.val, 1, .read, 0⟩

/-- Two READs are in progress and the third sleeps, until the end of the first lets it in. -/
def threeReadsActs : List (Act 3) :=
  List.flatten [List.replicate 9 .main, [.tick], List.replicate 9 (.run 0),
    List.replicate 9 (.run 1), List.replicate 5 (.run 2),
    [.tick, .run 0, .run 0, .signal 0 (some 2), .run 0], List.replicate 6 (.run 2)]

theorem never_stranded_threeReads :
    ∃ s, ReachIf (step oneFile threeReads) (KeepsWakeup oneFile threeReads)
      (init oneFile zeroBytes) s ∧ s.pc 2 = .working 3 ∧ ¬ Stranded oneFile threeReads s 0 := by
  obtain ⟨s, hs, hp⟩ : ∃ s ∈ runActsIf (step oneFile threeReads) (KeepsWakeup oneFile threeReads)
      (init oneFile zeroBytes) threeReadsActs, s.pc 2 = .working 3 := by decide +kernel
  have hreach := reachIf_of_runActsIf hs
  exact ⟨s, hreach, hp, (never_stranded oneFile threeReads zeroBytes (by decide) (by decide)).1
    s hreach 0 (by decide) (by decide)⟩

def readsAndDelete : Fin 4 → UserRequest :=
  fun i => ⟨i.val, 1, if i = 3 then .delete else .read, 0⟩

/-- Two READs are in progress, a READ and the DELETE sleep; the first READ ends and signals the
DELETE, which goes back to sleep. -/
def strandActs : List (Act 4) :=
  List.flatten [List.replicate 12 .main, [.tick], List.replicate 9 (.run 0),
    List.replicate 9 (.run 1), List.replicate 5 (.run 2), List.replicate 6 (.run 3),
    [.tick, .run 0, .run 0, .signal 0 (some 3), .run 0, .run 3, .run 3]]

/-- **The third READ is stranded**: one place is free, and nobody is left to wake it. -/
theorem strands_reader : ¬ ∀ s, Reach (step oneFile readsAndDelete) (init oneFile zeroBytes) s →
      ∀ f, 0 ≤ f → f < oneFile.n → ¬ Stranded oneFile readsAndDelete s f := by
  intro hall
  obtain ⟨s, hs, hlock, hwoken, hp, ha⟩ : ∃ s ∈ runActs (step oneFile readsAndDelete)
      (init oneFile zeroBytes) strandActs, (s.files 0).lock = none ∧ (∀ i, s.pc i ≠ .woken true) ∧
      s.pc 2 = .waiting ∧ (s.files 0).concurrentAccess = 1 := by decide +kernel
  refine hall s (reach_of_runActs hs) 0 (by decide) (by decide)
    ⟨hlock, fun i _ => hwoken i, 2, rfl, hp, ?_⟩
  show decide ((s.files 0).concurrentAccess ≥ oneFile.c) = false
  rw [ha]; rfl

end LazyXv6.FileManager
