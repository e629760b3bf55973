import LazyXv6.FileManager.Model
import LazyXv6.Lib.Tally

/-!
# Safety of the file manager

`LocalStep` says once what a thread's step can do to its file. `FileInv` ties the fields of one file
to the places of the threads that work on it: the mutex is held by the one thread inside a critical
section, `readercount` and `writercount` are the tallies of the reads and writes in progress, and a
thread past its loop guard keeps that guard false until it leaves the critical section, since nobody
else can move the counters there.

All of this is for requests whose counters lie in the array. A READ at second -2 counts itself in
`writercount`.
-/

namespace LazyXv6.FileManager

open Function Lib Lib.SmallFin

variable {m : ℕ}

/-! ## Places -/

def Pc.holds : Pc → Bool
  | .locked | .count | .peek | .peekUnlock | .test _ | .admitted _ | .timed .. | .taken _
  | .entered | .deleting _ | .signal _ | .unlock _ => true
  | .spin flagChecker => !flagChecker
  | _ => false

/-- A READ or WRITE is in progress: past the `deleted` test, not yet back under the lock. -/
def Pc.performing : Pc → Bool
  | .entered | .working _ | .finishing => true
  | _ => false

/-- The thread found its loop guard false and has not left the critical section since. -/
def Pc.chosen : Pc → Bool
  | .admitted _ | .timed .. | .taken _ | .deleting _ => true
  | _ => false

def Pc.isDeleting : Pc → Bool
  | .deleting _ => true
  | _ => false

/-- The thread answers for a wake-up: a signal woke it and it has not gone back to sleep since, or
it is about to signal itself. -/
def Pc.owes : Pc → Bool
  | .woken true | .test true | .admitted true | .timed true _ | .taken true | .deleting _
  | .signal _ => true
  | _ => false

def Pc.willSignal : Pc → Bool
  | .deleting _ | .signal _ => true
  | _ => false

/-! ## The fields of a file -/

theorem slot_lt (rq : UserRequest) : slot rq < 100 := Int.tmod_lt_of_pos _ (by decide)

/-- The two differ in the request counters only. -/
structure FileInfo.Agrees (fi fi' : FileInfo m) : Prop where
  lock : fi'.lock = fi.lock
  readercount : fi'.readercount = fi.readercount
  writercount : fi'.writercount = fi.writercount
  concurrentAccess : fi'.concurrentAccess = fi.concurrentAccess
  deleted : fi'.deleted = fi.deleted

theorem FileInfo.Agrees.refl (fi : FileInfo m) : fi.Agrees fi := ⟨rfl, rfl, rfl, rfl, rfl⟩

theorem FileInfo.agrees_fetchAdd (fi : FileInfo m) {k : Int} (hk : 0 ≤ k) (v : Int) :
    fi.Agrees (fi.fetchAdd k v) := by
  simp only [fetchAdd, if_pos hk]
  constructor <;> rfl

theorem FileInfo.timeRequests_fetchAdd (fi : FileInfo m) {j k : Int} (hj : j < 100) (hk : 0 ≤ k)
    (hk' : k < 100) (v : Int) : (fi.fetchAdd j v).timeRequests k =
      if j = k then fi.timeRequests k + v else fi.timeRequests k := by
  by_cases hj0 : 0 ≤ j
  · have hcell : Fin.ofNat 100 k.toNat = Fin.ofNat 100 j.toNat ↔ j = k := by
      simp only [Fin.ext_iff, Fin.val_ofNat]
      omega
    by_cases hjk : j = k
    · subst hjk
      simp [fetchAdd, timeRequests, hj0]
    · simp only [fetchAdd, timeRequests, if_pos hj0, if_pos hk, if_neg hjk]
      exact update_of_ne (mt hcell.mp hjk) ..
  · have hjk : j ≠ k := by omega
    simp only [fetchAdd, timeRequests, if_neg hj0, if_pos hk, if_neg hjk]
    split_ifs <;> rfl

@[simp] theorem FileInfo.deleted_setDeleted (fi : FileInfo m) (b : Bool) :
    (fi.setDeleted b).deleted = b := by
  cases b with
  | false => simp [deleted, setDeleted]
  | true =>
    simp only [deleted, setDeleted, if_true, decide_eq_true_eq]
    omega

/-! ## What one step of a thread does -/

/-- A step of thread `i` on its file `fi`, from `p` to `p'`. -/
inductive LocalStep (cfg : Config) (rq : UserRequest) (i : Fin m) (fi : FileInfo m) (p : Pc) :
    FileInfo m → Pc → Prop where
  /-- Neither the mutex nor a counter moves. -/
  | quiet {fi' : FileInfo m} {p' : Pc} (hsame : fi.Agrees fi') (hholds : p'.holds = p.holds)
      (hperf : p'.performing = p.performing)
      (hchosen : p'.chosen = true → p.chosen = true ∨ guard cfg fi rq.operation = false)
      (hdel : p'.isDeleting = true → p.isDeleting = true ∨ rq.operation = .delete ∧ fi.deleted = false)
      (howes : p.owes = true → p'.owes = true) (hsig : p.willSignal = true → p'.willSignal = true)
      (hawake : p ≠ .waiting) (hawake' : p' ≠ .waiting) :
      LocalStep cfg rq i fi p fi' p'
  /-- The mutex is taken, after a wake-up that the thread still answers for. -/
  | acquire {p' : Pc} (hfree : fi.lock = none) (hp : p.holds = false) (hp' : p'.holds = true)
      (hperf : p.performing = false) (hperf' : p'.performing = false)
      (hchosen : p'.chosen = false) (hdel : p'.isDeleting = false) (howes : p'.owes = p.owes)
      (hsig : p.willSignal = false) (hawake : p ≠ .waiting) (hawake' : p' ≠ .waiting) :
      LocalStep cfg rq i fi p { fi with lock := some i } p'
  /-- The mutex is given back and the thread does not go to sleep. -/
  | release {p' : Pc} (hp : p.holds = true) (hp' : p'.holds = false)
      (hperf : p'.performing = p.performing) (hchosen : p'.chosen = false)
      (hdel : p'.isDeleting = false) (howes : p.owes = false) (hawake : p ≠ .waiting)
      (hawake' : p' ≠ .waiting) :
      LocalStep cfg rq i fi p { fi with lock := none } p'
  | wait {signalled : Bool} (hp : p = .test signalled)
      (hguard : guard cfg fi rq.operation = true) :
      LocalStep cfg rq i fi p { fi with lock := none } .waiting
  | enter {signalled : Bool} (hp : p = .taken signalled) (hdel : fi.deleted = false)
      (hop : rq.operation ≠ .delete) :
      LocalStep cfg rq i fi p (fi.enter rq.operation) .entered
  /-- A READ or WRITE is back under the lock. -/
  | finish (hp : p = .finishing) (hfree : fi.lock = none) :
      LocalStep cfg rq i fi p { fi.leave rq.operation with lock := some i } (.signal .completed)
  | delete {wake : Int} (hp : p = .deleting wake) :
      LocalStep cfg rq i fi p (fi.setDeleted true) (.signal .completed)

theorem processReq_localStep {cfg : Config} {rq : UserRequest} {i : Fin m} {now : Int}
    {fi : FileInfo m} {b : Bullet} {p : Pc} {e : Effect m} (htime : 0 ≤ slot rq)
    (h : processReq cfg rq i now fi b p = some e) : LocalStep cfg rq i fi p e.file e.pc := by
  cases p with
  | idle | waiting | signal _ | returned _ => simp [processReq] at h
  | start | working =>
    simp only [processReq, Option.ite_none_right_eq_some, Option.some.injEq] at h
    obtain ⟨-, rfl⟩ := h
    exact .quiet (.refl fi) rfl rfl nofun nofun nofun nofun nofun nofun
  | lock | relock =>
    simp only [processReq, Option.ite_none_right_eq_some, Option.some.injEq] at h
    obtain ⟨hl, rfl⟩ := h
    exact .acquire hl rfl rfl rfl rfl rfl rfl rfl rfl nofun nofun
  | locked | peek =>
    simp only [processReq, Option.some.injEq] at h
    subst h
    dsimp only
    split <;> exact .quiet (.refl fi) rfl rfl nofun nofun nofun nofun nofun nofun
  | count =>
    simp only [processReq, Option.some.injEq] at h
    subst h
    exact .quiet (fi.agrees_fetchAdd htime _) rfl rfl nofun nofun nofun nofun nofun nofun
  | peekUnlock | entered | unlock =>
    simp only [processReq, Option.some.injEq] at h
    subst h
    exact .release rfl rfl rfl rfl rfl rfl nofun nofun
  | spin flagChecker =>
    simp only [processReq] at h
    split at h <;> simp only [Option.some.injEq] at h <;> subst h
    · exact .quiet (.refl fi) rfl rfl nofun nofun nofun nofun nofun nofun
    · cases flagChecker <;>
        exact .quiet (.refl fi) rfl rfl nofun nofun nofun nofun nofun nofun
  | test signalled =>
    simp only [processReq] at h
    split at h <;> simp only [Option.some.injEq] at h <;> subst h
    · exact .wait rfl ‹_›
    · rename_i hg
      refine .quiet (.refl fi) rfl rfl (fun _ => .inr (by simpa using hg)) nofun ?_ nofun nofun nofun
      cases signalled <;> simp [Pc.owes]
  | woken signalled =>
    simp only [processReq, Option.ite_none_right_eq_some, Option.some.injEq] at h
    obtain ⟨hl, rfl⟩ := h
    refine .acquire hl rfl rfl rfl rfl rfl rfl ?_ rfl nofun nofun
    cases signalled <;> rfl
  | admitted signalled =>
    simp only [processReq, Option.some.injEq] at h
    subst h
    refine .quiet (.refl fi) rfl rfl (fun _ => .inl rfl) nofun ?_ nofun nofun nofun
    cases signalled <;> simp [Pc.owes]
  | timed signalled operationStartTime =>
    simp only [processReq] at h
    split at h <;> simp only [Option.some.injEq] at h <;> subst h
    · exact .quiet (.refl fi) rfl rfl nofun nofun (fun _ => rfl) nofun nofun nofun
    · refine .quiet (.refl fi) rfl rfl (fun _ => .inl rfl) nofun ?_ nofun nofun nofun
      cases signalled <;> simp [Pc.owes]
  | taken signalled =>
    simp only [processReq] at h
    split at h
    · cases h
      exact .quiet (.refl fi) rfl rfl nofun nofun (fun _ => rfl) nofun nofun nofun
    · rename_i hd
      split at h <;> cases h
      · rename_i hop
        exact .quiet (.refl fi) rfl rfl (fun _ => .inl rfl)
          (fun _ => .inr ⟨hop, by simpa using hd⟩) (fun _ => rfl) nofun nofun nofun
      · rename_i hop
        exact .enter rfl (by simpa using hd) hop
  | finishing =>
    simp only [processReq, Option.ite_none_right_eq_some, Option.some.injEq] at h
    obtain ⟨hl, rfl⟩ := h
    exact .finish rfl hl
  | deleting wake =>
    simp only [processReq, Option.ite_none_right_eq_some, Option.some.injEq] at h
    obtain ⟨-, rfl⟩ := h
    exact .delete rfl

/-! ## The invariant of one file -/

/-- How many threads of operation `o` are performing it on file `f`. -/
def inProgress (req : Fin m → UserRequest) (f : Int) (o : Op) (pc : Fin m → Pc) : ℤ :=
  tally (fun i p => decide (fileOf req i = f) && decide ((req i).operation = o) && p.performing) pc

/-- The fields of file `f` agree with the places of the threads that work on it. -/
structure FileInv (cfg : Config) (req : Fin m → UserRequest) (f : Int) (fi : FileInfo m)
    (pc : Fin m → Pc) : Prop where
  lock : ∀ i, fi.lock = some i ↔ fileOf req i = f ∧ (pc i).holds = true
  readers : fi.readercount = inProgress req f .read pc
  writers : fi.writercount = inProgress req f .write pc
  total : fi.concurrentAccess = fi.readercount + fi.writercount
  cap : fi.concurrentAccess ≤ cfg.c
  single : fi.writercount ≤ 1
  chosen : ∀ i, fileOf req i = f → (pc i).chosen = true → guard cfg fi (req i).operation = false
  deleting : ∀ i, fileOf req i = f → (pc i).isDeleting = true → (req i).operation = .delete ∧
    fi.deleted = false
  gone : fi.deleted = true → fi.readercount = 0 ∧ fi.writercount = 0

section FileInv

variable {cfg : Config} {req : Fin m → UserRequest} {f : Int} {fi : FileInfo m} {pc : Fin m → Pc}
  {i : Fin m} {p' : Pc}

theorem inProgress_update_other (o : Op) (hi : fileOf req i ≠ f) :
    inProgress req f o (update pc i p') = inProgress req f o pc := by
  simp [inProgress, tally_update, hi]

theorem inProgress_update (o : Op) (hi : fileOf req i = f) :
    inProgress req f o (update pc i p') = inProgress req f o pc
      - unit (decide ((req i).operation = o) && (pc i).performing)
      + unit (decide ((req i).operation = o) && p'.performing) := by
  simp [inProgress, tally_update, hi]

theorem FileInv.readercount_nonneg (h : FileInv cfg req f fi pc) : 0 ≤ fi.readercount := by
  rw [h.readers]; exact tally_nonneg _ _

theorem FileInv.writercount_nonneg (h : FileInv cfg req f fi pc) : 0 ≤ fi.writercount := by
  rw [h.writers]; exact tally_nonneg _ _

theorem FileInv.exclusive (h : FileInv cfg req f fi pc) {j : Fin m} (hi : fileOf req i = f)
    (hpi : (pc i).holds = true) (hj : fileOf req j = f) (hpj : (pc j).holds = true) : j = i := by
  have h1 := (h.lock i).2 ⟨hi, hpi⟩
  have h2 := (h.lock j).2 ⟨hj, hpj⟩
  rw [h1] at h2
  exact (Option.some.inj h2).symm

theorem Pc.holds_of_chosen {p : Pc} (h : p.chosen = true) : p.holds = true := by
  cases p <;> simp_all [Pc.chosen, Pc.holds]

theorem Pc.chosen_of_isDeleting {p : Pc} (h : p.isDeleting = true) : p.chosen = true := by
  cases p <;> simp_all [Pc.chosen, Pc.isDeleting]

theorem guard_congr (cfg : Config) {g g' : FileInfo m} (hr : g'.readercount = g.readercount)
    (hw : g'.writercount = g.writercount) (ha : g'.concurrentAccess = g.concurrentAccess)
    (o : Op) : guard cfg g' o = guard cfg g o := by
  cases o <;> simp only [guard, hr, hw, ha]

theorem FileInv.move_other (h : FileInv cfg req f fi pc) (hi : fileOf req i ≠ f) :
    FileInv cfg req f fi (update pc i p') := by
  have hother : ∀ j, fileOf req j = f → update pc i p' j = pc j := fun j hj =>
    update_of_ne (fun e : j = i => hi (e ▸ hj)) _ _
  refine ⟨fun j => ?_, ?_, ?_, h.total, h.cap, h.single, fun j hj hp => ?_,
    fun j hj hp => ?_, h.gone⟩
  · rw [h.lock j]
    exact and_congr_right fun hj => by rw [hother j hj]
  · rw [inProgress_update_other .read hi]; exact h.readers
  · rw [inProgress_update_other .write hi]; exact h.writers
  · rw [hother j hj] at hp; exact h.chosen j hj hp
  · rw [hother j hj] at hp; exact h.deleting j hj hp

/-- A move of a thread of this file that keeps the counters and `deleted`. -/
theorem FileInv.move (h : FileInv cfg req f fi pc) {fi' : FileInfo m} (hi : fileOf req i = f)
    (hr : fi'.readercount = fi.readercount) (hw : fi'.writercount = fi.writercount)
    (ha : fi'.concurrentAccess = fi.concurrentAccess) (hd : fi'.deleted = fi.deleted)
    (hperf : p'.performing = (pc i).performing)
    (hlock : ∀ j, fi'.lock = some j ↔ fileOf req j = f ∧ (update pc i p' j).holds = true)
    (hchosen : p'.chosen = true → (pc i).chosen = true ∨ guard cfg fi (req i).operation = false)
    (hdel : p'.isDeleting = true → (pc i).isDeleting = true ∨ (req i).operation = .delete ∧
      fi.deleted = false) : FileInv cfg req f fi' (update pc i p') := by
  refine ⟨hlock, ?_, ?_, ?_, ?_, ?_, ?_, ?_, ?_⟩
  · rw [inProgress_update .read hi, hperf, hr, h.readers]; omega
  · rw [inProgress_update .write hi, hperf, hw, h.writers]; omega
  · rw [ha, hr, hw]; exact h.total
  · rw [ha]; exact h.cap
  · rw [hw]; exact h.single
  · rw [forall_update_iff pc fun j p => fileOf req j = f → p.chosen = true →
      guard cfg fi' (req j).operation = false]
    simp only [guard_congr cfg hr hw ha]
    exact ⟨fun _ hp => (hchosen hp).elim (h.chosen i hi) id, fun j _ => h.chosen j⟩
  · rw [forall_update_iff pc fun j p => fileOf req j = f → p.isDeleting = true →
      (req j).operation = .delete ∧ fi'.deleted = false]
    simp only [hd]
    exact ⟨fun _ hp => (hdel hp).elim (h.deleting i hi) id, fun j _ => h.deleting j⟩
  · rw [hd, hr, hw]; exact h.gone

theorem FileInv.quiet (h : FileInv cfg req f fi pc) {fi' : FileInfo m} (hsame : fi.Agrees fi')
    (hi : fileOf req i = f)
    (hholds : p'.holds = (pc i).holds) (hperf : p'.performing = (pc i).performing)
    (hchosen : p'.chosen = true → (pc i).chosen = true ∨ guard cfg fi (req i).operation = false)
    (hdel : p'.isDeleting = true → (pc i).isDeleting = true ∨ (req i).operation = .delete ∧
      fi.deleted = false) : FileInv cfg req f fi' (update pc i p') := by
  refine h.move hi hsame.readercount hsame.writercount hsame.concurrentAccess hsame.deleted hperf
    (fun j => ?_) hchosen hdel
  rw [hsame.lock]
  rcases eq_or_ne j i with rfl | hne
  · rw [update_self, hholds]; exact h.lock j
  · rw [update_of_ne hne]; exact h.lock j

theorem FileInv.moveAny (h : FileInv cfg req f fi pc) (i : Fin m) {p' : Pc}
    (hholds : p'.holds = (pc i).holds) (hperf : p'.performing = (pc i).performing)
    (hchosen : p'.chosen = false) : FileInv cfg req f fi (update pc i p') := by
  by_cases hi : fileOf req i = f
  · refine h.quiet (.refl fi) hi hholds hperf (by rw [hchosen]; nofun) fun hd => ?_
    have := Pc.chosen_of_isDeleting hd
    rw [hchosen] at this; cases this
  · exact h.move_other hi

theorem FileInv.congr (h : FileInv cfg req f fi pc) {fi' : FileInfo m} (hsame : fi.Agrees fi') :
    FileInv cfg req f fi' pc := by
  have hguard := guard_congr cfg hsame.readercount hsame.writercount hsame.concurrentAccess
  constructor
  · simpa only [hsame.lock] using h.lock
  · exact hsame.readercount.trans h.readers
  · exact hsame.writercount.trans h.writers
  · simpa only [hsame.concurrentAccess, hsame.readercount, hsame.writercount] using h.total
  · exact hsame.concurrentAccess.trans_le h.cap
  · exact hsame.writercount.trans_le h.single
  · simpa only [hguard] using h.chosen
  · simpa only [hsame.deleted] using h.deleting
  · simpa only [hsame.deleted, hsame.readercount, hsame.writercount] using h.gone

theorem FileInv.lock_acquire (h : FileInv cfg req f fi pc) (hi : fileOf req i = f)
    (hfree : fi.lock = none) (hholds : p'.holds = true) (j : Fin m) :
    some i = some j ↔ fileOf req j = f ∧ (update pc i p' j).holds = true := by
  rcases eq_or_ne j i with rfl | hne
  · simp [hi, hholds]
  · rw [update_of_ne hne]
    refine ⟨fun e => absurd (Option.some.inj e).symm hne, fun hb => ?_⟩
    have := (h.lock j).2 hb
    rw [hfree] at this; cases this

theorem FileInv.lock_release (h : FileInv cfg req f fi pc) (hi : fileOf req i = f)
    (hp : (pc i).holds = true) (hp' : p'.holds = false) (j : Fin m) :
    none = some j ↔ fileOf req j = f ∧ (update pc i p' j).holds = true := by
  rcases eq_or_ne j i with rfl | hne
  · simp [hp']
  · rw [update_of_ne hne]
    exact ⟨nofun, fun ⟨hj, hb⟩ => absurd (h.exclusive hi hp hj hb) hne⟩

/-- The thread that is counted in was the one past its guard, so the bounds stay. -/
theorem FileInv.enter (h : FileInv cfg req f fi pc) (hi : fileOf req i = f) {sig : Bool}
    (hp : pc i = .taken sig) (hd : fi.deleted = false) (hop : (req i).operation ≠ .delete) :
    FileInv cfg req f (fi.enter (req i).operation) (update pc i .entered) := by
  have hholds : (pc i).holds = true := by rw [hp]; rfl
  have hguard := h.chosen i hi (by rw [hp]; rfl)
  have hr := h.readers; have hw := h.writers; have ht := h.total; have hs := h.single
  have hc := h.cap
  have hlock : ∀ j, (fi.enter (req i).operation).lock = some j ↔
      fileOf req j = f ∧ (update pc i Pc.entered j).holds = true := fun j => by
    have hfl : (fi.enter (req i).operation).lock = fi.lock := by cases (req i).operation <;> rfl
    rw [hfl, h.lock j]
    rcases eq_or_ne j i with rfl | hne
    · rw [update_self, hholds]; rfl
    · rw [update_of_ne hne]
  have hdel : (fi.enter (req i).operation).deleted = false := by
    cases (req i).operation <;> exact hd
  -- Whoever else is past a guard would be inside the critical section too.
  have halone : ∀ j, fileOf req j = f → (update pc i Pc.entered j).chosen = true → False :=
    fun j hj hcj => by
      rcases eq_or_ne j i with rfl | hne
      · rw [update_self] at hcj; cases hcj
      · rw [update_of_ne hne] at hcj
        exact hne (h.exclusive hi hholds hj (Pc.holds_of_chosen hcj))
  refine ⟨hlock, ?_, ?_, ?_, ?_, ?_, fun j hj hcj => (halone j hj hcj).elim,
    fun j hj hcj => (halone j hj (Pc.chosen_of_isDeleting hcj)).elim, ?_⟩
  · rw [inProgress_update .read hi, hp]
    cases ho : (req i).operation <;> simp_all [FileInfo.enter, Pc.performing]
  · rw [inProgress_update .write hi, hp]
    cases ho : (req i).operation <;> simp_all [FileInfo.enter, Pc.performing]
  · cases ho : (req i).operation <;> simp_all [FileInfo.enter] <;> omega
  · cases ho : (req i).operation <;> simp_all [FileInfo.enter, guard]
  · cases ho : (req i).operation <;> simp_all [FileInfo.enter, guard]
  · rw [hdel]; nofun

theorem FileInv.finish (h : FileInv cfg req f fi pc) (hi : fileOf req i = f)
    (hp : pc i = .finishing) (hfree : fi.lock = none) :
    FileInv cfg req f { fi.leave (req i).operation with lock := some i }
    (update pc i (.signal .completed)) := by
  have hr := h.readers; have hw := h.writers; have ht := h.total; have hs := h.single
  have hc := h.cap
  have hnone : ∀ j, fileOf req j = f →
      (update pc i (Pc.signal .completed) j).chosen = true → False := fun j hj hcj => by
    rcases eq_or_ne j i with rfl | hne
    · rw [update_self] at hcj; cases hcj
    · rw [update_of_ne hne] at hcj
      have := (h.lock j).2 ⟨hj, Pc.holds_of_chosen hcj⟩
      rw [hfree] at this; cases this
  refine ⟨h.lock_acquire hi hfree rfl, ?_, ?_, ?_, ?_, ?_,
    fun j hj hcj => (hnone j hj hcj).elim,
    fun j hj hcj => (hnone j hj (Pc.chosen_of_isDeleting hcj)).elim, fun hd => ?_⟩
  · rw [inProgress_update .read hi, hp]
    cases ho : (req i).operation <;> simp_all [FileInfo.leave, Pc.performing]
  · rw [inProgress_update .write hi, hp]
    cases ho : (req i).operation <;> simp_all [FileInfo.leave, Pc.performing]
  · cases ho : (req i).operation <;> simp_all [FileInfo.leave] <;> omega
  · cases ho : (req i).operation <;> simp_all [FileInfo.leave] <;> omega
  · cases ho : (req i).operation <;> simp_all [FileInfo.leave]
    omega
  -- On a deleted file nothing is in progress, so the thread is no READ or WRITE.
  · have hd' : fi.deleted = true := by
      cases ho : (req i).operation <;> simpa [ho, FileInfo.leave, FileInfo.deleted] using hd
    obtain ⟨h0, h1⟩ := h.gone hd'
    have hbusy : ∀ o, (req i).operation = o → 1 ≤ inProgress req f o pc := fun o ho =>
      one_le_tally (i := i) (by simp [hi, ho, hp, Pc.performing])
    cases ho : (req i).operation with
    | read | write => have := hbusy _ ho; omega
    | delete => exact ⟨h0, h1⟩

theorem FileInv.quiet_of_deleting (h : FileInv cfg req f fi pc) (hi : fileOf req i = f)
    (hp : (pc i).isDeleting = true) : fi.readercount = 0 ∧ fi.writercount = 0 := by
  obtain ⟨hop, -⟩ := h.deleting i hi hp
  have hg := h.chosen i hi (Pc.chosen_of_isDeleting hp)
  have hr := h.readercount_nonneg; have hw := h.writercount_nonneg
  simp only [hop, guard, Bool.or_eq_false_iff, decide_eq_false_iff_not] at hg
  omega

theorem FileInv.delete (h : FileInv cfg req f fi pc) (hi : fileOf req i = f) {wake : Int}
    (hp : pc i = .deleting wake) :
    FileInv cfg req f (fi.setDeleted true) (update pc i (.signal .completed)) := by
  have hholds : (pc i).holds = true := by rw [hp]; rfl
  have hquiet := h.quiet_of_deleting hi (by rw [hp]; rfl)
  have hlock : ∀ j, fi.lock = some j ↔
      fileOf req j = f ∧ (update pc i (Pc.signal .completed) j).holds = true := fun j => by
    rw [h.lock j]
    rcases eq_or_ne j i with rfl | hne
    · rw [update_self, hholds]; rfl
    · rw [update_of_ne hne]
  refine ⟨hlock, ?_, ?_, h.total, h.cap, h.single, ?_, ?_, fun _ => hquiet⟩
  · rw [inProgress_update .read hi, hp]; simpa [Pc.performing, FileInfo.setDeleted] using h.readers
  · rw [inProgress_update .write hi, hp]; simpa [Pc.performing, FileInfo.setDeleted] using h.writers
  · rw [forall_update_iff pc fun j p => fileOf req j = f → p.chosen = true →
      guard cfg (fi.setDeleted true) (req j).operation = false]
    exact ⟨nofun, fun j _ => h.chosen j⟩
  · rw [forall_update_iff pc fun j p => fileOf req j = f → p.isDeleting = true →
      (req j).operation = .delete ∧ (fi.setDeleted true).deleted = false]
    refine ⟨nofun, fun j hne hj hpj => ?_⟩
    exact absurd (h.exclusive hi hholds hj (Pc.holds_of_chosen (Pc.chosen_of_isDeleting hpj))) hne

theorem FileInv.localStep (h : FileInv cfg req f fi pc) (hi : fileOf req i = f)
    {fi' : FileInfo m} (hs : LocalStep cfg (req i) i fi (pc i) fi' p') :
    FileInv cfg req f fi' (update pc i p') := by
  cases hs with
  | quiet hsame hholds hperf hchosen hdel => exact h.quiet hsame hi hholds hperf hchosen hdel
  | acquire hfree hp hp' hperf hperf' hchosen hdel =>
    exact h.move hi rfl rfl rfl rfl (by rw [hperf, hperf']) (h.lock_acquire hi hfree hp')
      (by rw [hchosen]; nofun) (by rw [hdel]; nofun)
  | release hp hp' hperf hchosen hdel =>
    exact h.move hi rfl rfl rfl rfl hperf (h.lock_release hi hp hp') (by rw [hchosen]; nofun)
      (by rw [hdel]; nofun)
  | wait hp hguard =>
    exact h.move hi rfl rfl rfl rfl (by rw [hp]; rfl) (h.lock_release hi (by rw [hp]; rfl) rfl)
      nofun nofun
  | enter hp hdel hop => exact h.enter hi hp hdel hop
  | finish hp hfree => exact h.finish hi hp hfree
  | delete hp => exact h.delete hi hp

end FileInv

/-! ## Every reachable state -/

/-- The first request that has no thread yet. -/
def MainPc.dispatched (m : ℕ) : MainPc → ℕ
  | .dispatch i | .sleep i _ | .create i => i
  | .join _ | .finished => m

structure Inv (cfg : Config) (req : Fin m → UserRequest) (s : State m) : Prop where
  file : ∀ f, 0 ≤ f → f < cfg.n → FileInv cfg req f (s.files f) s.pc
  idle : ∀ i : Fin m, s.main.dispatched m ≤ i → s.pc i = .idle

theorem inv_init (cfg : Config) (req : Fin m → UserRequest) (bytes : Int → FileInfo m)
    (hc : 0 ≤ cfg.c) : Inv cfg req (init cfg bytes) where
  file f h0 hn := by
    have hf : (init cfg bytes).files f = { (bytes f).setDeleted false with
        lock := none, concurrentAccess := 0, readercount := 0, writercount := 0 } := if_pos ⟨h0, hn⟩
    have hdel : ((init cfg bytes).files f).deleted = false := by
      rw [hf]
      exact FileInfo.deleted_setDeleted ..
    have hz : ∀ o, inProgress req f o (init cfg bytes).pc = 0 := fun o =>
      tally_eq_zero fun i => by simp [init, Pc.performing]
    rw [hf] at hdel ⊢
    exact ⟨fun i => ⟨nofun, nofun⟩, (hz .read).symm, (hz .write).symm, rfl, hc,
      Int.zero_le_ofNat 1, nofun, nofun, fun hd => absurd hd (Bool.eq_false_iff.mp hdel)⟩
  idle _ _ := rfl

section Step

variable {cfg : Config} {req : Fin m → UserRequest} {s s' : State m}

theorem step_run {i : Fin m} (htime : 0 ≤ slot (req i)) (h : step cfg req s (.run i) = some s') :
    ∃ fi' p', LocalStep cfg (req i) i (s.files (fileOf req i)) (s.pc i) fi' p' ∧
      s'.files = update s.files (fileOf req i) fi' ∧
      s'.pc = update s.pc i p' ∧ s'.main = s.main := by
  obtain ⟨e, he, rfl⟩ := Option.map_eq_some_iff.mp h
  exact ⟨e.file, e.pc, processReq_localStep htime he, rfl, rfl, rfl⟩

/-- A signal moves its sender past `pthread_cond_signal` and one sleeper of the file, if there is
one, to its wake-up. -/
theorem step_signal {i : Fin m} {target : Option (Fin m)}
    (h : step cfg req s (.signal i target) = some s') : ∃ o, s.pc i = .signal o ∧
      s'.files = s.files ∧ s'.main = s.main ∧
      ((∃ j, fileOf req j = fileOf req i ∧ s.pc j = .waiting ∧
          s'.pc = update (update s.pc j (.woken true)) i (.unlock o)) ∨
        (∀ j, fileOf req j = fileOf req i → s.pc j ≠ .waiting) ∧
          s'.pc = update s.pc i (.unlock o)) := by
  simp only [step] at h
  split at h
  · rename_i o j hp
    obtain ⟨ha, h⟩ := Option.ite_none_right_eq_some.mp h
    cases h
    simp only [asleep, Bool.and_eq_true, decide_eq_true_eq] at ha
    exact ⟨o, hp, rfl, rfl, .inl ⟨j, ha.1, ha.2, rfl⟩⟩
  · rename_i o hp
    obtain ⟨ha, h⟩ := Option.ite_none_right_eq_some.mp h
    cases h
    simp only [asleep, Bool.and_eq_false_iff, decide_eq_false_iff_not] at ha
    exact ⟨o, hp, rfl, rfl, .inr ⟨fun j hj => (ha j).resolve_left (not_not.2 hj), rfl⟩⟩
  · cases h

theorem step_timer {i : Fin m} (h : step cfg req s (.timer i) = some s') :
    ∃ wake, s.bullet i = .armed wake ∧ wake ≤ s.clock ∧ s' = { s with
      bullet := update s.bullet i .printed
      out := s.out ++ [.cancelled i ((req i).requesttime + cfg.T)] } := by
  simp only [step] at h
  split at h
  · next wake hb =>
    obtain ⟨hwake, h⟩ := Option.ite_none_right_eq_some.mp h
    exact ⟨wake, hb, hwake, (Option.some.inj h).symm⟩
  · cases h

/-- `main` counts a request in, starts a thread that was idle, or touches neither file nor
thread. -/
theorem mainStep_cases (htime : ∀ i, 0 ≤ slot (req i))
    (hidle : ∀ i : Fin m, s.main.dispatched m ≤ i → s.pc i = .idle)
    (h : mainStep req s = some s') :
    (∀ f, (s.files f).Agrees (s'.files f)) ∧
      (s'.pc = s.pc ∨ ∃ i wake, s.pc i = .idle ∧ s'.pc = update s.pc i (.start wake)) ∧
      ∀ i : Fin m, s'.main.dispatched m ≤ i → s'.pc i = .idle := by
  have hsame : ∀ f, (s.files f).Agrees (s.files f) := fun f => .refl _
  unfold mainStep at h
  split at h
  · rename_i i hm
    split at h <;> cases h
    · exact ⟨hsame, .inl rfl, by simpa [hm, MainPc.dispatched] using hidle⟩
    · exact ⟨hsame, .inl rfl, fun j hj => absurd j.isLt (Nat.not_lt.2 hj)⟩
  · rename_i i wake hm
    split at h <;> cases h
    refine ⟨fun f => ?_, .inl rfl, by simpa [hm, MainPc.dispatched] using hidle⟩
    dsimp only
    rcases eq_or_ne f (fileOf req ⟨i, (‹i < m ∧ wake ≤ s.clock›).1⟩) with rfl | hne
    · rw [update_self]
      split
      · exact hsame _
      · exact FileInfo.agrees_fetchAdd _ (htime _) 1
    · rw [update_of_ne hne]; exact hsame f
  · rename_i i hm
    split at h <;> cases h
    rename_i hi
    refine ⟨hsame, .inr ⟨⟨i, hi⟩, _, hidle _ (by simp [hm, MainPc.dispatched]), rfl⟩,
      fun j hj => ?_⟩
    have hji : i + 1 ≤ j.val := hj
    have hne : j ≠ ⟨i, hi⟩ := fun e => by rw [e] at hji; exact absurd hji (by simp)
    dsimp only
    rw [update_of_ne hne]
    exact hidle j (by simp only [hm, MainPc.dispatched]; omega)
  · rename_i i hm
    split at h
    · split at h <;> cases h
      exact ⟨hsame, .inl rfl, fun j hj => absurd j.isLt (Nat.not_lt.2 hj)⟩
    · cases h
      exact ⟨hsame, .inl rfl, fun j hj => absurd j.isLt (Nat.not_lt.2 hj)⟩
  · cases h

theorem Inv.step {a : Act m} (htime : ∀ i, 0 ≤ slot (req i)) (hi : Inv cfg req s)
    (h : step cfg req s a = some s') : Inv cfg req s' := by
  cases a with
  | run i =>
    obtain ⟨fi', p', hl, hf, hp, hm⟩ := step_run (htime i) h
    have hact : s.pc i ≠ .idle := fun e => by simp [FileManager.step, e, processReq] at h
    refine ⟨fun f h0 hn => ?_, fun j hj => ?_⟩
    · rw [hf, hp]
      rcases eq_or_ne (fileOf req i) f with rfl | hne
      · rw [update_self]; exact (hi.file _ h0 hn).localStep rfl hl
      · rw [update_of_ne hne.symm]; exact (hi.file f h0 hn).move_other hne
    · rw [hm] at hj
      have hne : j ≠ i := fun e => hact (e ▸ hi.idle j hj)
      rw [hp, update_of_ne hne]
      exact hi.idle j hj
  | signal i target =>
    obtain ⟨o, hpi, hf, hm, ⟨j, -, hpj, hp⟩ | ⟨-, hp⟩⟩ := step_signal h
    · have hne : i ≠ j := fun e => by rw [e, hpj] at hpi; cases hpi
      have hpi' : update s.pc j (.woken true) i = .signal o := by
        rw [update_of_ne hne, hpi]
      refine ⟨fun f h0 hn => ?_, fun k hk => ?_⟩
      · rw [hf, hp]
        exact ((hi.file f h0 hn).moveAny j (by rw [hpj]; rfl) (by rw [hpj]; rfl) rfl).moveAny i
          (by rw [hpi']; rfl) (by rw [hpi']; rfl) rfl
      · rw [hm] at hk
        have hidle := hi.idle k hk
        have hki : k ≠ i := fun e => by rw [e, hpi] at hidle; cases hidle
        have hkj : k ≠ j := fun e => by rw [e, hpj] at hidle; cases hidle
        rw [hp, update_of_ne hki, update_of_ne hkj, hidle]
    · refine ⟨fun f h0 hn => ?_, fun k hk => ?_⟩
      · rw [hf, hp]
        exact (hi.file f h0 hn).moveAny i (by rw [hpi]; rfl) (by rw [hpi]; rfl) rfl
      · rw [hm] at hk
        have hidle := hi.idle k hk
        have hki : k ≠ i := fun e => by rw [e, hpi] at hidle; cases hidle
        rw [hp, update_of_ne hki, hidle]
  | spurious i =>
    obtain ⟨hpi, h⟩ := Option.ite_none_right_eq_some.mp h
    cases h
    refine ⟨fun f h0 hn => (hi.file f h0 hn).moveAny i (by rw [hpi]; rfl) (by rw [hpi]; rfl) rfl,
      fun k hk => ?_⟩
    have hidle := hi.idle k hk
    have hki : k ≠ i := fun e => by rw [e, hpi] at hidle; cases hidle
    exact (update_of_ne hki _ _).trans hidle
  | main =>
    obtain ⟨hf, hp, hidle⟩ := mainStep_cases htime hi.idle h
    refine ⟨fun f h0 hn => ?_, hidle⟩
    rcases hp with hp | ⟨i, wake, hpi, hp⟩
    · rw [hp]; exact (hi.file f h0 hn).congr (hf f)
    · rw [hp]
      exact ((hi.file f h0 hn).moveAny i (by rw [hpi]; rfl) (by rw [hpi]; rfl) rfl).congr (hf f)
  | timer i =>
    obtain ⟨_, -, -, rfl⟩ := step_timer h
    exact ⟨hi.file, hi.idle⟩
  | tick => cases h; exact ⟨hi.file, hi.idle⟩

theorem inv_of_reach {bytes : Int → FileInfo m} (htime : ∀ i, 0 ≤ slot (req i)) (hc : 0 ≤ cfg.c)
    (h : Reach (step cfg req) (init cfg bytes) s) : Inv cfg req s :=
  h.invariant (fun _ _ _ hi hs => hi.step htime hs) (inv_init cfg req bytes hc)

theorem deleted_step {a : Act m} {f : Int} (htime : ∀ i, 0 ≤ slot (req i)) (hi : Inv cfg req s)
    (h : step cfg req s a = some s') :
    (s'.files f).deleted = (s.files f).deleted ∨
      ∃ i, fileOf req i = f ∧ (s.pc i).isDeleting = true ∧ (s'.files f).deleted = true := by
  cases a with
  | run i =>
    obtain ⟨fi', p', hl, hf, -, -⟩ := step_run (htime i) h
    rw [hf]
    rcases eq_or_ne (fileOf req i) f with rfl | hne
    · rw [update_self]
      cases hl with
      | delete hp => exact .inr ⟨i, rfl, by rw [hp]; rfl, FileInfo.deleted_setDeleted ..⟩
      | quiet hsame => exact .inl hsame.deleted
      | enter | finish => left; cases (req i).operation <;> rfl
      | _ => exact .inl rfl
    · rw [update_of_ne hne.symm]; exact .inl rfl
  | signal i target =>
    obtain ⟨o, -, hf, -⟩ := step_signal h
    rw [hf]; exact .inl rfl
  | spurious i =>
    obtain ⟨-, h⟩ := Option.ite_none_right_eq_some.mp h
    cases h; exact .inl rfl
  | main =>
    exact .inl ((mainStep_cases htime hi.idle h).1 f).deleted
  | timer i =>
    obtain ⟨_, -, -, rfl⟩ := step_timer h
    exact .inl rfl
  | tick => cases h; exact .inl rfl

end Step

/-! ## The result -/

def accessing (req : Fin m → UserRequest) (f : Int) (pc : Fin m → Pc) : ℤ :=
  tally (fun i p =>
    decide (fileOf req i = f) && decide ((req i).operation ≠ .delete) && p.performing) pc

theorem accessing_eq (req : Fin m → UserRequest) (f : Int) (pc : Fin m → Pc) :
    accessing req f pc = inProgress req f .read pc + inProgress req f .write pc := by
  unfold accessing inProgress tally
  rw [← Finset.sum_add_distrib]
  refine Finset.sum_congr rfl fun i _ => ?_
  cases ho : (req i).operation <;> simp [ho]

theorem FileInv.accessing {cfg : Config} {req : Fin m → UserRequest} {f : Int} {fi : FileInfo m}
    {pc : Fin m → Pc} (h : FileInv cfg req f fi pc) :
    fi.concurrentAccess = accessing req f pc := by
  rw [accessing_eq, h.total, h.readers, h.writers]

theorem FileInv.accessing_eq_zero {cfg : Config} {req : Fin m → UserRequest} {f : Int}
    {fi : FileInfo m} {pc : Fin m → Pc} (h : FileInv cfg req f fi pc)
    (hz : fi.readercount = 0 ∧ fi.writercount = 0) : FileManager.accessing req f pc = 0 := by
  rw [← h.accessing, h.total, hz.1, hz.2]; rfl

/-- **Safety of the file manager.** Where the requests' counters lie in the array, in every
reachable state of every run, for every file: the counters count the accesses in progress, at most
`c` of them and at most one write; a file is deleted once, while nothing is in progress, and from
then on nothing ever is. -/
theorem file_accesses_safe (cfg : Config) (req : Fin m → UserRequest) (bytes : Int → FileInfo m)
    (htime : ∀ i, 0 ≤ slot (req i)) (hc : 1 ≤ cfg.c) {s : State m}
    (hs : Reach (step cfg req) (init cfg bytes) s) {f : Int} (h0 : 0 ≤ f) (hn : f < cfg.n) :
    (s.files f).concurrentAccess = (s.files f).readercount + (s.files f).writercount ∧
    (s.files f).concurrentAccess = accessing req f s.pc ∧
    (s.files f).concurrentAccess ≤ cfg.c ∧
    (s.files f).writercount ≤ 1 ∧
    (∀ a s', step cfg req s a = some s' → (s.files f).deleted = false →
      (s'.files f).deleted = true → accessing req f s.pc = 0 ∧ accessing req f s'.pc = 0) ∧
    ((s.files f).deleted = true → ∀ s', Reach (step cfg req) s s' →
      (s'.files f).deleted = true ∧ accessing req f s'.pc = 0) := by
  have hinv := inv_of_reach htime (by omega) hs
  have hfile := hinv.file f h0 hn
  refine ⟨hfile.total, hfile.accessing, hfile.cap, hfile.single, fun a s' hstep hd hd' => ?_,
    fun hd s' hs' => ?_⟩
  · have hfile' := (hinv.step htime hstep).file f h0 hn
    refine ⟨?_, hfile'.accessing_eq_zero (hfile'.gone hd')⟩
    rcases deleted_step (f := f) htime hinv hstep with he | ⟨i, hi, hp, -⟩
    · rw [he, hd] at hd'; cases hd'
    · exact hfile.accessing_eq_zero (hfile.quiet_of_deleting hi hp)
  · have hinv' := Reach.invariant (I := fun t => Inv cfg req t ∧ (t.files f).deleted = true)
      (fun t a t' ht hstep => ⟨ht.1.step htime hstep, by
        rcases deleted_step (f := f) htime ht.1 hstep with he | ⟨i, -, -, hd'⟩
        · rw [he, ht.2]
        · exact hd'⟩) hs' ⟨hinv, hd⟩
    have hfile' := hinv'.1.file f h0 hn
    exact ⟨hinv'.2, hfile'.accessing_eq_zero (hfile'.gone hinv'.2)⟩

/-- One file, two accesses at a time, ten seconds of patience. -/
def oneFile : Config := ⟨1, 1, 1, 1, 2, 10⟩

/-- The bytes of a zeroed `files` array. -/
def zeroBytes : Int → FileInfo m := fun _ => ⟨none, 0, 0, 0, 0, fun _ => 0, fun _ => 0⟩

theorem zeroBytes_timeRequests {f k : Int} (hk0 : 0 ≤ k) (_ : k < 100) :
    (zeroBytes (m := m) f).timeRequests k = 0 := by
  simp [zeroBytes, FileInfo.timeRequests, hk0]

/-- Two WRITEs and a DELETE of file 1, all at second 0. -/
def writesAndDelete : Fin 3 → UserRequest :=
  fun i => ⟨i.val, 1, if i = 2 then .delete else .write, 0⟩

/-- The first WRITE is in progress, the second and the DELETE sleep; each that ends wakes the
next. -/
def writesAndDeleteActs : List (Act 3) :=
  List.flatten [List.replicate 9 .main, [.tick], List.replicate 9 (.run 0),
    List.replicate 5 (.run 1), List.replicate 6 (.run 2),
    [.tick, .run 0, .run 0, .signal 0 (some 1), .run 0], List.replicate 6 (.run 1),
    [.tick, .run 1, .run 1, .signal 1 (some 2), .run 1], List.replicate 5 (.run 2), [.tick, .run 2]]

/-- The DELETE has waited for both WRITEs. -/
theorem file_accesses_safe_writesAndDelete :
    ∃ s, Reach (step oneFile writesAndDelete) (init oneFile zeroBytes) s ∧
      (s.files 0).deleted = true ∧ (s.files 0).concurrentAccess = 0 ∧
      ∀ s', Reach (step oneFile writesAndDelete) s s' → accessing writesAndDelete 0 s'.pc = 0 := by
  obtain ⟨s, hs, hdel, hzero⟩ :
    ∃ s ∈ runActs (step oneFile writesAndDelete) (init oneFile zeroBytes)
      writesAndDeleteActs, (s.files 0).deleted = true ∧ (s.files 0).concurrentAccess = 0 := by
    decide +kernel
  have hreach := reach_of_runActs hs
  have hsafe := file_accesses_safe oneFile writesAndDelete zeroBytes (by decide) (by decide) hreach
    (f := 0) (by decide) (by decide)
  exact ⟨s, hreach, hdel, hzero, fun s' hs' => (hsafe.2.2.2.2.2 hdel s' hs').2⟩

/-- A READ of file 1 at second -2. -/
def readAtMinusTwo : Fin 1 → UserRequest := fun _ => ⟨7, 1, .read, -2⟩

/-- **A READ counts itself as a WRITE**: `time_requests[-2]` is `writercount`. -/
theorem accesses_miscounted :
    ¬ ∀ s, Reach (step oneFile readAtMinusTwo) (init oneFile zeroBytes) s →
      ∀ f, 0 ≤ f → f < oneFile.n →
        (s.files f).concurrentAccess = (s.files f).readercount + (s.files f).writercount := by
  intro hall
  obtain ⟨s, hs, haccess, hreaders, hwriters⟩ : ∃ s ∈ runActs (step oneFile readAtMinusTwo)
      (init oneFile zeroBytes) [.main, .main], (s.files 0).concurrentAccess = 0 ∧
      (s.files 0).readercount = 0 ∧ (s.files 0).writercount = 1 := by decide +kernel
  have hsum := hall s (reach_of_runActs hs) 0 (by decide) (by decide)
  rw [haccess, hreaders, hwriters] at hsum
  exact absurd hsum (by decide)

end LazyXv6.FileManager
