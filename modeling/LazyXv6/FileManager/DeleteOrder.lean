import LazyXv6.FileManager.Dispatch

/-!
# DELETEs and the requests of their second

`compareByRequestTime` puts the READs and WRITEs of a second before its DELETEs, and a DELETE spins
until its counter is zero. From then on the READs and WRITEs of its second on its file are past
their `atomic_fetch_sub` (`Overtakes`), which does not mean that they are served: they count
themselves out before they wait for a place.
-/

namespace LazyXv6.FileManager

open Lib Lib.SmallFin

variable {m : ℕ}

def Op.code : Op → Int
  | .read => 1
  | .write => 2
  | .delete => 3

/-- `compareByRequestTime`; a difference of times is converted to `int`. -/
def compareByRequestTime (a b : UserRequest) : Int :=
  if a.requesttime ≠ b.requesttime then (a.requesttime - b.requesttime).bmod (2 ^ 32)
  else a.operation.code - b.operation.code

def Sorted (req : Fin m → UserRequest) : Prop :=
  ∀ i j, i < j → compareByRequestTime (req i) (req j) ≤ 0

instance (req : Fin m → UserRequest) : Decidable (Sorted req) :=
  inferInstanceAs (Decidable (∀ _, _))

/-- Request `j` is a READ or WRITE on the file and of the second of the DELETE `i`. -/
structure SameSecond (req : Fin m → UserRequest) (i j : Fin m) : Prop where
  file : fileOf req j = fileOf req i
  time : (req j).requesttime = (req i).requesttime
  delete : (req i).operation = .delete
  access : (req j).operation ≠ .delete

/-- The thread has neither taken up its request nor given it up. -/
def Pc.undecided : Pc → Bool
  | .taken _ | .entered | .working _ | .finishing | .deleting _ | .signal _ | .unlock _
  | .returned _ => false
  | _ => true

/-- `main` has made the request, and it is neither taken up nor cancelled. -/
def Unserved (s : State m) (j : Fin m) : Prop :=
  j.val < s.main.counted m ∧ (s.pc j).undecided = true ∧ s.bullet j ≠ .printed

instance (s : State m) (j : Fin m) : Decidable (Unserved s j) := inferInstanceAs (Decidable (_ ∧ _))

def Pc.inWait : Pc → Bool
  | .waiting | .woken _ => true
  | _ => false

def Pc.pastSpin : Pc → Bool
  | .idle | .start _ | .lock | .locked | .count | .peek | .peekUnlock | .spin _ => false
  | _ => true

def Pc.deleteOnly : Pc → Bool
  | .peek | .peekUnlock | .spin _ | .relock => true
  | _ => false

theorem Pc.undecided_of_inWait {p : Pc} (h : p.inWait = true) : p.undecided = true := by
  cases p <;> simp_all [inWait, undecided]

theorem Pc.inWait_of_undecided {p : Pc} (h : p.undecided = true) (hlock : p.holds = false)
    (hcount : p.beforeCount = false) (honly : p.deleteOnly = false) : p.inWait = true := by
  cases p <;> simp_all [inWait, undecided, holds, beforeCount, deleteOnly]

theorem Sorted.lt {req : Fin m → UserRequest} (h : Sorted req) {i j : Fin m}
    (hij : SameSecond req i j) : j < i := by
  rcases lt_trichotomy j i with hlt | rfl | hgt
  · exact hlt
  · exact absurd hij.delete hij.access
  · have hle := h i j hgt
    unfold compareByRequestTime at hle
    rw [if_neg (not_not.mpr hij.time.symm), hij.delete] at hle
    have hcode : (req j).operation.code ≤ 2 := by
      cases ho : (req j).operation with
      | read | write => decide
      | delete => exact absurd ho hij.access
    have hthree : Op.delete.code = 3 := rfl
    omega

/-- A DELETE past its busy-wait leaves no READ or WRITE of its second before `atomic_fetch_sub`. -/
structure Overtakes (req : Fin m → UserRequest) (s : State m) : Prop where
  counted : ∀ i j, SameSecond req i j → (s.pc i).pastSpin = true → (s.pc j).beforeCount = false
  branch : ∀ i, (s.pc i).deleteOnly = true → (req i).operation = .delete

section Steps

variable {cfg : Config} {req : Fin m → UserRequest} {bytes : Int → FileInfo m} {s s' : State m}
  {rq : UserRequest} {i j : Fin m} {now : Int} {fi : FileInfo m} {b : Bullet} {p : Pc}
  {e : Effect m}

theorem processReq_pastSpin (h : processReq cfg rq i now fi b p = some e) :
    (e.pc.beforeCount = true → p.beforeCount = true) ∧
      (e.pc.deleteOnly = true → p.deleteOnly = true ∨ rq.operation = .delete) ∧
      (e.pc.pastSpin = true → p.pastSpin = true ∨ p = .count ∨ fi.timeRequests (slot rq) ≤ 0) := by
  cases p <;> grind [processReq, Pc.beforeCount, Pc.pastSpin, Pc.deleteOnly]

/-- Where the counter of a DELETE is zero, the requests of its second are counted out. -/
theorem Dispatched.beforeCount_of_le (h : Dispatched req bytes s) (htime : 0 ≤ slot (req i))
    (hbytes : ∀ f k, 0 ≤ k → k < 100 → 0 ≤ (bytes f).timeRequests k) (hij : SameSecond req i j)
    (hj : j.val < s.main.counted m)
    (hle : (s.files (fileOf req i)).timeRequests (slot (req i)) ≤ 0) :
    (s.pc j).beforeCount = false := by
  have hlaw := h.law (fileOf req i) _ htime (slot_lt _)
  have hpos := hbytes (fileOf req i) _ htime (slot_lt _)
  have hslot : slot (req j) = slot (req i) := by
    unfold slot
    rw [hij.time]
  by_contra hbefore
  have hone : 1 ≤ pending req (fileOf req i) (slot (req i)) (s.main.counted m) s.pc := by
    refine one_le_tally (i := j) ?_
    unfold pends
    simp [hj, hij.file, hslot, hij.access, Bool.eq_true_of_not_eq_false hbefore]
  omega

theorem Overtakes.step {a : Act m} (h : Overtakes req s) (hd : Dispatched req bytes s)
    (htime : ∀ i, 0 ≤ slot (req i)) (hsorted : Sorted req)
    (hbytes : ∀ f k, 0 ≤ k → k < 100 → 0 ≤ (bytes f).timeRequests k)
    (hs : step cfg req s a = some s') : Overtakes req s' := by
  refine ⟨fun i j hij hpast => ?_, fun i hi => ?_⟩
  · -- no thread goes back before its `atomic_fetch_sub`
    suffices hj : (s.pc j).beforeCount = false by
      rcases hd.step_pc hs j with he | ⟨e, he, hp⟩ | ⟨-, b, hp⟩ | ⟨o, -, hp⟩ | ⟨hp, -⟩
      · rw [he]
        exact hj
      · rw [hp]
        exact Bool.eq_false_iff.mpr fun ht =>
          absurd ((processReq_pastSpin he).1 ht) (Bool.eq_false_iff.mp hj)
      · rw [hp]
        rfl
      · rw [hp]
        rfl
      · rw [hp] at hj
        exact nomatch hj
    have hidle : s.pc i ≠ .idle → j.val < s.main.counted m := by
      intro hne
      have hlt : i.val < s.main.dispatched m :=
        Nat.lt_of_not_le fun hle => hne ((hd.idle i).mpr hle)
      have hji : j.val < i.val := hsorted.lt hij
      exact (hji.trans hlt).trans_le (MainPc.dispatched_le_counted _)
    rcases hd.step_pc hs i with he | ⟨e, he, hp⟩ | ⟨hp, -⟩ | ⟨o, hp, -⟩ | ⟨-, wake, hp⟩
    · rw [he] at hpast
      exact h.counted i j hij hpast
    · rw [hp] at hpast
      rcases (processReq_pastSpin he).2.2 hpast with hpast | hcount | hle
      · exact h.counted i j hij hpast
      · exact absurd hij.delete (hd.branch i hcount)
      · refine hd.beforeCount_of_le (htime i) hbytes hij (hidle ?_) hle
        intro hid
        rw [hid] at he
        exact nomatch he
    · exact h.counted i j hij (by rw [hp]; rfl)
    · exact h.counted i j hij (by rw [hp]; rfl)
    · rw [hp] at hpast
      exact nomatch hpast
  · rcases hd.step_pc hs i with he | ⟨e, he, hp⟩ | ⟨-, b, hp⟩ | ⟨o, -, hp⟩ | ⟨-, wake, hp⟩
    · exact h.branch i (he ▸ hi)
    · rw [hp] at hi
      exact ((processReq_pastSpin he).2.1 hi).elim (h.branch i) id
    all_goals
      rw [hp] at hi
      exact nomatch hi

theorem overtakes_of_reach (htime : ∀ i, 0 ≤ slot (req i)) (hsorted : Sorted req)
    (hbytes : ∀ f k, 0 ≤ k → k < 100 → 0 ≤ (bytes f).timeRequests k)
    (h : Reach (step cfg req) (init cfg bytes) s) : Overtakes req s := by
  have hboth := h.invariant (I := fun t => Dispatched req bytes t ∧ Overtakes req t)
    (fun t a t' ht hs => ⟨ht.1.step hs, ht.2.step ht.1 htime hsorted hbytes hs⟩)
    ⟨dispatched_init cfg req bytes, fun _ _ _ => nofun, fun _ => nofun⟩
  exact hboth.2

end Steps

/-- READs of file 1 and a DELETE of it, all at second 0. -/
def readsThenDelete (n : ℕ) : Fin (n + 1) → UserRequest :=
  fun i => ⟨i.val, 1, if i.val = n then .delete else .read, 0⟩

/-- The READ runs to its end, then the DELETE up to its deadline test. -/
def readThenDeleteActs : List (Act 2) :=
  List.flatten [List.replicate 6 .main, [.tick], List.replicate 9 (.run 0), [.tick, .run 0, .run 0],
    [.signal 0 none, .run 0], List.replicate 7 (.run 1)]

def oneAccess : Config := ⟨1, 1, 1, 1, 1, 10⟩

/-- The first READ is in progress, the second and the DELETE sleep; the end of the first wakes the
DELETE. -/
def overtakeActs : List (Act 3) :=
  List.flatten [List.replicate 9 .main, [.tick], List.replicate 9 (.run 0),
    List.replicate 5 (.run 1), List.replicate 6 (.run 2), [.tick, .run 0, .run 0],
    [.signal 0 (some 2), .run 0], List.replicate 3 (.run 2)]

end LazyXv6.FileManager
