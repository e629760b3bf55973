import LazyXv6.Kernel.Invariant

/-!
# `waitx` (`proc.c`, `sysproc.c`)

`waitx` frees a zombie child and returns its times in two variables of `sys_waitx`, which copies
them out whatever `waitx` has returned. So the child may be gone when a time cannot be copied, and
the variables may never have been set.

`waitx` scans the table of processes again whenever it is woken. The tables that its scans find are
given as a list; what happens between two scans is any change of the table.
-/

namespace LazyXv6.Kernel

open Lib Lib.SmallFin Lib.Shares Function

/-- The bytes of an `int` or a `uint`, lowest first. -/
def le32 (n : UInt32) : List UInt8 := (List.range 4).map fun i => UInt8.ofNat (n.toNat / 256 ^ i)

@[simp] theorem length_le32 (n : UInt32) : (le32 n).length = 4 := by simp [le32]

/-- The fields of `struct proc` that `waitx` reads, besides those in the state of the kernel. -/
structure Proc (N : ℕ) where
  parent : Option (Fin N)
  pid : ℕ
  xstate : UInt32
  killed : Bool
  ctime : UInt32
  etime : UInt32
  rtime : UInt32

variable {N : ℕ}

def Proc.wtime (pr : Proc N) : UInt32 := pr.etime - pr.ctime - pr.rtime

structure ProcTable (N : ℕ) where
  kernel : State N
  proc : Fin N → Proc N

/-- What `waitx` returns, with `*wtime` and `*rtime`. -/
structure Waited (N : ℕ) where
  table : ProcTable N
  ret : ℤ
  wtime : UInt32
  rtime : UInt32

namespace ProcTable

def zombieChild (t : ProcTable N) (me q : Fin N) : Bool :=
  decide ((t.proc q).parent = some me) && (t.kernel.space q).any fun sp => sp.zombie

def scan (t : ProcTable N) (me : Fin N) : Option (Fin N) :=
  (List.finRange N).find? (t.zombieChild me)

def havekids (t : ProcTable N) (me : Fin N) : Bool :=
  (List.finRange N).any fun q => decide ((t.proc q).parent = some me)

variable [Layout]

def copyout (t : ProcTable N) (me : Fin N) (addr : ℕ) (src : List UInt8) :
    Except Panic (ProcTable N × Bool) :=
  match t.kernel.space me with
  | none => .ok (t, false)
  | some sp => do
    let r ← Kernel.copyout t.kernel.kmem sp.pagetable addr src
    .ok ({ t with kernel := t.kernel.put me r.1 (some { sp with pagetable := r.2.1 }) }, r.2.2)

def freeproc (t : ProcTable N) (q : Fin N) : Except Panic (ProcTable N) :=
  match t.kernel.space q with
  | none => .ok t
  | some sp => do
    let r ← t.kernel.free q sp
    .ok ⟨r.1, update t.proc q { t.proc q with parent := none, pid := 0, xstate := 0, killed := false }⟩

/-- The status of the child is copied out if the caller has asked for it. -/
def copyStatus (t : ProcTable N) (me q : Fin N) (addr : ℕ) : Except Panic (ProcTable N × Bool) :=
  if addr = 0 then .ok (t, true) else t.copyout me addr (le32 (t.proc q).xstate)

/-- `waitx` on the tables that its scans find; `none` if it sleeps after the last one. `wtime` and
`rtime` are what `sys_waitx` has in its variables. -/
def waitx (me : Fin N) (addr : ℕ) (wtime rtime : UInt32) :
    List (ProcTable N) → Except Panic (Option (Waited N))
  | [] => .ok none
  | t :: ts =>
    match t.scan me with
    | some q => do
      let r ← t.copyStatus me q addr
      if r.2 then do
        let t' ← r.1.freeproc q
        .ok (some ⟨t', (t.proc q).pid, (t.proc q).wtime, (t.proc q).rtime⟩)
      else .ok (some ⟨r.1, -1, (t.proc q).wtime, (t.proc q).rtime⟩)
    | none =>
      if !t.havekids me || (t.proc me).killed then .ok (some ⟨t, -1, wtime, rtime⟩)
      else waitx me addr wtime rtime ts

def copyTimes (w : Waited N) (me : Fin N) (addr1 addr2 : ℕ) : Except Panic (ProcTable N × ℤ) := do
  let r ← w.table.copyout me addr1 (le32 w.wtime)
  if r.2 then do
    let r ← r.1.copyout me addr2 (le32 w.rtime)
    .ok (r.1, if r.2 then w.ret else -1)
  else .ok (r.1, -1)

/-- `sys_waitx`, with any values in its variables `wtime` and `rtime`. -/
def sysWaitx (ts : List (ProcTable N)) (me : Fin N) (addr addr1 addr2 : ℕ) (wtime rtime : UInt32) :
    Except Panic (Option (ProcTable N × ℤ)) := do
  match ← waitx me addr wtime rtime ts with
  | none => .ok none
  | some w => (copyTimes w me addr1 addr2).map some

/-- The scan of the table ends the loop of `waitx`. -/
def returns (me : Fin N) (t : ProcTable N) : Bool :=
  (t.scan me).isSome || !t.havekids me || (t.proc me).killed

/-- The byte at `va` is one that the child's status or times have there. -/
def FromChild (t : ProcTable N) (q : Fin N) (addr addr1 addr2 va : ℕ) (b : UInt8) : Prop :=
  (addr1 ≤ va ∧ (le32 (t.proc q).wtime)[va - addr1]? = some b) ∨
  (addr2 ≤ va ∧ (le32 (t.proc q).rtime)[va - addr2]? = some b) ∨
  (addr ≠ 0 ∧ addr ≤ va ∧ (le32 (t.proc q).xstate)[va - addr]? = some b)

/-- What a call that returns -1 leaves: every zombie child, and at the addresses of the times the
bytes that were there or those of a zombie child. -/
structure FailsCleanly (t : ProcTable N) (me : Fin N) (addr addr1 addr2 : ℕ) (t' : ProcTable N) :
    Prop where
  children : ∀ q, t.zombieChild me q = true → t'.kernel.space q = t.kernel.space q ∧
    t'.proc q = t.proc q
  bytes : ∀ sp sp', t.kernel.space me = some sp → t'.kernel.space me = some sp' →
    ∀ va, va / pgSize < pagesOf sp.sz → (addr1 ≤ va ∧ va < addr1 + 4) ∨
      (addr2 ≤ va ∧ va < addr2 + 4) →
      userBytes t'.kernel.kmem sp'.pagetable va = userBytes t.kernel.kmem sp.pagetable va ∨
      ∃ q, t.zombieChild me q = true ∧
      t.FromChild q addr addr1 addr2 va (userBytes t'.kernel.kmem sp'.pagetable va)

/-! ## The calls of `copyout` -/

/-- `src` has been copied to `a` in the memory of `me`, and nothing else has happened. -/
structure Copied (t : ProcTable N) (me : Fin N) (sp : Space) (a : ℕ) (src : List UInt8)
    (t' : ProcTable N) (sp' : Space) : Prop where
  inv : t'.kernel.Inv
  space : t'.kernel.space me = some sp'
  sz : sp'.sz = sp.sz
  user : ∀ v, (sp'.pagetable.pte v).u = (sp.pagetable.pte v).u
  others : ∀ q, q ≠ me → t'.kernel.space q = t.kernel.space q
  proc : t'.proc = t.proc
  bytes : ∀ va, va / pgSize < pagesOf sp.sz →
    userBytes t'.kernel.kmem sp'.pagetable va =
    overwrite (userBytes t.kernel.kmem sp.pagetable) a src va

section

variable {t t' : ProcTable N} {me q : Fin N} {sp sp' : Space} {a addr addr1 addr2 va j : ℕ}
    {src : List UInt8}

theorem Copied.of_delivered {k' : Kmem} {pt' : PageTable} (h : t.kernel.Inv)
    (hd : Delivered (t.kernel.others {me} + ({sp.trapframe}, 0)) sp.trapframe t.kernel.kmem
      sp.pagetable (pagesOf sp.sz) a src k' pt') :
    Copied t me sp a src { t with kernel := t.kernel.put me k' (some { sp with pagetable := pt' }) }
      { sp with pagetable := pt' } where
  inv := by
    have hok : SpaceOk (t.kernel.others {me}) k' k' { sp with pagetable := pt' } :=
      ⟨Framed.refl (acct_congr hd.userMem.framed.acct (add_assoc ..)), hd.userMem.wf⟩
    exact h.put hok
  space := State.space_put
  sz := rfl
  user := hd.user
  others q hq := State.space_put_of_ne hq
  proc := rfl
  bytes := hd.bytes

theorem Copied.refl (h : t.kernel.Inv) (hsp : t.kernel.space me = some sp) (a : ℕ) :
    Copied t me sp a [] t sp :=
  ⟨h, hsp, rfl, fun _ => rfl, fun _ _ => rfl, rfl, fun va _ => by rw [overwrite_nil]⟩

/-- User code may use the pages of the four bytes at `a`. -/
def Reaches (sp : Space) (a : ℕ) : Prop :=
  (a / pgSize < pagesOf sp.sz ∧ (sp.pagetable.pte (a / pgSize)).u = true) ∧
    ((a + 3) / pgSize < pagesOf sp.sz ∧ (sp.pagetable.pte ((a + 3) / pgSize)).u = true)

theorem Copied.reaches {b : ℕ} (h : Copied t me sp a src t' sp') :
    Reaches sp' b ↔ Reaches sp b := by
  unfold Reaches
  rw [h.sz, h.user, h.user]

theorem copyout_copied (h : t.kernel.Inv) (hsp : t.kernel.space me = some sp) (a : ℕ)
    (hsrc : src.length = 4) : ∃ t' sp' ok j, t.copyout me a src = .ok (t', ok) ∧
      Copied t me sp a (src.take j) t' sp' ∧
      (0 < j ↔ Opens t.kernel.kmem sp.pagetable (pagesOf sp.sz) a) ∧ (ok = true → j = 4) ∧
      (ok = true ↔ Reaches sp a ∧ Room t.kernel.kmem sp.pagetable a (a + 3)) ∧
      (ok = true → t.kernel.kmem.freelist.length ≤ t'.kernel.kmem.freelist.length + 2) := by
  have hum := (h.space hsp).userMem
  obtain ⟨k', pt', ok, j, he, hd, hopen, hdone, -⟩ := copyout_spec hum a src
  have hopen := hopen (by rintro rfl; simp at hsrc)
  refine ⟨_, _, ok, j, ?_, .of_delivered h hd, hopen, fun hok => (hdone hok).trans hsrc, ?_⟩
  · unfold copyout
    rw [hsp]
    simp only [he, ok_bind]
  by_cases hr : Reaches sp a
  · rcases copyout_four hum hsrc hr.1 hr.2 with ⟨hroom, k₁, pt₁, he', hlen⟩ | ⟨hroom, k₁, pt₁, he'⟩
    all_goals
      rw [he'] at he
      cases he
    · exact ⟨iff_of_true rfl ⟨hr, hroom⟩, fun _ => hlen⟩
    · exact ⟨iff_of_false (by simp) fun hn => hroom hn.2, by simp⟩
  · have hnot : ok ≠ true := fun hok => hr (by
      have hpages := hd.pages
      rw [hdone hok, List.take_length, hsrc] at hpages
      exact ⟨hpages a le_rfl (by omega), hpages (a + 3) (by omega) (by omega)⟩)
    exact ⟨iff_of_false hnot fun hn => hr hn.1, fun hok => absurd hok hnot⟩

/-- The child's status, or nothing if the caller does not ask for it. -/
def status (t : ProcTable N) (q : Fin N) (addr : ℕ) : List UInt8 :=
  if addr = 0 then [] else le32 (t.proc q).xstate

theorem copyStatus_copied (h : t.kernel.Inv) (hsp : t.kernel.space me = some sp) (q : Fin N)
    (addr : ℕ) : ∃ t' sp' ok j, t.copyStatus me q addr = .ok (t', ok) ∧
      Copied t me sp addr ((t.status q addr).take j) t' sp' ∧
      (ok = true ↔ addr = 0 ∨ (Reaches sp addr ∧ Room t.kernel.kmem sp.pagetable addr (addr + 3))) := by
  unfold copyStatus status
  by_cases haddr : addr = 0
  · rw [if_pos haddr, if_pos haddr]
    exact ⟨t, sp, true, 0, rfl, .refl h hsp addr, iff_of_true rfl (.inl haddr)⟩
  · rw [if_neg haddr, if_neg haddr]
    obtain ⟨t', sp', ok, j, he, hc, -, -, hok, -⟩ :=
      copyout_copied h hsp addr (length_le32 (t.proc q).xstate)
    exact ⟨t', sp', ok, j, he, hc, by simp [hok, haddr]⟩

/-- Parts of the times have been copied out. -/
structure CopiedTimes (w : Waited N) (me : Fin N) (sp : Space) (addr1 addr2 : ℕ) (t' : ProcTable N)
    (sp' : Space) (j₁ j₂ : ℕ) : Prop where
  space : t'.kernel.space me = some sp'
  others : ∀ q, q ≠ me → t'.kernel.space q = w.table.kernel.space q
  proc : t'.proc = w.table.proc
  bytes : ∀ va, va / pgSize < pagesOf sp.sz → userBytes t'.kernel.kmem sp'.pagetable va =
    overwrite (overwrite (userBytes w.table.kernel.kmem sp.pagetable) addr1
      ((le32 w.wtime).take j₁)) addr2 ((le32 w.rtime).take j₂) va

/-- With four free pages, both times are taken if user code may use their pages. -/
theorem copyTimes_copied {w : Waited N} (h : w.table.kernel.Inv)
    (hsp : w.table.kernel.space me = some sp) (addr1 addr2 : ℕ) :
    ∃ t' sp' ok j₁ j₂, copyTimes w me addr1 addr2 = .ok (t', if ok then w.ret else -1) ∧
      CopiedTimes w me sp addr1 addr2 t' sp' j₁ j₂ ∧
      (0 < j₁ ↔ Opens w.table.kernel.kmem sp.pagetable (pagesOf sp.sz) addr1) ∧ (j₁ = 0 → j₂ = 0) ∧
      (4 ≤ w.table.kernel.kmem.freelist.length →
      (ok = true ↔ Reaches sp addr1 ∧ Reaches sp addr2)) := by
  obtain ⟨t₁, sp₁, ok₁, j₁, he₁, h₁, hopen, hdone, hok₁, hlen₁⟩ :=
    copyout_copied h hsp addr1 (length_le32 w.wtime)
  have hroom : ∀ {k : Kmem} {pt : PageTable} {a : ℕ}, 2 ≤ k.freelist.length → Room k pt a (a + 3) :=
    fun h2 => ⟨fun _ => by omega, fun _ _ => (Pte.copyCost_le _ _).trans_lt (by omega)⟩
  unfold copyTimes
  rw [he₁, ok_bind]
  cases ok₁ with
  | false =>
    refine ⟨t₁, sp₁, false, j₁, 0, rfl, ⟨h₁.space, h₁.others, h₁.proc, fun va hv => ?_⟩, hopen,
      fun _ => rfl, fun hfree => iff_of_false (by simp) fun hr => ?_⟩
    · rw [List.take_zero, overwrite_nil]
      exact h₁.bytes va hv
    · exact absurd (hok₁.mpr ⟨hr.1, hroom (by omega)⟩) (by simp)
  | true =>
    obtain ⟨t₂, sp₂, ok₂, j₂, he₂, h₂, -, -, hok₂, -⟩ :=
      copyout_copied h₁.inv h₁.space addr2 (length_le32 w.rtime)
    simp only [if_true, he₂, ok_bind]
    have hlen₁ := hlen₁ rfl
    refine ⟨t₂, sp₂, ok₂, j₁, j₂, rfl,
      ⟨h₂.space, fun q hq => ?_, h₂.proc.trans h₁.proc, fun va hv => ?_⟩, hopen,
      fun hj => ?_, fun hfree => ?_⟩
    · rw [h₂.others q hq, h₁.others q hq]
    · rw [h₂.bytes va (h₁.sz ▸ hv)]
      exact overwrite_congr (h₁.bytes va hv)
    · exact absurd (hdone rfl) (by omega)
    · rw [hok₂, h₁.reaches, and_iff_left (hroom (by omega)), and_iff_right (hok₁.mp rfl).1]

theorem freeproc_spec (h : t.kernel.Inv) (hq : t.kernel.space q = some sp) :
    ∃ t', t.freeproc q = .ok t' ∧ t'.kernel.Inv ∧ t'.kernel.space q = none ∧
      (∀ p, p ≠ q → t'.kernel.space p = t.kernel.space p) ∧ 4 ≤ t'.kernel.kmem.freelist.length := by
  obtain ⟨k', he, hf⟩ := Kernel.freeproc_ok (h.space hq)
  unfold freeproc State.free
  rw [hq]
  simp only [he, ok_bind]
  exact ⟨_, rfl, h.put_none hf, State.space_put, fun p hp => State.space_put_of_ne hp,
    (h.space hq).four_freed (acct_congr hf.acct (add_zero _))⟩

/-! ## Failing cleanly -/

omit [Layout] in
theorem scan_some (h : t.scan me = some q) : t.zombieChild me q = true := List.find?_some h

omit [Layout] in
theorem scan_none (h : t.scan me = none) (q : Fin N) : t.zombieChild me q = false :=
  Bool.eq_false_iff.mpr (List.find?_eq_none.mp h q (List.mem_finRange q))

omit [Layout] in
theorem zombieChild_spec (hme : t.kernel.running me = some sp) (h : t.zombieChild me q = true) :
    q ≠ me ∧ ∃ sq, t.kernel.space q = some sq := by
  obtain ⟨-, hz⟩ := Bool.and_eq_true_iff.mp h
  obtain ⟨sq, hsq, hz⟩ := (Option.any_eq_true ..).mp hz
  refine ⟨?_, sq, hsq⟩
  rintro rfl
  unfold State.running at hme
  rw [hsq] at hme
  simp [hz] at hme

/-- What makes a failing call leave everything, in the table that the last scan finds. With a zombie
child: its status cannot be copied out, or user code may use the pages of both times. Without one:
not a byte can be written to `addr1`. -/
structure Deliverable (t : ProcTable N) (me : Fin N) (sp : Space) (addr addr1 addr2 : ℕ) :
    Prop where
  zombie : (∃ q, t.zombieChild me q = true) →
    (addr ≠ 0 ∧ ¬(Reaches sp addr ∧ Room t.kernel.kmem sp.pagetable addr (addr + 3))) ∨
      (Reaches sp addr1 ∧ Reaches sp addr2)
  noZombie : (∀ q, t.zombieChild me q = false) →
    ¬Opens t.kernel.kmem sp.pagetable (pagesOf sp.sz) addr1

theorem CopiedTimes.failsCleanly {t₁ : ProcTable N} {sp₁ : Space} {j₀ j₁ j₂ : ℕ} {ret : ℤ}
    (hme : t.kernel.running me = some sp) (hq : t.zombieChild me q = true)
    (h₁ : Copied t me sp addr ((t.status q addr).take j₀) t₁ sp₁)
    (h₂ : CopiedTimes ⟨t₁, ret, (t.proc q).wtime, (t.proc q).rtime⟩ me sp₁ addr1 addr2 t'
      sp' j₁ j₂) : t.FailsCleanly me addr addr1 addr2 t' where
  children r hr := by
    have hne := (zombieChild_spec hme hr).1
    exact ⟨(h₂.others r hne).trans (h₁.others r hne), congrFun (h₂.proc.trans h₁.proc) r⟩
  bytes s₀ s' hs₀ hs' va hv _ := by
    obtain rfl : sp = s₀ := Option.some.inj ((State.running_spec hme).symm.trans hs₀)
    obtain rfl : sp' = s' := Option.some.inj (h₂.space.symm.trans hs')
    rw [h₂.bytes va (h₁.sz ▸ hv)]
    rcases overwrite_take_cases (overwrite (userBytes t₁.kernel.kmem sp₁.pagetable) addr1
      ((le32 (t.proc q).wtime).take j₁)) addr2 (le32 (t.proc q).rtime) j₂ va with he | hr
    swap
    · exact .inr ⟨q, hq, .inr (.inl hr)⟩
    rw [he]
    rcases overwrite_take_cases (userBytes t₁.kernel.kmem sp₁.pagetable) addr1
      (le32 (t.proc q).wtime) j₁ va with
      he | hw
    swap
    · exact .inr ⟨q, hq, .inl hw⟩
    rw [he, h₁.bytes va hv]
    refine (overwrite_take_cases _ addr (t.status q addr) j₀ va).imp_right fun ⟨hle, hx⟩ => ?_
    refine ⟨q, hq, .inr (.inr ?_)⟩
    unfold status at hx ⊢
    by_cases haddr : addr = 0
    · rw [if_pos haddr] at hx
      exact nomatch hx
    · rw [if_neg haddr] at hx ⊢
      exact ⟨haddr, hle, hx⟩

omit [Layout] in
theorem CopiedTimes.unchanged {w : Waited N} (hme : t.kernel.running me = some sp)
    (hw : w.table = t) (h : CopiedTimes w me sp addr1 addr2 t' sp' 0 0) :
    t.FailsCleanly me addr addr1 addr2 t' where
  children r hr := by
    subst hw
    exact ⟨h.others r (zombieChild_spec hme hr).1, congrFun h.proc r⟩
  bytes s₀ s' hs₀ hs' va hv _ := by
    subst hw
    obtain rfl : sp = s₀ := Option.some.inj ((State.running_spec hme).symm.trans hs₀)
    obtain rfl : sp' = s' := Option.some.inj (h.space.symm.trans hs')
    left
    rw [h.bytes va hv, List.take_zero, List.take_zero, overwrite_nil, overwrite_nil]

def fill (d : UInt8) : UInt32 := UInt32.ofNat (d.toNat * 0x01010101)

omit [Layout] in
theorem le32_fill (d : UInt8) : le32 (fill d) = List.replicate 4 d := by
  have hd := d.toNat_lt
  have hnat : (fill d).toNat = d.toNat * 0x01010101 := by
    unfold fill
    rw [UInt32.toNat_ofNat', Nat.mod_eq_of_lt (by omega)]
  unfold le32
  rw [hnat]
  refine List.ext_getElem (by simp) fun i h₁ h₂ => ?_
  rw [List.getElem_map, List.getElem_range, List.getElem_replicate, ← UInt8.toNat_inj,
    UInt8.toNat_ofNat']
  simp only [List.length_map, List.length_range] at h₁
  -- the digits of the number, one after the other
  have hdiv : ∀ x, (d.toNat + 256 * x) / 256 = x := fun x => by omega
  have hmod : ∀ x, (d.toNat + 256 * x) % 2 ^ 8 = d.toNat := fun x => by omega
  rw [show d.toNat * 0x01010101 =
    d.toNat + 256 * (d.toNat + 256 * (d.toNat + 256 * (d.toNat + 256 * 0))) by omega]
  obtain rfl | rfl | rfl | rfl : i = 0 ∨ i = 1 ∨ i = 2 ∨ i = 3 := by omega
  all_goals
    simp only [pow_succ 256, pow_zero, one_mul, ← Nat.div_div_eq_div_mul, Nat.div_one, hdiv]
    exact hmod _

omit [Layout] in
theorem CopiedTimes.garbage {w : Waited N} {d : UInt8} {j₁ j₂ : ℕ} (hw : w.wtime = fill d)
    (hr : w.rtime = fill d) (h : CopiedTimes w me sp addr1 addr2 t' sp' j₁ j₂) (hj : 0 < j₁)
    (hv : addr1 / pgSize < pagesOf sp.sz) : userBytes t'.kernel.kmem sp'.pagetable addr1 = d := by
  rw [h.bytes addr1 hv, hw, hr, le32_fill]
  rcases overwrite_take_cases (overwrite (userBytes w.table.kernel.kmem sp.pagetable) addr1
    ((List.replicate 4 d).take j₁)) addr2 (List.replicate 4 d) j₂ addr1 with he | ⟨-, hx⟩
  · rw [he]
    obtain ⟨i, rfl⟩ : ∃ i, j₁ = i + 1 := ⟨j₁ - 1, by omega⟩
    simp [overwrite, List.replicate_succ]
  · rw [List.getElem?_replicate] at hx
    split at hx
    · exact (Option.some.inj hx).symm
    · cases hx

theorem waitx_of_find {ts : List (ProcTable N)} (h : ts.find? (returns me) = some t) (addr : ℕ)
    (wtime rtime : UInt32) : waitx me addr wtime rtime ts = waitx me addr wtime rtime [t] := by
  induction ts with
  | nil => exact absurd h (by simp)
  | cons t₀ ts ih =>
    rw [List.find?_cons] at h
    cases hr : returns me t₀ with
    | true =>
      rw [hr] at h
      cases h
      unfold returns at hr
      unfold waitx
      cases hscan : t.scan me with
      | some q => rfl
      | none => simp_all
    | false =>
      rw [hr] at h
      rw [← ih h]
      unfold returns at hr
      rw [waitx]
      cases hscan : t₀.scan me with
      | some q => simp [hscan] at hr
      | none => simp_all

theorem sysWaitx_of_waitx {wtime rtime : UInt32} {ts : List (ProcTable N)} {w : Waited N}
    {r : ProcTable N × ℤ} (hw : waitx me addr wtime rtime ts = .ok (some w))
    (hr : copyTimes w me addr1 addr2 = .ok r) :
    sysWaitx ts me addr addr1 addr2 wtime rtime = .ok (some r) := by
  unfold sysWaitx
  rw [hw, ok_bind]
  simp only [hr]
  rfl

end

/-- Process 1 is a child of process 0, or process 0 has no children. -/
def smallTable (child : Bool) (s : State 2) : ProcTable 2 where
  kernel := s
  proc q := if q = 1 ∧ child then ⟨some 0, 2, 7, false, 1, 9, 3⟩ else ⟨none, 1, 0, false, 0, 0, 0⟩

/-- The first process has forked, and the child has exited. -/
def oneZombie : List (Op 2) := [.userinit [0x73], .user (.fork 0), .user (.exit 1)]

end ProcTable

end LazyXv6.Kernel
