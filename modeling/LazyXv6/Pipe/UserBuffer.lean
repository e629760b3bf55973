import LazyXv6.Pipe.Fifo
import LazyXv6.Kernel.Invariant

/-!
# `piperead` into the user's buffer

The second loop of `piperead` with the kernel's own `copyout`, from the page table and the memory
that it finds. It holds `pi->lock`, so each turn is one of the model's steps (`pipereadLoop_reach`).

`nread` is advanced before `copyout` is called. A byte whose `copyout` fails is gone.
-/

namespace LazyXv6.Pipe

open Lib Lib.Shares Function

open Kernel (Kmem PageTable Panic Layout Delivered UserMem copyout copyout_byte copyout_cons)

/-! ## The bytes in the ring -/

namespace Queue

variable {q : Queue}

theorem ring_empty (h : q.nread = q.nwrite) : q.ring = [] := by
  unfold ring
  rw [h, UInt32.sub_self]
  rfl

theorem ring_take (h : q.nread ≠ q.nwrite) (copyout : Bool) :
    q.ring = q.data (q.nread.toNat % pipeSize) :: (q.take copyout).ring := by
  have hlen : (q.nwrite - q.nread).toNat = (q.nwrite - (q.nread + 1)).toNat + 1 := by
    have hne : q.nread.toNat ≠ q.nwrite.toNat := fun he => h (UInt32.toNat_inj.mp he)
    have h1 := q.nread.toNat_lt
    have h2 := q.nwrite.toNat_lt
    simp only [UInt32.toNat_sub, UInt32.toNat_add, UInt32.toNat_one]
    omega
  show (List.range (q.nwrite - q.nread).toNat).map _ =
    _ :: (List.range (q.nwrite - (q.nread + 1)).toNat).map _
  rw [hlen, List.range_succ_eq_map, List.map_cons, List.map_map]
  refine congrArg₂ List.cons (by simp) (List.map_congr_left fun j _ => ?_)
  have hj : q.nread + UInt32.ofNat (j + 1) = q.nread + 1 + UInt32.ofNat j := by
    rw [← counter_succ, UInt32.add_assoc, UInt32.add_comm 1]
  simp only [comp_apply, Nat.succ_eq_add_one, take]
  rw [hj]

theorem length_ring (q : Queue) : q.ring.length = (q.nwrite - q.nread).toNat := by simp [ring]

end Queue

/-! ## The call -/

variable [Layout] {N : ℕ}

def pipereadLoop (p : Fin N) (addr : ℕ) (n : ℤ) :
    ℕ → ℕ → State N → Kmem → PageTable → Except Panic (State N × Kmem × PageTable)
  | 0, _, s, k, pt => .ok (s, k, pt)
  | fuel + 1, i, s, k, pt =>
    if (i : ℤ) < n ∧ s.nread ≠ s.nwrite then do
      let r ← copyout k pt ((addr + i) % 2 ^ 64) [s.data (s.nread.toNat % pipeSize)]
      let s := s.pipereadCopy p n i ⟨none, r.2.2⟩
      if r.2.2 then pipereadLoop p addr n fuel (i + 1) s r.1 r.2.1 else .ok (s, r.1, r.2.1)
    else .ok (s.pipereadCopy p n i ⟨none, true⟩, k, pt)

/-- `piperead`, from where it has the lock to where it wakes the writers, returns or is about to
sleep. -/
def pipereadCall (p : Fin N) (addr : ℕ) (n : ℤ) (s : State N) (k : Kmem) (pt : PageTable) :
    Except Panic (State N × Kmem × PageTable) :=
  if (s.piperead p n).pc p =
    .readCopy n 0 then pipereadLoop p addr n (n.toNat + 1) 0 (s.piperead p n) k pt
  else .ok (s.piperead p n, k, pt)

section

variable {s s' : State N} {p : Fin N} {addr i fuel np tf : ℕ} {n : ℤ} {k k' : Kmem}
    {pt pt' : PageTable}
  {o : Shares ℕ}

omit [Layout] in
theorem pipereadCopy_queue (hi : (i : ℤ) < n) (hne : s.nread ≠ s.nwrite) (io : Io) :
    (s.pipereadCopy p n i io).queue = s.queue.take io.copyout := by
  unfold State.pipereadCopy
  rw [if_pos hi, if_neg hne]
  cases hc : io.copyout <;> simp [State.queue, Queue.take, State.setPc, State.wakeup]

omit [Layout] in
theorem pipereadCopy_end (h : ¬((i : ℤ) < n ∧ s.nread ≠ s.nwrite)) (io : Io) :
    (s.pipereadCopy p n i io).queue = s.queue := by
  unfold State.pipereadCopy
  by_cases hi : (i : ℤ) < n
  · rw [if_pos hi, if_pos (not_not.mp fun hne => h ⟨hi, hne⟩)]
    rfl
  · rw [if_neg hi]
    rfl

/-- The loop is a run of the model. -/
theorem pipereadLoop_reach (hpc : s.pc p = .readCopy n i)
    (h : pipereadLoop p addr n fuel i s k pt = .ok (s', k', pt')) : Reach next s s' := by
  induction fuel generalizing i s k pt with
  | zero =>
    cases h
    exact .refl _
  | succ fuel ih =>
    have hgo : ∀ io, next s (.go p io) = some (s.pipereadCopy p n i io) := fun io => by
      show s.go p io = _
      unfold State.go
      rw [hpc]
    rw [pipereadLoop] at h
    split at h
    · rename_i hmore
      obtain ⟨r, -, h⟩ := Kernel.exists_of_bind_eq_ok h
      have hstep := (Reach.refl s).step (hgo ⟨none, r.2.2⟩)
      split at h
      · rename_i hok
        refine hstep.trans (ih ?_ h)
        unfold State.pipereadCopy
        rw [if_pos hmore.1, if_neg hmore.2, hok]
        exact update_self ..
      · cases h
        exact hstep
    · cases h
      exact (Reach.refl s).step (hgo _)

/-- What a call has done: `stored` has been copied to the buffer, `removed` has left the ring.
`buffer` says that the buffer takes all the bytes that are to be read. -/
structure Outcome (o : Shares ℕ) (tf np addr : ℕ) (s : State N) (k : Kmem) (pt : PageTable)
    (s' : State N) (k' : Kmem) (pt' : PageTable) (stored removed : List UInt8) (buffer : Prop) :
    Prop where
  delivered : s'.delivered = s.delivered ++ stored
  copied : Delivered o tf k pt np addr stored k' pt'
  nwrite : s'.nwrite = s.nwrite
  ring : s.queue.ring = removed ++ s'.queue.ring
  /-- A byte that cannot be stored is removed all the same. -/
  lost : (removed = stored ∧ buffer) ∨ (∃ c, removed = stored ++ [c] ∧ ¬buffer)

theorem pipereadLoop_spec (h : UserMem o tf k k pt np) (hfuel : (n - i).toNat < fuel)
    (haddr : addr + i < 2 ^ 64) : ∃ s' k' pt' stored removed, pipereadLoop p addr n fuel i s k pt =
      .ok (s', k', pt') ∧ Outcome o tf np (addr + i) s k pt s' k' pt' stored removed
        (∃ k1 pt1, copyout k pt (addr + i) (s.queue.ring.take (n - i).toNat) =
        .ok (k1, pt1, true)) := by
  induction fuel generalizing i s k pt with
  | zero => exact absurd hfuel (Nat.not_lt_zero _)
  | succ fuel ih =>
    rw [pipereadLoop]
    by_cases hmore : (i : ℤ) < n ∧ s.nread ≠ s.nwrite
    swap
    · -- nothing is left to read
      rw [if_neg hmore]
      have hq := pipereadCopy_end (p := p) hmore ⟨none, true⟩
      have hnil : s.queue.ring.take (n - i).toNat = [] := by
        by_cases hi : (i : ℤ) < n
        · rw [Queue.ring_empty (not_not.mp fun hne => hmore ⟨hi, hne⟩), List.take_nil]
        · rw [show (n - i).toNat = 0 by omega, List.take_zero]
      refine ⟨_, k, pt, [], [], rfl, ?_, .nil h rfl, congrArg Queue.nwrite hq, by rw [hq]; rfl,
        .inl ⟨rfl, ?_⟩⟩
      · rw [List.append_nil]
        exact congrArg Queue.delivered hq
      · rw [hnil]
        exact ⟨k, pt, rfl⟩
    have hring := Queue.ring_take (q := s.queue) hmore.2
    have hlen : (n - i).toNat = (n - (i + 1 : ℕ)).toNat + 1 := by omega
    rw [if_pos hmore, Nat.mod_eq_of_lt haddr]
    rcases copyout_byte h (addr + i) (s.data (s.nread.toNat % pipeSize)) with
      ⟨-, k1, pt1, he, hbyte⟩ | ⟨-, k1, he, h1, him, -⟩
    · have hq := pipereadCopy_queue (p := p) hmore.1 hmore.2 ⟨none, true⟩
      have hlow : addr + (i + 1) < 2 ^ 64 := by
        have hv := (hbyte.pages (addr + i) le_rfl (by simp)).1
        have hb := h.bound
        unfold Kernel.pgSize at hv
        omega
      obtain ⟨s', k', pt', stored, removed, he', hout⟩ := ih (s := s.pipereadCopy p n i ⟨none, true⟩)
        hbyte.userMem (by omega) hlow
      refine ⟨s', k', pt', s.data (s.nread.toNat % pipeSize) :: stored,
        s.data (s.nread.toNat % pipeSize) :: removed, ?_, ?_, hbyte.cons hout.copied, ?_, ?_, ?_⟩
      · rw [he]
        exact he'
      · rw [hout.delivered, show State.delivered _ = _ from congrArg Queue.delivered hq]
        exact List.append_assoc ..
      · exact hout.nwrite.trans (congrArg Queue.nwrite hq)
      · rw [hring true, ← hq, hout.ring]
        rfl
      · have hcons : copyout k pt (addr + i) (s.queue.ring.take (n - i).toNat) =
          copyout k1 pt1 (addr + (i + 1))
              ((s.pipereadCopy p n i ⟨none, true⟩).queue.ring.take (n - (i + 1 : ℕ)).toNat) := by
          rw [hring true, ← hq, hlen, List.take_succ_cons, copyout_cons h]
          exact congrArg (fun r => r >>= _) he
        rw [hcons]
        refine hout.lost.imp (fun ⟨hr, hok⟩ => ⟨by rw [hr], hok⟩) fun ⟨c, hr, hok⟩ =>
          ⟨c, by rw [hr]; rfl, hok⟩
    · have hq := pipereadCopy_queue (p := p) hmore.1 hmore.2 ⟨none, false⟩
      refine ⟨_, k1, pt, [], [s.data (s.nread.toNat % pipeSize)], ?_, ?_, .nil h1 him,
        congrArg Queue.nwrite hq, ?_, .inr ⟨_, rfl, ?_⟩⟩
      · rw [he]
        rfl
      · rw [List.append_nil]
        exact congrArg Queue.delivered hq
      · rw [hring false, ← hq]
        rfl
      · rintro ⟨k2, pt2, hok⟩
        rw [hring true, hlen, List.take_succ_cons, copyout_cons h] at hok
        have hfail : (do
            let r ← copyout k pt (addr + i) [s.data (s.nread.toNat % pipeSize)]
            if r.2.2 then copyout r.1 r.2.1 (addr + i + 1) _ else .ok r) = .ok (k2, pt2, true) := hok
        rw [he] at hfail
        simp at hfail

omit [Layout] in
theorem piperead_cases (s : State N) (p : Fin N) (n : ℤ) : (s.piperead p n).queue = s.queue ∧
      ((s.piperead p n).pc p = .readCopy n 0 ∨ (s.piperead p n).pc p ≠ .readCopy n 0 ∧
      s.nread = s.nwrite) := by
  unfold State.piperead
  split
  · rename_i hblocked
    split
    · exact ⟨rfl, .inr ⟨by simp [State.setPc], hblocked.1⟩⟩
    · exact ⟨rfl, .inr ⟨by simp [State.setPc], hblocked.1⟩⟩
  · exact ⟨rfl, .inl (update_self ..)⟩

theorem pipereadCall_spec (h : UserMem o tf k k pt np) (haddr : addr < 2 ^ 64) :
    ∃ s' k' pt' stored removed, pipereadCall p addr n s k pt = .ok (s', k', pt') ∧
      Outcome o tf np addr s k pt s' k' pt' stored removed
        (∃ k1 pt1, copyout k pt addr (s.queue.ring.take n.toNat) = .ok (k1, pt1, true)) := by
  obtain ⟨hq, hpc⟩ := piperead_cases s p n
  unfold pipereadCall
  rcases hpc with hpc | ⟨hpc, hempty⟩
  · rw [if_pos hpc]
    obtain ⟨s', k', pt', stored, removed, he, hout⟩ :=
      pipereadLoop_spec (s := s.piperead p n) (p := p) (n := n) (i := 0) h
        (by omega : (n - (0 : ℕ)).toNat < n.toNat + 1) haddr
    rw [hq, Nat.cast_zero, sub_zero] at hout
    refine ⟨s', k', pt', stored, removed, he, ?_, hout.copied, ?_, ?_, hout.lost⟩
    · exact hout.delivered.trans (congrArg (fun q => q.delivered ++ stored) hq)
    · exact hout.nwrite.trans (congrArg Queue.nwrite hq)
    · rw [← hq]
      exact hout.ring
  · rw [if_neg hpc]
    refine ⟨_, k, pt, [], [], rfl, ?_, .nil h rfl, congrArg Queue.nwrite hq, by rw [hq]; rfl,
      .inl ⟨rfl, ?_⟩⟩
    · rw [List.append_nil]
      exact congrArg Queue.delivered hq
    · rw [Queue.ring_empty hempty, List.take_nil]
      exact ⟨k, pt, rfl⟩

omit [Layout] in
theorem Outcome.nread {stored removed : List UInt8} {buffer : Prop} [Layout]
    (h : Outcome o tf np addr s k pt s' k' pt' stored removed buffer) :
    (s'.nread - s.nread).toNat = removed.length := by
  have hlen := congrArg List.length h.ring
  rw [List.length_append, Queue.length_ring, Queue.length_ring] at hlen
  replace hlen : (s.nwrite - s.nread).toNat = removed.length + (s'.nwrite - s'.nread).toNat := hlen
  have h1 := s.nread.toNat_lt
  have h2 := s.nwrite.toNat_lt
  have h3 := s'.nread.toNat_lt
  rw [h.nwrite] at hlen
  simp only [UInt32.toNat_sub] at *
  omega

/-- **`piperead` loses nothing**, whatever is in the pipe, exactly if a `copyout` of the bytes that
are to be read, in the state before, would succeed. -/
theorem piperead_loses_nothing_iff {M : ℕ} {t : Kernel.State M} {q : Fin M} {sp : Kernel.Space}
    (ht : t.Reachable) (hq : t.space q = some sp) (s : State N) (p : Fin N) (addr : ℕ)
    (haddr : addr < 2 ^ 64) (n : ℤ) :
    ∃ s' k' pt' stored, pipereadCall p addr n s t.kmem sp.pagetable = .ok (s', k', pt') ∧
      Delivered (t.others {q} + ({sp.trapframe}, 0)) sp.trapframe t.kmem sp.pagetable
        (Kernel.pagesOf sp.sz) addr stored k' pt' ∧
      s'.delivered = s.delivered ++ stored ∧
      ((s'.nread - s.nread).toNat = stored.length ∧ s.queue.ring = stored ++ s'.queue.ring ↔
        ∃ k1 pt1, copyout t.kmem sp.pagetable addr (s.queue.ring.take n.toNat) =
        .ok (k1, pt1, true)) := by
  obtain ⟨s', k', pt', stored, removed, he, hout⟩ := pipereadCall_spec (s := s) (p := p) (n := n)
    (ht.inv.space hq).userMem haddr
  refine ⟨s', k', pt', stored, he, hout.copied, hout.delivered, ?_⟩
  rw [hout.nread]
  rcases hout.lost with ⟨rfl, hok⟩ | ⟨c, rfl, hok⟩
  · exact iff_of_true ⟨rfl, hout.ring⟩ hok
  · refine iff_of_false ?_ hok
    rintro ⟨hlen, -⟩
    simp at hlen

end

def oneByte : State 1 := { pipealloc (fun _ => 7) with nwrite := 1, accepted := [7] }

omit [Layout] in
/-- The first process reads it into its page. -/
theorem piperead_loses_nothing_iff_page :
    let _ := Kernel.smallLayout
    ∃ (t : Kernel.State 2) (sp : Kernel.Space), t.space 0 = some sp ∧
      ∃ s' k' pt' stored, pipereadCall 0 0 1 oneByte t.kmem sp.pagetable = .ok (s', k', pt') ∧
        s'.delivered = stored ∧
        (s'.nread - oneByte.nread).toNat = stored.length ∧ [7] = stored ++ s'.queue.ring := by
  let _ := Kernel.smallLayout
  obtain ⟨t, ht, sp, hsp, ⟨k1, pt1, ok⟩, hcopy, hok⟩ : ∃ t ∈ Kernel.smallRun [.userinit [0x73]],
      ∃ sp ∈ t.space 0, ∃ r ∈ (copyout t.kmem sp.pagetable 0 (oneByte.queue.ring.take 1)).toOption,
        r.2.2 = true := by decide +kernel
  obtain rfl : ok = true := hok
  obtain ⟨s', k', pt', stored, he, -, hdel, hiff⟩ := piperead_loses_nothing_iff
    (Kernel.State.Reachable.of_runActs ht) hsp oneByte 0 0 (by decide) 1
  exact ⟨t, sp, hsp, s', k', pt', stored, he, hdel,
    hiff.mpr ⟨k1, pt1, Kernel.eq_ok_of_toOption hcopy⟩⟩

omit [Layout] in
/-- **A byte is dropped**: the first process, which has one page, reads the byte to the address
after it. -/
theorem piperead_drops_byte :
    let _ := Kernel.smallLayout
    ∃ (t : Kernel.State 2) (sp : Kernel.Space), Kernel.smallRun [.userinit [0x73]] = some t ∧
      t.space 0 = some sp ∧ oneByte.queue.ring = [7] ∧
      ∃ s' k' pt', pipereadCall 0 4096 1 oneByte t.kmem sp.pagetable = .ok (s', k', pt') ∧
        (s'.nread - oneByte.nread).toNat = 1 ∧ s'.delivered = [] ∧ s'.queue.ring = [] := by
  let _ := Kernel.smallLayout
  obtain ⟨t, ht, sp, hsp, ⟨s', k', pt'⟩, hres, hd⟩ : ∃ t ∈ Kernel.smallRun [.userinit [0x73]],
      ∃ sp ∈ t.space 0, ∃ r ∈ (pipereadCall 0 4096 1 oneByte t.kmem sp.pagetable).toOption,
        (r.1.nread - oneByte.nread).toNat = 1 ∧ r.1.delivered = [] ∧ r.1.queue.ring = [] := by
    decide +kernel
  exact ⟨t, sp, ht, hsp, by decide +kernel, s', k', pt', Kernel.eq_ok_of_toOption hres, hd⟩

end LazyXv6.Pipe
