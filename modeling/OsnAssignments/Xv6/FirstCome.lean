import OsnAssignments.Xv6.Accounting
import OsnAssignments.Xv6.ExitWait
import OsnAssignments.Xv6.Selection

/-!
# The order in which `FCFS` dispatches processes

Pids increase with every `allocproc`. `FCFS` compares `ctime` instead, as an `int`. The two orders
agree across ticks (`Created`) while `ticks` is below `2 ^ 31`, but of the processes created in the
same tick the scan takes the one with the lowest index, which may be the youngest.
-/

namespace Xv6.Kernel

variable {n : ℕ} {b : Build} {hist : List (Kernel n × Label n)} {σ σ' : Kernel n} {p : Slot}

/-- The `RUNNABLE` process `p` was created before every other `RUNNABLE` process: it has the
smallest pid. -/
def Oldest (σ : Kernel n) (p : Slot) : Prop :=
  σ.Runnable p ∧ ∀ q, σ.Runnable q → (σ.proc p).pid ≤ (σ.proc q).pid

instance decidableOldest (σ : Kernel n) (p : Slot) : Decidable (σ.Oldest p) :=
  inferInstanceAs (Decidable (_ ∧ _))

theorem exists_oldest (h : ∃ q, σ.Runnable q) : ∃ p, σ.Oldest p := by
  obtain ⟨q, hq⟩ := h
  have hmem {q : Slot} (hq : σ.Runnable q) : q ∈ σ.runnables (List.finRange NPROC) :=
    mem_runnables.mpr ⟨List.mem_finRange q, hq⟩
  cases hmin : (σ.runnables (List.finRange NPROC)).argmin fun p => (σ.proc p).pid with
  | none =>
    rw [List.argmin_eq_none.mp hmin] at hmem
    exact absurd (hmem hq) List.not_mem_nil
  | some p =>
    refine ⟨p, (mem_runnables.mp (List.argmin_mem hmin)).2, fun q hq => ?_⟩
    exact List.le_of_mem_argmin (f := fun p => (σ.proc p).pid) (hmem hq) hmin

/-! ## Creation times follow the pids -/

/-- The creation times of the processes in the table. -/
structure Created (σ : Kernel n) : Prop where
  nonneg : ∀ p, (σ.proc p).state ≠ .unused → 0 ≤ (σ.proc p).ctime
  past : ∀ p, (σ.proc p).state ≠ .unused → (σ.proc p).ctime ≤ σ.ticks
  ordered : ∀ p q, (σ.proc p).state ≠ .unused → (σ.proc q).state ≠ .unused →
    (σ.proc p).pid < (σ.proc q).pid → (σ.proc p).ctime ≤ (σ.proc q).ctime

namespace Created

theorem initial (below : Option Slot) : (Kernel.initial below : Kernel n).Created := by
  have hunused (p : Slot) : ((Kernel.initial below : Kernel n).proc p).state = .unused := by
    simp [Kernel.initial, proc, Proc.zero]
  exact ⟨fun p hp => absurd (hunused p) hp, fun p hp => absurd (hunused p) hp,
    fun p q hp => absurd (hunused p) hp⟩

/-- A step of the kernel, as long as `nextpid` does not wrap. -/
theorem step {l : Label n} (h : σ.Created) (hrun : (kernel b n).Run hist σ)
    (hstep : (kernel b n).step σ l σ') (hbound : σ'.nextpid ≤ 2 ^ 31) : σ'.Created := by
  have hcore : Core.Step b σ.core l σ'.core := step_core hstep
  have hpids : Pids hist σ := .of_run hrun (Nat.le_trans (nextpid_le_of_step hcore) hbound)
  have hticks : σ.ticks ≤ σ'.ticks := ticks_le_of_step hrun hstep
  have hused {p : Slot} := used_of_step (p := p) (inv_core hrun) hcore hbound
  refine ⟨fun p hp => ?_, fun p hp => ?_, fun p q hp hq hlt => ?_⟩
  · rcases hused hp with ⟨hold, -, hctime⟩ | ⟨-, -, hctime, -⟩
    · have := h.nonneg p hold
      omega
    · omega
  · rcases hused hp with ⟨hold, -, hctime⟩ | ⟨-, -, hctime, -⟩
    · have := h.past p hold
      omega
    · omega
  · rcases hused hp with ⟨hp, hppid, hpctime⟩ | ⟨-, hppid, hpctime, -⟩ <;>
      rcases hused hq with ⟨hq, hqpid, hqctime⟩ | ⟨-, hqpid, hqctime, -⟩
    · rw [hpctime, hqctime]
      exact h.ordered p q hp hq (by omega)
    · have := h.past p hp
      omega
    · -- `p` has just been created, so its pid is larger than that of `q`
      have := hpids.fresh q hq
      omega
    · omega

theorem of_run (hrun : (kernel b n).Run hist σ) (hbound : σ.nextpid ≤ 2 ^ 31) : σ.Created := by
  induction hrun with
  | init h =>
    obtain ⟨below, rfl⟩ := h
    exact .initial below
  | step hrun hstep ih =>
    have hbefore := Nat.le_trans (nextpid_le_of_step (step_core hstep)) hbound
    exact (ih hbefore).step hrun hstep hbound

/-- Before tick `2 ^ 31` a creation time is stored in an `int` as it is. -/
theorem int32_ctime (h : σ.Created) (hticks : σ.ticks < 2 ^ 31) (hp : (σ.proc p).state ≠ .unused) :
    int32 (σ.proc p).ctime = (σ.proc p).ctime := by
  obtain ⟨k, hk⟩ := Int.eq_ofNat_of_zero_le (h.nonneg p hp)
  have hpast := h.past p hp
  rw [hk] at hpast ⊢
  exact int32_of_lt (by omega)

end Created

/-! ## What the scheduler dispatches -/

/-- A scheduler at the start of its scan dispatches the process that `FCFS` selects. -/
theorem select_fcfs_iff {c : CpuId n} (hctl : (σ.cpus c).ctl = .loop) (hlock : σ.lock = some c) :
    (∃ σ', σ.select .fcfs c = some (σ', .dispatch p)) ↔ σ.pickFcfs = some p := by
  unfold select pick
  cases hpick : σ.pickFcfs with
  | none | some => simp [hctl, hlock]

/-- While `nextpid` and `ticks` have not passed the range of an `int`, the scheduler of the `FCFS`
build dispatches the `RUNNABLE` process that was created first exactly when no `RUNNABLE` process
created in the same tick has a lower index in the table. -/
theorem select_oldest_iff (hrun : (kernel .fcfs n).Run hist σ) (hpid : σ.nextpid ≤ 2 ^ 31)
    (hticks : σ.ticks < 2 ^ 31) {c : CpuId n} (hctl : (σ.cpus c).ctl = .loop)
    (hrunnable : ∃ q, σ.Runnable q) :
    ∃ p, σ.Oldest p ∧ ((∃ σ', σ.select .fcfs c = some (σ', .dispatch p)) ↔
      ∀ q, σ.Runnable q → (σ.proc q).ctime = (σ.proc p).ctime → p ≤ q) := by
  obtain ⟨p, hp, hmin⟩ := exists_oldest hrunnable
  have hlocked : (σ.cpus c).ctl.locked = true := by rw [hctl]; rfl
  have hlock : σ.lock = some c := ((inv_core hrun).control.lock c).mpr hlocked
  refine ⟨p, ⟨hp, hmin⟩, ?_⟩
  rw [select_fcfs_iff hctl hlock, pickFcfs_eq_some_iff]
  have hused {q : Slot} (hq : σ.Runnable q) : (σ.proc q).state ≠ .unused := by
    rw [hq]
    nofun
  have hcreated := Created.of_run hrun hpid
  have hint {q : Slot} (hq : σ.Runnable q) : int32 (σ.proc q).ctime = (σ.proc q).ctime :=
    hcreated.int32_ctime hticks (hused hq)
  -- an earlier pid means an earlier or the same tick
  have hctime (q : Slot) (hq : σ.Runnable q) : (σ.proc p).ctime ≤ (σ.proc q).ctime := by
    rcases Int.lt_or_eq_of_le (hmin q hq) with hlt | heq
    · exact hcreated.ordered p q (hused hp) (hused hq) hlt
    · have hpq : p = q := (Pids.of_run hrun hpid).unique p q (hused hp) (hused hq) heq
      rw [hpq]
  constructor
  · rintro ⟨-, hall⟩ q hq heq
    rcases hall q hq with hlt | ⟨-, hle⟩
    · rw [hint hp, hint hq] at hlt
      omega
    · exact hle
  · intro hall
    refine ⟨hp, fun q hq => ?_⟩
    rw [hint hp, hint hq]
    rcases Int.lt_or_eq_of_le (hctime q hq) with hlt | heq
    · exact .inl hlt
    · exact .inr ⟨heq, hall q hq heq.symm⟩

/-- Init forks a child and sleeps, and the scheduler starts its scan. -/
def childReady : List (CpuId 0 × Action) :=
  startInit ++ forkOn 0 ++ onCpu 0 [.sleep (.other 0), .swtch, .switched, .acquire]

/-- An only child is dispatched. -/
theorem select_oldest_child :
    ∃ (hist : List (Kernel 0 × Label 0)) (σ : Kernel 0) (p : Slot),
      (kernel .fcfs 0).Run hist σ ∧ σ.Oldest p ∧
      ∃ σ', σ.select .fcfs 0 = some (σ', .dispatch p) := by
  obtain ⟨hist, σ, hrun, hσ⟩ := exists_run .fcfs childReady
    (fun _ σ => decide (σ.nextpid ≤ 2 ^ 31 ∧ σ.ticks < 2 ^ 31 ∧ (σ.cpus 0).ctl = .loop ∧
      (∃ q, σ.Runnable q) ∧ ∀ q r, σ.Runnable q → σ.Runnable r → q = r)) (by decide +kernel)
  obtain ⟨hpid, hticks, hctl, hrunnable, hone⟩ := of_decide_eq_true hσ
  obtain ⟨p, hp, hiff⟩ := select_oldest_iff hrun hpid hticks hctl hrunnable
  exact ⟨hist, σ, p, hrun, hp, hiff.mpr fun q hq _ => Fin.le_of_eq (hone p q hp.1 hq)⟩

/-- Init forks two children and waits; the first one exits; init reaps it, forks a third child,
which takes the entry of the first, and sleeps; the scheduler starts its scan. -/
def slotReused : List (CpuId 0 × Action) :=
  startInit ++ forkOn 0 ++ forkOn 0 ++
    onCpu 0 [.wait .wait, .swtch, .switched, .acquire, .select, .resume] ++
    onCpu 0 [.exit, .swtch, .switched, .acquire, .select, .resume] ++
    forkOn 0 ++ onCpu 0 [.sleep (.other 0), .swtch, .switched, .acquire]

/-- Within one tick, the scheduler dispatches the third child of init before the second. -/
theorem not_select_oldest :
    ∃ (hist : List (Kernel 0 × Label 0)) (σ σ' : Kernel 0) (p q : Slot),
      (kernel .fcfs 0).Run hist σ ∧ σ.nextpid ≤ 2 ^ 31 ∧ σ.ticks < 2 ^ 31 ∧
      (σ.cpus 0).ctl = .loop ∧ σ.Oldest p ∧ σ.select .fcfs 0 = some (σ', .dispatch q) ∧
      (σ.proc p).pid < (σ.proc q).pid := by
  obtain ⟨hist, σ, hrun, hσ⟩ := exists_run .fcfs slotReused
    (fun _ σ => (σ.select .fcfs 0).any fun r => decide (σ.nextpid ≤ 2 ^ 31 ∧
      σ.ticks < 2 ^ 31 ∧ (σ.cpus 0).ctl = .loop ∧ σ.Oldest 2 ∧ r.2 = Event.dispatch 1 ∧
        (σ.proc 2).pid < (σ.proc 1).pid))
    (by decide +kernel)
  obtain ⟨⟨σ', e⟩, hselect, hσ⟩ := (Option.any_eq_true _ _).mp hσ
  obtain ⟨hpid, hticks, hctl, holdest, rfl, hlt⟩ := of_decide_eq_true hσ
  exact ⟨hist, σ, σ', 2, 1, hrun, hpid, hticks, hctl, holdest, hselect, hlt⟩

end Xv6.Kernel
