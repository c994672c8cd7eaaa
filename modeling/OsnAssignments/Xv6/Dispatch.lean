import OsnAssignments.Xv6.Life

/-!
# Dispatching

The scheduler's part of the contract, under each of the four policies: a process runs on at most
one CPU, the `RUNNING` processes are those that CPUs have, only `RUNNABLE` processes are
dispatched, no kernel stack is freed under the CPU that is using it, and `nrun` counts the
dispatches. The last fails in the `FCFS` build, where the count goes past the end of the table.
-/

namespace Xv6

open Transition

variable {p : Slot}

namespace Core

variable {n : ℕ} {s s' : Core n} {b : Build} {c : CpuId n} {a : Action} {e : Event}

/-- A process becomes `RUNNING` only from `RUNNABLE`. -/
theorem Step.runnable_of_running (h : s.Inv) (hstep : Step b s ((c, a), e) s')
    (hp : (s'.procs p).state = .running) :
    (s.procs p).state = .running ∨ (s.procs p).state = .runnable := by
  have hlife := hstep.life h p
  generalize s'.procs p = t at hlife hp
  cases hlife with
  | keep he ht => exact .inl (ht.state.eq_running hp)
  | dispatch hrunnable => exact .inr hrunnable
  | fault hrun => exact .inl hrun
  | charge => exact .inl hp
  | kill =>
    dsimp only at hp
    split at hp
    · cases hp
    · exact .inl hp
  | alloc | abandon | exit | reap => cases hp

/-- The CPU on which a process is reaped runs the caller and holds the lock. -/
theorem Step.of_reap {q : Slot} {pid : ℤ} {times : Option (ℤ × ℤ)} (h : s.Inv)
    (hstep : Step b s ((c, a), .reap q p pid times) s') :
    (s.lock = none ∨ s.lock = some c) ∧ (s.cpus c).proc = some q ∧
      (s.procs q).state = .running := by
  cases hstep with
  | resumeWait hctl hlock hproc hctx hwait =>
    cases hwait
    exact ⟨.inr hlock, hproc, (h.control.of_resumed hctl hproc).2.1⟩
  | wait hcall hlock hwait =>
    cases hwait
    exact ⟨.inl hlock, hcall.1.2.2, (h.control.of_runs hcall.1.1 hcall.1.2.2).2⟩

/-- The entry of a process that is reaped, or whose kernel stack is freed, is on no CPU. -/
theorem Step.stack_ne_of_freed (h : s.Inv) (hstep : Step b s ((c, a), e) s')
    (hp : (∃ q pid times, e = .reap q p pid times) ∨
      (s.procs p).kstack = true ∧ (s'.procs p).kstack = false) (d : CpuId n) :
    (s.cpus d).stack ≠ some p := by
  intro hstack
  have hproc := (h.control.fits d).stack hstack
  have hlife := hstep.life h p
  generalize s'.procs p = t at hlife hp
  cases hlife with
  | keep he ht =>
    rcases hp with ⟨q, pid, times, rfl⟩ | ⟨hold, hnew⟩
    · simp [Event.marks] at he
    · simp [ht.kstack hold] at hnew
  | abandon ha hfilling hembryo => exact h.control.proc_ne_of_absent (.inr hembryo) d hproc
  | @reap _ q call hzombie =>
    obtain ⟨hlock, hq, hrun⟩ := hstep.of_reap h
    have hpark : (s.procs p).state.parked = true := by rw [hzombie]; rfl
    refine h.control.proc_ne_of_parked hlock hpark (fun hc => ?_) d hproc
    -- the caller would have reaped itself
    obtain rfl : q = p := Option.mem_unique hq hc
    simp [hzombie] at hrun
  | alloc | dispatch | exit | kill | fault | charge =>
    rcases hp with ⟨q, pid, times, he⟩ | ⟨hold, hnew⟩
    · cases he
    · exact absurd (hold.symm.trans hnew) (by simp)

/-- A dispatch is the step of that name. -/
theorem Step.of_dispatch (hstep : Step b s ((c, a), .dispatch p) s') :
    ∃ i, s' = s.dispatch b p i c := by
  cases hstep with
  | @dispatch _ _ i => exact ⟨i, rfl⟩
  | resumeWait hctl hlock hproc hctx hwait | wait hcall hlock hwait => cases hwait

end Core

namespace Kernel

variable {n : ℕ} {b : Build} {hist : List (Kernel n × Label n)} {σ σ' : Kernel n}

/-- The invariants hold in every state of the kernel. -/
theorem inv_core (hrun : (kernel b n).Run hist σ) : σ.core.Inv :=
  .of_run (run_core hrun)

/-- While `ptable.lock` is free, the CPUs have different processes, which are the `RUNNING` ones;
only `RUNNABLE` processes become `RUNNING`; and no process is reaped, or loses its kernel stack,
while a CPU executes on it. -/
theorem dispatch_exclusive (hrun : (kernel b n).Run hist σ) :
    (σ.lock = none →
      (∀ c d p, (σ.cpus c).proc = some p → (σ.cpus d).proc = some p → c = d) ∧
      ∀ p, (∃ c, (σ.cpus c).proc = some p) ↔ (σ.proc p).state = .running) ∧
    ∀ c a e σ', σ.step b (c, a) = some (σ', e) →
      (∀ p, (σ'.proc p).state = .running →
        (σ.proc p).state = .running ∨ (σ.proc p).state = .runnable) ∧
      ∀ p, (∃ q pid times, e = .reap q p pid times) ∨
          (σ.proc p).kstack = true ∧ (σ'.proc p).kstack = false →
        ∀ d, (σ.cpus d).stack ≠ some p := by
  have hinv := inv_core hrun
  have hcontrol := hinv.control
  refine ⟨fun hlock => ⟨hcontrol.injective, fun p => ⟨?_, hcontrol.running p⟩⟩, ?_⟩
  · rintro ⟨c, hc⟩
    exact (hcontrol.state_of_unlocked hc (hcontrol.unlocked hlock c)).1
  · intro c a e σ' h
    have hstep : Core.Step b σ.core ((c, a), e) σ'.core := step_core h
    exact ⟨fun p => hstep.runnable_of_running hinv, fun p => hstep.stack_ne_of_freed hinv⟩

/-- Two CPUs, one of which runs init while the other looks for a process. -/
theorem dispatch_exclusive_two_cpus :
    ∃ (hist : List (Kernel 1 × Label 1)) (σ : Kernel 1), (kernel .mlfq 1).Run hist σ ∧
      σ.lock = none ∧ (σ.cpus 0).proc = some 0 ∧
      ∀ c d p, (σ.cpus c).proc = some p → (σ.cpus d).proc = some p → c = d := by
  obtain ⟨hist, σ, hrun, hσ⟩ := exists_run (n := 1) .mlfq
    (startInit ++ onCpu 1 [.acquire, .select])
    (fun _ σ => decide (σ.lock = none ∧ (σ.cpus 0).proc = some 0)) (by decide +kernel)
  obtain ⟨hlock, hproc⟩ := of_decide_eq_true hσ
  exact ⟨hist, σ, hrun, hlock, hproc, ((dispatch_exclusive hrun).1 hlock).1⟩

/-! ## Counting dispatches -/

/-- How often the scheduler has switched to `p` since `allocproc` last took the entry. -/
def dispatches {S : Type*} (p : Slot) : List (S × Label n) → ℕ
  | [] => 0
  | (_, l) :: hist =>
    match l.2 with
    | .alloc q => if q = p then 0 else dispatches p hist
    | .dispatch q => if q = p then dispatches p hist + 1 else dispatches p hist
    | _ => dispatches p hist

/-- Every dispatch of the run changed `nrun` of no other entry, and no word past the table. -/
def DispatchesFramed : List (Kernel n × Label n) → Kernel n → Prop
  | [], _ => True
  | (σ, l) :: hist, σ' =>
    (∀ p, l.2 = .dispatch p →
      (∀ q, q ≠ p → (σ'.proc q).nrun = (σ.proc q).nrun) ∧ σ'.beyond = σ.beyond) ∧
    DispatchesFramed hist σ

/-- Whether a step of the run was a dispatch. -/
def Dispatched (hist : List (Kernel n × Label n)) : Prop :=
  ∃ x ∈ hist, ∃ p, x.2.2 = .dispatch p

/-- What one step does to `nrun` of the entry `p`, if it is no dispatch of the `FCFS` build. -/
theorem nrun_step (hinv : σ.core.Inv) {l : Label n} (hstep : (kernel b n).step σ l σ')
    (hb : b = .fcfs → ∀ q, l.2 ≠ .dispatch q) (h : (σ.proc p).nrun = dispatches p hist) :
    (σ'.proc p).nrun = dispatches p ((σ, l) :: hist) := by
  have hlife := (step_core hstep).life hinv p
  obtain ⟨⟨c, a⟩, e⟩ := l
  change (σ'.core.procs p).nrun = _
  change (σ.core.procs p).nrun = _ at h
  generalize σ'.core.procs p = t at hlife
  dsimp only [dispatches]
  cases hlife with
  | keep he ht =>
    rw [ht.nrun, h]
    cases e with
    | alloc q | dispatch q =>
      have hq : q ≠ p := by simpa [Event.marks] using he
      simp [hq]
    | _ => rfl
  | alloc => simp [Task.allocate]
  | dispatch =>
    have hb' : b ≠ .fcfs := fun hfcfs => hb hfcfs p rfl
    dsimp only
    rw [if_neg hb', if_pos rfl, h]
    rfl
  | abandon | exit | reap | kill | fault | charge => exact h

/-- A dispatch of the `FCFS` build writes past the table; in the other builds it changes `nrun`
of no other entry. -/
theorem frame_step {l : Label n} (hstep : (kernel b n).step σ l σ') (hl : l.2 = .dispatch p) :
    (∀ q, q ≠ p → (σ'.proc q).nrun = (σ.proc q).nrun) ∧
      σ'.beyond = if b = .fcfs then σ.beyond + 1 else σ.beyond := by
  obtain ⟨⟨c, a⟩, e⟩ := l
  obtain rfl : e = .dispatch p := hl
  obtain ⟨i, hcore⟩ := Core.Step.of_dispatch (step_core hstep)
  constructor
  · intro q hq
    change (σ'.core.procs q).nrun = (σ.core.procs q).nrun
    rw [hcore, Core.procs_dispatch_of_ne hq]
  · change σ'.core.beyond = if b = .fcfs then σ.core.beyond + 1 else σ.core.beyond
    rw [hcore]
    cases b <;> rfl

/-- Along a run, `nrun` counts the dispatches since `allocproc` and a dispatch changes no other
counter exactly if the build is not `FCFS` or nothing has been dispatched. -/
theorem nrun_eq_dispatches_iff (hrun : (kernel b n).Run hist σ) :
    ((∀ p, (σ.proc p).nrun = dispatches p hist) ∧ DispatchesFramed hist σ) ↔
      (b = .fcfs → ¬ Dispatched hist) := by
  constructor
  · -- the first dispatch of the FCFS build already changes the word past the table
    rintro ⟨-, hframed⟩ rfl ⟨x, hx, p, hp⟩
    induction hrun with
    | init _ => cases hx
    | step hrun hstep ih =>
      obtain ⟨hlast, hframed⟩ := hframed
      rcases List.mem_cons.mp hx with rfl | hx
      · have hbeyond := (frame_step hstep hp).2
        rw [(hlast p hp).2, if_pos rfl] at hbeyond
        omega
      · exact ih hframed hx
  · intro hb
    induction hrun with
    | @init σ h =>
      obtain ⟨below, rfl⟩ := h
      refine ⟨fun p => ?_, trivial⟩
      change ((initial below : Kernel n).core.procs p).nrun = 0
      rw [core_initial]
      rfl
    | step hrun hstep ih =>
      have hlast : b = .fcfs → ∀ q, _ ≠ Event.dispatch q :=
        fun hfcfs q hq => hb hfcfs ⟨_, List.mem_cons_self, q, hq⟩
      have hrest : b = .fcfs → ¬ Dispatched _ :=
        fun hfcfs ⟨x, hx, p, hp⟩ => hb hfcfs ⟨x, List.mem_cons_of_mem _ hx, p, hp⟩
      obtain ⟨hcount, hframed⟩ := ih hrest
      refine ⟨fun p => nrun_step (inv_core hrun) hstep hlast (hcount p), fun p hp => ?_, hframed⟩
      obtain ⟨hother, hbeyond⟩ := frame_step hstep hp
      have hb' : b ≠ .fcfs := fun hfcfs => hlast hfcfs p hp
      rw [if_neg hb'] at hbeyond
      exact ⟨hother, hbeyond⟩

/-- The other builds count: init has been dispatched once, and `nrun` is `1`. -/
theorem nrun_roundRobin :
    ∃ (hist : List (Kernel 0 × Label 0)) (σ : Kernel 0), (kernel .roundRobin 0).Run hist σ ∧
      dispatches 0 hist = 1 ∧ (σ.proc 0).nrun = dispatches 0 hist := by
  obtain ⟨hist, σ, hrun, hσ⟩ := exists_run (n := 0) .roundRobin startInit
    (fun hist _ => decide (dispatches 0 hist = 1)) (by decide +kernel)
  exact ⟨hist, σ, hrun, of_decide_eq_true hσ,
    ((nrun_eq_dispatches_iff hrun).mpr fun h => by cases h).1 0⟩

/-- The `FCFS` build does not: after init has been dispatched its `nrun` is still `0`, and the
word past the table has been incremented. -/
theorem not_nrun_fcfs :
    ¬ ∀ (hist : List (Kernel 0 × Label 0)) (σ : Kernel 0), (kernel .fcfs 0).Run hist σ →
      (∀ p, (σ.proc p).nrun = dispatches p hist) ∧ DispatchesFramed hist σ := by
  intro hall
  obtain ⟨hist, σ, hrun, hσ⟩ := exists_run (n := 0) .fcfs startInit
    (fun hist σ => decide ((σ.proc 0).nrun = 0 ∧ dispatches 0 hist = 1)) (by decide +kernel)
  obtain ⟨hnrun, hcount⟩ := of_decide_eq_true hσ
  have := (hall hist σ hrun).1 0
  rw [hnrun, hcount] at this
  cases this

end Kernel

end Xv6
