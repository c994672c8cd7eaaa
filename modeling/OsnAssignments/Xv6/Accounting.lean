import OsnAssignments.Xv6.Dispatch

/-!
# Time accounting

`trap` on the boot CPU increments `ticks` and then, in `change_ticks`, charges the tick to the
processes that are `RUNNING`. The two are separate critical sections, so a process that another
CPU creates and dispatches in between is charged for a tick that began before it existed.
-/

namespace Xv6

open Transition

/-- `ticks` has been incremented, and `change_ticks` has not run yet. -/
def Trap.pending : Trap → Bool
  | .ticked _ => true
  | _ => false

/-- Whether the event is that `p` was reaped. -/
def Event.reaps (p : Slot) : Event → Bool
  | .reap _ q _ _ => q = p
  | _ => false

namespace Core

variable {n : ℕ} {s s' : Core n} {b : Build} {l : Label n} {p : Slot}

/-- Only the boot CPU counts ticks. -/
def Clock (s : Core n) : Prop :=
  ∀ c, (s.cpus c).trap.pending = true → c = 0

/-- What a step does to the clock: a tick increments `ticks` and leaves it to be charged, a charge
ends that, and no other step touches either. -/
inductive ClockStep (s : Core n) : Event → Core n → Prop
  | tick {s' : Core n} (hticks : s'.ticks = s.ticks + 1) (hold : (s.cpus 0).trap.pending = false)
      (hnew : (s'.cpus 0).trap.pending = true) : ClockStep s .tick s'
  | charge {s' : Core n} (hticks : s'.ticks = s.ticks) (hold : (s.cpus 0).trap.pending = true)
      (hnew : (s'.cpus 0).trap.pending = false) : ClockStep s .charge s'
  | other {e : Event} {s' : Core n} (he : e ≠ .tick ∧ e ≠ .charge) (hticks : s'.ticks = s.ticks)
      (hpending : (s'.cpus 0).trap.pending = (s.cpus 0).trap.pending) : ClockStep s e s'

/-- The CPUs of `s'` have the same ticks to charge as those of `s`. -/
def SamePending (s s' : Core n) : Prop :=
  ∀ d, (s'.cpus d).trap.pending = (s.cpus d).trap.pending

theorem samePending_modifyCpu {c : CpuId n} (f : Cpu → Cpu)
    (h : (f (s.cpus c)).trap.pending = (s.cpus c).trap.pending) : SamePending s (s.modifyCpu c f) :=
  forall_modifyCpu (R := fun k k' => k'.trap.pending = k.trap.pending) (fun _ => rfl) h

theorem samePending_unlock (s : Core n) (c : CpuId n) : SamePending s (s.unlock c) :=
  samePending_modifyCpu (s := { s with lock := none }) (fun k => { k with ctl := .process }) rfl

theorem samePending_sched {c : CpuId n} (h : (s.cpus c).trap.pending = false) :
    SamePending s (s.sched c) :=
  samePending_modifyCpu (s := { s with lock := some c })
    (fun k => { k with ctl := .leaving, trap := .none }) h.symm

theorem samePending_setTrap {c : CpuId n} {t : Trap} (ht : t.pending = false)
    (h : (s.cpus c).trap.pending = false) : SamePending s (s.setTrap c t) :=
  samePending_modifyCpu (fun k => { k with trap := t }) (ht.trans h.symm)

theorem WaitStep.clock {call : WaitCall} {c : CpuId n} {cur : Slot} {e : Event}
    (h : (s.cpus c).trap.pending = false) (hwait : WaitStep call s c cur e s') :
    s'.ticks = s.ticks ∧ SamePending s s' := by
  cases hwait with
  | reap | noChild => exact ⟨rfl, samePending_unlock _ c⟩
  | sleep => exact ⟨rfl, samePending_sched (s := s.modify cur _) h⟩

/-- A step that is no tick and no charge leaves the clock alone. -/
theorem Step.clock_of_other (h : s.Inv) (hstep : Step b s l s') (htick : l.2 ≠ .tick)
    (hcharge : l.2 ≠ .charge) : s'.ticks = s.ticks ∧ SamePending s s' := by
  have hc := h.control
  cases hstep with
  | bootAlloc | bootFull | bootKalloc | bootAbandon | bootPublish | acquire | swtch
  | switchedLoop => exact ⟨rfl, samePending_modifyCpu _ rfl⟩
  | endPass =>
    exact ⟨rfl, samePending_modifyCpu (s := { s with lock := none })
      (fun k => { k with ctl := .idle }) rfl⟩
  | @switchedIdle c =>
    refine ⟨rfl, fun d => ?_⟩
    have hproc := samePending_modifyCpu (s := s) (c := c) (fun k => { k with proc := none }) rfl
    have hidle := samePending_modifyCpu (c := c)
      (s := { s.modifyCpu c (fun k => { k with proc := none }) with lock := none })
      (fun k => { k with ctl := .idle }) rfl
    exact (hidle d).trans (hproc d)
  | @dispatch c =>
    refine ⟨by cases b <;> rfl, fun d => ?_⟩
    by_cases hd : d = c
    · rw [hd, cpus_dispatch_self]
    · rw [cpus_dispatch_of_ne hd]
  | resumeForkret => exact ⟨rfl, samePending_unlock s _⟩
  -- `yield`, and `sleep` in `exit`, return into `trap` past the point at which the tick was charged
  | @resumeSleep c cur exiting hctl hlock hproc =>
    obtain ⟨-, -, htrap⟩ := hc.of_resumed hctl hproc
    refine ⟨rfl, fun d => ?_⟩
    have hunlock := samePending_unlock (s.modify cur fun t => { t with chan := .null }) c
    refine (samePending_setTrap (by cases exiting <;> rfl) ?_ d).trans (hunlock d)
    rw [hunlock c, Core.modify, htrap]
    rfl
  | @resumeYield c cur user hctl hlock hproc =>
    obtain ⟨-, -, htrap⟩ := hc.of_resumed hctl hproc
    refine ⟨rfl, fun d => ?_⟩
    have hunlock := samePending_unlock s c
    refine (samePending_setTrap rfl ?_ d).trans (hunlock d)
    rw [hunlock c, htrap]
    rfl
  | @resumeWait _ c cur call e hctl hlock hproc hctx hwait =>
    obtain ⟨-, -, htrap⟩ := hc.of_resumed hctl hproc
    exact hwait.clock (s := s.modify cur _) (by rw [Core.modify, htrap]; rfl)
  | fork | forkFull | kalloc | kallocFail | copyuvm | copyuvmFail | publish | wakeup | killMiss
  | kill | setPriorityMiss | setPriority => exact ⟨rfl, fun _ => rfl⟩
  | @exit c cur hcall =>
    refine ⟨rfl, samePending_sched (s := s.exitTable cur) ?_⟩
    change (s.cpus c).trap.pending = false
    rcases hcall with ⟨⟨-, htrap, -⟩, -⟩ | ⟨-, htrap, -⟩ <;> rw [htrap] <;> rfl
  | wait hcall hlock hwait => exact hwait.clock (by rw [hcall.1.2.1]; rfl)
  | @sleep c cur o exiting hcall =>
    refine ⟨rfl, samePending_sched (s := s.modify cur _) ?_⟩
    change (s.cpus c).trap.pending = false
    rcases hcall with ⟨⟨-, htrap, -⟩, -⟩ | ⟨-, htrap, -⟩ <;> rw [htrap] <;> rfl
  | @yield c cur user htrap =>
    refine ⟨rfl, samePending_sched (s := s.modify cur _) ?_⟩
    change (s.cpus c).trap.pending = false
    rw [htrap]
    rfl
  | tick => exact absurd rfl htick
  | charge => exact absurd rfl hcharge
  | wakeupTicks htrap =>
    exact ⟨rfl, samePending_setTrap (s := s.mapProcs _) rfl (by rw [Core.mapProcs, htrap]; rfl)⟩
  | fault hcall =>
    exact ⟨rfl, samePending_setTrap (s := s.modify _ _) rfl (by rw [Core.modify, hcall.1.2.1]; rfl)⟩
  | @trap c a t htrap =>
    have hold : (s.cpus c).trap.pending = false := by
      cases htrap with
      | timer hcall | device hcall => rw [hcall.1]; rfl
      | idle htrap | killed htrap | decide htrap | preempt htrap | recheck htrap
      | recheckKilled htrap => rw [htrap]; rfl
    have hnew : t.pending = false := by
      cases htrap with
      | decide _ _ ht => rcases ht with rfl | rfl | rfl <;> rfl
      | preempt _ _ ht => rcases ht with rfl | rfl <;> rfl
      | _ => rfl
    exact ⟨rfl, samePending_setTrap hnew hold⟩

/-- Whatever `trap` does on the boot CPU, no other CPU counts ticks. -/
theorem Clock.setTrap {procs : Slot → Task} {ticks : ℕ} (t : Trap) (h : s.Clock) :
    ({ s with procs := procs, ticks := ticks }.setTrap 0 t).Clock := by
  intro d hd
  by_contra hne
  rw [Core.setTrap, cpus_modifyCpu_of_ne hne] at hd
  exact hne (h d hd)

/-- Every step does to the clock what `ClockStep` lists, and the boot CPU goes on counting. -/
theorem Step.clock (h : s.Inv) (hclock : s.Clock) (hstep : Step b s l s') :
    ClockStep s l.2 s' ∧ s'.Clock := by
  obtain ⟨⟨c, a⟩, e⟩ := l
  by_cases htick : e = .tick
  · subst htick
    cases hstep with
    | resumeWait _ _ _ _ hwait | wait _ _ hwait => cases hwait
    | tick hcall =>
      refine ⟨.tick rfl (by rw [hcall.1]; rfl) ?_, Clock.setTrap _ hclock⟩
      rw [Core.setTrap, cpus_modifyCpu_self]
      rfl
  by_cases hcharge : e = .charge
  · subst hcharge
    cases hstep with
    | resumeWait _ _ _ _ hwait | wait _ _ hwait => cases hwait
    | charge htrap =>
      have hpending : (s.cpus c).trap.pending = true := by rw [htrap]; rfl
      -- `change_ticks` runs on the CPU that counted the tick
      obtain rfl := hclock c hpending
      refine ⟨.charge rfl hpending ?_, Clock.setTrap _ hclock⟩
      rw [Core.setTrap, cpus_modifyCpu_self]
      rfl
  obtain ⟨hticks, hsame⟩ := hstep.clock_of_other h htick hcharge
  refine ⟨.other ⟨htick, hcharge⟩ hticks (hsame 0), fun d hd => ?_⟩
  exact hclock d ((hsame d).symm.trans hd)

theorem Clock.of_run {hist : List (Core n × Label n)} (hrun : (protocol b n).Run hist s) :
    s.Clock := by
  induction hrun with
  | init h =>
    obtain rfl := h
    intro c hc
    cases hc
  | step hrun hstep ih => exact (Step.clock (Inv.of_run hrun) ih hstep).2

end Core

namespace Kernel

variable {n : ℕ} {b : Build} {hist : List (Kernel n × Label n)} {σ σ' : Kernel n} {l : Label n}
  {p : Slot}
variable {σe : Kernel n} {ce : CpuId n × Action} {times : ℤ × ℤ}

theorem clock_step (hrun : (kernel b n).Run hist σ) (hstep : (kernel b n).step σ l σ') :
    Core.ClockStep σ.core l.2 σ'.core :=
  (Core.Step.clock (inv_core hrun) (.of_run (run_core hrun)) (step_core hstep)).1

/-- Whether `allocproc` last took the entry `p` between `ticks++` and `change_ticks`. -/
def bornInGap (p : Slot) : List (Kernel n × Label n) → Bool
  | [] => false
  | (σ, l) :: hist =>
    match l.2 with
    | .alloc q => if q = p then (σ.cpus 0).trap.pending else bornInGap p hist
    | _ => bornInGap p hist

/-- The ticks charged to the process `p`, with the one still to be charged, are no more than those
that have begun since its creation and the one that its creation interrupted. -/
def Charged (hist : List (Kernel n × Label n)) (σ : Kernel n) (p : Slot) : Prop :=
  (σ.proc p).state ≠ .unused → 0 ≤ (σ.proc p).runtime ∧
    (σ.proc p).runtime + (σ.cpus 0).trap.pending.toNat ≤
      σ.ticks - (σ.proc p).ctime + (bornInGap p hist).toNat

theorem charged_step (hrun : (kernel b n).Run hist σ) (hstep : (kernel b n).step σ l σ')
    (h : Charged hist σ p) : Charged ((σ, l) :: hist) σ' p := by
  have hlife := (step_core hstep).life (inv_core hrun) p
  have hclock := clock_step hrun hstep
  obtain ⟨⟨c, a⟩, e⟩ := l
  intro hlive
  change (σ'.core.procs p).state ≠ .unused at hlive
  change 0 ≤ (σ'.core.procs p).runtime ∧
    (σ'.core.procs p).runtime + ((σ'.core.cpus 0).trap.pending.toNat : ℤ) ≤
      σ'.core.ticks - (σ'.core.procs p).ctime + _
  change (σ.core.procs p).state ≠ .unused → 0 ≤ (σ.core.procs p).runtime ∧
    (σ.core.procs p).runtime + ((σ.core.cpus 0).trap.pending.toNat : ℤ) ≤
      σ.core.ticks - (σ.core.procs p).ctime + _ at h
  generalize σ'.core.procs p = t at hlife hlive
  dsimp only [bornInGap]
  cases hclock with
  | tick hticks hold hnew =>
    -- the tick that has begun is still to be charged
    cases hlife with
    | keep he ht =>
      obtain ⟨hpos, hle⟩ := h fun hp => hlive (ht.state.eq_unused_iff.mpr hp)
      rw [hold] at hle
      rw [ht.runtime, ht.ctime, hticks, hnew]
      refine ⟨hpos, ?_⟩
      push_cast [Bool.toNat_true, Bool.toNat_false] at hle ⊢
      omega
  -- a `RUNNING` process pays for the pending tick, which is then no longer pending
  | charge hticks hold hnew =>
    cases hlife with
    | keep he => cases he
    | charge =>
      obtain ⟨hpos, hle⟩ := h hlive
      rw [hold] at hle
      rw [hticks, hnew, Task.charge]
      push_cast [Bool.toNat_true, Bool.toNat_false] at hle ⊢
      split <;> constructor <;> omega
  | other he hticks hpending =>
    rw [hticks, hpending]
    cases hlife with
    | keep hmarks ht =>
      obtain ⟨hpos, hle⟩ := h fun hp => hlive (ht.state.eq_unused_iff.mpr hp)
      rw [ht.runtime, ht.ctime]
      cases e with
      | alloc q =>
        have hq : q ≠ p := by simpa [Event.marks] using hmarks
        simpa [hq] using And.intro hpos hle
      | _ => exact ⟨hpos, hle⟩
    -- a new process starts at zero, and a tick that is pending at that moment is the gap
    | alloc => simp [Task.allocate]
    | abandon | reap => exact absurd rfl hlive
    | dispatch hp | exit hp | fault hp => exact h (by simp [hp])
    | kill =>
      refine h fun hp => hlive ?_
      simp [hp]
    | charge => exact absurd rfl he.2

theorem charged_of_run (hrun : (kernel b n).Run hist σ) (p : Slot) : Charged hist σ p := by
  induction hrun with
  | init h =>
    obtain ⟨below, rfl⟩ := h
    intro hlive
    simp [initial, proc, Proc.zero] at hlive
  | step hrun hstep ih => exact charged_step hrun hstep ih

/-- A process has run for no more ticks than have begun since its creation, or for one more if it
was created between `ticks++` and `change_ticks`; only then is the time that `waitx` computes
negative, and it is `-1`. -/
theorem runtime_le (hrun : (kernel b n).Run hist σ) (hp : (σ.proc p).state ≠ .unused) :
    (0 ≤ (σ.proc p).runtime ∧
      (σ.proc p).runtime ≤ σ.ticks - (σ.proc p).ctime + (bornInGap p hist).toNat) ∧
    (((σ.proc p).waitxTimes σ.ticks).1 = σ.ticks - (σ.proc p).ctime - (σ.proc p).runtime ∨
      bornInGap p hist = true ∧ σ.ticks - (σ.proc p).ctime - (σ.proc p).runtime = -1 ∧
        ((σ.proc p).waitxTimes σ.ticks).1 = 1) := by
  obtain ⟨hpos, hle⟩ := charged_of_run hrun p hp
  have hle : (σ.proc p).runtime ≤ σ.ticks - (σ.proc p).ctime + (bornInGap p hist).toNat := by
    omega
  refine ⟨⟨hpos, hle⟩, ?_⟩
  rw [Task.waitxTimes]
  dsimp only
  by_cases hneg : (σ.ticks : ℤ) - (σ.proc p).ctime - (σ.proc p).runtime < 0
  · right
    rw [if_pos hneg]
    -- below zero is possible only with the one tick of the gap
    cases hgap : bornInGap p hist with
    | true =>
      rw [hgap, Bool.toNat_true] at hle
      refine ⟨rfl, ?_, ?_⟩ <;> push_cast at hle <;> omega
    | false =>
      rw [hgap, Bool.toNat_false] at hle
      push_cast at hle
      omega
  · left
    rw [if_neg hneg]

/-- A run on two CPUs in which the other CPU creates a process and dispatches it while the boot
CPU is between `ticks++` and `change_ticks`. -/
def gapRun : List (CpuId 1 × Action) :=
  onCpu 0 [.bootAlloc, .bootKalloc true, .bootPublish] ++ onCpu 1 [.acquire, .select, .resume] ++
    onCpu 0 [.timer false] ++ forkOn 1 ++
    onCpu 1 [.wait .waitx, .swtch, .switched, .select, .resume] ++ onCpu 0 [.changeTicks]

theorem runtime_le_gapRun :
    ∃ (hist : List (Kernel 1 × Label 1)) (σ : Kernel 1), (kernel .roundRobin 1).Run hist σ ∧
      (σ.proc 1).state = .running ∧ bornInGap 1 hist = true ∧
      (σ.proc 1).runtime ≤ σ.ticks - (σ.proc 1).ctime + (bornInGap 1 hist).toNat := by
  obtain ⟨hist, σ, hrun, hσ⟩ := exists_run .roundRobin gapRun
    (fun hist σ => decide ((σ.proc 1).state = .running ∧ bornInGap 1 hist = true))
    (by decide +kernel)
  obtain ⟨hstate, hgap⟩ := of_decide_eq_true hσ
  exact ⟨hist, σ, hrun, hstate, hgap, (runtime_le hrun (by simp [hstate])).1.2⟩

/-- There the process has run for one tick, while none has begun since its creation. -/
theorem not_runtime_le :
    ¬ ∀ (hist : List (Kernel 1 × Label 1)) (σ : Kernel 1), (kernel .roundRobin 1).Run hist σ →
      ∀ p, (σ.proc p).state ≠ .unused →
        0 ≤ (σ.proc p).runtime ∧ (σ.proc p).runtime ≤ σ.ticks - (σ.proc p).ctime := by
  intro hall
  obtain ⟨hist, σ, hrun, hσ⟩ := exists_run .roundRobin gapRun
    (fun _ σ => decide ((σ.proc 1).state = .running ∧ (σ.proc 1).runtime = 1 ∧
      (σ.proc 1).ctime = 1 ∧ σ.ticks = 1)) (by decide +kernel)
  obtain ⟨hstate, hruntime, hctime, hticks⟩ := of_decide_eq_true hσ
  have := (hall hist σ hrun 1 (by simp [hstate])).2
  rw [hruntime, hctime, hticks] at this
  omega

/-! ## What `waitx` reports -/

/-- The tick in which `allocproc` last took the entry `p`. -/
def bornTick (p : Slot) : List (Kernel n × Label n) → ℕ
  | [] => 0
  | (σ, l) :: hist =>
    match l.2 with
    | .alloc q => if q = p then σ.ticks else bornTick p hist
    | _ => bornTick p hist

/-- How many ticks were charged while `p` was `RUNNING`, since `allocproc` last took the entry. -/
def runningTicks (p : Slot) : List (Kernel n × Label n) → ℕ
  | [] => 0
  | (σ, l) :: hist =>
    match l.2 with
    | .alloc q => if q = p then 0 else runningTicks p hist
    | .charge =>
      if (σ.proc p).state = .running then runningTicks p hist + 1 else runningTicks p hist
    | _ => runningTicks p hist

/-- `ctime` and `runtime` of an entry in use are the tick of its creation and the ticks it has
spent `RUNNING`. -/
theorem ctime_runtime_of_run (hrun : (kernel b n).Run hist σ) (hp : (σ.proc p).state ≠ .unused) :
    (σ.proc p).ctime = bornTick p hist ∧ (σ.proc p).runtime = runningTicks p hist := by
  induction hrun with
  | init h =>
    obtain ⟨below, rfl⟩ := h
    simp [initial, proc, Proc.zero] at hp
  | @step hist σ σ' l hrun hstep ih =>
    have hlife := (step_core hstep).life (inv_core hrun) p
    obtain ⟨⟨c, a⟩, e⟩ := l
    change (σ'.core.procs p).state ≠ .unused at hp
    change (σ'.core.procs p).ctime = _ ∧ (σ'.core.procs p).runtime = _
    change (σ.core.procs p).state ≠ .unused →
      (σ.core.procs p).ctime = _ ∧ (σ.core.procs p).runtime = _ at ih
    generalize σ'.core.procs p = t at hlife hp
    dsimp only [bornTick, runningTicks]
    cases hlife with
    | keep he ht =>
      rw [ht.ctime, ht.runtime]
      have hrest := ih fun hu => hp (ht.state.eq_unused_iff.mpr hu)
      cases e with
      | alloc q =>
        have hq : q ≠ p := by simpa [Event.marks] using he
        simpa [hq] using hrest
      | charge => cases he
      | _ => exact hrest
    -- both counts start again
    | alloc => simp [Task.allocate, core]
    | abandon | reap => exact absurd rfl hp
    | dispatch hstate | exit hstate | fault hstate => exact ih (by simp [hstate])
    | kill =>
      refine ih fun hu => hp ?_
      simp [hu]
    | charge =>
      obtain ⟨hctime, hruntime⟩ := ih hp
      refine ⟨hctime, ?_⟩
      rw [Task.charge]
      by_cases hstate : (σ.core.procs p).state = .running
      · have hstate' : (σ.proc p).state = .running := hstate
        simp only [hstate, hstate', if_true, hruntime]
        push_cast
        rfl
      · have hstate' : (σ.proc p).state ≠ .running := hstate
        simp only [hstate, hstate', if_false, hruntime]

theorem ticks_le_of_step (hrun : (kernel b n).Run hist σ) (hstep : (kernel b n).step σ l σ') :
    σ.ticks ≤ σ'.ticks := by
  obtain ⟨⟨c, a⟩, e⟩ := l
  change σ.core.ticks ≤ σ'.core.ticks
  cases clock_step hrun hstep with
  | tick => omega
  | charge hticks | other _ hticks => rw [hticks]

/-- From its exit until it is reaped a process is a zombie, and its record is that of its life up
to the exit. -/
theorem zombie_of_exit {later : List (Kernel n × Label n)}
    (hrun : (kernel b n).Run (later ++ (σe, (ce, .exit p)) :: hist) σ)
    (hlater : ∀ x ∈ later, x.2.2.reaps p = false) :
    (σ.proc p).state = .zombie ∧ (σ.proc p).ctime = bornTick p hist ∧
      (σ.proc p).runtime = runningTicks p hist ∧ σe.ticks ≤ σ.ticks := by
  obtain ⟨c, a⟩ := ce
  -- by induction on the steps after the exit, none of which reaps `p`
  induction later generalizing σ with
  | nil =>
    cases hrun with
    | step hrun hstep =>
      have hlife := (step_core hstep).life (inv_core hrun) p
      have hticks := ticks_le_of_step hrun hstep
      change (σ.core.procs p).state = .zombie ∧ (σ.core.procs p).ctime = _ ∧
        (σ.core.procs p).runtime = _ ∧ _
      generalize σ.core.procs p = t at hlife
      cases hlife with
      | keep he => simp [Event.marks] at he
      | exit hstate =>
        have hlive : (σe.proc p).state ≠ .unused := by
          intro hunused
          cases hstate.symm.trans hunused
        obtain ⟨hctime, hruntime⟩ := ctime_runtime_of_run hrun hlive
        exact ⟨rfl, hctime, hruntime, hticks⟩
  | cons x later ih =>
    cases hrun with
    | @step _ σ₁ _ l hrun hstep =>
      obtain ⟨hzombie, hctime, hruntime, hle⟩ :=
        ih (fun y hy => hlater y (List.mem_cons_of_mem _ hy)) hrun
      have hreaps : l.2.reaps p = false := hlater _ List.mem_cons_self
      have hlife := (step_core hstep).life (inv_core hrun) p
      have hticks := hle.trans (ticks_le_of_step hrun hstep)
      rw [← hctime, ← hruntime]
      change (σ.core.procs p).state = .zombie ∧ (σ.core.procs p).ctime = (σ₁.core.procs p).ctime ∧
        (σ.core.procs p).runtime = (σ₁.core.procs p).runtime ∧ _
      change (σ₁.core.procs p).state = .zombie at hzombie
      obtain ⟨⟨c, a⟩, e⟩ := l
      generalize σ.core.procs p = t at hlife
      cases hlife with
      | keep _ ht => exact ⟨ht.state.eq_zombie_iff.mpr hzombie, ht.ctime, ht.runtime, hticks⟩
      -- the steps that still touch a zombie do not touch its record
      | kill => exact ⟨by simp [hzombie], rfl, rfl, hticks⟩
      | charge => exact ⟨hzombie, rfl, by simp [Task.charge, hzombie], hticks⟩
      | reap => simp [Event.reaps] at hreaps
      | alloc hp | dispatch hp | exit hp | fault hp | abandon _ _ hp => simp [hzombie] at hp

/-- The values that `waitx` stores when it reaps `p`. -/
theorem waitx_times (hrun : (kernel b n).Run hist σ) {c : CpuId n} {a : Action} {q : Slot}
    {pid : ℤ} (hstep : σ.step b (c, a) = some (σ', .reap q p pid (some times))) :
    times = (σ.proc p).waitxTimes σ.ticks := by
  have hlife := (step_core (l := ((c, a), _)) hstep).life (inv_core hrun) p
  generalize he : Event.reap q p pid (some times) = e at hlife
  generalize σ'.core.procs p = t at hlife
  cases hlife with
  | keep hmarks =>
    subst he
    simp [Event.marks] at hmarks
  | @reap _ _ call =>
    obtain ⟨-, -, -, htimes⟩ := Event.reap.inj he
    cases call with
    | wait => cases htimes
    | waitx => exact Option.some.inj htimes
  | _ => cases he

/-- A patched waiting time is the waiting time up to an earlier tick only if the two ticks are
the same and there is nothing to patch. -/
theorem patched_eq_iff {ticks etime : ℤ} (ctime runtime : ℤ) (h : etime ≤ ticks) :
    (if ticks - ctime - runtime < 0 then -1 * (ticks - ctime - runtime)
      else ticks - ctime - runtime) = etime - ctime - runtime ↔
      ticks = etime ∧ runtime ≤ etime - ctime := by
  split <;> constructor <;> intro h' <;> omega

/-- A run in which `p` exits in the state `σe`, after the steps `hist`, and which ends in `σ` with
a `waitx` that reaps it and stores `times` as `(*wtime, *rtime)`. -/
def ReapedByWaitx (b : Build) (hist : List (Kernel n × Label n)) (σe : Kernel n)
    (ce : CpuId n × Action) (p : Slot) (σ : Kernel n) (times : ℤ × ℤ) : Prop :=
  ∃ later c a q pid σ', (kernel b n).Run (later ++ (σe, (ce, .exit p)) :: hist) σ ∧
    (∀ x ∈ later, x.2.2.reaps p = false) ∧
    σ.step b (c, a) = some (σ', .reap q p pid (some times))

theorem ReapedByWaitx.times_eq (h : ReapedByWaitx b hist σe ce p σ times) :
    times.2 = runningTicks p hist ∧ σe.ticks ≤ σ.ticks ∧
      times.1 = if (σ.ticks : ℤ) - bornTick p hist - runningTicks p hist < 0
        then -1 * ((σ.ticks : ℤ) - bornTick p hist - runningTicks p hist)
        else σ.ticks - bornTick p hist - runningTicks p hist := by
  obtain ⟨later, c, a, q, pid, σ', hrun, hlater, hreap⟩ := h
  obtain ⟨-, hctime, hruntime, hle⟩ := zombie_of_exit hrun hlater
  rw [waitx_times hrun hreap, Task.waitxTimes, hctime, hruntime]
  exact ⟨rfl, hle, rfl⟩

/-- Two runs that agree up to the exit of `p` report the same times, and those of its life, exactly
if both reap it in the tick of its exit and it was not charged for more ticks than began in its
life. -/
theorem waitx_times_iff {σe σ₁ σ₂ : Kernel n} {ce : CpuId n × Action} {times₁ times₂ : ℤ × ℤ}
    (h₁ : ReapedByWaitx b hist σe ce p σ₁ times₁) (h₂ : ReapedByWaitx b hist σe ce p σ₂ times₂) :
    (times₁ = times₂ ∧
      times₁ = ((σe.ticks : ℤ) - bornTick p hist - runningTicks p hist, ↑(runningTicks p hist))) ↔
      σ₁.ticks = σe.ticks ∧ σ₂.ticks = σe.ticks ∧
        (runningTicks p hist : ℤ) ≤ σe.ticks - bornTick p hist := by
  obtain ⟨hr₁, hle₁, hw₁⟩ := h₁.times_eq
  obtain ⟨hr₂, hle₂, hw₂⟩ := h₂.times_eq
  have hiff₁ := patched_eq_iff (bornTick p hist) (runningTicks p hist) (Int.ofNat_le.mpr hle₁)
  have hiff₂ := patched_eq_iff (bornTick p hist) (runningTicks p hist) (Int.ofNat_le.mpr hle₂)
  rw [← hw₁] at hiff₁
  rw [← hw₂] at hiff₂
  constructor
  · rintro ⟨rfl, htimes⟩
    have hw := congrArg Prod.fst htimes
    obtain ⟨hticks₁, hbound⟩ := hiff₁.mp hw
    obtain ⟨hticks₂, -⟩ := hiff₂.mp hw
    exact ⟨Int.ofNat_inj.mp hticks₁, Int.ofNat_inj.mp hticks₂, hbound⟩
  · rintro ⟨hticks₁, hticks₂, hbound⟩
    have hw₁ := hiff₁.mpr ⟨congrArg Nat.cast hticks₁, hbound⟩
    have hw₂ := hiff₂.mpr ⟨congrArg Nat.cast hticks₂, hbound⟩
    refine ⟨Prod.ext (hw₁.trans hw₂.symm) (hr₁.trans hr₂.symm), Prod.ext hw₁ hr₁⟩

/-- Execute actions after the exit of `p`, and then a `waitx` on CPU `c`: the state before it and
the values it stores, if it is the first to reap `p`. -/
def waitxAfter (b : Build) (p : Slot) (c : CpuId n) (σ : Kernel n) (as : List (CpuId n × Action)) :
    Option (Kernel n × (ℤ × ℤ)) := do
  let r ← exec (step b) [] σ as
  guard (∀ x ∈ r.1, x.2.2.reaps p = false)
  match r.2.step b (c, .wait .waitx) with
  | some (_, .reap _ q _ (some times)) => if q = p then some (r.2, times) else none
  | _ => none

theorem reapedByWaitx_of_waitxAfter {σ₀ : Kernel n} {c : CpuId n} {as : List (CpuId n × Action)}
    (hrun : (kernel b n).Run ((σe, (ce, .exit p)) :: hist) σ₀)
    (h : waitxAfter b p c σ₀ as = some (σ, times)) : ReapedByWaitx b hist σe ce p σ times := by
  obtain ⟨⟨later, σ₁⟩, hexec, hguard⟩ := Option.bind_eq_some_iff.mp h
  obtain ⟨hlater, hstep⟩ := guard_bind_eq_some.mp hguard
  have hrun₁ : (kernel b n).Run (later ++ (σe, (ce, .exit p)) :: hist) σ₁ :=
    run_of_exec [] hrun hexec
  clear hguard
  -- the last step must be a `waitx` that reaps `p`
  split at hstep
  next σ' parent q pid times' hreap =>
    split_ifs at hstep with hq
    cases hstep
    rw [hq] at hreap
    exact ⟨later, c, _, parent, pid, σ', hrun₁, hlater, hreap⟩
  · cases hstep

/-- Init forks a child and sleeps, and the child is dispatched. -/
def childRuns : List (CpuId 0 × Action) :=
  startInit ++ forkOn 0 ++ onCpu 0 [.sleep (.other 0), .swtch, .switched, .select, .resume]

/-- After the exit of the child, what `delay` lists happens, and init is woken and dispatched. -/
def initReturns (delay : List Action) : List (CpuId 0 × Action) :=
  onCpu 0 ([.swtch, .switched, .select] ++ delay ++
    [.wakeup (.other 0), .acquire, .select, .resume])

/-- A timer interrupt in the scheduler. -/
def idleTick : List Action :=
  [.timer false, .changeTicks, .wakeupTicks, .check]

/-- The child exits, and init reaps it at once, or after a tick: the test that the first is in the
tick of the exit and stores other values than the second. -/
def delayShows (hist : List (Kernel 0 × Label 0)) (σe : Kernel 0) : Bool :=
  (σe.step .roundRobin (0, .exit)).any fun r₀ => decide (r₀.2 = .exit 1) &&
    (waitxAfter .roundRobin 1 0 r₀.1 (initReturns [])).any fun r₁ =>
      (waitxAfter .roundRobin 1 0 r₀.1 (initReturns idleTick)).any fun r₂ =>
        decide (r₁.1.ticks = σe.ticks ∧
          (runningTicks 1 hist : ℤ) ≤ σe.ticks - bornTick 1 hist ∧ r₁.2 ≠ r₂.2)

theorem exists_reapedByWaitx :
    ∃ (hist : List (Kernel 0 × Label 0)) (σe σ₁ σ₂ : Kernel 0) (times₁ times₂ : ℤ × ℤ),
      ReapedByWaitx .roundRobin hist σe (0, .exit) 1 σ₁ times₁ ∧
      ReapedByWaitx .roundRobin hist σe (0, .exit) 1 σ₂ times₂ ∧
      σ₁.ticks = σe.ticks ∧ (runningTicks 1 hist : ℤ) ≤ σe.ticks - bornTick 1 hist ∧
      times₁ ≠ times₂ := by
  obtain ⟨hist, σe, hrun, hσ⟩ := exists_run .roundRobin childRuns delayShows (by decide +kernel)
  obtain ⟨⟨σ₀, e⟩, hexit, hσ⟩ := (Option.any_eq_true _ _).mp hσ
  obtain ⟨he, hσ⟩ := Bool.and_eq_true_iff.mp hσ
  obtain ⟨⟨σ₁, times₁⟩, hwait₁, hσ⟩ := (Option.any_eq_true _ _).mp hσ
  obtain ⟨⟨σ₂, times₂⟩, hwait₂, hσ⟩ := (Option.any_eq_true _ _).mp hσ
  obtain ⟨hticks, hbound, hne⟩ := of_decide_eq_true hσ
  obtain rfl : e = .exit 1 := of_decide_eq_true he
  have hrun₀ : (kernel .roundRobin 0).Run ((σe, ((0, .exit), .exit 1)) :: hist) σ₀ :=
    hrun.step hexit
  exact ⟨hist, σe, σ₁, σ₂, times₁, times₂, reapedByWaitx_of_waitxAfter hrun₀ hwait₁,
    reapedByWaitx_of_waitxAfter hrun₀ hwait₂, hticks, hbound, hne⟩

/-- A parent that reaps its child at once learns the child's times. -/
theorem waitx_times_prompt :
    ∃ (hist : List (Kernel 0 × Label 0)) (σe σ₁ : Kernel 0) (times : ℤ × ℤ),
      ReapedByWaitx .roundRobin hist σe (0, .exit) 1 σ₁ times ∧
      times = ((σe.ticks : ℤ) - bornTick 1 hist - runningTicks 1 hist, ↑(runningTicks 1 hist)) := by
  obtain ⟨hist, σe, σ₁, -, times, -, hreap, -, hticks, hbound, -⟩ := exists_reapedByWaitx
  exact ⟨hist, σe, σ₁, times, hreap,
    ((waitx_times_iff hreap hreap).mpr ⟨hticks, hticks, hbound⟩).2⟩

/-- The values that `waitx` stores depend on how long the parent takes to call it. -/
theorem not_waitx_times :
    ¬ ∀ (hist : List (Kernel 0 × Label 0)) (σe σ₁ σ₂ : Kernel 0) (times₁ times₂ : ℤ × ℤ),
      ReapedByWaitx .roundRobin hist σe (0, .exit) 1 σ₁ times₁ →
      ReapedByWaitx .roundRobin hist σe (0, .exit) 1 σ₂ times₂ →
      times₁ = times₂ ∧
        times₁ = ((σe.ticks : ℤ) - bornTick 1 hist - runningTicks 1 hist,
          ↑(runningTicks 1 hist)) := by
  intro hall
  obtain ⟨hist, σe, σ₁, σ₂, times₁, times₂, h₁, h₂, -, -, hne⟩ := exists_reapedByWaitx
  exact hne (hall hist σe σ₁ σ₂ times₁ times₂ h₁ h₂).1

end Kernel

end Xv6
