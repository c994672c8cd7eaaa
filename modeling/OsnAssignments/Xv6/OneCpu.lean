import OsnAssignments.Xv6.Life

/-!
# The process on the only CPU

On a machine with one CPU, a step that neither charges a tick, ends a slice nor belongs to the
scheduler leaves the process on the CPU where it is (`Core.Goes`), or puts it to sleep or ends it
(`Core.Stops`). `Trap.Move` says how such a step moves the CPU in `trap`.
-/

namespace Xv6

open Transition

/-- How an action that decides nothing about slices moves a CPU in `trap`. -/
inductive Trap.Move (a : Action) : Trap → Trap → Prop
  | refl (t : Trap) : Move a t t
  | tick (user : Bool) (ha : a = .timer user) : Move a .none (.ticked user)
  | interrupt (user : Bool) : Move a .none (.check false user)
  | resume (user : Bool) : Move a .none (.recheck user)
  /-- A process that slept in `exit` goes on there. -/
  | reenter : Move a .none .exit
  | woken (user : Bool) : Move a (.charged user) (.check true user)
  | preempt (timer user : Bool) (t : Trap) : Move a (.preempt timer user) t
  | done (user : Bool) : Move a (.recheck user) .none
  | killed (user : Bool) (ha : a = .recheck) : Move a (.recheck user) .exit

/-- The actions that charge a tick, end a slice or belong to the scheduler. -/
def Action.decides : Action → Bool
  | .select | .switched | .changeTicks | .check | .yield => true
  | _ => false

/-- The CPU is executing a process. -/
def Ctl.inProcess : Ctl → Bool
  | .resumed | .process => true
  | _ => false

namespace Core

variable {b : Build} {s s' : Core 0} {a : Action} {e : Event} {p : Slot}
variable {n : ℕ} {t : Task}

/-- The process on the CPU, if there is one, goes on as before. -/
structure Goes (a : Action) (s s' : Core 0) : Prop where
  proc : (s'.cpus 0).proc = (s.cpus 0).proc
  trap : Trap.Move a (s.cpus 0).trap (s'.cpus 0).trap
  state : ∀ p, (s.cpus 0).proc = some p → (s'.procs p).state = (s.procs p).state
  parked : ∀ p, (s.cpus 0).proc = some p → (s.procs p).state ≠ .running → s'.procs p = s.procs p

/-- The process on the CPU goes to sleep or exits. -/
structure Stops (s s' : Core 0) (p : Slot) : Prop where
  proc : (s.cpus 0).proc = some p
  proc' : (s'.cpus 0).proc = some p
  running : (s.procs p).state = .running
  trap' : (s'.cpus 0).trap = .none
  killed : (s'.procs p).killed = (s.procs p).killed
  trap : (s.cpus 0).trap = .none ∨ (s.cpus 0).trap = .exit
  state : (s'.procs p).state = .sleeping ∨ (s'.procs p).state = .zombie

theorem Goes.of_none (hproc : (s.cpus 0).proc = none) (hproc' : (s'.cpus 0).proc = none)
    (htrap : Trap.Move a (s.cpus 0).trap (s'.cpus 0).trap) : Goes a s s' := by
  have hne (p : Slot) : (s.cpus 0).proc ≠ some p := by simp [hproc]
  exact ⟨hproc'.trans hproc.symm, htrap, fun p hp => absurd hp (hne p),
    fun p hp => absurd hp (hne p)⟩

theorem Control.running_of_inProcess (h : s.Control) (hctl : (s.cpus 0).ctl.inProcess = true)
    (hp : (s.cpus 0).proc = some p) : (s.procs p).state = .running := by
  rcases (h.fits 0).state hp with ⟨hrun, -⟩ | ⟨-, hlocked⟩
  · exact hrun
  · cases hctl' : (s.cpus 0).ctl with
    | resumed => exact (h.of_resumed hctl' hp).2.1
    | process => exact (h.of_runs hctl' hp).2
    | _ =>
      rw [hctl'] at hctl
      cases hctl

theorem Goes.of_inProcess (h : s.Inv) (h' : s'.Inv) (hctl : (s.cpus 0).ctl.inProcess = true)
    (hctl' : (s'.cpus 0).ctl.inProcess = true) (hproc : (s'.cpus 0).proc = (s.cpus 0).proc)
    (htrap : Trap.Move a (s.cpus 0).trap (s'.cpus 0).trap) : Goes a s s' := by
  have hrun (p : Slot) (hp : (s.cpus 0).proc = some p) : (s.procs p).state = .running :=
    h.control.running_of_inProcess hctl hp
  refine ⟨hproc, htrap, fun p hp => ?_, fun p hp hstop => absurd (hrun p hp) hstop⟩
  rw [hrun p hp]
  exact h'.control.running_of_inProcess hctl' (hproc.trans hp)

/-- The CPU is outside the lock, in the scheduler or in a process, and only `trap` moves on. -/
theorem Goes.of_unlocked (h : s.Inv) (h' : s'.Inv)
    (hctl : (s.cpus 0).ctl = .idle ∨ (s.cpus 0).ctl = .process)
    (hctl' : (s'.cpus 0).ctl = (s.cpus 0).ctl) (hproc : (s'.cpus 0).proc = (s.cpus 0).proc)
    (htrap : Trap.Move a (s.cpus 0).trap (s'.cpus 0).trap) : Goes a s s' := by
  rcases hctl with hidle | hrun
  · have hnone := ((h.control.fits 0).off (by rw [hidle]; rfl)).1
    exact .of_none hnone (hproc.trans hnone) htrap
  · exact .of_inProcess h h' (by rw [hrun]; rfl) (by rw [hctl', hrun]; rfl) hproc htrap

/-- A system call, or another piece of code of the process, that does not touch the CPU. -/
theorem Goes.of_runs (h : s.Inv) (h' : s'.Inv) (hrun : s.Runs 0 p) (hcpus : s'.cpus = s.cpus) :
    Goes a s s' :=
  .of_inProcess h h' (by rw [hrun.1]; rfl) (by rw [hcpus, hrun.1]; rfl) (by rw [hcpus])
    (by rw [hcpus]; exact .refl _)

/-- One pass of the loop of `wait` or `waitx`, by the process on the CPU. -/
theorem WaitStep.goes {s₀ : Core 0} {call : WaitCall} (h : s₀.Inv) (h' : s'.Inv)
    (hproc : (s₀.cpus 0).proc = some p) (htrap : (s₀.cpus 0).trap = .none)
    (hctl : (s₀.cpus 0).ctl.inProcess = true) (hcpus : s.cpus = s₀.cpus)
    (hkilled : (s.procs p).killed = (s₀.procs p).killed) (hwait : WaitStep call s 0 p e s') :
    Goes a s₀ s' ∨ Stops s₀ s' p := by
  cases hwait with
  | reap =>
    refine .inl (.of_inProcess h h' hctl ?_ ?_ ?_) <;> rw [cpus_unlock, modify, hcpus]
    · rfl
    · exact .refl _
  | noChild =>
    refine .inl (.of_inProcess h h' hctl ?_ ?_ ?_) <;> rw [cpus_unlock, hcpus]
    · rfl
    · exact .refl _
  | sleep =>
    have hrun := h.control.running_of_inProcess hctl hproc
    refine .inr ⟨hproc, ?_, hrun, ?_, ?_, .inl htrap, .inl ?_⟩
    · rw [cpus_sched, modify, hcpus]
      exact hproc
    · rw [cpus_sched]
    · rw [procs_sched, procs_modify_self]
      exact hkilled
    · rw [procs_sched, procs_modify_self]

/-- A step that decides nothing about slices leaves the process on the CPU alone or stops it. -/
theorem Step.goes (h : s.Inv) (hstep : Step b s ((0, a), e) s') (ha : a.decides = false) :
    Goes a s s' ∨ ∃ p, Stops s s' p := by
  have h' := h.step hstep
  have htrap {cur : Slot} (hcall : s.Calls 0 cur ∨
      (s.cpus 0).ctl = .process ∧ (s.cpus 0).trap = .exit ∧ (s.cpus 0).proc = some cur) :
      (s.cpus 0).trap = .none ∨ (s.cpus 0).trap = .exit :=
    hcall.imp (fun hcall => hcall.1.2.1) fun hcall => hcall.2.1
  cases hstep with
  | bootAlloc hctl | bootFull hctl | bootKalloc hctl | bootAbandon hctl =>
    have hnone := ((h.control.fits 0).off (by rw [hctl]; rfl)).1
    refine .inl (.of_none hnone ?_ ?_) <;> rw [cpus_setCtl]
    · exact hnone
    · exact .refl _
  | bootPublish hctl =>
    have hnone := ((h.control.fits 0).off (by rw [hctl]; rfl)).1
    refine .inl (.of_none hnone ?_ ?_) <;> rw [cpus_modifyCpu_self]
    exact .refl _
  | acquire hctl =>
    have hnone := ((h.control.fits 0).off (by rw [hctl]; rfl)).1
    refine .inl (.of_none hnone ?_ ?_) <;> rw [cpus_modifyCpu_self]
    · exact hnone
    · exact .refl _
  | dispatch | endPass | switchedLoop | switchedIdle | yield | charge => cases ha
  | resumeForkret hctl =>
    refine .inl (.of_inProcess h h' (by rw [hctl]; rfl) ?_ ?_ ?_) <;> rw [cpus_unlock]
    · rfl
    · exact .refl _
  | resumeYield hctl hlock hproc =>
    obtain ⟨-, -, htrap⟩ := h.control.of_resumed hctl hproc
    refine .inl (.of_inProcess h h' (by rw [hctl]; rfl) ?_ ?_ ?_) <;>
      rw [cpus_setTrap, cpus_unlock]
    · rfl
    · rw [htrap]
      exact .resume _
  | @resumeSleep c cur exiting hctl hlock hproc =>
    obtain ⟨-, -, htrap⟩ := h.control.of_resumed hctl hproc
    refine .inl (.of_inProcess h h' (by rw [hctl]; rfl) ?_ ?_ ?_) <;>
      rw [cpus_setTrap, cpus_unlock, modify]
    · rfl
    · rw [htrap]
      cases exiting with
      | false => exact .refl _
      | true => exact .reenter
  | @resumeWait _ c cur call e hctl hlock hproc hctx hwait =>
    obtain ⟨-, -, htrap⟩ := h.control.of_resumed hctl hproc
    have hgoes := WaitStep.goes (a := .resume)
      (s := s.modify cur fun t => { t with chan := .null }) h h' hproc htrap
      (by rw [hctl]; rfl) rfl (by rw [procs_modify_self]) hwait
    exact hgoes.imp_right fun hstop => ⟨cur, hstop⟩
  | swtch =>
    refine .inl ⟨?_, ?_, fun _ _ => rfl, fun _ _ _ => rfl⟩ <;> rw [cpus_modifyCpu_self]
    exact .refl _
  | fork hcall | forkFull hcall | killMiss hcall | kill hcall | setPriorityMiss hcall
  | setPriority hcall => exact .inl (.of_runs h h' hcall.1 rfl)
  | kalloc hrun | kallocFail hrun | copyuvm hrun | copyuvmFail hrun | publish hrun =>
    exact .inl (.of_runs h h' hrun rfl)
  | @exit c cur hcall =>
    obtain ⟨hctl, hproc, -⟩ := h.of_exit hcall
    have hrun := (h.control.of_runs hctl hproc).2
    obtain ⟨parent, hself⟩ := procs_exitTable_self cur s
    refine .inr ⟨cur, hproc, ?_, hrun, ?_, ?_, htrap hcall, .inr ?_⟩
    · rw [cpus_sched]
      exact hproc
    · rw [cpus_sched]
    · rw [procs_sched, hself]
    · rw [procs_sched, hself]
  | wait hcall hlock hwait =>
    have hctl : (s.cpus 0).ctl.inProcess = true := by
      rw [hcall.1.1]
      rfl
    exact (hwait.goes h h' hcall.1.2.2 hcall.1.2.1 hctl rfl rfl).imp_right fun hstop => ⟨_, hstop⟩
  | @sleep c cur o exiting hcall =>
    obtain ⟨hctl, hproc, -⟩ := h.of_exit hcall
    have hrun := (h.control.of_runs hctl hproc).2
    refine .inr ⟨cur, hproc, ?_, hrun, ?_, ?_, htrap hcall, .inl ?_⟩
    · rw [cpus_sched]
      exact hproc
    · rw [cpus_sched]
    · rw [procs_sched, procs_modify_self]
    · rw [procs_sched, procs_modify_self]
  | wakeup hcall =>
    have hctl := hcall.elim And.right fun htrap => h.control.trap 0 (by simp [htrap])
    exact .inl (.of_unlocked h h' hctl rfl rfl (.refl _))
  | tick hcall =>
    refine .inl (.of_unlocked h h' hcall.2 ?_ ?_ ?_) <;> rw [cpus_setTrap]
    rw [hcall.1]
    exact .tick _ rfl
  | wakeupTicks htrap =>
    refine .inl (.of_unlocked h h' (h.control.trap 0 (by rw [htrap]; simp)) ?_ ?_ ?_) <;>
      rw [cpus_setTrap]
    · rfl
    · rfl
    · rw [htrap]
      exact .woken _
  | fault hcall =>
    refine .inl (.of_unlocked h h' (.inr hcall.1.1) ?_ ?_ ?_) <;> rw [cpus_setTrap]
    · rfl
    · rfl
    · rw [hcall.1.2.1]
      exact .interrupt _
  | @trap c a t htrap =>
    cases htrap with
    | timer hcall huser hc => exact absurd rfl hc
    | device hcall =>
      refine .inl (.of_unlocked h h' hcall.2 ?_ ?_ ?_) <;> rw [cpus_setTrap]
      rw [hcall.1]
      exact .interrupt _
    | idle | killed | decide => cases ha
    | preempt htrap | recheck htrap | recheckKilled htrap =>
      refine .inl (.of_unlocked h h' (h.control.trap 0 (by rw [htrap]; simp)) ?_ ?_ ?_) <;>
        rw [cpus_setTrap]
      rw [htrap]
      first | exact .preempt .. | exact .done _ | exact .killed _ rfl

/-- Such a step reports neither a dispatch nor a tick. -/
theorem Step.event {s s' : Core n} {c : CpuId n} (hstep : Step b s ((c, a), e) s')
    (ha : a.decides = false) : (∀ q, e ≠ .dispatch q) ∧ e ≠ .charge := by
  cases hstep with
  | dispatch | endPass | switchedLoop | switchedIdle | yield | charge => cases ha
  | resumeWait _ _ _ _ hwait | wait _ _ hwait => cases hwait <;> exact ⟨nofun, nofun⟩
  | _ => exact ⟨nofun, nofun⟩

/-- Entries are allocated by `userinit` and `fork` only. -/
theorem Step.of_alloc {s s' : Core n} {c : CpuId n}
    (hstep : Step b s ((c, a), .alloc p) s') : a = .bootAlloc ∨ a = .fork := by
  cases hstep with
  | bootAlloc => exact .inl rfl
  | fork => exact .inr rfl
  | resumeWait _ _ _ _ hwait | wait _ _ hwait => cases hwait

/-- A process that is killed while it runs stays so. -/
theorem Life.killed_of_running {s : Core n} {c : CpuId n}
    (h : Life b s c p a e t) (hrun : (s.procs p).state = .running)
    (hkilled : (s.procs p).killed = true) : t.killed = true := by
  cases h with
  | keep he ht => rw [ht.killed, hkilled]
  | alloc hp | abandon _ _ hp | dispatch hp | reap hp => cases hp.symm.trans hrun
  | exit | charge => exact hkilled
  | kill | fault => rfl

theorem Life.runtime_of_alloc {s : Core n} {c : CpuId n}
    (h : Life b s c p a (.alloc p) t) : t.runtime = 0 := by
  cases h with
  | keep he => simp [Event.marks] at he
  | alloc => rfl

/-- The running time changes when a tick is charged and when the entry is allocated. -/
theorem Life.runtime_eq {s : Core n} {c : CpuId n} (h : Life b s c p a e t)
    (hcharge : e ≠ .charge) (halloc : e ≠ .alloc p) : t.runtime = (s.procs p).runtime := by
  cases h with
  | keep he ht => exact ht.runtime
  | alloc => exact absurd rfl halloc
  | charge => exact absurd rfl hcharge
  | _ => rfl

end Core

end Xv6
