import OsnAssignments.Xv6.ExitWait

/-!
# Processes over whole runs

What `ptable.lock` and the states of the process table are for. The lock is handed from one kernel
stack to the next at `swtch`, so that no two CPUs ever execute on the same stack; and each entry of
the table moves through the states of a process in their order, a `RUNNING` one only by a step of
its own CPU.
-/

namespace Xv6

open Transition

namespace Core

variable {n : ℕ} {s s' : Core n} {b : Build} {c d : CpuId n} {l : Label n} {p : Slot}

/-- A step on one CPU leaves the others where they are. -/
theorem Step.cpus_of_ne (hstep : Step b s l s') (hd : d ≠ l.1.1) : s'.cpus d = s.cpus d := by
  cases hstep with
  | resumeWait _ _ _ _ hwait | wait _ _ hwait => cases hwait <;> exact Function.update_of_ne hd ..
  | dispatch => exact cpus_dispatch_of_ne hd ..
  | resumeYield | resumeSleep | switchedIdle =>
    exact (Function.update_of_ne hd ..).trans (Function.update_of_ne hd ..)
  | _ => first | rfl | exact Function.update_of_ne hd ..

/-- A CPU whose process is `RUNNING` has switched to it. -/
theorem Control.switched_to (h : s.Control) (hc : (s.cpus c).proc = some p)
    (hp : (s.procs p).state = .running) :
    (s.cpus c).ctl = .resumed ∨ (s.cpus c).ctl = .process := by
  rcases (h.fits c).state hc with ⟨-, hctl⟩ | ⟨hpark, -⟩
  · exact hctl
  · simp [hp, ProcState.parked] at hpark

/-- A process is taken off its CPU only by a step of that CPU. -/
theorem Step.proc_of_leaves (h : s.Inv) (hstep : Step b s l s')
    (hp : (s.procs p).state = .running) (hp' : (s'.procs p).state ≠ .running) :
    (s.cpus l.1.1).proc = some p := by
  obtain ⟨d, hd⟩ := h.control.running p hp
  by_cases hdc : d = l.1.1
  · exact hdc ▸ hd
  -- another CPU stays where it is, and there it runs `p`
  · have hcpu := hstep.cpus_of_ne hdc
    have hctl := h.control.switched_to hd hp
    have hfits := (h.step hstep).control.fits d
    rw [hcpu] at hfits
    exact absurd (hfits.running hctl hd).2 hp'

/-- The changes of an entry's state, each with the step that makes it. -/
def Change (s : Core n) (l : Label n) (p : Slot) : ProcState → ProcState → Prop
  | .unused, .embryo => l.2 = .alloc p
  | .embryo, .unused => l.1.2.fails = true ∧ s.filling l.1.1 = some p
  | .embryo, .runnable | .sleeping, .runnable => True
  | .runnable, .running => l.2 = .dispatch p
  | .running, .runnable | .running, .sleeping => (s.cpus l.1.1).proc = some p
  | .running, .zombie => l.2 = .exit p ∧ (s.cpus l.1.1).proc = some p
  | .zombie, .unused => ∃ q pid times, l.2 = .reap q p pid times ∧ (s.procs p).parent = some q
  | x, y => x = y

end Core

namespace Kernel

variable {n : ℕ} {b : Build} {hist : List (Kernel n × Label n)} {σ σ' : Kernel n}

/-- `ptable.lock` is held by a CPU that looks for a process or is on its way to or from one; a
`RUNNING` process has its kernel stack for itself, and the scheduler switches to no stack in use. -/
theorem stacks_exclusive (hrun : (kernel b n).Run hist σ) :
    (∀ c, σ.lock = some c ↔ (σ.cpus c).ctl.locked = true) ∧
    (∀ p, (σ.proc p).state = .running →
      ∃ c, (σ.cpus c).proc = some p ∧ (σ.cpus c).stack = some p) ∧
    (∀ c d p, (σ.cpus c).stack = some p → (σ.cpus d).stack = some p → c = d) ∧
    ∀ c a p σ', σ.step b (c, a) = some (σ', .dispatch p) →
      (∀ d, (σ.cpus d).stack ≠ some p) ∧ (σ'.cpus c).stack = some p := by
  have hcontrol := (inv_core hrun).control
  refine ⟨hcontrol.lock, fun p hp => ?_, fun c d p hc hd => ?_, fun c a p σ' h => ?_⟩
  · obtain ⟨c, hc⟩ := hcontrol.running p hp
    have hctl := hcontrol.switched_to hc hp
    exact ⟨c, hc, ((hcontrol.fits c).running hctl hc).1⟩
  · exact hcontrol.injective c d p ((hcontrol.fits c).stack hc) ((hcontrol.fits d).stack hd)
  · have hstep : Core.Step b σ.core ((c, a), .dispatch p) σ'.core := step_core h
    obtain ⟨i, hσ'⟩ := hstep.of_dispatch
    refine ⟨fun d hd => ?_, ?_⟩
    · -- `p` is `RUNNABLE` and the CPU at the head of the scheduler's loop has no process
      generalize σ'.core = s' at hstep
      cases hstep with
      | dispatch hctl hlock hp =>
        have hloop := ((hcontrol.fits c).loop hctl).1
        exact hcontrol.proc_ne_of_parked (.inr hlock) (by rw [hp]; rfl)
          (fun hc => by cases hloop.symm.trans hc) d ((hcontrol.fits d).stack hd)
      | resumeWait _ _ _ _ hwait | wait _ _ hwait => cases hwait
    · have hstack := congrArg (fun s : Core n => (s.cpus c).stack) hσ'
      simpa [Core.cpus_dispatch_self] using hstack

/-- init runs on the boot CPU, while a second CPU holds the lock and looks for a process. -/
theorem stacks_exclusive_two_cpus :
    ∃ (hist : List (Kernel 1 × Label 1)) (σ : Kernel 1), (kernel .pbs 1).Run hist σ ∧
      (σ.cpus 1).ctl.locked = true ∧ σ.lock = some 1 ∧ (σ.cpus 0).stack = some 0 ∧
      ∀ d, (σ.cpus d).stack = some 0 → d = 0 := by
  obtain ⟨hist, σ, hrun, hσ⟩ := exists_run (n := 1) .pbs (startInit ++ onCpu 1 [.acquire])
    (fun _ σ => decide ((σ.cpus 1).ctl.locked = true ∧ (σ.cpus 0).stack = some 0))
    (by decide +kernel)
  obtain ⟨hctl, hstack⟩ := of_decide_eq_true hσ
  obtain ⟨hlock, -, hunique, -⟩ := stacks_exclusive hrun
  exact ⟨hist, σ, hrun, hctl, (hlock 1).mpr hctl, hstack, fun d hd => hunique d 0 0 hd hstack⟩

/-- Every step of every run takes every entry of the process table along the life of a process: from
`allocproc` through the scheduler and its own `exit` to the `wait` of its parent. -/
theorem life_cycle (hrun : (kernel b n).Run hist σ) {l : Label n} (h : (kernel b n).step σ l σ')
    (p : Slot) : σ.core.Change l p (σ.proc p).state (σ'.proc p).state := by
  have hinv := inv_core hrun
  have hstep : Core.Step b σ.core l σ'.core := step_core h
  have hlife := hstep.life hinv p
  have hleaves := hstep.proc_of_leaves (p := p) hinv
  change σ.core.Change l p (σ.core.procs p).state (σ'.core.procs p).state
  generalize σ'.core.procs p = t at hlife hleaves
  obtain ⟨⟨c, a⟩, e⟩ := l
  have hsame (x : ProcState) : σ.core.Change ((c, a), e) p x x := by cases x <;> rfl
  cases hlife with
  | keep he ht =>
    have hmoves := ht.state
    generalize (σ.core.procs p).state = x, t.state = y at hmoves hleaves
    cases hmoves with
    | refl => exact hsame x
    | wake | publish => trivial
    | yield | sleep => exact hleaves rfl (by simp)
  | alloc hp => rw [hp]; rfl
  | abandon ha hc hp => rw [hp]; exact ⟨ha, hc⟩
  | dispatch hp => rw [hp]; rfl
  | exit hp => rw [hp]; exact ⟨rfl, hleaves hp (by simp)⟩
  | @reap _ q call hp hparent => rw [hp]; exact ⟨q, _, _, rfl, hparent⟩
  | kill =>
    dsimp only
    split
    next hsleep => rw [hsleep]; trivial
    next => exact hsame _
  | fault | charge => exact hsame _

/-- init forks and waits, and the child exits. -/
theorem life_cycle_child :
    ∃ (hist : List (Kernel 0 × Label 0)) (σ σ' : Kernel 0) (l : Label 0),
      (kernel .roundRobin 0).Run hist σ ∧ (kernel .roundRobin 0).step σ l σ' ∧ l.2 = .exit 1 ∧
      σ.core.Change l 1 (σ.proc 1).state (σ'.proc 1).state := by
  obtain ⟨hist, σ, hrun, hσ⟩ := exists_run (n := 0) .roundRobin
    (startInit ++ forkOn 0 ++ onCpu 0 [.wait .wait, .swtch, .switched, .select, .resume, .exit])
    (fun hist _ => hist.any fun x => decide (x.2.2 = .exit 1)) (by decide +kernel)
  obtain ⟨x, hx, hexit⟩ := List.any_eq_true.mp hσ
  obtain ⟨hist', σ', hrun', hstep⟩ := hrun.exists_step hx
  exact ⟨hist', x.1, σ', x.2, hrun', hstep, of_decide_eq_true hexit, life_cycle hrun' hstep 1⟩

end Kernel

end Xv6
