import OsnAssignments.Xv6.Refinement

/-!
# Who runs what

The invariants that tie the CPUs to the process table, for every build: where a CPU is executing
determines whether it holds `ptable.lock` and which process it has, in which state (`Core.Control`);
an entry that a `fork` is filling in belongs to that `fork` alone (`Core.Forks`); and a process that
an interrupt found in user code is not in the middle of a `fork` (`Core.UserMode`). They are carried
through a run together, as `Core.Inv`.
-/

namespace Xv6

open Transition

variable {p : Slot}

namespace ProcState

/-- The states of a process that has given up its CPU. -/
def parked : ProcState → Bool
  | .sleeping | .runnable | .zombie => true
  | _ => false

/-- A change of state that the CPUs do not notice: not into or out of `RUNNING`, and a process
that has given up its CPU stays one. -/
def Keeps (x y : ProcState) : Prop :=
  (y = .running ↔ x = .running) ∧ (x.parked = true → y.parked = true)

instance (x y : ProcState) : Decidable (x.Keeps y) :=
  inferInstanceAs (Decidable (_ ∧ _))

theorem Keeps.refl (x : ProcState) : x.Keeps x :=
  ⟨Iff.rfl, id⟩

theorem Keeps.trans {x y z : ProcState} (hxy : x.Keeps y) (hyz : y.Keeps z) : x.Keeps z :=
  ⟨hyz.1.trans hxy.1, fun h => hyz.2 (hxy.2 h)⟩

end ProcState

theorem Task.keeps_wake (chan : Chan) (t : Task) : t.state.Keeps (t.wake chan).state := by
  by_cases h : t.state = .sleeping ∧ t.chan = chan
  · rw [wake_of_sleeping h, h.1]
    change ProcState.sleeping.Keeps .runnable
    decide
  · rw [wake_of_not h]
    exact .refl _

namespace Ctl

/-- Whether a CPU that is executing there holds `ptable.lock`. -/
def locked : Ctl → Bool
  | .loop | .resumed | .leaving | .switched => true
  | _ => false

/-- The places at which a CPU has no process and does not hold the lock. -/
def off : Ctl → Bool
  | .boot | .bootKalloc _ | .bootPublish _ | .halted | .idle => true
  | _ => false

end Ctl

/-- The entry that a `fork` at this point is filling in. -/
def Frame.child : Frame → Option Slot
  | .user => none
  | .kalloc np | .copyuvm np | .publish np => some np

/-- The entry that `userinit` at this point is filling in. -/
def Ctl.child : Ctl → Option Slot
  | .bootKalloc p | .bootPublish p => some p
  | _ => none

/-- Whether `trap` is handling an interrupt of user code, or is about to call `exit`. -/
def Trap.user : Trap → Bool
  | .none => false
  | .exit => true
  | .ticked user | .charged user | .check _ user | .preempt _ user | .yield user
  | .recheck user => user

/-- `c->proc`, the stack in use and the state of the process fit the place at which the CPU is
executing. -/
def Cpu.Fits (k : Cpu) (procs : Slot → Task) : Prop :=
  match k.ctl with
  | .resumed | .process =>
    ∃ p, k.proc = some p ∧ k.stack = some p ∧ (procs p).state = .running
  | .leaving => ∃ p, k.proc = some p ∧ k.stack = some p ∧ (procs p).state.parked = true
  | .switched => ∃ p, k.proc = some p ∧ k.stack = none ∧ (procs p).state.parked = true
  | _ => k.proc = none ∧ k.stack = none

namespace Cpu.Fits

variable {k k' : Cpu} {procs procs' : Slot → Task}

theorem of_keeps (h : k.Fits procs)
    (hkeep : ∀ p, k.proc = some p → (procs p).state.Keeps (procs' p).state) : k.Fits procs' := by
  unfold Cpu.Fits at h ⊢
  split
  · obtain ⟨p, hp, hstack, hrun⟩ := by simpa [*] using h
    exact ⟨p, hp, hstack, (hkeep p hp).1.mpr hrun⟩
  · obtain ⟨p, hp, hstack, hrun⟩ := by simpa [*] using h
    exact ⟨p, hp, hstack, (hkeep p hp).1.mpr hrun⟩
  · obtain ⟨p, hp, hstack, hpark⟩ := by simpa [*] using h
    exact ⟨p, hp, hstack, (hkeep p hp).2 hpark⟩
  · obtain ⟨p, hp, hstack, hpark⟩ := by simpa [*] using h
    exact ⟨p, hp, hstack, (hkeep p hp).2 hpark⟩
  · simpa [*] using h

theorem off (h : k.Fits procs) (hctl : k.ctl.off = true) : k.proc = none ∧ k.stack = none := by
  unfold Cpu.Fits at h
  split at h
  all_goals first | exact h | simp_all [Ctl.off]

/-- A scheduler that is looking for a process has none. -/
theorem loop (h : k.Fits procs) (hctl : k.ctl = .loop) : k.proc = none ∧ k.stack = none := by
  unfold Cpu.Fits at h
  rw [hctl] at h
  exact h

theorem of_off (hproc : k.proc = none) (hstack : k.stack = none)
    (hctl : k.ctl.off = true ∨ k.ctl = .loop) : k.Fits procs := by
  unfold Cpu.Fits
  split
  all_goals first | exact ⟨hproc, hstack⟩ | simp_all [Ctl.off]

/-- The process of a CPU runs, or has given up the CPU that still holds the lock. -/
theorem state (h : k.Fits procs) (hp : k.proc = some p) :
    (procs p).state = .running ∧ (k.ctl = .resumed ∨ k.ctl = .process) ∨
      (procs p).state.parked = true ∧ k.ctl.locked = true := by
  unfold Cpu.Fits at h
  split at h
  all_goals simp_all [Ctl.locked]

/-- The process of a CPU that executes it is `RUNNING`, on its own stack. -/
theorem running (h : k.Fits procs) (hctl : k.ctl = .resumed ∨ k.ctl = .process)
    (hp : k.proc = some p) : k.stack = some p ∧ (procs p).state = .running := by
  unfold Cpu.Fits at h
  rcases hctl with hctl | hctl <;> simp_all

theorem stack (h : k.Fits procs) (hp : k.stack = some p) : k.proc = some p := by
  unfold Cpu.Fits at h
  split at h
  all_goals simp_all

end Cpu.Fits

namespace Core

variable {n : ℕ} {s s' : Core n} {b : Build} {l : Label n}
variable {cur : Slot}

/-- Where a CPU is executing determines whether it holds `ptable.lock`, which process it has and
in which state that process is; and the `RUNNING` processes are those of the CPUs. -/
structure Control (s : Core n) : Prop where
  lock : ∀ c, s.lock = some c ↔ (s.cpus c).ctl.locked = true
  /-- An interrupt is handled without the lock, in the scheduler or in a process. -/
  trap : ∀ c, (s.cpus c).trap ≠ .none → (s.cpus c).ctl = .idle ∨ (s.cpus c).ctl = .process
  fits : ∀ c, (s.cpus c).Fits s.procs
  injective : ∀ c d p, (s.cpus c).proc = some p → (s.cpus d).proc = some p → c = d
  running : ∀ p, (s.procs p).state = .running → ∃ c, (s.cpus c).proc = some p

/-- The entry that a process in `fork`, or a CPU in `userinit`, is filling in. -/
def child (s : Core n) : Slot ⊕ CpuId n → Option Slot
  | .inl q => (s.procs q).frame.child
  | .inr c => (s.cpus c).ctl.child

/-- An entry that is being filled in is `EMBRYO` and in one hand, and a process in the middle of
`fork` neither sleeps nor exits. -/
structure Forks (s : Core n) : Prop where
  embryo : ∀ o p, s.child o = some p → (s.procs p).state = .embryo
  unique : ∀ o o' p, s.child o = some p → s.child o' = some p → o = o'
  alive : ∀ q, (s.procs q).frame ≠ .user →
    (s.procs q).state = .running ∨ (s.procs q).state = .runnable

/-- No CPU is executing the process `p` outside `ptable.lock`. -/
def Stopped (s : Core n) (p : Slot) : Prop :=
  ∀ c, (s.cpus c).proc = some p → (s.cpus c).ctl ≠ .process

/-- A process that was interrupted in user code, and one that gave up its CPU in any other way
than by an interrupt of kernel code, is not in the middle of `fork`. -/
structure UserMode (s : Core n) : Prop where
  trap : ∀ c p, (s.cpus c).trap.user = true → (s.cpus c).proc = some p →
    (s.procs p).frame = .user
  context : ∀ p, s.Stopped p → (s.procs p).context ≠ .yield false → (s.procs p).frame = .user

/-- The invariants of CPUs and entries in the making. -/
structure Inv (s : Core n) : Prop where
  control : s.Control
  forks : s.Forks
  user : s.UserMode

namespace Inv

variable {c : CpuId n}

/-- A process that a scheduler has just switched to is not in the middle of `fork`, unless an
interrupt of kernel code took it off its CPU. -/
theorem frame_of_resumed (h : s.Inv) (hctl : (s.cpus c).ctl = .resumed)
    (hproc : (s.cpus c).proc = some cur) (hctx : (s.procs cur).context ≠ .yield false) :
    (s.procs cur).frame = .user := by
  refine h.user.context cur (fun d hd => ?_) hctx
  -- no other CPU has the process
  rw [h.control.injective d c cur hd hproc, hctl]
  decide

/-- A process is in its own code, or in the `exit` that `trap` calls after an interrupt of that
code. -/
theorem of_exit (h : s.Inv) (hcall : s.Calls c cur ∨
      (s.cpus c).ctl = .process ∧ (s.cpus c).trap = .exit ∧ (s.cpus c).proc = some cur) :
    (s.cpus c).ctl = .process ∧ (s.cpus c).proc = some cur ∧ (s.procs cur).frame = .user := by
  rcases hcall with ⟨hrun, hframe⟩ | ⟨hctl, htrap, hproc⟩
  · exact ⟨hrun.1, hrun.2.2, hframe⟩
  · exact ⟨hctl, hproc, h.user.trap c cur (by rw [htrap]; rfl) hproc⟩

/-- What a process in `fork` is filling in is `EMBRYO`. -/
theorem embryo_child (h : s.Inv) {frame : Frame} {np : Slot}
    (hframe : (s.procs cur).frame = frame) (hnp : frame.child = some np) :
    (s.procs np).state = .embryo :=
  h.forks.embryo (.inl cur) np (by rw [child, hframe, hnp])

/-- What the boot CPU is filling in is `EMBRYO`. -/
theorem embryo_boot (h : s.Inv) {ctl : Ctl}
    (hctl : (s.cpus c).ctl = ctl) (hp : ctl.child = some p) : (s.procs p).state = .embryo :=
  h.forks.embryo (.inr c) p (by rw [child, hctl, hp])

end Inv

theorem keeps_exitTable (s : Core n) (hp : p ≠ cur) :
    (s.procs p).state.Keeps ((s.exitTable cur).procs p).state := by
  rw [procs_exitTable_of_ne hp]
  have hwake := Task.keeps_wake (.ofProc (s.procs cur).parent) (s.procs p)
  dsimp only
  split
  · exact hwake.trans (Task.keeps_wake _ _)
  · exact hwake

namespace Control

variable {c : CpuId n}

theorem initial : (Core.initial : Core n).Control where
  lock c := by
    by_cases hc : c = 0 <;> simp [Core.initial, Ctl.locked, hc]
  trap c h := absurd rfl h
  fits c := by
    refine Cpu.Fits.of_off rfl rfl (.inl ?_)
    by_cases hc : c = 0 <;> simp [Core.initial, Ctl.off, hc]
  injective c d p h := by cases h
  running p h := by cases h

/-! ### What a process and its CPU know of each other -/

section

variable (h : s.Control)
include h

/-- The process of a CPU outside the lock is `RUNNING`. -/
theorem state_of_unlocked (hp : (s.cpus c).proc = some p) (hctl : (s.cpus c).ctl.locked = false) :
    (s.procs p).state = .running ∧ (s.cpus c).ctl = .process := by
  rcases (h.fits c).state hp with ⟨hrun, hctl' | hctl'⟩ | ⟨-, hlocked⟩
  · simp [hctl', Ctl.locked] at hctl
  · exact ⟨hrun, hctl'⟩
  · simp [hlocked] at hctl

/-- No interrupt is handled under the lock. -/
theorem trap_of_locked (hctl : (s.cpus c).ctl.locked = true) : (s.cpus c).trap = .none := by
  by_contra htrap
  rcases h.trap c htrap with hctl' | hctl' <;> simp [hctl', Ctl.locked] at hctl

theorem unlocked (hlock : s.lock = none) (c : CpuId n) : (s.cpus c).ctl.locked = false := by
  rw [← Bool.not_eq_true, ← h.lock c, hlock]
  simp

/-- While a CPU holds the lock, no other CPU does. -/
theorem unlocked_of_ne {d : CpuId n} (hlock : s.lock = some c) (hd : d ≠ c) :
    (s.cpus d).ctl.locked = false := by
  rw [← Bool.not_eq_true, ← h.lock d, hlock]
  simpa using hd.symm

/-- A process that gave up its CPU, and that the holder of the lock is not leaving, is on no
CPU. -/
theorem proc_ne_of_parked
    (hlock : s.lock = none ∨ s.lock = some c) (hp : (s.procs p).state.parked = true)
    (hc : (s.cpus c).proc ≠ some p) (d : CpuId n) : (s.cpus d).proc ≠ some p := by
  intro hd
  by_cases hdc : d = c
  · exact hc (hdc ▸ hd)
  -- every other CPU is outside the lock, so that its process is `RUNNING`
  have hunlocked : (s.cpus d).ctl.locked = false := by
    rcases hlock with hlock | hlock
    · exact h.unlocked hlock d
    · exact h.unlocked_of_ne hlock hdc
  rw [(h.state_of_unlocked hd hunlocked).1] at hp
  cases hp

/-- An entry that is free or being filled in is on no CPU. -/
theorem proc_ne_of_absent
    (hp : (s.procs p).state = .unused ∨ (s.procs p).state = .embryo) (d : CpuId n) :
    (s.cpus d).proc ≠ some p := by
  intro hd
  rcases (h.fits d).state hd with ⟨hrun, -⟩ | ⟨hpark, -⟩
  · simp [hrun] at hp
  · rcases hp with hp | hp <;> simp [hp, ProcState.parked] at hpark

/-! ### Steps that the CPUs do not notice -/

/-- A step that changes only entries of the process table. -/
theorem of_procs (hcpus : s'.cpus = s.cpus) (hlock : s'.lock = s.lock)
    (hkeep : ∀ p, (s.procs p).state.Keeps (s'.procs p).state) : s'.Control where
  lock c := by
    rw [hcpus, hlock]
    exact h.lock c
  trap c := by
    rw [hcpus]
    exact h.trap c
  fits c := by
    rw [hcpus]
    exact (h.fits c).of_keeps fun p _ => hkeep p
  injective := by
    rw [hcpus]
    exact h.injective
  running p hp := by
    rw [hcpus]
    exact h.running p ((hkeep p).1.mp hp)

/-- A change of one entry that no CPU notices. -/
theorem modify {i : Slot} {f : Task → Task}
    (hkeep : (s.procs i).state.Keeps (f (s.procs i)).state) : (s.modify i f).Control :=
  h.of_procs rfl rfl
    (forall_modify (R := fun t t' => t.state.Keeps t'.state) (fun _ => .refl _) hkeep)

/-- A CPU that does not hold the lock moves on in `trap`, or in the boot sequence. -/
theorem modifyCpu {f : Cpu → Cpu} (hproc : (f (s.cpus c)).proc = (s.cpus c).proc)
    (hlocked : (f (s.cpus c)).ctl.locked = (s.cpus c).ctl.locked)
    (htrap : (f (s.cpus c)).trap ≠ .none →
      (f (s.cpus c)).ctl = .idle ∨ (f (s.cpus c)).ctl = .process)
    (hfits : (f (s.cpus c)).Fits s.procs) : (s.modifyCpu c f).Control := by
  have hprocs : ∀ d, ((s.modifyCpu c f).cpus d).proc = (s.cpus d).proc :=
    forall_modifyCpu (R := fun k k' => k'.proc = k.proc) (fun _ => rfl) hproc
  refine ⟨?_, ?_, ?_, fun d e p => ?_, fun p hp => ?_⟩
  · refine forall_cpus (P := fun d k => s.lock = some d ↔ k.ctl.locked = true) ?_
      fun d _ => h.lock d
    rw [hlocked]
    exact h.lock c
  · exact forall_cpus (P := fun _ k => k.trap ≠ .none → k.ctl = .idle ∨ k.ctl = .process) htrap
      fun d _ => h.trap d
  · exact forall_cpus (P := fun _ k => k.Fits s.procs) hfits fun d _ => h.fits d
  · rw [hprocs, hprocs]
    exact h.injective d e p
  · simp only [hprocs]
    exact h.running p hp

theorem setTrap {t : Trap} (hc : t ≠ .none → (s.cpus c).ctl = .idle ∨ (s.cpus c).ctl = .process) :
    (s.setTrap c t).Control :=
  h.modifyCpu rfl rfl hc (h.fits c)

/-- A CPU that is off moves on in the boot sequence. -/
theorem setCtl_off {ctl : Ctl} (hc : (s.cpus c).ctl.off = true)
    (hidle : (s.cpus c).ctl ≠ .idle) (hctl : ctl.off = true) : (s.setCtl c ctl).Control := by
  obtain ⟨hproc, hstack⟩ := (h.fits c).off hc
  refine h.modifyCpu rfl ?_ (fun htrap => ?_) (Cpu.Fits.of_off hproc hstack (.inl hctl))
  · have hoff (x : Ctl) : x.off = true → x.locked = false := by
      cases x <;> simp [Ctl.off, Ctl.locked]
    rw [hoff _ hc, hoff _ hctl]
  · rcases h.trap c htrap with hctl' | hctl'
    · exact absurd hctl' hidle
    · simp [hctl', Ctl.off] at hc

/-! ### Steps under the lock -/

section

variable (hfree : s.lock = none ∨ s.lock = some c)
include hfree

/-- A step of the CPU `c` that takes, holds or releases the lock. The other CPUs do not notice
it if the processes that become or cease to be `RUNNING` are those that `c` gets or has. -/
theorem move (hother : ∀ d, d ≠ c → s'.cpus d = s.cpus d)
    (hlock : s'.lock = if (s'.cpus c).ctl.locked then some c else none)
    (htrap : (s'.cpus c).trap ≠ .none →
      (s'.cpus c).ctl = .idle ∨ (s'.cpus c).ctl = .process) (hfits : (s'.cpus c).Fits s'.procs)
    (hnew : ∀ p, (s'.cpus c).proc = some p →
      (s.cpus c).proc = some p ∨ (s.procs p).state ≠ .running)
    (hgone : ∀ p, (s.cpus c).proc = some p → (s'.cpus c).proc ≠ some p →
      (s'.procs p).state ≠ .running)
    (hkeep : ∀ p, (s.cpus c).proc ≠ some p → (s'.cpus c).proc ≠ some p →
      ((s'.procs p).state = .running ↔ (s.procs p).state = .running)) : s'.Control := by
  have hunlocked (d : CpuId n) (hd : d ≠ c) : (s.cpus d).ctl.locked = false := by
    rcases hfree with hfree | hfree
    · exact h.unlocked hfree d
    · exact h.unlocked_of_ne hfree hd
  -- the process of another CPU runs, and is not the one that `c` has or gets
  have hdist (d : CpuId n) (hd : d ≠ c) {p : Slot} (hp : (s.cpus d).proc = some p) :
      (s.procs p).state = .running ∧ (s.cpus c).proc ≠ some p ∧ (s'.cpus c).proc ≠ some p := by
    have hrun := (h.state_of_unlocked hp (hunlocked d hd)).1
    have hold : (s.cpus c).proc ≠ some p := fun hc => hd (h.injective d c p hp hc)
    refine ⟨hrun, hold, fun hc => ?_⟩
    rcases hnew p hc with hc | hc
    · exact hold hc
    · exact hc hrun
  refine ⟨fun d => ?_, fun d => ?_, fun d => ?_, fun d e p hdp hep => ?_, fun p hp => ?_⟩
  · by_cases hd : d = c
    · subst hd
      rw [hlock]
      split <;> simp [*]
    · rw [hother d hd, hunlocked d hd, hlock]
      split <;> simp [Ne.symm hd]
  · by_cases hd : d = c
    · subst hd
      exact htrap
    · rw [hother d hd]
      exact h.trap d
  · by_cases hd : d = c
    · subst hd
      exact hfits
    · rw [hother d hd]
      refine (h.fits d).of_keeps fun p hp => ?_
      obtain ⟨hrun, hold, hnew⟩ := hdist d hd hp
      rw [hrun, (hkeep p hold hnew).mpr hrun]
      exact .refl _
  · by_cases hd : d = c
    · by_cases he : e = c
      · rw [hd, he]
      · rw [hother e he] at hep
        exact absurd (hd ▸ hdp) (hdist e he hep).2.2
    · rw [hother d hd] at hdp
      by_cases he : e = c
      · exact absurd (he ▸ hep) (hdist d hd hdp).2.2
      · rw [hother e he] at hep
        exact h.injective d e p hdp hep
  -- a process that runs is the new one of `c`, or ran before on a CPU that is not `c`
  · by_cases hnew : (s'.cpus c).proc = some p
    · exact ⟨c, hnew⟩
    have hold : (s.cpus c).proc ≠ some p := fun hold => hgone p hold hnew hp
    obtain ⟨d, hd⟩ := h.running p ((hkeep p hold hnew).mp hp)
    refine ⟨d, ?_⟩
    rw [hother d fun hdc => hold (hdc ▸ hd)]
    exact hd

/-- The CPU keeps its process, and no process becomes or ceases to be `RUNNING`. -/
theorem move_of_iff (f : Cpu → Cpu) {lock : Option (CpuId n)} (hcpus : s'.cpus = s.cpus)
    (hlock : lock = if (f (s.cpus c)).ctl.locked then some c else none)
    (htrap : (f (s.cpus c)).trap ≠ .none →
      (f (s.cpus c)).ctl = .idle ∨ (f (s.cpus c)).ctl = .process)
    (hfits : (f (s.cpus c)).Fits s'.procs) (hproc : (f (s.cpus c)).proc = (s.cpus c).proc)
    (hkeep : ∀ p, (s.cpus c).proc ≠ some p →
      ((s'.procs p).state = .running ↔ (s.procs p).state = .running)) :
    ({ s' with lock := lock }.modifyCpu c f).Control := by
  have hcpu : ({ s' with lock := lock }.modifyCpu c f).cpus c = f (s.cpus c) := by
    rw [cpus_modifyCpu_self, hcpus]
  rw [← hcpu] at hlock htrap hfits hproc
  refine h.move hfree (fun d hd => ?_) hlock htrap hfits (fun _ hp => .inl (hproc ▸ hp))
    (fun _ hp hp' => absurd (hproc ▸ hp) hp') fun p hp _ => hkeep p hp
  rw [cpus_modifyCpu_of_ne hd, hcpus]

/-- The process of CPU `c` gives it up: `sched()` after its entry has been changed. -/
theorem sched (hcur : (s.cpus c).proc = some cur)
    (hstack : (s.cpus c).stack = some cur) (hcpus : s'.cpus = s.cpus)
    (hpark : (s'.procs cur).state.parked = true) (hkeep : ∀ p, p ≠ cur →
      ((s'.procs p).state = .running ↔ (s.procs p).state = .running)) : (s'.sched c).Control := by
  refine h.move_of_iff hfree (fun k => { k with ctl := .leaving, trap := .none }) hcpus rfl
    (fun h => absurd rfl h) ⟨cur, hcur, hstack, hpark⟩ rfl fun p hp => hkeep p ?_
  rintro rfl
  exact hp hcur

/-- The process of CPU `c` releases the lock and goes on, after other entries have been changed. -/
theorem unlock (hcur : (s.cpus c).proc = some cur)
    (hstack : (s.cpus c).stack = some cur) (htrap : (s.cpus c).trap = .none)
    (hcpus : s'.cpus = s.cpus) (hrun : (s'.procs cur).state = .running) (hkeep : ∀ p, p ≠ cur →
      ((s'.procs p).state = .running ↔ (s.procs p).state = .running)) : (s'.unlock c).Control := by
  refine h.move_of_iff hfree (fun k => { k with ctl := .process }) hcpus rfl
    (fun h => absurd htrap h) ⟨cur, hcur, hstack, hrun⟩ rfl fun p hp => hkeep p ?_
  rintro rfl
  exact hp hcur

end

theorem of_runs (hctl : (s.cpus c).ctl = .process) (hproc : (s.cpus c).proc = some cur) :
    (s.cpus c).stack = some cur ∧ (s.procs cur).state = .running :=
  (h.fits c).running (.inr hctl) hproc

theorem of_resumed (hctl : (s.cpus c).ctl = .resumed) (hproc : (s.cpus c).proc = some cur) :
    (s.cpus c).stack = some cur ∧ (s.procs cur).state = .running ∧ (s.cpus c).trap = .none := by
  obtain ⟨hstack, hrun⟩ := (h.fits c).running (.inl hctl) hproc
  exact ⟨hstack, hrun, h.trap_of_locked (by rw [hctl]; rfl)⟩

/-- One pass of the loop of `wait` or `waitx`, by a process that runs. -/
theorem waitStep {call : WaitCall} {e : Event}
    (hfree : s.lock = none ∨ s.lock = some c) (hcur : (s.cpus c).proc = some cur)
    (hstack : (s.cpus c).stack = some cur) (htrap : (s.cpus c).trap = .none)
    (hrun : (s.procs cur).state = .running) (hwait : WaitStep call s c cur e s') : s'.Control := by
  cases hwait with
  | @reap i hparent hzombie =>
    have hi : cur ≠ i := by
      rintro rfl
      simp [hrun] at hzombie
    refine h.unlock hfree hcur hstack htrap rfl ?_ fun p hp => ?_
    · rw [procs_modify_of_ne hi]
      exact hrun
    · by_cases hpi : p = i
      · subst hpi
        simp [hzombie, Task.reap]
      · rw [procs_modify_of_ne hpi]
  | noChild => exact h.unlock hfree hcur hstack htrap rfl hrun fun p _ => Iff.rfl
  | sleep =>
    refine h.sched hfree hcur hstack rfl ?_ fun p hp => ?_
    · rw [procs_modify_self]
      rfl
    · rw [procs_modify_of_ne hp]

theorem allocate (hp : (s.procs p).state = .unused) : (s.allocate p).Control := by
  have hkeep : (s.procs p).state.Keeps .embryo := by
    rw [hp]
    decide
  exact (h.modify (f := Task.allocate (int32 s.nextpid) s.ticks) hkeep).of_procs rfl rfl
    fun _ => .refl _

theorem abandon (hp : (s.procs p).state = .embryo) : (s.abandon p).Control := by
  refine h.modify ?_
  rw [hp]
  change ProcState.embryo.Keeps .unused
  decide

theorem ready (hp : (s.procs p).state = .embryo) : (s.ready p).Control := by
  refine h.modify ?_
  rw [hp]
  change ProcState.embryo.Keeps .runnable
  decide

/-- Scheduler `c` leaves its process, which gave up the CPU. -/
theorem switched (f : Cpu → Cpu) (lock : Option (CpuId n))
    (hctl : (s.cpus c).ctl = .switched) (hlock : s.lock = some c)
    (hf : (f (s.cpus c)).proc = none ∧ (f (s.cpus c)).stack = (s.cpus c).stack ∧
      (f (s.cpus c)).trap = (s.cpus c).trap) (hnext : (f (s.cpus c)).ctl = .loop ∧ lock = some c ∨
      (f (s.cpus c)).ctl = .idle ∧ lock = none) :
    ({ s with lock := lock }.modifyCpu c f).Control := by
  have hfits := h.fits c
  unfold Cpu.Fits at hfits
  rw [hctl] at hfits
  obtain ⟨p, hp, hstack, hpark⟩ := hfits
  have hcpu : ({ s with lock := lock }.modifyCpu c f).cpus c = f (s.cpus c) :=
    cpus_modifyCpu_self ..
  have htrap : (s.cpus c).trap = .none := h.trap_of_locked (by rw [hctl]; rfl)
  refine h.move (.inr hlock) (fun d hd => cpus_modifyCpu_of_ne hd ..) ?_ ?_ ?_ ?_ ?_ ?_
  · rw [hcpu]
    rcases hnext with ⟨hnext, rfl⟩ | ⟨hnext, rfl⟩ <;> rw [hnext] <;> rfl
  · rw [hcpu, hf.2.2, htrap]
    exact fun h => absurd rfl h
  · rw [hcpu]
    refine Cpu.Fits.of_off hf.1 (hf.2.1.trans hstack) ?_
    rcases hnext with ⟨hnext, -⟩ | ⟨hnext, -⟩ <;> simp [hnext, Ctl.off]
  · rw [hcpu, hf.1]
    rintro q ⟨⟩
  -- the process that `c` loses has given up the CPU, so no CPU need have it
  · intro q hq _ hrun
    obtain rfl : p = q := Option.mem_unique hp hq
    change (s.procs p).state = .running at hrun
    simp [hrun, ProcState.parked] at hpark
  · exact fun _ _ _ => Iff.rfl

theorem dispatch {i : ℕ} (hctl : (s.cpus c).ctl = .loop) (hlock : s.lock = some c)
    (hp : (s.procs p).state = .runnable) : (s.dispatch b p i c).Control := by
  have htrap : (s.cpus c).trap = .none := h.trap_of_locked (by rw [hctl]; rfl)
  have hproc : (s.cpus c).proc = none := ((h.fits c).loop hctl).1
  refine h.move (.inr hlock) (fun d hd => cpus_dispatch_of_ne hd s) ?_ ?_ ?_ ?_ ?_ ?_
  · rw [cpus_dispatch_self, lock_dispatch, hlock]
    rfl
  · rw [cpus_dispatch_self]
    exact fun h => absurd htrap h
  · rw [cpus_dispatch_self]
    refine ⟨p, rfl, rfl, ?_⟩
    rw [procs_dispatch_self]
  · intro q hq
    rw [cpus_dispatch_self] at hq
    obtain rfl : p = q := Option.some.inj hq
    exact .inr (by simp [hp])
  · intro q hq
    simp [hproc] at hq
  · intro q _ hq
    rw [cpus_dispatch_self] at hq
    rw [procs_dispatch_of_ne fun h => hq (by rw [h])]

end

/-- Every step preserves `Control`. -/
theorem step (h : s.Inv) (hstep : Step b s l s') : s'.Control := by
  have hc := h.control
  cases hstep with
  -- `userinit`, before any scheduler runs
  | bootAlloc hctl hlock hp =>
    exact (hc.allocate hp).setCtl_off (by simp [Core.allocate, Core.modify, hctl, Ctl.off])
      (by simp [Core.allocate, Core.modify, hctl]) rfl
  | bootFull hctl => exact hc.setCtl_off (by simp [hctl, Ctl.off]) (by simp [hctl]) rfl
  | @bootKalloc c p hctl =>
    have hstack : (s.setupStack p).Control := hc.modify (.refl _)
    have hstack : { s.setupStack p with initproc := some p }.Control :=
      hstack.of_procs rfl rfl fun _ => .refl _
    exact hstack.setCtl_off (by simp [Core.setupStack, Core.modify, hctl, Ctl.off])
      (by simp [Core.setupStack, Core.modify, hctl]) rfl
  | @bootAbandon c p hctl =>
    have hp := h.embryo_boot hctl rfl
    exact (hc.abandon hp).setCtl_off (by simp [Core.abandon, Core.modify, hctl, Ctl.off])
      (by simp [Core.abandon, Core.modify, hctl]) rfl
  | @bootPublish c p hctl =>
    have hp := h.embryo_boot hctl rfl
    obtain ⟨hproc, hstack⟩ := (hc.fits c).off (by simp [hctl, Ctl.off])
    refine (hc.ready hp).modifyCpu hproc.symm ?_ (fun _ => .inl rfl)
      (Cpu.Fits.of_off rfl hstack (.inl rfl))
    simp [Core.ready, Core.modify, hctl, Ctl.locked]
  -- `scheduler`, and the processes it switches to
  | @acquire c i hctl htrap hlock =>
    obtain ⟨hproc, hstack⟩ := (hc.fits c).off (by simp [hctl, Ctl.off])
    exact hc.move_of_iff (.inl hlock) (fun k => { k with ctl := .loop, p := i }) rfl rfl
      (fun h => absurd htrap h) (.of_off hproc hstack (.inr rfl)) rfl fun _ _ => Iff.rfl
  | dispatch hctl hlock hp => exact hc.dispatch hctl hlock hp
  | @endPass c hctl hlock =>
    obtain ⟨hproc, hstack⟩ := (hc.fits c).loop hctl
    exact hc.move_of_iff (.inr hlock) (fun k => { k with ctl := .idle }) rfl rfl
      (fun _ => .inl rfl) (.of_off hproc hstack (.inl rfl)) rfl fun _ _ => Iff.rfl
  | resumeForkret hctl hlock hproc =>
    obtain ⟨hstack, hrun, htrap⟩ := hc.of_resumed hctl hproc
    exact hc.unlock (.inr hlock) hproc hstack htrap rfl hrun fun _ _ => Iff.rfl
  | resumeYield hctl hlock hproc =>
    obtain ⟨hstack, hrun, htrap⟩ := hc.of_resumed hctl hproc
    refine (hc.unlock (.inr hlock) hproc hstack htrap rfl hrun fun _ _ => Iff.rfl).setTrap ?_
    simp [Core.unlock, Core.setCtl]
  | @resumeSleep c cur exiting hctl hlock hproc =>
    obtain ⟨hstack, hrun, htrap⟩ := hc.of_resumed hctl hproc
    have hunlock : ((s.modify cur fun t => { t with chan := .null }).unlock c).Control := by
      refine hc.unlock (.inr hlock) hproc hstack htrap rfl ?_ fun p hp => ?_
      · rw [procs_modify_self]
        exact hrun
      · rw [procs_modify_of_ne hp]
    exact hunlock.setTrap (by simp [Core.unlock, Core.setCtl])
  | resumeWait hctl hlock hproc hctx hwait =>
    obtain ⟨hstack, hrun, htrap⟩ := hc.of_resumed hctl hproc
    refine (hc.modify (.refl _)).waitStep (.inr hlock) hproc hstack htrap ?_ hwait
    rw [procs_modify_self]
    exact hrun
  | @swtch c hctl hlock =>
    have hfits := hc.fits c
    unfold Cpu.Fits at hfits
    rw [hctl] at hfits
    obtain ⟨p, hproc, hstack, hpark⟩ := hfits
    have htrap : (s.cpus c).trap = .none := hc.trap_of_locked (by rw [hctl]; rfl)
    exact hc.move_of_iff (.inr hlock) (fun k => { k with ctl := .switched, stack := none }) rfl
      hlock (fun h => absurd htrap h) ⟨p, hproc, rfl, hpark⟩ rfl fun _ _ => Iff.rfl
  | switchedLoop hctl hlock =>
    exact hc.switched _ _ hctl hlock ⟨rfl, rfl, rfl⟩ (.inl ⟨rfl, hlock⟩)
  | @switchedIdle c hctl hlock =>
    have hnext := hc.switched (fun k => { k with proc := none, ctl := .idle }) none hctl hlock
      ⟨rfl, rfl, rfl⟩ (.inr ⟨rfl, rfl⟩)
    simpa [Core.endPass, Core.setCtl, Core.modifyCpu] using hnext
  -- the system calls, which change only entries, or give up the CPU by `sched`
  | fork hcall hlock hp => exact (hc.allocate hp).modify (.refl _)
  | forkFull | killMiss | setPriorityMiss => exact hc
  | kalloc | copyuvm => exact (hc.modify (.refl _)).modify (.refl _)
  | @kallocFail c cur np hrun hframe | @copyuvmFail c cur np hrun hframe =>
    exact (hc.abandon (h.embryo_child hframe rfl)).modify (.refl _)
  | @publish c cur np hrun hframe =>
    exact (hc.ready (h.embryo_child hframe rfl)).modify (.refl _)
  | @exit c cur hcall hlock =>
    obtain ⟨hctl, hproc, -⟩ := h.of_exit hcall
    obtain ⟨hstack, hrun⟩ := hc.of_runs hctl hproc
    obtain ⟨parent, hself⟩ := procs_exitTable_self cur s
    refine hc.sched (.inl hlock) hproc hstack rfl ?_ fun p hp => (keeps_exitTable s hp).1
    rw [hself]
    rfl
  | wait hcall hlock hwait =>
    obtain ⟨⟨hctl, htrap, hproc⟩, -⟩ := hcall
    obtain ⟨hstack, hrun⟩ := hc.of_runs hctl hproc
    exact hc.waitStep (.inl hlock) hproc hstack htrap hrun hwait
  | sleep hcall hlock =>
    obtain ⟨hctl, hproc, -⟩ := h.of_exit hcall
    obtain ⟨hstack, hrun⟩ := hc.of_runs hctl hproc
    refine hc.sched (.inl hlock) hproc hstack rfl ?_ fun p hp => ?_
    · rw [procs_modify_self]
      rfl
    · rw [procs_modify_of_ne hp]
  | @yield c cur user htrap hproc hlock =>
    obtain ⟨-, hctl⟩ := hc.state_of_unlocked hproc (hc.unlocked hlock c)
    obtain ⟨hstack, hrun⟩ := hc.of_runs hctl hproc
    refine hc.sched (.inl hlock) hproc hstack rfl ?_ fun p hp => ?_
    · rw [procs_modify_self]
      rfl
    · rw [procs_modify_of_ne hp]
  | wakeup => exact hc.of_procs rfl rfl fun _ => Task.keeps_wake _ _
  | @kill c pid cur p =>
    refine hc.modify ?_
    change (s.procs p).state.Keeps
      (if (s.procs p).state = .sleeping then .runnable else (s.procs p).state)
    split
    next hsleep =>
      rw [hsleep]
      decide
    · exact .refl _
  | setPriority => exact hc.modify (.refl _)
  -- `trap`
  | tick hcall =>
    have hticks : { s with ticks := s.ticks + 1 }.Control := hc.of_procs rfl rfl fun _ => .refl _
    exact hticks.setTrap fun _ => hcall.2
  | @charge c user htrap =>
    have hctl := hc.trap c (by simp [htrap])
    have hcharge : (s.mapProcs Task.charge).Control := hc.of_procs rfl rfl fun _ => .refl _
    exact hcharge.setTrap fun _ => hctl
  | @wakeupTicks c user htrap =>
    have hctl := hc.trap c (by simp [htrap])
    have hwake : (s.mapProcs (Task.wake (.obj .ticks))).Control :=
      hc.of_procs rfl rfl fun _ => Task.keeps_wake _ _
    exact hwake.setTrap fun _ => hctl
  | fault hcall => exact (hc.modify (.refl _)).setTrap fun _ => .inr hcall.1.1
  | @trap c a t htrap =>
    refine hc.setTrap fun _ => ?_
    cases htrap with
    | timer hcall | device hcall => exact hcall.2
    | idle htrap | killed htrap | decide htrap | preempt htrap | recheck htrap
    | recheckKilled htrap => exact hc.trap c (by simp [htrap])

end Control

end Core

end Xv6
