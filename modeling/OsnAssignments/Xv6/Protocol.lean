import OsnAssignments.Xv6.Kernel

/-!
# The process-table protocol

What the four builds of the kernel have in common, as an abstract transition system. A state
(`Core`) keeps the process table without the fields of the ready queues, the CPUs and the lock.
A step (`Core.Step`) leaves open which `UNUSED` entry `allocproc` takes, which `RUNNABLE` process a
scheduler dispatches, which zombie child is reaped, and when `trap` gives up the CPU.
`Xv6.Refinement` shows that every build of the kernel is an instance.
-/

namespace Xv6

open Function

variable {cur : Slot}

/-- The kernel state without the ready queues. -/
structure Core (n : ℕ) where
  procs : Slot → Task
  beyond : ℤ
  nextpid : ℕ
  ticks : ℕ
  initproc : Option Slot
  lock : Option (CpuId n)
  cpus : CpuId n → Cpu

namespace Task

variable {t : Task} {chan : Chan}

/-- The entry after `wakeup1(chan)`. -/
def wake (chan : Chan) (t : Task) : Task :=
  { t with state := if t.state = .sleeping ∧ t.chan = chan then .runnable else t.state }

/-- The entry after the loop of `exit` by `cur` has passed over it. -/
def orphan (cur : Slot) (initproc : Option Slot) (t : Task) : Task :=
  { t with parent := if t.parent = some cur then initproc else t.parent }

/-- The entry after `change_ticks`. -/
def charge (t : Task) : Task :=
  { t with runtime := if t.state = .running then t.runtime + 1 else t.runtime }

theorem wake_of_sleeping (h : t.state = .sleeping ∧ t.chan = chan) :
    t.wake chan = { t with state := .runnable } := by
  rw [wake, if_pos h]

theorem wake_of_not (h : ¬(t.state = .sleeping ∧ t.chan = chan)) : t.wake chan = t := by
  rw [wake, if_neg h]

@[simp]
theorem wake_parent (chan : Chan) (t : Task) : (t.wake chan).parent = t.parent := rfl

theorem orphan_of_child {initproc : Option Slot}
    (h : t.parent = some cur) : t.orphan cur initproc = { t with parent := initproc } := by
  rw [orphan, if_pos h]

theorem orphan_of_not {initproc : Option Slot}
    (h : t.parent ≠ some cur) : t.orphan cur initproc = t := by
  rw [orphan, if_neg h]

/-- A wakeup leaves every state but `SLEEPING` and `RUNNABLE` as it is. -/
theorem wake_state_iff {x : ProcState} (hs : x ≠ .sleeping)
    (hr : x ≠ .runnable) : (t.wake chan).state = x ↔ t.state = x := by
  by_cases h : t.state = .sleeping ∧ t.chan = chan
  · rw [wake_of_sleeping h, h.1]
    exact iff_of_false hr.symm hs.symm
  · rw [wake_of_not h]

@[simp]
theorem wake_state_eq_zombie : (t.wake chan).state = .zombie ↔ t.state = .zombie :=
  wake_state_iff (by decide) (by decide)

theorem orphan_wake (cur : Slot) (initproc : Option Slot) (chan : Chan) (t : Task) :
    (t.wake chan).orphan cur initproc = (t.orphan cur initproc).wake chan := rfl

/-- Waking the same channel twice is waking it once. -/
theorem wake_wake (chan : Chan) (t : Task) : (t.wake chan).wake chan = t.wake chan := by
  by_cases h : t.state = .sleeping ∧ t.chan = chan
  · rw [wake_of_sleeping h, wake_of_not (by simp)]
  · rw [wake_of_not h, wake_of_not h]

end Task

namespace Core

variable {n : ℕ}
variable {i p : Slot} {f : Task → Task}

/-- Change the process-table entry `i`. -/
def modify (s : Core n) (i : Slot) (f : Task → Task) : Core n :=
  { s with procs := update s.procs i (f (s.procs i)) }

@[simp]
theorem procs_modify_self (s : Core n) (i : Slot) (f : Task → Task) :
    (s.modify i f).procs i = f (s.procs i) :=
  update_self ..

theorem procs_modify_of_ne {j : Slot} (h : j ≠ i) (s : Core n) (f : Task → Task) :
    (s.modify i f).procs j = s.procs j :=
  update_of_ne h ..

/-- What holds of the changed entry, and of every entry that stays, holds of all entries. -/
theorem forall_modify {R : Task → Task → Prop} (hrefl : ∀ t, R t t) {s : Core n}
    (h : R (s.procs i) (f (s.procs i))) : ∀ p, R (s.procs p) ((s.modify i f).procs p) :=
  (forall_update_iff s.procs fun p t => R (s.procs p) t).mpr ⟨h, fun _ _ => hrefl _⟩

theorem modify_congr {s : Core n} {g : Task → Task}
    (h : f (s.procs i) = g (s.procs i)) : s.modify i f = s.modify i g := by
  rw [modify, modify, h]

theorem modify_eq_self {s : Core n} (h : f (s.procs i) = s.procs i) : s.modify i f = s := by
  rw [modify, h, update_eq_self]

theorem modify_modify (s : Core n) (i : Slot) (f g : Task → Task) :
    (s.modify i f).modify i g = s.modify i fun t => g (f t) := by
  simp [modify]

/-- Change every process-table entry. -/
def mapProcs (s : Core n) (f : Task → Task) : Core n :=
  { s with procs := fun i => f (s.procs i) }

/-- Change the state of CPU `c`. -/
def modifyCpu (s : Core n) (c : CpuId n) (f : Cpu → Cpu) : Core n :=
  { s with cpus := update s.cpus c (f (s.cpus c)) }

@[simp]
theorem cpus_modifyCpu_self (s : Core n) (c : CpuId n) (f : Cpu → Cpu) :
    (s.modifyCpu c f).cpus c = f (s.cpus c) :=
  update_self ..

theorem cpus_modifyCpu_of_ne {c d : CpuId n} (h : d ≠ c) (s : Core n) (f : Cpu → Cpu) :
    (s.modifyCpu c f).cpus d = s.cpus d :=
  update_of_ne h ..

/-- What holds of the changed CPU, and of every other CPU, holds of all CPUs. -/
theorem forall_cpus {P : CpuId n → Cpu → Prop} {s : Core n} {c : CpuId n} {f : Cpu → Cpu}
    (hc : P c (f (s.cpus c))) (h : ∀ d, d ≠ c → P d (s.cpus d)) :
    ∀ d, P d ((s.modifyCpu c f).cpus d) :=
  (forall_update_iff s.cpus P).mpr ⟨hc, h⟩

theorem forall_modifyCpu {R : Cpu → Cpu → Prop} (hrefl : ∀ k, R k k) {s : Core n} {c : CpuId n}
    {f : Cpu → Cpu} (h : R (s.cpus c) (f (s.cpus c))) :
    ∀ d, R (s.cpus d) ((s.modifyCpu c f).cpus d) :=
  forall_cpus (P := fun d k => R (s.cpus d) k) h fun _ _ => hrefl _

/-- Set where CPU `c` is executing. -/
def setCtl (s : Core n) (c : CpuId n) (ctl : Ctl) : Core n :=
  s.modifyCpu c fun k => { k with ctl := ctl }

/-- Set how far CPU `c` is in `trap`. -/
def setTrap (s : Core n) (c : CpuId n) (t : Trap) : Core n :=
  s.modifyCpu c fun k => { k with trap := t }

/-- CPU `c` runs the process `p`, outside `ptable.lock` and outside `trap`. -/
def Runs (s : Core n) (c : CpuId n) (p : Slot) : Prop :=
  (s.cpus c).ctl = .process ∧ (s.cpus c).trap = .none ∧ (s.cpus c).proc = some p

/-- The process `p` on CPU `c` can make a system call. -/
def Calls (s : Core n) (c : CpuId n) (p : Slot) : Prop :=
  s.Runs c p ∧ (s.procs p).frame = .user

/-- CPU `c` can run kernel code outside `ptable.lock` and outside `trap`. -/
def CanCall (s : Core n) (c : CpuId n) : Prop :=
  (s.cpus c).trap = .none ∧ ((s.cpus c).ctl = .idle ∨ (s.cpus c).ctl = .process)

/-- The critical section of `allocproc`, when it takes the entry `p`. -/
def allocate (p : Slot) (s : Core n) : Core n :=
  { s.modify p (Task.allocate (int32 s.nextpid) s.ticks) with nextpid := s.nextpid + 1 }

/-- `allocproc` after `kalloc`. -/
def setupStack (p : Slot) (s : Core n) : Core n :=
  s.modify p fun t => { t with kstack := true, context := .forkret, frame := .user }

/-- The failure paths of `allocproc` and `fork`. -/
def abandon (p : Slot) (s : Core n) : Core n :=
  s.modify p fun t => { t with kstack := false, state := .unused }

/-- `p->state = RUNNABLE`. -/
def ready (p : Slot) (s : Core n) : Core n :=
  s.modify p fun t => { t with state := .runnable }

/-- Set how far the process `p` is in `fork`. -/
def setFrame (p : Slot) (f : Frame) (s : Core n) : Core n :=
  s.modify p fun t => { t with frame := f }

/-- `sched()` up to `swtch`. -/
def sched (s : Core n) (c : CpuId n) : Core n :=
  { s with lock := some c }.modifyCpu c fun k => { k with ctl := .leaving, trap := .none }

/-- `release(&ptable.lock)`, after which the process on CPU `c` goes on. -/
def unlock (s : Core n) (c : CpuId n) : Core n :=
  { s with lock := none }.setCtl c .process

section Procs

variable (s : Core n) (c : CpuId n)

@[simp]
theorem procs_modifyCpu (f : Cpu → Cpu) : (s.modifyCpu c f).procs = s.procs := rfl

@[simp]
theorem procs_setCtl (ctl : Ctl) : (s.setCtl c ctl).procs = s.procs := rfl

@[simp]
theorem procs_setTrap (t : Trap) : (s.setTrap c t).procs = s.procs := rfl

@[simp]
theorem procs_sched : (s.sched c).procs = s.procs := rfl

@[simp]
theorem procs_unlock : (s.unlock c).procs = s.procs := rfl

theorem cpus_setCtl (s : Core n) (c : CpuId n) (ctl : Ctl) :
    (s.setCtl c ctl).cpus c = { s.cpus c with ctl := ctl } :=
  cpus_modifyCpu_self ..

theorem cpus_setTrap (s : Core n) (c : CpuId n) (t : Trap) :
    (s.setTrap c t).cpus c = { s.cpus c with trap := t } :=
  cpus_modifyCpu_self ..

theorem cpus_unlock (s : Core n) (c : CpuId n) :
    (s.unlock c).cpus c = { s.cpus c with ctl := .process } :=
  cpus_setCtl { s with lock := none } c .process

theorem cpus_sched (s : Core n) (c : CpuId n) :
    (s.sched c).cpus c = { s.cpus c with ctl := .leaving, trap := .none } :=
  cpus_modifyCpu_self ..

end Procs

/-- Whether `cur` has a zombie child. -/
def HasZombie (s : Core n) (cur : Slot) : Prop :=
  ∃ i, (s.procs i).parent = some cur ∧ (s.procs i).state = .zombie

instance (s : Core n) (cur : Slot) : Decidable (s.HasZombie cur) :=
  inferInstanceAs (Decidable (∃ _, _))

/-- The critical section of `exit` for the process `cur`, without `sched`: the parent is woken,
the children pass to init, and init is woken if one of them is a zombie. -/
def exitTable (cur : Slot) (s : Core n) : Core n :=
  let s' := s.mapProcs fun t =>
    let t := (t.wake (.ofProc (s.procs cur).parent)).orphan cur s.initproc
    if s.HasZombie cur then t.wake (.ofProc s.initproc) else t
  s'.modify cur fun t => { t with etime := s.ticks, state := .zombie }

/-- The other entries after the critical section of `exit`. -/
theorem procs_exitTable_of_ne (h : p ≠ cur) (s : Core n) :
    (s.exitTable cur).procs p =
      let t := ((s.procs p).wake (.ofProc (s.procs cur).parent)).orphan cur s.initproc
      if s.HasZombie cur then t.wake (.ofProc s.initproc) else t := by
  unfold exitTable
  exact procs_modify_of_ne h _ _

/-- The exiting process after the critical section of `exit`. -/
theorem procs_exitTable_self (cur : Slot) (s : Core n) : ∃ parent, (s.exitTable cur).procs cur =
      { s.procs cur with parent := parent, etime := s.ticks, state := .zombie } := by
  unfold exitTable
  dsimp only
  rw [procs_modify_self]
  by_cases hz : s.HasZombie cur
  · simp only [mapProcs, if_pos hz]
    exact ⟨_, rfl⟩
  · simp only [mapProcs, if_neg hz]
    exact ⟨_, rfl⟩

/-- The statement `p->nrun++` of a scheduler. -/
def countRun (b : Build) (p : Slot) (s : Core n) : Core n :=
  match b with
  | .fcfs => { s with beyond := s.beyond + 1 }
  | _ => s.modify p fun t => { t with nrun := t.nrun + 1 }

/-- Dispatch `p` on CPU `c`; the scheduler's variable `p` becomes `i`. -/
def dispatch (b : Build) (p : Slot) (i : ℕ) (s : Core n) (c : CpuId n) : Core n :=
  ((s.countRun b p).modify p fun t => { t with state := .running }).modifyCpu c fun k =>
    { k with proc := some p, stack := some p, ctl := .resumed, p := i }

theorem procs_dispatch_self (b : Build) (p : Slot) (i : ℕ) (s : Core n) (c : CpuId n) :
    (s.dispatch b p i c).procs p =
      { s.procs p with
        state := .running
        nrun := if b = .fcfs then (s.procs p).nrun else (s.procs p).nrun + 1 } := by
  cases b <;> simp [dispatch, modifyCpu, countRun]

theorem procs_dispatch_of_ne {b : Build} {q : Slot} {i : ℕ} (h : q ≠ p) (s : Core n)
    (c : CpuId n) : (s.dispatch b p i c).procs q = s.procs q := by
  cases b <;> simp [dispatch, modifyCpu, countRun, procs_modify_of_ne h]

theorem cpus_dispatch_self (b : Build) (p : Slot) (i : ℕ) (s : Core n) (c : CpuId n) :
    (s.dispatch b p i c).cpus c =
      { s.cpus c with proc := some p, stack := some p, ctl := .resumed, p := i } := by
  cases b <;> simp [dispatch, countRun, modify]

theorem cpus_dispatch_of_ne {b : Build} {i : ℕ} {c d : CpuId n} (h : d ≠ c)
    (s : Core n) : (s.dispatch b p i c).cpus d = s.cpus d := by
  cases b <;> simp [dispatch, countRun, modify, cpus_modifyCpu_of_ne h]

theorem forall_procs_dispatch {R : Task → Task → Prop} (hrefl : ∀ t, R t t) {b : Build} {i : ℕ}
    {s : Core n} {c : CpuId n} (h : ∀ nrun, R (s.procs p)
      { s.procs p with state := .running, nrun := nrun }) (q : Slot) :
    R (s.procs q) ((s.dispatch b p i c).procs q) := by
  by_cases hq : q = p
  · subst hq
    rw [procs_dispatch_self]
    exact h _
  · rw [procs_dispatch_of_ne hq]
    exact hrefl _

theorem lock_dispatch (b : Build) (p : Slot) (i : ℕ) (s : Core n) (c : CpuId n) :
    (s.dispatch b p i c).lock = s.lock := by
  cases b <;> rfl

/-- `release(&ptable.lock)` in `scheduler`. -/
def endPass (s : Core n) (c : CpuId n) : Core n :=
  { s with lock := none }.setCtl c .idle

/-- One pass of the loop of `wait` or `waitx` by the process `cur` on CPU `c`. -/
inductive WaitStep (call : WaitCall) (s : Core n) (c : CpuId n) (cur : Slot) :
    Event → Core n → Prop
  | reap {i : Slot} (hparent : (s.procs i).parent = some cur)
      (hzombie : (s.procs i).state = .zombie) :
      WaitStep call s c cur (.reap cur i (s.procs i).pid ((s.procs i).report call s.ticks))
        ((s.modify i (Task.reap call s.ticks)).unlock c)
  | noChild (hnone : ¬ s.HasZombie cur) : WaitStep call s c cur (.noChild cur) (s.unlock c)
  | sleep (hnone : ¬ s.HasZombie cur) :
      WaitStep call s c cur .silent
        ((s.modify cur fun t =>
          { t with chan := .proc cur, state := .sleeping, context := .wait call }).sched c)

/-- The moves of `trap` that only change how far CPU `c` is in it: entering it on a device interrupt
or, but for the boot CPU, on a timer interrupt, and `check`, `preempt` and `recheck`. `user` may
only hold when the process is in user code. -/
inductive TrapStep (s : Core n) (c : CpuId n) : Action → Trap → Prop
  | timer {user : Bool} (hcall : s.CanCall c) (huser : user = true → ∃ p, s.Calls c p)
      (hc : c ≠ 0) : TrapStep s c (.timer user) (.check true user)
  | device {user : Bool} (hcall : s.CanCall c) (huser : user = true → ∃ p, s.Calls c p) :
      TrapStep s c (.device user) (.check false user)
  | idle {timer user : Bool} (htrap : (s.cpus c).trap = .check timer user) :
      TrapStep s c .check .none
  | killed {timer : Bool} {p : Slot} (htrap : (s.cpus c).trap = .check timer true)
      (hp : (s.cpus c).proc = some p) : TrapStep s c .check .exit
  | decide {timer user : Bool} {t : Trap} {p : Slot}
      (htrap : (s.cpus c).trap = .check timer user) (hp : (s.cpus c).proc = some p)
      (ht : t = .yield user ∨ t = .preempt timer user ∨ t = .recheck user) :
      TrapStep s c .check t
  | preempt {timer user : Bool} {t : Trap} {p : Slot}
      (htrap : (s.cpus c).trap = .preempt timer user) (hp : (s.cpus c).proc = some p)
      (ht : t = .yield user ∨ t = .recheck user) : TrapStep s c .preempt t
  | recheck {user : Bool} {p : Slot} (htrap : (s.cpus c).trap = .recheck user)
      (hp : (s.cpus c).proc = some p) : TrapStep s c .recheck .none
  | recheckKilled {p : Slot} (htrap : (s.cpus c).trap = .recheck true)
      (hp : (s.cpus c).proc = some p) : TrapStep s c .recheck .exit

/-- A step of the protocol. -/
inductive Step (b : Build) : Core n → Label n → Core n → Prop
  | bootAlloc {s : Core n} {c : CpuId n} {p : Slot} (hctl : (s.cpus c).ctl = .boot)
      (hlock : s.lock = none) (hp : (s.procs p).state = .unused) :
      Step b s ((c, .bootAlloc), .alloc p) ((s.allocate p).setCtl c (.bootKalloc p))
  | bootFull {s : Core n} {c : CpuId n} (hctl : (s.cpus c).ctl = .boot) :
      Step b s ((c, .bootAlloc), .silent) (s.setCtl c .halted)
  | bootKalloc {s : Core n} {c : CpuId n} {p : Slot} (hctl : (s.cpus c).ctl = .bootKalloc p) :
      Step b s ((c, .bootKalloc true), .silent)
        ({ s.setupStack p with initproc := some p }.setCtl c (.bootPublish p))
  | bootAbandon {s : Core n} {c : CpuId n} {p : Slot} (hctl : (s.cpus c).ctl = .bootKalloc p) :
      Step b s ((c, .bootKalloc false), .silent) ((s.abandon p).setCtl c .halted)
  | bootPublish {s : Core n} {c : CpuId n} {p : Slot} (hctl : (s.cpus c).ctl = .bootPublish p)
      (hlock : s.lock = none) :
      Step b s ((c, .bootPublish), .silent)
        ((s.ready p).modifyCpu c fun k => { k with proc := none, ctl := .idle })
  | acquire {s : Core n} {c : CpuId n} {i : ℕ} (hctl : (s.cpus c).ctl = .idle)
      (htrap : (s.cpus c).trap = .none) (hlock : s.lock = none) :
      Step b s ((c, .acquire), .silent)
        ({ s with lock := some c }.modifyCpu c fun k => { k with ctl := .loop, p := i })
  | dispatch {s : Core n} {c : CpuId n} {p : Slot} {i : ℕ} (hctl : (s.cpus c).ctl = .loop)
      (hlock : s.lock = some c) (hp : (s.procs p).state = .runnable) :
      Step b s ((c, .select), .dispatch p) (s.dispatch b p i c)
  | endPass {s : Core n} {c : CpuId n} (hctl : (s.cpus c).ctl = .loop)
      (hlock : s.lock = some c) : Step b s ((c, .select), .silent) (s.endPass c)
  | resumeForkret {s : Core n} {c : CpuId n} {cur : Slot} (hctl : (s.cpus c).ctl = .resumed)
      (hlock : s.lock = some c) (hproc : (s.cpus c).proc = some cur)
      (hctx : (s.procs cur).context = .forkret) :
      Step b s ((c, .resume), .silent) (s.unlock c)
  | resumeYield {s : Core n} {c : CpuId n} {cur : Slot} {user : Bool}
      (hctl : (s.cpus c).ctl = .resumed) (hlock : s.lock = some c)
      (hproc : (s.cpus c).proc = some cur) (hctx : (s.procs cur).context = .yield user) :
      Step b s ((c, .resume), .silent) ((s.unlock c).setTrap c (.recheck user))
  | resumeSleep {s : Core n} {c : CpuId n} {cur : Slot} {exiting : Bool}
      (hctl : (s.cpus c).ctl = .resumed) (hlock : s.lock = some c)
      (hproc : (s.cpus c).proc = some cur) (hctx : (s.procs cur).context = .sleep exiting) :
      Step b s ((c, .resume), .silent)
        (((s.modify cur fun t => { t with chan := .null }).unlock c).setTrap c
          (if exiting then .exit else .none))
  | resumeWait {s s' : Core n} {c : CpuId n} {cur : Slot} {call : WaitCall} {e : Event}
      (hctl : (s.cpus c).ctl = .resumed) (hlock : s.lock = some c)
      (hproc : (s.cpus c).proc = some cur) (hctx : (s.procs cur).context = .wait call)
      (hwait : WaitStep call (s.modify cur fun t => { t with chan := .null }) c cur e s') :
      Step b s ((c, .resume), e) s'
  | swtch {s : Core n} {c : CpuId n} (hctl : (s.cpus c).ctl = .leaving)
      (hlock : s.lock = some c) :
      Step b s ((c, .swtch), .silent)
        (s.modifyCpu c fun k => { k with ctl := .switched, stack := none })
  | switchedLoop {s : Core n} {c : CpuId n} {i : ℕ} (hctl : (s.cpus c).ctl = .switched)
      (hlock : s.lock = some c) :
      Step b s ((c, .switched), .silent)
        (s.modifyCpu c fun k => { k with proc := none, ctl := .loop, p := i })
  | switchedIdle {s : Core n} {c : CpuId n} (hctl : (s.cpus c).ctl = .switched)
      (hlock : s.lock = some c) :
      Step b s ((c, .switched), .silent)
        ((s.modifyCpu c fun k => { k with proc := none }).endPass c)
  | fork {s : Core n} {c : CpuId n} {cur np : Slot} (hcall : s.Calls c cur)
      (hlock : s.lock = none) (hp : (s.procs np).state = .unused) :
      Step b s ((c, .fork), .alloc np) ((s.allocate np).setFrame cur (.kalloc np))
  | forkFull {s : Core n} {c : CpuId n} {cur : Slot} (hcall : s.Calls c cur) :
      Step b s ((c, .fork), .silent) s
  | kalloc {s : Core n} {c : CpuId n} {cur np : Slot} (hrun : s.Runs c cur)
      (hframe : (s.procs cur).frame = .kalloc np) :
      Step b s ((c, .kalloc true), .silent) ((s.setupStack np).setFrame cur (.copyuvm np))
  | kallocFail {s : Core n} {c : CpuId n} {cur np : Slot} (hrun : s.Runs c cur)
      (hframe : (s.procs cur).frame = .kalloc np) :
      Step b s ((c, .kalloc false), .silent) ((s.abandon np).setFrame cur .user)
  | copyuvm {s : Core n} {c : CpuId n} {cur np : Slot} (hrun : s.Runs c cur)
      (hframe : (s.procs cur).frame = .copyuvm np) :
      Step b s ((c, .copyuvm true), .silent)
        ((s.modify np fun t => { t with parent := some cur }).setFrame cur (.publish np))
  | copyuvmFail {s : Core n} {c : CpuId n} {cur np : Slot} (hrun : s.Runs c cur)
      (hframe : (s.procs cur).frame = .copyuvm np) :
      Step b s ((c, .copyuvm false), .silent) ((s.abandon np).setFrame cur .user)
  | publish {s : Core n} {c : CpuId n} {cur np : Slot} (hrun : s.Runs c cur)
      (hframe : (s.procs cur).frame = .publish np) (hlock : s.lock = none) :
      Step b s ((c, .publish), .silent) ((s.ready np).setFrame cur .user)
  | exit {s : Core n} {c : CpuId n} {cur : Slot}
      (hcall : s.Calls c cur ∨
        (s.cpus c).ctl = .process ∧ (s.cpus c).trap = .exit ∧ (s.cpus c).proc = some cur)
      (hlock : s.lock = none) (hinit : s.initproc ≠ some cur) :
      Step b s ((c, .exit), .exit cur) ((s.exitTable cur).sched c)
  | wait {s s' : Core n} {c : CpuId n} {cur : Slot} {call : WaitCall} {e : Event}
      (hcall : s.Calls c cur) (hlock : s.lock = none) (hwait : WaitStep call s c cur e s') :
      Step b s ((c, .wait call), e) s'
  | sleep {s : Core n} {c : CpuId n} {cur : Slot} {o : Obj} {exiting : Bool}
      (hcall : s.Calls c cur ∨
        (s.cpus c).ctl = .process ∧ (s.cpus c).trap = .exit ∧ (s.cpus c).proc = some cur)
      (hlock : s.lock = none) :
      Step b s ((c, .sleep o), .silent)
        ((s.modify cur fun t =>
          { t with chan := .obj o, state := .sleeping, context := .sleep exiting }).sched c)
  | yield {s : Core n} {c : CpuId n} {cur : Slot} {user : Bool}
      (htrap : (s.cpus c).trap = .yield user) (hproc : (s.cpus c).proc = some cur)
      (hlock : s.lock = none) :
      Step b s ((c, .yield), .silent)
        ((s.modify cur fun t => { t with state := .runnable, context := .yield user }).sched c)
  | wakeup {s : Core n} {c : CpuId n} {o : Obj} (hcall : s.CanCall c ∨ (s.cpus c).trap = .exit)
      (hlock : s.lock = none) :
      Step b s ((c, .wakeup o), .silent) (s.mapProcs (Task.wake (.obj o)))
  | killMiss {s : Core n} {c : CpuId n} {pid : ℤ} {cur : Slot} (hcall : s.Calls c cur)
      (hlock : s.lock = none) (hpid : ∀ i, (s.procs i).pid ≠ pid) :
      Step b s ((c, .kill pid), .kill pid (-1)) s
  | kill {s : Core n} {c : CpuId n} {pid : ℤ} {cur p : Slot} (hcall : s.Calls c cur)
      (hlock : s.lock = none) (hpid : (s.procs p).pid = pid)
      (hfirst : ∀ i < p, (s.procs i).pid ≠ pid) :
      Step b s ((c, .kill pid), .kill pid 0)
        (s.modify p fun t =>
          { t with
            killed := true, state := if t.state = .sleeping then .runnable else t.state })
  | setPriorityMiss {s : Core n} {c : CpuId n} {newPriority pid : ℤ} {cur : Slot}
      (hcall : s.Calls c cur) (hlock : s.lock = none) (hpid : ∀ i, (s.procs i).pid ≠ pid) :
      Step b s ((c, .setPriority newPriority pid), .setPriority pid (-1)) s
  | setPriority {s : Core n} {c : CpuId n} {newPriority pid : ℤ} {cur p : Slot}
      (hcall : s.Calls c cur) (hlock : s.lock = none) (hpid : (s.procs p).pid = pid) :
      Step b s ((c, .setPriority newPriority pid), .setPriority pid (s.procs p).priority)
        (s.modify p fun t => { t with priority := newPriority })
  | tick {s : Core n} {user : Bool} (hcall : s.CanCall 0)
      (huser : user = true → ∃ p, s.Calls 0 p) :
      Step b s ((0, .timer user), .tick)
        ({ s with ticks := s.ticks + 1 }.setTrap 0 (.ticked user))
  | charge {s : Core n} {c : CpuId n} {user : Bool} (htrap : (s.cpus c).trap = .ticked user)
      (hlock : s.lock = none) :
      Step b s ((c, .changeTicks), .charge)
        ((s.mapProcs Task.charge).setTrap c (.charged user))
  | wakeupTicks {s : Core n} {c : CpuId n} {user : Bool}
      (htrap : (s.cpus c).trap = .charged user) (hlock : s.lock = none) :
      Step b s ((c, .wakeupTicks), .silent)
        ((s.mapProcs (Task.wake (.obj .ticks))).setTrap c (.check true user))
  | fault {s : Core n} {c : CpuId n} {cur : Slot} (hcall : s.Calls c cur) :
      Step b s ((c, .fault), .fault cur)
        ((s.modify cur fun t => { t with killed := true }).setTrap c (.check false true))
  | trap {s : Core n} {c : CpuId n} {a : Action} {t : Trap} (h : TrapStep s c a t) :
      Step b s ((c, a), .silent) (s.setTrap c t)

/-- The state at boot. -/
def initial : Core n where
  procs _ := Proc.zero.toTask
  beyond := 0
  nextpid := 1
  ticks := 0
  initproc := none
  lock := none
  cpus c := {
    proc := none
    stack := none
    ctl := if c = 0 then .boot else .idle
    trap := .none
    p := 0 }

end Core

/-- The protocol that the kernel of build `b` follows. -/
def protocol (b : Build) (n : ℕ) : Transition.System (Core n) (Label n) where
  init s := s = .initial
  step := Core.Step b

end Xv6
