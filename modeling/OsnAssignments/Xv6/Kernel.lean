import OsnAssignments.Common.Transition
import OsnAssignments.Xv6.Proc

/-!
# Process management in the kernel

The functions of `proc.c` and the handler `trap` of `trap.c`, cut into the pieces that other CPUs
cannot interrupt: a critical section of `ptable.lock`, or code between two such sections that
touches shared data. `step` performs one piece on one CPU; it is `none` where the CPU is not at that
piece, spins for the lock, or panics.

A critical section that switches stacks is cut at `swtch`, where the lock is handed over: `exit`,
`sleep`, `wait`, `waitx` and `yield` end in `sched` with the lock held (`Ctl.leaving`), `swtch`
enters the scheduler (`Ctl.switched`), which dispatches the next process with the lock still held
(`Ctl.resumed`), and that process releases it.
-/

namespace Xv6

open Loop

/-- A piece of kernel code, with the results of calls whose outcome the model leaves open:
`kalloc`, `copyuvm`, and the mode in which an interrupt finds the CPU. -/
inductive Action
  /-- `userinit`: the critical section of `allocproc`. -/
  | bootAlloc
  /-- `userinit`: the rest of `allocproc`, and `initproc = p`. -/
  | bootKalloc (ok : Bool)
  /-- `userinit`: its critical section. -/
  | bootPublish
  /-- `scheduler`: `acquire(&ptable.lock)`. -/
  | acquire
  /-- `scheduler`: look for a process and switch to it, or release the lock. -/
  | select
  /-- A process continues after `swtch`. -/
  | resume
  /-- `sched`: `swtch` to the scheduler. -/
  | swtch
  /-- `scheduler`: the code after `swtch`. -/
  | switched
  /-- `fork`: the critical section of `allocproc`. -/
  | fork
  /-- `fork`: the rest of `allocproc`. -/
  | kalloc (ok : Bool)
  /-- `fork`: `copyuvm` and the copying that follows it. -/
  | copyuvm (ok : Bool)
  /-- `fork`: its critical section. -/
  | publish
  | exit
  | wait (call : WaitCall)
  | sleep (o : Obj)
  | wakeup (o : Obj)
  | kill (pid : ℤ)
  | setPriority (newPriority pid : ℤ)
  /-- A timer interrupt. -/
  | timer (user : Bool)
  /-- Another device interrupt. -/
  | device (user : Bool)
  /-- A fault in user code. -/
  | fault
  /-- `trap`: `change_ticks()`. -/
  | changeTicks
  /-- `trap`: `wakeup(&ticks)`. -/
  | wakeupTicks
  /-- `trap`: from the first test of `killed` to the decision to give up the CPU. -/
  | check
  /-- `trap`: the call of `preempt`. -/
  | preempt
  /-- `trap`: the call of `yield`. -/
  | yield
  /-- `trap`: the last test of `killed`. -/
  | recheck
  deriving DecidableEq, Repr

/-- What a piece of kernel code did. -/
inductive Event
  | silent
  /-- `allocproc` took the entry `p`. -/
  | alloc (p : Slot)
  /-- The scheduler switched to `p`. -/
  | dispatch (p : Slot)
  /-- `p` became a zombie. -/
  | exit (p : Slot)
  /-- A call by `parent` reaped `child` and returned `pid`; `waitx` stored `(*wtime, *rtime)`. -/
  | reap (parent child : Slot) (pid : ℤ) (times : Option (ℤ × ℤ))
  /-- `wait` or `waitx` returned `-1`. -/
  | noChild (parent : Slot)
  /-- `kill(pid)` returned `ret`. -/
  | kill (pid ret : ℤ)
  /-- `set_priority(_, pid)` returned `ret`. -/
  | setPriority (pid ret : ℤ)
  /-- `ticks++`. -/
  | tick
  /-- `change_ticks()`. -/
  | charge
  /-- A fault marked `p` killed. -/
  | fault (p : Slot)
  deriving DecidableEq, Repr

/-! ## Entries of the process table -/

namespace Task

/-- The entry after `allocproc` has taken it. -/
def allocate (pid ctime : ℤ) (t : Task) : Task :=
  { t with
    state := .embryo, pid := pid, ctime := ctime, etime := 0, runtime := 0, nrun := 0
    priority := 60 }

/-- The entry after `wait` or `waitx` has freed it at time `ticks`. -/
def reap (call : WaitCall) (ticks : ℕ) (t : Task) : Task :=
  { t with
    kstack := false, pid := 0, parent := none, killed := false, state := .unused,
    etime := match call with
      | .wait => t.etime
      | .waitx => ticks }

/-- What `waitx` stores through its arguments when it reaps the entry at time `ticks`:
`(*wtime, *rtime)`. -/
def waitxTimes (ticks : ℕ) (t : Task) : ℤ × ℤ :=
  let etime : ℤ := ticks
  let wtime := (etime - t.ctime) - t.runtime
  (if wtime < 0 then -1 * wtime else wtime, t.runtime)

/-- What a reaping call stores: `wait` stores nothing. -/
def report (call : WaitCall) (ticks : ℕ) (t : Task) : Option (ℤ × ℤ) :=
  match call with
  | .wait => none
  | .waitx => some (t.waitxTimes ticks)

end Task

namespace Kernel

variable {n : ℕ}

/-! ## Ready processes -/

/-- `push(a, b)`. -/
def push (a : Level) (b : Slot) (σ : Kernel n) : Kernel n :=
  match σ.rings.push a b with
  -- the process is in some ring already, or the ring is full; its times are not reset
  | none => σ
  | some r => { σ with rings := r }.modify b fun p => { p with curtime := 0, waittime := 0 }

/-- `p->state = RUNNABLE`, and in the MLFQ build `push(a, p)`. -/
def ready (b : Build) (a : Level) (p : Slot) (σ : Kernel n) : Kernel n :=
  let σ := σ.modify p fun q => { q with state := .runnable }
  if b = .mlfq then σ.push a p else σ

/-- One iteration of the loop of `wakeup1`. -/
def wakeup1Body (b : Build) (chan : Chan) (σ : Kernel n) (p : Slot) : Kernel n :=
  if (σ.proc p).state = .sleeping ∧ (σ.proc p).chan = chan then
    let σ := if b = .mlfq then σ.modify p fun q => { q with curtime := 0 } else σ
    -- the ring is that of `p->qn` at this point, not ring 0
    σ.ready b (level (σ.proc p).qn) p
  else σ

/-- `wakeup1(chan)`. -/
def wakeup1 (b : Build) (chan : Chan) (σ : Kernel n) : Kernel n :=
  (List.finRange NPROC).foldl (wakeup1Body b chan) σ

/-! ## Creating processes -/

/-- The critical section of `allocproc`: the entry it takes and the table afterwards, or `none`
when no entry is `UNUSED`. -/
def allocproc (σ : Kernel n) : Option (Slot × Kernel n) := do
  let p ← (List.finRange NPROC).find? fun i => (σ.proc i).state = .unused
  return (p, { σ.modify p fun q =>
    { q.toTask.allocate (int32 σ.nextpid) σ.ticks with
      qnt := Vector.replicate 5 0, waittime := 0, qn := 0, curtime := 0, flagq := false } with
    nextpid := σ.nextpid + 1 })

/-- The rest of `allocproc` once `kalloc` has returned a kernel stack: `p->context` is set up to
start in `forkret`. -/
def setupStack (p : Slot) (σ : Kernel n) : Kernel n :=
  σ.modify p fun q => { q with kstack := true, context := .forkret, frame := .user }

/-- The failure paths of `allocproc` and `fork`: the entry has no kernel stack and is `UNUSED`
again. -/
def abandon (p : Slot) (σ : Kernel n) : Kernel n :=
  -- `pid`, `parent` and the times keep what `allocproc` and earlier uses left in them
  σ.modify p fun q => { q with kstack := false, state := .unused }

/-- The first part of `userinit`. -/
def bootAlloc (σ : Kernel n) (c : CpuId n) : Option (Kernel n × Event) := do
  guard ((σ.cpus c).ctl = .boot ∧ σ.lock = none)
  match σ.allocproc with
  -- `userinit` does not test the result and writes through a null pointer
  | none => return (σ.modifyCpu c fun k => { k with ctl := .halted }, .silent)
  | some (p, σ) => return (σ.modifyCpu c fun k => { k with ctl := .bootKalloc p }, .alloc p)

/-- `initproc = allocproc()`; `userinit` then writes through the pointer. -/
def bootKalloc (ok : Bool) (σ : Kernel n) (c : CpuId n) : Option (Kernel n × Event) :=
  match (σ.cpus c).ctl with
  | .bootKalloc p =>
    if ok then
      some ({ σ.setupStack p with initproc := some p }.modifyCpu c
        fun k => { k with ctl := .bootPublish p }, .silent)
    else
      some ((σ.abandon p).modifyCpu c fun k => { k with ctl := .halted }, .silent)
  | _ => none

/-- The critical section of `userinit`; the boot CPU then enters its scheduler. -/
def bootPublish (b : Build) (σ : Kernel n) (c : CpuId n) : Option (Kernel n × Event) :=
  match (σ.cpus c).ctl with
  | .bootPublish p => do
    guard (σ.lock = none)
    return ((σ.ready b 0 p).modifyCpu c fun k => { k with proc := none, ctl := .idle }, .silent)
  | _ => none

/-- The process that CPU `c` is running outside `ptable.lock` and outside `trap`. -/
def current (σ : Kernel n) (c : CpuId n) : Option Slot := do
  guard ((σ.cpus c).ctl = .process ∧ (σ.cpus c).trap = .none)
  (σ.cpus c).proc

/-- The process on CPU `c` that can make a system call: it is not in the middle of a `fork`. -/
def caller (σ : Kernel n) (c : CpuId n) : Option Slot := do
  let p ← σ.current c
  guard ((σ.proc p).frame = .user)
  return p

/-- `fork` up to the end of the critical section of `allocproc`. -/
def fork (σ : Kernel n) (c : CpuId n) : Option (Kernel n × Event) := do
  let cur ← σ.caller c
  guard (σ.lock = none)
  match σ.allocproc with
  -- no entry is `UNUSED`: `fork` returns -1
  | none => return (σ, .silent)
  | some (np, σ) => return (σ.modify cur fun p => { p with frame := .kalloc np }, .alloc np)

/-- `fork`: the rest of `allocproc`. -/
def kalloc (ok : Bool) (σ : Kernel n) (c : CpuId n) : Option (Kernel n × Event) := do
  let cur ← σ.current c
  match (σ.proc cur).frame with
  | .kalloc np =>
    if ok then
      return ((σ.setupStack np).modify cur fun p => { p with frame := .copyuvm np }, .silent)
    else
      return ((σ.abandon np).modify cur fun p => { p with frame := .user }, .silent)
  | _ => none

/-- `fork`: `copyuvm`, and after it `np->parent = curproc`. -/
def copyuvm (ok : Bool) (σ : Kernel n) (c : CpuId n) : Option (Kernel n × Event) := do
  let cur ← σ.current c
  match (σ.proc cur).frame with
  | .copyuvm np =>
    -- until here the child keeps the `parent` of the process that used its entry before; the
    -- failure path leaves it there
    if ok then
      return ((σ.modify np fun p => { p with parent := some cur }).modify cur
        fun p => { p with frame := .publish np }, .silent)
    else
      return ((σ.abandon np).modify cur fun p => { p with frame := .user }, .silent)
  | _ => none

/-- `fork`: its critical section. -/
def publish (b : Build) (σ : Kernel n) (c : CpuId n) : Option (Kernel n × Event) := do
  let cur ← σ.current c
  match (σ.proc cur).frame with
  | .publish np =>
    guard (σ.lock = none)
    return ((σ.ready b 0 np).modify cur fun p => { p with frame := .user }, .silent)
  | _ => none

/-! ## Giving up the CPU -/

/-- `sched()` up to `swtch`, for the process on CPU `c`, with the lock held. -/
def sched (σ : Kernel n) (c : CpuId n) : Kernel n :=
  { σ with lock := some c }.modifyCpu c fun k => { k with ctl := .leaving, trap := .none }

/-- `release(&ptable.lock)`, after which the process on CPU `c` goes on. -/
def unlock (σ : Kernel n) (c : CpuId n) : Kernel n :=
  { σ with lock := none }.modifyCpu c fun k => { k with ctl := .process }

/-- One iteration of the loop of `exit` that passes abandoned children to init. -/
def exitBody (b : Build) (cur : Slot) (σ : Kernel n) (p : Slot) : Kernel n :=
  if (σ.proc p).parent = some cur then
    let σ := σ.modify p fun q => { q with parent := σ.initproc }
    -- init may be sleeping in `wait` for just this child
    if (σ.proc p).state = .zombie then σ.wakeup1 b (.ofProc σ.initproc) else σ
  else σ

/-- The critical section of `exit` for the process `cur`, without `sched`. -/
def exitTable (b : Build) (cur : Slot) (σ : Kernel n) : Kernel n :=
  -- the parent might be sleeping in `wait`; it finds the zombie only once the lock is released
  let σ := σ.wakeup1 b (.ofProc (σ.proc cur).parent)
  let σ := (List.finRange NPROC).foldl (exitBody b cur) σ
  σ.modify cur fun p => { p with etime := σ.ticks, state := .zombie }

/-- The process on CPU `c` that may call `exit` as a system call, or that is in the `exit` which
`trap` has called. -/
def exiting (σ : Kernel n) (c : CpuId n) : Option Slot :=
  if (σ.cpus c).ctl = .process ∧ (σ.cpus c).trap = .exit then (σ.cpus c).proc else σ.caller c

/-- The critical section of `exit()`; for init it panics before. -/
def exit (b : Build) (σ : Kernel n) (c : CpuId n) : Option (Kernel n × Event) := do
  let cur ← σ.exiting c
  guard (σ.lock = none ∧ σ.initproc ≠ some cur)
  return ((σ.exitTable b cur).sched c, .exit cur)

/-- One pass of the loop of `wait` or `waitx` by the process `cur` on CPU `c`: reap a zombie
child, return `-1`, or sleep. -/
def waitLoop (call : WaitCall) (σ : Kernel n) (c : CpuId n) (cur : Slot) : Kernel n × Event :=
  match (List.finRange NPROC).find? fun i =>
      (σ.proc i).parent = some cur ∧ (σ.proc i).state = .zombie with
  | some i =>
    ((σ.modify i fun p => { p with toTask := p.toTask.reap call σ.ticks }).unlock c,
      .reap cur i (σ.proc i).pid ((σ.proc i).toTask.report call σ.ticks))
  | none =>
    -- children in any state count, also those whose entry was abandoned
    let havekids := (List.finRange NPROC).any fun i => (σ.proc i).parent = some cur
    if !havekids || (σ.proc cur).killed then (σ.unlock c, .noChild cur)
    else
      ((σ.modify cur fun p =>
        { p with chan := .proc cur, state := .sleeping, context := .wait call }).sched c, .silent)

/-- `wait()` and `waitx(wtime, rtime)` up to the first `sched`. -/
def wait (call : WaitCall) (σ : Kernel n) (c : CpuId n) : Option (Kernel n × Event) := do
  let cur ← σ.caller c
  guard (σ.lock = none)
  return σ.waitLoop call c cur

/-- `sleep(chan, lk)` on a kernel object, where `lk` is not `ptable.lock`: in a system call, or in
the `fileclose`, `begin_op` or `iput` of an `exit` that `trap` has called. -/
def sleep (o : Obj) (σ : Kernel n) (c : CpuId n) : Option (Kernel n × Event) := do
  let cur ← σ.exiting c
  let exiting := decide ((σ.cpus c).trap = .exit)
  guard (σ.lock = none ∧ (exiting = true → σ.initproc ≠ some cur))
  return ((σ.modify cur fun p =>
    { p with chan := .obj o, state := .sleeping, context := .sleep exiting }).sched c, .silent)

/-- `yield()`, which `trap` calls. -/
def yield (b : Build) (σ : Kernel n) (c : CpuId n) : Option (Kernel n × Event) :=
  match (σ.cpus c).trap with
  | .yield user => do
    let cur ← (σ.cpus c).proc
    guard (σ.lock = none)
    let σ := if b = .mlfq then σ.modify cur fun p => { p with curtime := 0, waittime := 0 } else σ
    return ((σ.modify cur fun p =>
      { p with state := .runnable, context := .yield user }).sched c, .silent)
  | _ => none

/-- The code of a process after `swtch` has switched to it: the rest of `forkret`, `yield`,
`sleep`, or of the loop of `wait` or `waitx`. -/
def resume (σ : Kernel n) (c : CpuId n) : Option (Kernel n × Event) := do
  guard ((σ.cpus c).ctl = .resumed ∧ σ.lock = some c)
  let cur ← (σ.cpus c).proc
  match (σ.proc cur).context with
  -- every context starts by giving up the lock that the scheduler has handed over
  | .forkret => return (σ.unlock c, .silent)
  | .yield user =>
    return ((σ.unlock c).modifyCpu c fun k => { k with trap := .recheck user }, .silent)
  | .sleep exiting =>
    return (((σ.modify cur fun p => { p with chan := .null }).unlock c).modifyCpu c
      fun k => { k with trap := if exiting then .exit else .none }, .silent)
  | .wait call => return (σ.modify cur fun p => { p with chan := .null }).waitLoop call c cur

/-- `swtch(&p->context, mycpu()->scheduler)`. -/
def swtch (σ : Kernel n) (c : CpuId n) : Option (Kernel n × Event) := do
  guard ((σ.cpus c).ctl = .leaving ∧ σ.lock = some c)
  return (σ.modifyCpu c fun k => { k with ctl := .switched, stack := none }, .silent)

/-! ## The scheduler -/

/-- The entries with index at least `i`, in table order. -/
def slotsFrom (i : ℕ) : List Slot :=
  (List.finRange NPROC).drop i

/-- The scan of the `ROUND_ROBIN` loop from `p = &ptable.proc[i]` on. -/
def pickRoundRobin (σ : Kernel n) (i : ℕ) : Option Slot :=
  (slotsFrom i).find? fun p => (σ.proc p).state = .runnable

/-- One iteration of the `FCFS` loop; the accumulator is `pro`. -/
def fcfsBody (σ : Kernel n) (pro : Option Slot) (p : Slot) : Option Slot :=
  if (σ.proc p).state ≠ .runnable then pro
  else
    match pro with
    | none => some p
    -- strict: among equal times the entry met first stays
    | some q => if int32 (σ.proc p).ctime < int32 (σ.proc q).ctime then some p else some q

/-- The scan of the `FCFS` loop. -/
def pickFcfs (σ : Kernel n) : Option Slot :=
  (List.finRange NPROC).foldl σ.fcfsBody none

/-- One iteration of the inner loops of `PBS`; the accumulator is `hp`. -/
def pbsBody (σ : Kernel n) (hp ekaur : Slot) : Slot :=
  if (σ.proc ekaur).state ≠ .runnable then hp
  else if (σ.proc ekaur).priority < (σ.proc hp).priority then ekaur
  else hp

/-- The scan of the `PBS` loop from `p = &ptable.proc[i]` on. -/
def pickPbs (σ : Kernel n) (i : ℕ) : Option Slot := do
  let p ← (slotsFrom i).find? fun p => (σ.proc p).state = .runnable
  -- the two inner loops: the entries after `p`, then those before it
  let hp := (slotsFrom (p + 1)).foldl σ.pbsBody p
  return ((List.finRange NPROC).take p).foldl σ.pbsBody hp

/-- The body of the aging loops: `p = queue[i][j]`, moved up one ring if it has waited for more
than `age` ticks. -/
def ageBody (i : Level) (σ : Kernel n) (j : ℤ) : Kernel n :=
  match σ.rings.get i j with
  -- a null pointer, through which the source would read `waittime`
  | none => σ
  | some p =>
    if (σ.proc p).waittime > age then
      ({ σ with rings := σ.rings.remove i p }.modify p fun q => { q with qn := q.qn - 1 }).push
        (i - 1) p
    else σ

/-- The guard `j <= back[i]` of the aging loops. -/
def ageGuard (i : Level) (σ : Kernel n) (j : ℤ) : Bool :=
  j ≤ σ.rings.back[i]

/-- The aging loop over ring `i`. -/
def ageRing (σ : Kernel n) (i : Level) : Kernel n :=
  if σ.rings.face[i] = -1 then σ
  else if σ.rings.face[i] ≤ σ.rings.back[i] then
    forLoop (ageGuard i) (ageBody i) NPROC σ.rings.face[i] σ
  else
    -- a ring that wraps is scanned in two parts; `back[i]` is read again in each round
    let σ := forLoop (fun _ j => j < NPROC) (ageBody i) NPROC σ.rings.face[i] σ
    forLoop (ageGuard i) (ageBody i) NPROC 0 σ

/-- The aging loop over rings `1` to `4`. -/
def agePass (σ : Kernel n) : Kernel n :=
  [(1 : Level), 2, 3, 4].foldl ageRing σ

/-- The loop that pops the first non-empty ring. -/
def popFirst (σ : Kernel n) : Option Slot × Kernel n :=
  -- `break` after the first non-empty ring
  match (List.finRange 5).find? fun i => σ.rings.face[i] ≠ -1 with
  | none => (none, σ)
  | some i => ((σ.rings.pop i).1, { σ with rings := (σ.rings.pop i).2 })

/-- The selection of the `MLFQ` loop; a popped process that is not `RUNNABLE` is dropped. -/
def pickMlfq (σ : Kernel n) : Option Slot × Kernel n :=
  let (p, σ) := σ.agePass.popFirst
  (p.filter fun p => (σ.proc p).state = .runnable, σ)

/-- The process a scheduler selects when its variable `p` points to entry `i`. -/
def pick (b : Build) (i : ℕ) (σ : Kernel n) : Option Slot × Kernel n :=
  match b with
  | .roundRobin => (σ.pickRoundRobin i, σ)
  | .fcfs => (σ.pickFcfs, σ)
  | .mlfq => σ.pickMlfq
  | .pbs => (σ.pickPbs i, σ)

/-- The statement `p->nrun++` of a scheduler that has selected `p`. In the `FCFS` loop the
variable `p` is `&ptable.proc[NPROC]` by then and the selected process is `pro`. -/
def countRun (b : Build) (p : Slot) (σ : Kernel n) : Kernel n :=
  match b with
  | .fcfs => { σ with beyond := σ.beyond + 1 }
  | _ => σ.modify p fun q => { q with nrun := q.nrun + 1 }

/-- Dispatch `p` on CPU `c`, up to the `swtch` to its context. -/
def dispatch (b : Build) (p : Slot) (σ : Kernel n) (c : CpuId n) : Kernel n :=
  let σ := if b = .mlfq then σ.modify p fun q => { q with waittime := 0, curtime := 0 } else σ
  let σ := (σ.countRun b p).modify p fun q => { q with state := .running }
  σ.modifyCpu c fun k =>
    { k with
      proc := some p, stack := some p, ctl := .resumed
      -- the loop variable: `PBS` sets it to `hp`, `FCFS` has run it to the end of the table
      p := match b with
        | .fcfs => NPROC
        | _ => p }

/-- `acquire(&ptable.lock)` in `scheduler`, at the start of a pass. -/
def acquire (σ : Kernel n) (c : CpuId n) : Option (Kernel n × Event) := do
  guard ((σ.cpus c).ctl = .idle ∧ (σ.cpus c).trap = .none ∧ σ.lock = none)
  return ({ σ with lock := some c }.modifyCpu c fun k => { k with ctl := .loop, p := 0 }, .silent)

/-- `release(&ptable.lock)` in `scheduler`, at the end of a pass. -/
def endPass (σ : Kernel n) (c : CpuId n) : Kernel n :=
  { σ with lock := none }.modifyCpu c fun k => { k with ctl := .idle }

/-- `scheduler`: look for a process and switch to it, or release the lock. -/
def select (b : Build) (σ : Kernel n) (c : CpuId n) : Option (Kernel n × Event) := do
  guard ((σ.cpus c).ctl = .loop ∧ σ.lock = some c)
  match σ.pick b (σ.cpus c).p with
  | (none, σ) => return (σ.endPass c, .silent)
  | (some p, σ) => return (σ.dispatch b p c, .dispatch p)

/-- The part of the `MLFQ` loop after `swtch` has returned from `p`. -/
def requeue (p : Slot) (σ : Kernel n) : Kernel n :=
  if (σ.proc p).state = .runnable then
    let σ := σ.modify p fun q =>
      -- the process has used up its slice and goes down one ring
      if q.flagq then
        { q with
          flagq := false, curtime := 0, waittime := 0
          qn := if q.qn ≠ 4 then q.qn + 1 else q.qn }
      else { q with curtime := 0 }
    σ.push (level (σ.proc p).qn) p
  else σ

/-- `scheduler`: the code after `swtch`. The `ROUND_ROBIN` and `PBS` loops go on with the next
entry; the others end their pass. -/
def switched (b : Build) (σ : Kernel n) (c : CpuId n) : Option (Kernel n × Event) := do
  guard ((σ.cpus c).ctl = .switched ∧ σ.lock = some c)
  let i := (σ.cpus c).p
  let σ := σ.modifyCpu c fun k => { k with proc := none }
  match b with
  | .roundRobin | .pbs =>
    return (σ.modifyCpu c fun k => { k with ctl := .loop, p := i + 1 }, .silent)
  | .fcfs => return (σ.endPass c, .silent)
  | .mlfq => return ((if h : i < NPROC then σ.requeue ⟨i, h⟩ else σ).endPass c, .silent)

/-! ## System calls on other processes -/

/-- A CPU that can run kernel code outside `ptable.lock` and outside `trap`. -/
def canCall (σ : Kernel n) (c : CpuId n) : Prop :=
  (σ.cpus c).trap = .none ∧ ((σ.cpus c).ctl = .idle ∨ (σ.cpus c).ctl = .process)

instance (σ : Kernel n) (c : CpuId n) : Decidable (σ.canCall c) :=
  inferInstanceAs (Decidable (_ ∧ _))

/-- `wakeup(chan)` on a kernel object, called by a process, also in the `exit` that `trap` has
called, or by a device interrupt. -/
def wakeup (b : Build) (o : Obj) (σ : Kernel n) (c : CpuId n) : Option (Kernel n × Event) := do
  guard ((σ.canCall c ∨ (σ.cpus c).trap = .exit ∧ σ.initproc ≠ (σ.cpus c).proc) ∧ σ.lock = none)
  return (σ.wakeup1 b (.obj o), .silent)

/-- The entry that `kill` and `set_priority` act on. -/
def findPid (σ : Kernel n) (pid : ℤ) : Option Slot :=
  (List.finRange NPROC).find? fun i => (σ.proc i).pid = pid

/-- The critical section of `kill(pid)`: the table afterwards and the result. -/
def killTable (b : Build) (pid : ℤ) (σ : Kernel n) : Kernel n × ℤ :=
  match σ.findPid pid with
  | none => (σ, -1)
  | some p =>
    -- the first entry with that pid, whatever its state
    let σ := σ.modify p fun q => { q with killed := true }
    (if (σ.proc p).state = .sleeping then σ.ready b (level (σ.proc p).qn) p else σ, 0)

/-- The critical section of `set_priority(new_priority, pid)`: the table afterwards and the
result. -/
def setPriorityTable (newPriority pid : ℤ) (σ : Kernel n) : Kernel n × ℤ :=
  match σ.findPid pid with
  | none => (σ, -1)
  | some a => (σ.modify a fun q => { q with priority := newPriority }, (σ.proc a).priority)

/-- `kill(pid)`, as a system call. -/
def kill (b : Build) (pid : ℤ) (σ : Kernel n) (c : CpuId n) : Option (Kernel n × Event) := do
  let _ ← σ.caller c
  guard (σ.lock = none)
  return ((σ.killTable b pid).1, .kill pid (σ.killTable b pid).2)

/-- `set_priority(new_priority, pid)`, as a system call. -/
def setPriority (newPriority pid : ℤ) (σ : Kernel n) (c : CpuId n) :
    Option (Kernel n × Event) := do
  let _ ← σ.caller c
  guard (σ.lock = none)
  return ((σ.setPriorityTable newPriority pid).1,
    .setPriority pid (σ.setPriorityTable newPriority pid).2)

/-! ## Interrupts -/

/-- An interrupt can reach CPU `c`, in user code if `user`. -/
def canTrap (σ : Kernel n) (c : CpuId n) (user : Bool) : Prop :=
  σ.canCall c ∧ (user = true → (σ.caller c).isSome)

instance (σ : Kernel n) (c : CpuId n) (user : Bool) : Decidable (σ.canTrap c user) :=
  inferInstanceAs (Decidable (_ ∧ _))

/-- Set how far CPU `c` is in `trap`. -/
def setTrap (σ : Kernel n) (c : CpuId n) (t : Trap) : Kernel n :=
  σ.modifyCpu c fun k => { k with trap := t }

/-- A timer interrupt; the boot CPU counts it. -/
def timer (user : Bool) (σ : Kernel n) (c : CpuId n) : Option (Kernel n × Event) := do
  guard (σ.canTrap c user)
  -- only the boot CPU counts ticks and charges them
  if c = 0 then return ({ σ with ticks := σ.ticks + 1 }.setTrap c (.ticked user), .tick)
  else return (σ.setTrap c (.check true user), .silent)

/-- A device interrupt other than the timer. -/
def device (user : Bool) (σ : Kernel n) (c : CpuId n) : Option (Kernel n × Event) := do
  guard (σ.canTrap c user)
  return (σ.setTrap c (.check false user), .silent)

/-- A fault in user code: the `default` case of `trap`. -/
def fault (σ : Kernel n) (c : CpuId n) : Option (Kernel n × Event) := do
  let cur ← σ.caller c
  return ((σ.modify cur fun p => { p with killed := true }).setTrap c (.check false true),
    .fault cur)

/-- One iteration of the loop of `change_ticks`. -/
def changeTicksBody (b : Build) (p : Proc) : Proc :=
  -- every entry that is not running waits, an `UNUSED` one included
  if p.state ≠ .running then { p with waittime := p.waittime + 1 }
  else if b = .mlfq then
    { p with
      runtime := p.runtime + 1, curtime := p.curtime + 1
      qnt := p.qnt.set (level p.qn) (p.qnt[level p.qn] + 1) }
  else { p with runtime := p.runtime + 1 }

/-- `change_ticks()`. -/
def changeTicks (b : Build) (σ : Kernel n) (c : CpuId n) : Option (Kernel n × Event) :=
  match (σ.cpus c).trap with
  | .ticked user => do
    guard (σ.lock = none)
    return ({ σ with procs := σ.procs.map (changeTicksBody b) }.setTrap c (.charged user), .charge)
  | _ => none

/-- `wakeup(&ticks)` in the timer case of `trap`. -/
def wakeupTicks (b : Build) (σ : Kernel n) (c : CpuId n) : Option (Kernel n × Event) :=
  match (σ.cpus c).trap with
  | .charged user => do
    guard (σ.lock = none)
    return ((σ.wakeup1 b (.obj .ticks)).setTrap c (.check true user), .silent)
  | _ => none

/-- `trap` from the first test of `killed` on: whether the process must `exit`, and whether it
gives up the CPU under the policy of the build. -/
def check (b : Build) (σ : Kernel n) (c : CpuId n) : Option (Kernel n × Event) :=
  match (σ.cpus c).trap, (σ.cpus c).proc with
  | .check _ _, none => some (σ.setTrap c .none, .silent)
  | .check timer user, some p =>
    let running := decide ((σ.proc p).state = .running)
    if (σ.proc p).killed && user then some (σ.setTrap c .exit, .silent)
    else
      match b with
      | .roundRobin =>
        some (σ.setTrap c (if running && timer then .yield user else .recheck user), .silent)
      -- no preemption at all
      | .fcfs => some (σ.setTrap c .none, .silent)
      | .pbs =>
        some (σ.setTrap c (if running then .preempt timer user else .recheck user), .silent)
      | .mlfq =>
        if running && timer && (σ.proc p).curtime ≥ slices[level (σ.proc p).qn] then
          some ((σ.modify p fun q => { q with flagq := true }).setTrap c (.yield user), .silent)
        else some (σ.setTrap c (.recheck user), .silent)
  | _, _ => none

/-- The result of `preempt(prior, i)`, where `i` is `1` for a timer interrupt and `0`
otherwise. -/
def preemptTest (σ : Kernel n) (prior : ℤ) (timer : Bool) : Bool :=
  (List.finRange NPROC).any fun a =>
    -- entries in any state count, the running process itself included
    (if timer then (σ.proc a).priority ≤ prior else (σ.proc a).priority < prior) &&
      (σ.proc a).pid ≠ 0

/-- The call of `preempt` in `trap`. -/
def preempt (σ : Kernel n) (c : CpuId n) : Option (Kernel n × Event) :=
  match (σ.cpus c).trap with
  | .preempt timer user => do
    let p ← (σ.cpus c).proc
    guard (σ.lock = none)
    return (σ.setTrap c
      (if σ.preemptTest (σ.proc p).priority timer then .yield user else .recheck user), .silent)
  | _ => none

/-- The last test of `killed` in `trap`. -/
def recheck (σ : Kernel n) (c : CpuId n) : Option (Kernel n × Event) :=
  match (σ.cpus c).trap with
  | .recheck user => do
    let p ← (σ.cpus c).proc
    return (σ.setTrap c (if (σ.proc p).killed && user then .exit else .none), .silent)
  | _ => none

/-! ## The kernel as a transition system -/

/-- Perform one piece of kernel code on one CPU. -/
def step (b : Build) (σ : Kernel n) (a : CpuId n × Action) : Option (Kernel n × Event) :=
  match a.2 with
  | .bootAlloc => σ.bootAlloc a.1
  | .bootKalloc ok => σ.bootKalloc ok a.1
  | .bootPublish => σ.bootPublish b a.1
  | .acquire => σ.acquire a.1
  | .select => σ.select b a.1
  | .resume => σ.resume a.1
  | .swtch => σ.swtch a.1
  | .switched => σ.switched b a.1
  | .fork => σ.fork a.1
  | .kalloc ok => σ.kalloc ok a.1
  | .copyuvm ok => σ.copyuvm ok a.1
  | .publish => σ.publish b a.1
  | .exit => σ.exit b a.1
  | .wait call => σ.wait call a.1
  | .sleep o => σ.sleep o a.1
  | .wakeup o => σ.wakeup b o a.1
  | .kill pid => σ.kill b pid a.1
  | .setPriority newPriority pid => σ.setPriority newPriority pid a.1
  | .timer user => σ.timer user a.1
  | .device user => σ.device user a.1
  | .fault => σ.fault a.1
  | .changeTicks => σ.changeTicks b a.1
  | .wakeupTicks => σ.wakeupTicks b a.1
  | .check => σ.check b a.1
  | .preempt => σ.preempt a.1
  | .yield => σ.yield b a.1
  | .recheck => σ.recheck a.1

end Kernel

/-- The label of a step of the kernel: the CPU, the piece of code, and what it did. -/
abbrev Label (n : ℕ) := (CpuId n × Action) × Event

/-- The kernel of build `b` on a machine with `n` CPUs besides the boot CPU. -/
def kernel (b : Build) (n : ℕ) : Transition.System (Kernel n) (Label n) :=
  Transition.ofFun (fun σ => ∃ below, σ = .initial below) (Kernel.step b)

namespace Kernel

variable {n : ℕ}

/-- The actions of one CPU, in order. -/
def onCpu (c : CpuId n) (as : List Action) : List (CpuId n × Action) :=
  as.map (c, ·)

/-- A machine without other CPUs has only the boot CPU. -/
theorem eq_boot (c : CpuId 0) : c = 0 :=
  Fin.ext (Nat.lt_one_iff.mp c.isLt)

/-- The boot CPU creates init, dispatches it, and init runs. -/
def startInit : List (CpuId n × Action) :=
  onCpu 0 [.bootAlloc, .bootKalloc true, .bootPublish, .acquire, .select, .resume]

/-- The process on CPU `c` forks, and every call in it succeeds. -/
def forkOn (c : CpuId n) : List (CpuId n × Action) :=
  onCpu c [.fork, .kalloc true, .copyuvm true, .publish]

/-- What is found after executing actions from boot is found at the end of some run. -/
theorem exists_run (b : Build) (as : List (CpuId n × Action))
    (P : List (Kernel n × Label n) → Kernel n → Bool)
    (h : (Transition.exec (step b) [] (initial none) as).any (fun r => P r.1 r.2) = true) :
    ∃ hist σ, (kernel b n).Run hist σ ∧ P hist σ = true :=
  Transition.exists_run_of_exec_any ⟨none, rfl⟩ h

end Kernel

end Xv6
