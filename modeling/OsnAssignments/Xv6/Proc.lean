import OsnAssignments.Xv6.Queue

/-!
# Processes, CPUs and the kernel state

The data model of `proc.h` and `proc.c`: the fields of `struct proc` and `struct cpu` that the
process-management code reads or writes, and the global variables of `proc.c` and `trap.c`.

A kernel stack holds a thread of control. The model keeps of it the points at which other CPUs
can observe the thread: the call of `swtch` from which a process resumes (`Context`), how far a
process is in a `fork` that it has begun (`Frame`), where a CPU is in the scheduler or in a
critical section of `ptable.lock` (`Ctl`), and how far it is in the handler `trap` (`Trap`).

`nextpid` and `ticks` count without wrapping. A process identifier is the `int` that
`nextpid` wraps to. The times and counters of `struct proc` are unbounded integers, so that what is
said of them is meant while they are below `2 ^ 31`; creation times are compared as the `int`s that
they wrap to.
-/

namespace Xv6

/-- `enum procstate`. -/
inductive ProcState
  | unused | embryo | sleeping | runnable | running | zombie
  deriving DecidableEq, Repr

/-- A kernel object whose address serves as a wait channel: `&ticks`, or any other (a buffer,
a pipe end, the log, the console input, a sleep lock). -/
inductive Obj
  | ticks
  | other (addr : ℕ)
  deriving DecidableEq, Repr

/-- A wait channel, the `void*` in `p->chan`: null, the address of a process-table entry (used
by `wait` and `waitx`), or the address of a kernel object. -/
inductive Chan
  | null
  | proc (p : Slot)
  | obj (o : Obj)
  deriving DecidableEq, Repr

/-- A process pointer used as a wait channel. -/
def Chan.ofProc : Option Slot → Chan
  | none => .null
  | some p => .proc p

/-- The two calls that reap a child. -/
inductive WaitCall
  | wait
  | waitx
  deriving DecidableEq, Repr

/-- Where a process that is not on a CPU continues: in `forkret`, in `yield` called by `trap`
(`user`: the interrupted code was user code), in `sleep` on a kernel object (`exiting`: in the
`exit` that `trap` has called), or in the `sleep` of `wait` or `waitx`. -/
inductive Context
  | forkret
  | yield (user : Bool)
  | sleep (exiting : Bool)
  | wait (call : WaitCall)
  deriving DecidableEq, Repr

/-- How far a process is in `fork`: not in it (in user code, or in kernel code that the model
does not follow), before `kalloc` of the kernel stack in `allocproc`, before `copyuvm`, or
before the critical section that makes the child `RUNNABLE`. -/
inductive Frame
  | user
  | kalloc (np : Slot)
  | copyuvm (np : Slot)
  | publish (np : Slot)
  deriving DecidableEq, Repr

/-- The fields of `struct proc` that the queue code of the MLFQ build never writes. -/
structure Task where
  state : ProcState
  pid : ℤ
  parent : Option Slot
  chan : Chan
  killed : Bool
  /-- Whether `p->kstack` is non-null. -/
  kstack : Bool
  ctime : ℤ
  runtime : ℤ
  etime : ℤ
  nrun : ℤ
  priority : ℤ
  /-- Where `p->context` resumes. -/
  context : Context
  /-- What the kernel stack of the process is in the middle of. -/
  frame : Frame
  deriving DecidableEq, Repr

/-- `struct proc`. -/
structure Proc extends Task where
  waittime : ℤ
  curtime : ℤ
  qn : ℤ
  qnt : Vector ℤ 5
  flagq : Bool
  deriving DecidableEq, Repr

/-- A process-table entry at boot, all zero. -/
def Proc.zero : Proc where
  state := .unused
  pid := 0
  parent := none
  chan := .null
  killed := false
  kstack := false
  ctime := 0
  runtime := 0
  etime := 0
  nrun := 0
  priority := 0
  context := .forkret
  frame := .user
  waittime := 0
  curtime := 0
  qn := 0
  qnt := Vector.replicate 5 0
  flagq := false

/-- Where a CPU is executing, with respect to `ptable.lock`. -/
inductive Ctl
  /-- In `main`, before `userinit`. -/
  | boot
  /-- In `userinit`, inside `allocproc`, before `kalloc`. -/
  | bootKalloc (p : Slot)
  /-- In `userinit`, before the critical section. -/
  | bootPublish (p : Slot)
  /-- `userinit` used the null pointer that a failed `allocproc` returned. -/
  | halted
  /-- In `scheduler`, before `acquire(&ptable.lock)`. -/
  | idle
  /-- In `scheduler`, holding the lock, about to look for a process. -/
  | loop
  /-- On a process's kernel stack just after `swtch`, holding the lock. -/
  | resumed
  /-- Running a process, not holding the lock. -/
  | process
  /-- In `sched`, about to `swtch` to the scheduler, holding the lock. -/
  | leaving
  /-- In `scheduler` just after `swtch` returned, holding the lock. -/
  | switched
  deriving DecidableEq, Repr

/-- How far a CPU is in the interrupt handler `trap`; `user` is `(tf->cs&3) == DPL_USER` and
`timer` is `tf->trapno == T_IRQ0+IRQ_TIMER`. -/
inductive Trap
  /-- Not in `trap`. -/
  | none
  /-- After `ticks++`, before `change_ticks()`. -/
  | ticked (user : Bool)
  /-- After `change_ticks()`, before `wakeup(&ticks)`. -/
  | charged (user : Bool)
  /-- After the `switch`, before the first test of `killed`. -/
  | check (timer user : Bool)
  /-- About to call `preempt`. -/
  | preempt (timer user : Bool)
  /-- About to call `yield`. -/
  | yield (user : Bool)
  /-- In `exit`, before its critical section. -/
  | exit
  /-- Before the second test of `killed`. -/
  | recheck (user : Bool)
  deriving DecidableEq, Repr

/-- `struct cpu`, with the scheduler's local variable `p`. -/
structure Cpu where
  /-- `c->proc`, what `myproc()` returns. -/
  proc : Option Slot
  /-- The process on whose kernel stack the CPU is executing; `none` on the scheduler's stack. -/
  stack : Option Slot
  ctl : Ctl
  trap : Trap
  /-- The local variable `p` of `scheduler`, as an index into `ptable.proc`; `NPROC` is one past
  the end. -/
  p : ℕ
  deriving DecidableEq, Repr

/-- A CPU of a machine that has `n` CPUs besides the boot CPU `0`. -/
abbrev CpuId (n : ℕ) := Fin (n + 1)

/-- There is always the boot CPU. -/
scoped instance (priority := 2000) neZeroCpuId (n : ℕ) : NeZero (n + 1) :=
  ⟨Nat.succ_ne_zero n⟩

scoped instance (priority := 3000) neZeroCpuId0 : NeZero (0 + 1) :=
  ⟨Nat.succ_ne_zero 0⟩

/-- The scheduling policy a kernel is built with (`SCHEDULER` in the `Makefile`). -/
inductive Build
  | roundRobin
  | fcfs
  | mlfq
  | pbs
  deriving DecidableEq, Repr

/-- The kernel state. -/
structure Kernel (n : ℕ) where
  /-- `ptable.proc`. -/
  procs : Vector Proc NPROC
  /-- The word at `&ptable.proc[NPROC].nrun`, past the end of the table. -/
  beyond : ℤ
  rings : Rings
  /-- `nextpid`, not wrapped. -/
  nextpid : ℕ
  ticks : ℕ
  initproc : Option Slot
  /-- The CPU that holds `ptable.lock`. -/
  lock : Option (CpuId n)
  cpus : CpuId n → Cpu

/-- The value an `int` takes when `x` is stored in it. -/
@[irreducible]
def int32 (x : ℤ) : ℤ :=
  Int.bmod x (2 ^ 32)

/-- `age` of `proc.h`. -/
def age : ℤ := 18

/-- `slices`, as `main` fills it. -/
def slices : Vector ℤ 5 := #v[1, 2, 4, 8, 16]

/-- The element of an array of length five that the index expression `q` names. Out of the range
`0..4` C reads past the array; `level` then names an arbitrary element. -/
def level (q : ℤ) : Level :=
  Fin.ofNat 5 q.toNat

namespace Kernel

variable {n : ℕ}

/-- The process-table entry `i`. -/
def proc (σ : Kernel n) (i : Slot) : Proc :=
  σ.procs[i]

/-- Replace the process-table entry `i`. -/
def setProc (σ : Kernel n) (i : Slot) (p : Proc) : Kernel n :=
  { σ with procs := σ.procs.set i p }

/-- Change the process-table entry `i`. -/
def modify (σ : Kernel n) (i : Slot) (f : Proc → Proc) : Kernel n :=
  σ.setProc i (f (σ.proc i))

/-- Change the state of CPU `c`. -/
def modifyCpu (σ : Kernel n) (c : CpuId n) (f : Cpu → Cpu) : Kernel n :=
  { σ with cpus := Function.update σ.cpus c (f (σ.cpus c)) }

/-- The state in which the boot CPU enters `userinit` and the other CPUs their schedulers;
`below` is the word below `queue`. -/
def initial (below : Option Slot) : Kernel n where
  procs := Vector.replicate NPROC .zero
  beyond := 0
  rings := .empty below
  nextpid := 1
  ticks := 0
  initproc := none
  lock := none
  cpus c := {
    proc := none
    stack := none
    ctl := if c = 0 then .boot else .idle
    trap := .none
    p := 0 }

end Kernel

end Xv6
