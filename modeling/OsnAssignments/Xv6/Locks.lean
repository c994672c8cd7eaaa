import OsnAssignments.Common.LockOrder
import OsnAssignments.Common.Transition
import OsnAssignments.Xv6.Proc

/-!
# The order of `ptable.lock`, `cons.lock` and `tickslock`

What the kernel does with three spin locks, and nothing else. A function is the list of the lock
operations on one of its paths; the outcomes of its tests and the number of iterations of its loops
are parameters.

`acquire` disables interrupts before it spins and `release` enables them again when no lock is held,
so an interrupt handler starts only on a CPU that holds no lock. `sched` and `scheduler` switch
stacks while `ptable.lock` is held: the stack that a process leaves is kept in `parked`, the stack
that a scheduler leaves in `scheduler`. A handler that is itself interrupted is allowed here; the
interrupt gates of the kernel exclude it.
-/

namespace Xv6.Locks

open LockOrder Function

/-- The spin locks. -/
inductive Lock
  | ptable
  | cons
  | tickslock
  deriving DecidableEq, Repr

instance : Fintype Lock where
  elems := {.ptable, .cons, .tickslock}
  complete l := by cases l <;> decide

/-- The lock operations of a path through a function. -/
abbrev Code := List (Op Lock)

/-! ## The functions -/

/-- `cprintf`, after `consoleinit` has set `cons.locking`. -/
def cprintf : Code :=
  critical .cons []

/-- A number of calls of `cprintf`. -/
def prints (lines : ℕ) : Code :=
  (List.replicate lines cprintf).flatten

/-- `push`; `full` says whether it finds its ring full, and says so on the console. -/
def push (full : Bool) : Code :=
  if full then cprintf else []

/-- `pop`; `empty` says whether it finds its ring empty, and says so on the console. -/
def pop (empty : Bool) : Code :=
  if empty then cprintf else []

/-- A number of calls of `push`: those of `wakeup1`, or of the aging loop. -/
def pushes (full : List Bool) : Code :=
  full.flatMap push

/-- `wakeup`, with one `push` for each process it wakes. -/
def wakeup (full : List Bool) : Code :=
  critical .ptable (pushes full)

/-- `sleep(chan, lk)`. -/
def sleep (lk : Lock) : Code :=
  if lk = .ptable then [.switch]
  else [.acquire .ptable, .release lk, .switch, .release .ptable, .acquire lk]

/-- `showps`: a heading, and one line for each process. -/
def showps (lines : ℕ) : Code :=
  critical .ptable (cprintf ++ prints lines)

/-- `consoleintr`: a `wakeup(&input.r)` for each completed line, and afterwards the messages of
`procdump`, which takes no other lock. -/
def consoleintr (wakeups : List (List Bool)) (dump : ℕ) : Code :=
  critical .cons (wakeups.flatMap wakeup) ++ prints dump

/-- `consoleread`, which sleeps until there is input. -/
def consoleread (sleeps : ℕ) : Code :=
  critical .cons (List.replicate sleeps (sleep .cons)).flatten

/-- `consolewrite`. -/
def consolewrite : Code :=
  critical .cons []

/-- `change_ticks`. -/
def changeTicks : Code :=
  critical .ptable []

/-- The clock interrupt on CPU 0, in `trap`. -/
def clock (full : List Bool) : Code :=
  critical .tickslock (changeTicks ++ wakeup full)

/-- `sys_sleep`. -/
def sysSleep (sleeps : ℕ) : Code :=
  critical .tickslock (List.replicate sleeps (sleep .tickslock)).flatten

/-- `sys_uptime`. -/
def sysUptime : Code :=
  critical .tickslock []

/-- `yield`; also `sleep` with a lock that is not modelled. -/
def yield : Code :=
  critical .ptable [.switch]

/-- `wait` and `waitx`, which sleep until a child exits. -/
def wait (sleeps : ℕ) : Code :=
  critical .ptable (List.replicate sleeps (sleep .ptable)).flatten

/-- `exit`, from its critical section to the `sched` that does not return. -/
def exit (full : List Bool) : Code :=
  .acquire .ptable :: (pushes full ++ [.leave])

/-- `allocproc`. -/
def allocproc : Code :=
  critical .ptable []

/-- `fork`; `full` is `none` when the kernel does not call `push`. -/
def fork (full : Option Bool) : Code :=
  allocproc ++ critical .ptable (pushes full.toList)

/-- `kill`; `full` is `none` when it does not call `push`. -/
def kill (full : Option Bool) : Code :=
  critical .ptable (pushes full.toList)

/-- `set_priority`, which prints a message when it has not `found` the process. -/
def setPriority (found : Bool) : Code :=
  critical .ptable [] ++ if found then [] else cprintf

/-- `preempt`. -/
def preempt : Code :=
  critical .ptable []

/-- `forkret`, where a new process starts. -/
def forkret : Code :=
  [.release .ptable]

/-- One iteration of the outer loop of `scheduler`: the calls of `push` that age processes, a `pop`,
and the processes that are switched to, each with the calls that queue it again. -/
def scheduler (full : List Bool) (empty : Bool) (turns : List (List Bool)) : Code :=
  critical .ptable
    (pushes full ++ (pop empty ++ turns.flatMap fun full => [.switch] ++ pushes full))

/-- A function that a CPU can begin to execute, with the path it is to take. -/
inductive Call
  | cprintf
  | wakeup (full : List Bool)
  | consoleintr (wakeups : List (List Bool)) (dump : ℕ)
  | clock (full : List Bool)
  | yield
  | preempt
  | showps (lines : ℕ)
  | consoleread (sleeps : ℕ)
  | consolewrite
  | sysSleep (sleeps : ℕ)
  | sysUptime
  | wait (sleeps : ℕ)
  | exit (full : List Bool)
  | allocproc
  | fork (full : Option Bool)
  | kill (full : Option Bool)
  | setPriority (found : Bool)
  | scheduler (full : List Bool) (empty : Bool) (turns : List (List Bool))
  deriving DecidableEq, Repr

namespace Call

/-- The lock operations of a call. -/
def code : Call → Code
  | .cprintf => Locks.cprintf
  | .wakeup full => Locks.wakeup full
  | .consoleintr wakeups dump => Locks.consoleintr wakeups dump
  | .clock full => Locks.clock full
  | .yield => Locks.yield
  | .preempt => Locks.preempt
  | .showps lines => Locks.showps lines
  | .consoleread sleeps => Locks.consoleread sleeps
  | .consolewrite => Locks.consolewrite
  | .sysSleep sleeps => Locks.sysSleep sleeps
  | .sysUptime => Locks.sysUptime
  | .wait sleeps => Locks.wait sleeps
  | .exit full => Locks.exit full
  | .allocproc => Locks.allocproc
  | .fork full => Locks.fork full
  | .kill full => Locks.kill full
  | .setPriority found => Locks.setPriority found
  | .scheduler full empty turns => Locks.scheduler full empty turns

/-- Whether the call is one of `showps`. -/
def isShowps : Call → Bool
  | .showps _ => true
  | _ => false

/-- For each `push` and `pop` of the call, whether it prints a message. -/
def messages : Call → List Bool
  | .wakeup full | .clock full | .exit full => full
  | .fork full | .kill full => full.toList
  | .consoleintr wakeups _ => wakeups.flatten
  | .scheduler full empty turns => full ++ empty :: turns.flatten
  | _ => []

/-- No `push` or `pop` of the call prints a message. -/
def Silent (call : Call) : Prop :=
  ∀ m ∈ call.messages, m = false

instance (call : Call) : Decidable call.Silent :=
  inferInstanceAs (Decidable (∀ m ∈ call.messages, m = false))

end Call

/-! ## The machine -/

/-- The locks, the CPUs and the stacks of the threads that are not on a CPU. -/
structure Machine (n : ℕ) where
  /-- The CPU that holds a lock. -/
  holder : Lock → Option (CpuId n)
  /-- What the thread on a CPU still has to do; nothing, when it is in user code or between two
  calls. -/
  code : CpuId n → Code
  /-- Whether a CPU is on the stack of a process, not on that of its scheduler. -/
  inProc : CpuId n → Bool
  /-- Where the scheduler of a CPU continues after the `swtch` to a process. -/
  scheduler : CpuId n → Code
  /-- Where the processes that have called `sched` continue. -/
  parked : List Code

/-- What a CPU can do. -/
inductive Act
  /-- Begin to execute a function. -/
  | call (call : Call)
  /-- Perform the next operation. -/
  | next
  /-- In `scheduler`, switch to a process: to a parked one, or to one that starts in `forkret`. -/
  | dispatch (parked : Option ℕ)
  deriving DecidableEq, Repr

namespace Machine

variable {n : ℕ}

/-- The machine when all CPUs are in their schedulers for the first time. -/
def initial : Machine n where
  holder _ := none
  code _ := []
  inProc _ := false
  scheduler _ := []
  parked := []

/-- Whether CPU `c` can begin to execute a function: it holds no lock, so that interrupts are
enabled, and is in the part of the kernel that calls the function. -/
def MayCall (s : Machine n) (c : CpuId n) (call : Call) : Prop :=
  (∀ l, s.holder l ≠ some c) ∧
    match call with
    -- interrupt handlers, and functions that both handlers and processes call
    | .cprintf | .wakeup _ | .consoleintr _ _ => True
    | .clock _ => c = 0
    -- called by `trap` when it interrupts a process, in user or kernel code
    | .yield | .preempt => s.inProc c = true
    | .scheduler _ _ _ => s.inProc c = false ∧ s.code c = []
    -- system calls
    | _ => s.inProc c = true ∧ s.code c = []

instance (s : Machine n) (c : CpuId n) (call : Call) : Decidable (s.MayCall c call) := by
  unfold MayCall
  cases call <;> infer_instance

/-- Begin to execute a function; what the CPU was doing waits on the stack. -/
def begin (s : Machine n) (c : CpuId n) (call : Call) : Option (Machine n) := do
  guard (s.MayCall c call)
  some { s with code := update s.code c (call.code ++ s.code c) }

/-- `acquire`, when it finds the lock free. -/
def acquire (s : Machine n) (c : CpuId n) (l : Lock) (k : Code) : Option (Machine n) := do
  guard (s.holder l = none)
  some { s with
    holder := update s.holder l (some c)
    code := update s.code c k }

/-- `release`. -/
def release (s : Machine n) (c : CpuId n) (l : Lock) (k : Code) : Option (Machine n) := do
  guard (s.holder l = some c)
  some { s with
    holder := update s.holder l none
    code := update s.code c k }

/-- `sched`, with the process's stack kept in `parked`. -/
def sched (s : Machine n) (c : CpuId n) (parked : List Code) : Option (Machine n) := do
  guard (s.inProc c = true)
  some { s with
    code := update s.code c (s.scheduler c)
    inProc := update s.inProc c false
    parked := parked }

/-- The `swtch` of `scheduler` to a process that continues with `t`. -/
def swtch (s : Machine n) (c : CpuId n) (t : Code) (parked : List Code) : Option (Machine n) :=
  match s.code c with
  | .switch :: k => do
    guard (s.inProc c = false)
    some { s with
      code := update s.code c t
      inProc := update s.inProc c true
      scheduler := update s.scheduler c k
      parked := parked }
  | _ => none

/-- Perform the next operation of CPU `c`. -/
def advance (s : Machine n) (c : CpuId n) : Option (Machine n) :=
  match s.code c with
  | [] => none
  | .acquire l :: k => s.acquire c l k
  | .release l :: k => s.release c l k
  | .switch :: k => s.sched c (k :: s.parked)
  | .leave :: _ => s.sched c s.parked

/-- One step of a CPU. -/
def step (s : Machine n) : CpuId n × Act → Option (Machine n)
  | (c, .call call) => s.begin c call
  | (c, .next) => s.advance c
  | (c, .dispatch none) => s.swtch c forkret s.parked
  | (c, .dispatch (some i)) => do
    let t ← s.parked[i]?
    s.swtch c t (s.parked.eraseIdx i)

/-- `c` is about to acquire a lock that `d` holds. -/
abbrev WaitsFor (s : Machine n) : CpuId n → CpuId n → Prop :=
  LockOrder.WaitsFor s.holder s.code

end Machine

/-- A step of a run: the CPU and what it does. A step reports nothing. -/
abbrev Label (n : ℕ) := (CpuId n × Act) × Unit

/-- The runs of the machine. -/
def machine (n : ℕ) : Transition.System (Machine n) (Label n) :=
  Transition.ofFun (· = .initial) fun s a => (s.step a).map (·, ())

/-- Whatever a test finds after executing the actions `as` is found at the end of some run. -/
theorem exists_run {n : ℕ} (as : List (CpuId n × Act))
    (P : List (Machine n × Label n) → Machine n → Bool)
    (h : (Transition.exec (fun s a => (Machine.step s a).map (·, ())) [] .initial as).any
      (fun x => P x.1 x.2) = true) : ∃ hist s, (machine n).Run hist s ∧ P hist s = true :=
  Transition.exists_run_of_exec_any rfl h

/-! ## The discipline of the functions -/

section Discipline

variable {r : Lock → Lock → Prop} {held : Finset Lock} {full : List Bool}

theorem keeps_cprintf (hheld : .cons ∉ held) (hr : ∀ m ∈ held, r m .cons) :
    Keeps r .ptable held cprintf :=
  Keeps.critical hheld hr Keeps.nil

/-- Calls of `push` that print nothing take no lock. -/
theorem keeps_pushes (hfull : ∀ m ∈ full, m = false) : Keeps r .ptable held (pushes full) := by
  refine Keeps.flatMap fun m hm => ?_
  rw [hfull m hm]
  exact Keeps.nil

theorem keeps_wakeup (hfull : ∀ m ∈ full, m = false) (hheld : .ptable ∉ held)
    (hr : ∀ m ∈ held, r m .ptable) : Keeps r .ptable held (wakeup full) :=
  Keeps.critical hheld hr (keeps_pushes hfull)

/-- `sleep` gives up its lock before it switches and takes it again afterwards, so it may be
called with that lock alone. -/
theorem keeps_sleep {lk : Lock} (hr : lk ≠ .ptable → r lk .ptable) :
    Keeps r .ptable {lk} (sleep lk) := by
  by_cases hlk : lk = .ptable
  · subst hlk
    exact Keeps.switch
  · intro k hk
    rw [sleep, if_neg hlk]
    -- `lk`, then both, then `ptable.lock` alone at the switch, then none, then `lk` again
    have hreleased : (insert Lock.ptable ({lk} : Finset Lock)).erase lk = {.ptable} := by
      rw [Finset.pair_comm, Finset.erase_insert (by simpa using hlk)]
    refine ⟨by simpa using hr hlk, by simp, ?_⟩
    rw [hreleased]
    refine ⟨rfl, by simp, ?_⟩
    rw [Finset.erase_singleton]
    exact ⟨by simp, hk⟩

/-- The body of a pass of the scheduler switches with `ptable.lock` alone. -/
theorem keeps_turns {turns : List (List Bool)} (hturns : ∀ full ∈ turns, ∀ m ∈ full, m = false) :
    Keeps r .ptable {.ptable} (turns.flatMap fun full => [.switch] ++ pushes full) :=
  Keeps.flatMap fun full hfull => Keeps.switch.append (keeps_pushes (hturns full hfull))

/-- A critical section that a CPU enters without a lock. -/
theorem keeps_critical {l : Lock} {body : Code} (h : Keeps r .ptable {l} body) :
    Keeps r .ptable ∅ (critical l body) :=
  Keeps.critical (Finset.notMem_empty l) (by simp) h

/-- Every call but `exit` takes and gives back its locks in an order `r` that nests `ptable.lock`
inside the other two, as long as `push` and `pop` print nothing; `showps` also needs `cons.lock`
inside `ptable.lock`. -/
theorem Call.keeps (hcons : r .cons .ptable) (hticks : r .tickslock .ptable) (call : Call)
    (hshow : call.isShowps = true → r .ptable .cons) (hsilent : call.Silent)
    (hexit : ∀ full, call ≠ .exit full) : Keeps r .ptable ∅ call.code := by
  have hcprintf : Keeps r .ptable ∅ Locks.cprintf := keeps_critical Keeps.nil
  cases call with
  | cprintf | consolewrite => exact hcprintf
  | preempt | sysUptime | allocproc => exact keeps_critical Keeps.nil
  | yield => exact keeps_critical Keeps.switch
  | wakeup | kill => exact keeps_critical (keeps_pushes hsilent)
  | fork => exact (keeps_critical Keeps.nil).append (keeps_critical (keeps_pushes hsilent))
  | setPriority found =>
    refine (keeps_critical Keeps.nil).append ?_
    cases found
    · exact hcprintf
    · exact Keeps.nil
  | wait sleeps =>
    exact keeps_critical ((keeps_sleep fun h => absurd rfl h).replicate sleeps)
  | consoleread sleeps => exact keeps_critical ((keeps_sleep fun _ => hcons).replicate sleeps)
  | sysSleep sleeps => exact keeps_critical ((keeps_sleep fun _ => hticks).replicate sleeps)
  -- `ptable.lock` inside `cons.lock`, and inside `tickslock`
  | consoleintr wakeups dump =>
    refine (keeps_critical (Keeps.flatMap fun full hfull => ?_)).append (hcprintf.replicate dump)
    refine keeps_wakeup (fun m hm => hsilent m ?_) (by decide) (by simpa using hcons)
    exact List.mem_flatten.mpr ⟨full, hfull, hm⟩
  | clock =>
    refine keeps_critical (Keeps.append ?_ ?_)
    · exact Keeps.critical (by decide) (by simpa using hticks) Keeps.nil
    · exact keeps_wakeup hsilent (by decide) (by simpa using hticks)
  | showps lines =>
    -- the only call that takes `cons.lock` inside `ptable.lock`
    have hline : Keeps r .ptable {.ptable} Locks.cprintf :=
      keeps_cprintf (by decide) (by simpa using hshow rfl)
    exact keeps_critical (hline.append (hline.replicate lines))
  | scheduler full empty turns =>
    have hmem : ∀ m ∈ full ++ empty :: turns.flatten, m = false := hsilent
    refine keeps_critical (Keeps.append ?_ (Keeps.append ?_ ?_))
    · exact keeps_pushes fun m hm => hmem m (List.mem_append_left _ hm)
    · rw [hmem empty (by simp)]
      exact Keeps.nil
    · refine keeps_turns fun full hfull m hm => hmem m ?_
      exact List.mem_append_right _
        (List.mem_cons_of_mem _ (List.mem_flatten.mpr ⟨full, hfull, hm⟩))
  | exit full => exact absurd rfl (hexit full)

/-- `exit` leaves the CPU with `ptable.lock` alone. -/
theorem ordered_exit (hfull : ∀ m ∈ full, m = false) : Ordered r .ptable ∅ (exit full) :=
  ⟨by simp, keeps_pushes hfull _ ⟨rfl, rfl⟩⟩

end Discipline

/-! ## The discipline of the machine -/

namespace Machine

variable {n : ℕ} {r : Lock → Lock → Prop} {s s' : Machine n} {c : CpuId n} {l : Lock} {k : Code}

/-- Every thread keeps to the lock order `r`, those that are not on a CPU included: they continue
with `ptable.lock`, which the thread that switches to them holds. -/
structure Disciplined (r : Lock → Lock → Prop) (s : Machine n) : Prop where
  code : ∀ c, Ordered r .ptable (heldBy s.holder c) (s.code c)
  scheduler : ∀ c, s.inProc c = true → Ordered r .ptable {.ptable} (s.scheduler c)
  parked : ∀ t ∈ s.parked, Ordered r .ptable {.ptable} t

namespace Disciplined

theorem initial : Disciplined r (Machine.initial : Machine n) where
  code c := by
    have hfree : heldBy (fun _ : Lock => (none : Option (CpuId n))) c = ∅ := by
      ext l
      simp
    exact hfree
  scheduler c hc := by cases hc
  parked t ht := by cases ht

variable (h : Disciplined r s)
include h

/-- A CPU that holds no lock can begin a call. -/
theorem begin (hcons : r .cons .ptable) (hticks : r .tickslock .ptable)
    {call : Call} (hshow : call.isShowps = true → r .ptable .cons) (hsilent : call.Silent)
    (hs : s.begin c call = some s') : Disciplined r s' := by
  obtain ⟨hmay, hs⟩ := Transition.guard_bind_eq_some.mp hs
  cases hs
  refine ⟨Ordered.update h.code ?_ (fun _ _ => rfl), h.scheduler, h.parked⟩
  have hfree : heldBy s.holder c = ∅ := by
    ext l
    simpa using hmay.1 l
  have hcode := h.code c
  rw [hfree] at hcode ⊢
  by_cases hexit : ∃ full, call = .exit full
  · -- `exit` never returns, and there is nothing that it could return to
    obtain ⟨full, rfl⟩ := hexit
    have hempty : s.code c = [] := hmay.2.2
    rw [hempty, List.append_nil]
    exact ordered_exit hsilent
  · exact Call.keeps hcons hticks call hshow hsilent (not_exists.mp hexit) _ hcode

theorem acquire (hcode : s.code c = .acquire l :: k)
    (hs : s.acquire c l k = some s') : Disciplined r s' := by
  obtain ⟨hfree, hs⟩ := Transition.guard_bind_eq_some.mp hs
  cases hs
  have hc := h.code c
  rw [hcode] at hc
  refine ⟨Ordered.update h.code ?_ fun d hd => ?_, h.scheduler, h.parked⟩
  · rw [heldBy_acquire]
    exact hc.2
  -- the lock was free, so that no other CPU loses it
  · exact heldBy_update_of_ne (by simp [hfree]) fun he => hd (Option.some.inj he).symm

theorem release (hcode : s.code c = .release l :: k)
    (hs : s.release c l k = some s') : Disciplined r s' := by
  obtain ⟨hheld, hs⟩ := Transition.guard_bind_eq_some.mp hs
  cases hs
  have hc := h.code c
  rw [hcode] at hc
  refine ⟨Ordered.update h.code ?_ fun d hd => ?_, h.scheduler, h.parked⟩
  · rw [heldBy_release]
    exact hc.2
  · refine heldBy_update_of_ne (fun he => hd ?_) (by simp)
    exact (Option.mem_unique hheld he).symm

/-- A process that calls `sched` with `ptable.lock` alone hands that lock to the scheduler. -/
theorem sched (hheld : heldBy s.holder c = {.ptable}) {parked : List Code}
    (hparked : ∀ t ∈ parked, Ordered r .ptable {.ptable} t)
    (hs : s.sched c parked = some s') : Disciplined r s' := by
  obtain ⟨hproc, hs⟩ := Transition.guard_bind_eq_some.mp hs
  cases hs
  refine ⟨Ordered.update h.code ?_ (fun _ _ => rfl), fun d hd => h.scheduler d ?_, hparked⟩
  · rw [hheld]
    exact h.scheduler c hproc
  · by_cases hdc : d = c
    · subst hdc
      exact hproc
    · simpa [update_of_ne hdc] using hd

/-- The scheduler hands `ptable.lock` to the process it switches to. -/
theorem swtch {t : Code} {parked : List Code}
    (ht : Ordered r .ptable {.ptable} t) (hparked : ∀ u ∈ parked, u ∈ s.parked)
    (hs : s.swtch c t parked = some s') : Disciplined r s' := by
  unfold Machine.swtch at hs
  split at hs
  · next k hcode =>
    obtain ⟨-, hs⟩ := Transition.guard_bind_eq_some.mp hs
    cases hs
    have hc := h.code c
    rw [hcode] at hc
    refine ⟨Ordered.update h.code ?_ (fun _ _ => rfl), fun d hd => ?_,
      fun u hu => h.parked u (hparked u hu)⟩
    · rw [hc.1]
      exact ht
    · by_cases hdc : d = c
      · subst hdc
        simpa using hc.2
      · simp only [update_of_ne hdc] at hd ⊢
        exact h.scheduler d hd
  · cases hs

theorem advance (hs : s.advance c = some s') : Disciplined r s' := by
  have hc := h.code c
  unfold Machine.advance at hs
  split at hs
  · cases hs
  · next l k hcode => exact h.acquire hcode hs
  · next l k hcode => exact h.release hcode hs
  · next k hcode =>
    rw [hcode] at hc
    -- `sleep` and `yield` come back with the lock, `exit` does not come back
    exact h.sched hc.1 (List.forall_mem_cons.mpr ⟨hc.2, h.parked⟩) hs
  · next k hcode =>
    rw [hcode] at hc
    exact h.sched hc.1 h.parked hs

/-- Every step keeps the discipline. -/
theorem step (hcons : r .cons .ptable) (hticks : r .tickslock .ptable)
    {a : Act} (hshow : ∀ call, a = .call call → call.isShowps = true → r .ptable .cons)
    (hsilent : ∀ call, a = .call call → call.Silent) (hs : s.step (c, a) = some s') :
    Disciplined r s' := by
  cases a with
  | call call => exact h.begin hcons hticks (hshow call rfl) (hsilent call rfl) hs
  | next => exact h.advance hs
  | dispatch t =>
    cases t with
    | none =>
      -- a new process starts with the lock that `scheduler` took, and releases it first
      have hforkret : Ordered r .ptable {.ptable} forkret := ⟨by simp, by simp [Ordered]⟩
      exact h.swtch hforkret (fun _ hu => hu) hs
    | some =>
      obtain ⟨t, ht, hs⟩ := Option.bind_eq_some_iff.mp hs
      have hmem : t ∈ s.parked := List.mem_of_getElem? ht
      exact h.swtch (h.parked t hmem) (fun _ hu => List.mem_of_mem_eraseIdx hu) hs

end Disciplined

end Machine

/-! ## Runs -/

/-- The step does not begin a call in which `push` or `pop` prints a message. -/
def Act.Silent : Act → Prop
  | .call f => f.Silent
  | _ => True

instance (a : Act) : Decidable a.Silent := by
  unfold Act.Silent
  cases a <;> infer_instance

/-- The step does not begin a call that prints while it holds `ptable.lock`: neither one of
`showps`, nor one in which `push` or `pop` prints a message. -/
def Act.Quiet : Act → Prop
  | .call f => f.isShowps = false ∧ f.Silent
  | _ => True

instance (a : Act) : Decidable a.Quiet := by
  unfold Act.Quiet
  cases a <;> infer_instance

theorem Act.Quiet.silent {a : Act} (h : a.Quiet) : a.Silent := by
  cases a with
  | call => exact h.2
  | next | dispatch => trivial

namespace Machine

variable {n : ℕ} {hist : List (Machine n × Label n)} {s : Machine n}
  {c : CpuId n} {r : Lock → Lock → Prop}

/-- A run without messages from `push` and `pop` keeps to every order that nests `ptable.lock`
inside the other two locks and, if the run calls `showps`, `cons.lock` inside `ptable.lock`. -/
theorem Disciplined.of_run (hcons : r .cons .ptable) (hticks : r .tickslock .ptable)
    (hrun : (machine n).Run hist s)
    (hhist : ∀ x ∈ hist, x.2.1.2.Silent ∧ (x.2.1.2.Quiet ∨ r .ptable .cons)) : Disciplined r s := by
  refine hrun.invariant_of_forall
    (G := fun _ l => l.1.2.Silent ∧ (l.1.2.Quiet ∨ r .ptable .cons)) ?_ ?_ hhist
  · rintro _ rfl
    exact .initial
  · rintro s ⟨⟨c, a⟩, u⟩ s' h ⟨hsilent, hquiet⟩ hs
    obtain ⟨t, hstep, ht⟩ := Option.map_eq_some_iff.mp hs
    obtain rfl : t = s' := congrArg Prod.fst ht
    refine h.step hcons hticks (fun call hcall hshow => ?_) (fun call hcall => ?_) hstep
    · subst hcall
      refine hquiet.resolve_left fun hq => ?_
      rw [hq.1] at hshow
      cases hshow
    · subst hcall
      exact hsilent

/-- The next operation of `c` fails an assertion: `acquire` of a lock that the CPU holds, `release`
of one that it does not hold, or `sched` with other locks than `ptable.lock` alone. -/
def Panics (s : Machine n) (c : CpuId n) : Prop :=
  match s.code c with
  | [] => False
  | .acquire l :: _ => s.holder l = some c
  | .release l :: _ => s.holder l ≠ some c
  | .switch :: _ | .leave :: _ => s.inProc c = true ∧ heldBy s.holder c ≠ {.ptable}

/-- In runs in which `push` and `pop` print nothing, no assertion about the locks fails. A full
ring would break this: `consoleintr` calls `wakeup`, hence `push`, with `cons.lock` held. -/
theorem not_panics (hrun : (machine n).Run hist s) (hsilent : ∀ x ∈ hist, x.2.1.2.Silent)
    (c : CpuId n) : ¬ s.Panics c := by
  -- the weakest order: a lock may be taken under any other lock
  have hdisc : Disciplined (· ≠ ·) s :=
    .of_run (by decide) (by decide) hrun fun x hx => ⟨hsilent x hx, .inr (by decide)⟩
  have hc := hdisc.code c
  unfold Panics
  split
  · exact not_false
  · next l k hcode =>
    rw [hcode] at hc
    exact fun hl => hc.1 l (mem_heldBy.mpr hl) rfl
  · next l k hcode =>
    rw [hcode] at hc
    exact not_not.mpr (mem_heldBy.mp hc.1)
  · next k hcode =>
    rw [hcode] at hc
    exact fun h => h.2 hc.1
  · next k hcode =>
    rw [hcode] at hc
    exact fun h => h.2 hc.1

/-- A process on CPU 0 reads from the console and goes to sleep. -/
theorem not_panics_consoleread : ∃ (hist : List (Machine 1 × Label 1)) (s : Machine 1),
    (machine 1).Run hist s ∧ s.holder .ptable = some 0 ∧ ¬ s.Panics 0 := by
  obtain ⟨hist, s, hrun, hs⟩ := exists_run (n := 1)
    [(0, .call (.scheduler [] false [[]])), (0, .next), (0, .dispatch none), (0, .next),
      (0, .call (.consoleread 1)), (0, .next), (0, .next), (0, .next)]
    (fun hist s => decide ((∀ x ∈ hist, x.2.1.2.Silent) ∧ s.holder .ptable = some 0))
    (by decide +kernel)
  obtain ⟨hsilent, hholder⟩ := of_decide_eq_true hs
  exact ⟨hist, s, hrun, hholder, not_panics hrun hsilent 0⟩

end Machine

/-- The level of a lock: `ptable.lock` is taken inside the other two. -/
def Lock.rank : Lock → ℕ
  | .ptable => 1
  | .cons | .tickslock => 0

theorem Lock.not_transGen_rank_lt (l : Lock) :
    ¬ Relation.TransGen (fun m l : Lock => m.rank < l.rank) l l := by
  intro h
  have hlt : Relation.TransGen (· < ·) l.rank l.rank := h.lift Lock.rank fun _ _ hml => hml
  rw [Relation.transGen_eq_self] at hlt
  exact lt_irrefl _ hlt

namespace Machine

variable {n : ℕ} {hist : List (Machine n × Label n)} {s : Machine n}

/-- In every run that prints nothing while it holds `ptable.lock`, no CPUs wait for each other in
a circle; in particular none holds `ptable.lock` and spins for `cons.lock` while another does the
opposite. -/
theorem no_cyclic_wait (hrun : (machine n).Run hist s) (hquiet : ∀ x ∈ hist, x.2.1.2.Quiet) :
    (∀ c, ¬ Relation.TransGen s.WaitsFor c c) ∧
      ∀ c d, ¬ (s.holder .ptable = some c ∧ Spins s.code c .cons ∧
        s.holder .cons = some d ∧ Spins s.code d .ptable) := by
  have hdisc : Disciplined (fun m l => m.rank < l.rank) s :=
    .of_run (by decide) (by decide) hrun fun x hx => ⟨(hquiet x hx).silent, .inl (hquiet x hx)⟩
  have hacyclic : ∀ c, ¬ Relation.TransGen s.WaitsFor c c :=
    not_transGen_waitsFor hdisc.code Lock.not_transGen_rank_lt
  refine ⟨hacyclic, ?_⟩
  rintro c d ⟨hptable, hc, hcons, hd⟩
  have hcd : s.WaitsFor c d := ⟨.cons, hc, hcons⟩
  have hdc : s.WaitsFor d c := ⟨.ptable, hd, hptable⟩
  exact hacyclic c (.tail (.single hcd) hdc)

/-- The steps in which CPU `c` starts its scheduler and a new process. -/
def startProcess (c : CpuId n) : List (CpuId n × Act) :=
  [(c, .call (.scheduler [] false [[]])), (c, .next), (c, .dispatch none), (c, .next)]

/-- A process waits for input on CPU 0 while a key is pressed on CPU 1: the interrupt handler
waits for `ptable.lock`, but not in a circle. -/
theorem no_cyclic_wait_consoleread :
    ∃ (hist : List (Machine 1 × Label 1)) (s : Machine 1),
      (machine 1).Run hist s ∧ s.WaitsFor 1 0 ∧ ¬ Relation.TransGen s.WaitsFor 1 1 := by
  obtain ⟨hist, s, hrun, hs⟩ := exists_run (n := 1)
    (startProcess 0 ++
      [(0, .call (.consoleread 1)), (0, .next), (0, .next), (0, .next), (0, .next),
        (1, .call (.consoleintr [[]] 0)), (1, .next)])
    (fun hist s => decide ((∀ x ∈ hist, x.2.1.2.Quiet) ∧
      Spins s.code 1 .ptable ∧ s.holder .ptable = some 0)) (by decide +kernel)
  obtain ⟨hquiet, hspins, hholder⟩ := of_decide_eq_true hs
  exact ⟨hist, s, hrun, ⟨.ptable, hspins, hholder⟩, (no_cyclic_wait hrun hquiet).1 1⟩

/-- `showps` on CPU 0 holds `ptable.lock` and wants to print its heading; a keystroke on CPU 1
completes a line, so that `consoleintr` holds `cons.lock` and calls `wakeup`. -/
theorem exists_cyclic_wait :
    ∃ (hist : List (Machine 1 × Label 1)) (s : Machine 1),
      (machine 1).Run hist s ∧ (s.holder .ptable = some 0 ∧ Spins s.code 0 .cons ∧
        s.holder .cons = some 1 ∧ Spins s.code 1 .ptable) ∧
      Relation.TransGen s.WaitsFor 0 0 := by
  obtain ⟨hist, s, hrun, hs⟩ := exists_run (n := 1)
    (startProcess 0 ++
      [(0, .call (.showps 1)), (0, .next), (1, .call (.consoleintr [[]] 0)), (1, .next)])
    (fun _ s => decide (s.holder .ptable = some 0 ∧ Spins s.code 0 .cons ∧
      s.holder .cons = some 1 ∧ Spins s.code 1 .ptable)) (by decide +kernel)
  obtain ⟨hptable, h0, hcons, h1⟩ := of_decide_eq_true hs
  have h01 : s.WaitsFor 0 1 := ⟨.cons, h0, hcons⟩
  have h10 : s.WaitsFor 1 0 := ⟨.ptable, h1, hptable⟩
  exact ⟨hist, s, hrun, ⟨hptable, h0, hcons, h1⟩, .tail (.single h01) h10⟩

end Machine

end Xv6.Locks
