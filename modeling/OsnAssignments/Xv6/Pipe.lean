import Mathlib
import OsnAssignments.Common.CounterRing
import OsnAssignments.Common.Transition

/-!
# Pipes

`pipewrite`, `piperead` and `pipeclose` of `pipe.c`, called by any number of processes. A piece of
code runs while a process holds `p->lock`, between the start of a call, its sleeps and its end.

A step reports the bytes it stored or returned; `stored` and `returned` collect them along a run.
The ends of the pipe may be closed at any time, also while processes are inside a call; `file.c`
closes an end only when no process has a descriptor for it.
-/

namespace Xv6.Pipes

open Transition

/-- `PIPESIZE`. -/
def PIPESIZE : ℕ := 512

instance : NeZero PIPESIZE := ⟨by decide⟩

/-! ## The code -/

/-- `struct pipe`, without its lock. -/
structure Pipe where
  data : Fin PIPESIZE → UInt8
  /-- Number of bytes read. -/
  nread : BitVec 32
  /-- Number of bytes written. -/
  nwrite : BitVec 32
  readopen : Bool
  writeopen : Bool

namespace Pipe

/-- The condition `p->nwrite == p->nread + PIPESIZE`. -/
def full (p : Pipe) : Bool :=
  p.nwrite = p.nread + BitVec.ofNat 32 PIPESIZE

/-- The condition `p->nread == p->nwrite`. -/
def empty (p : Pipe) : Bool :=
  p.nread = p.nwrite

/-- `p->data[p->nwrite++ % PIPESIZE] = b`. -/
def store (p : Pipe) (b : UInt8) : Pipe :=
  { p with
    data := Function.update p.data (Fin.ofNat PIPESIZE p.nwrite.toNat) b
    nwrite := p.nwrite + 1 }

/-- Why the loop of `pipewrite` has stopped. -/
inductive Stop
  /-- All bytes are stored. -/
  | done
  /-- The pipe is full and nobody will read it, or the process has been killed. -/
  | broken
  /-- The pipe is full; the process is about to sleep before it stores `addr[i]`. -/
  | full (i : ℕ)

/-- The `for` loop of `pipewrite` from index `i` on, with `k` bytes left, until it ends or sleeps:
the pipe, the bytes stored, and why the loop has stopped. -/
def writeLoop (killed : Bool) (addr : ℕ → UInt8) : ℕ → ℕ → Pipe → Pipe × List UInt8 × Stop
  | 0, _, p => (p, [], .done)
  | k + 1, i, p =>
    if p.full then (p, [], if !p.readopen || killed then .broken else .full i)
    else
      let (p', bytes, stop) := writeLoop killed addr k (i + 1) (p.store (addr i))
      (p', addr i :: bytes, stop)

/-- The `for` loop of `piperead` with room for `k` bytes: the pipe and the bytes copied out. -/
def readLoop : ℕ → Pipe → Pipe × List UInt8
  | 0, p => (p, [])
  | k + 1, p =>
    if p.empty then (p, [])
    else
      let b := p.data (Fin.ofNat PIPESIZE p.nread.toNat)
      let (p', bytes) := readLoop k { p with nread := p.nread + 1 }
      (p', b :: bytes)

end Pipe

/-- What processes sleep on: `&p->nread` or `&p->nwrite`. -/
inductive Chan
  | nread
  | nwrite
  deriving DecidableEq

/-- Where a process is with respect to the pipe. -/
inductive Activity
  | idle
  /-- In `pipewrite(p, addr, n)`, in `sleep` before it stores `addr[i]`. -/
  | write (addr : ℕ → UInt8) (n : ℤ) (i : ℕ)
  /-- In `piperead(p, addr, n)`, in `sleep`. -/
  | read (n : ℤ)

/-- The channel on which a process sleeps. -/
def Activity.chan : Activity → Option Chan
  | .idle => none
  | .write .. => some .nwrite
  | .read _ => some .nread

/-- A process that uses the pipe. -/
structure Proc where
  killed : Bool
  /-- `SLEEPING` on the channel of the activity; nobody has woken the process yet. -/
  asleep : Bool
  activity : Activity

variable {ι : Type} [DecidableEq ι]

/-- A pipe and the processes `ι`. -/
structure State (ι : Type) where
  pipe : Pipe
  /-- Both ends are closed and `kfree` has been called. -/
  freed : Bool
  proc : ι → Proc

/-- What a step did: the bytes it stored or copied out, and the value that a call returned. -/
inductive Event
  | silent
  | write (bytes : List UInt8) (ret : Option ℤ)
  | read (n : ℤ) (bytes : List UInt8) (ret : Option ℤ)
  deriving DecidableEq

namespace State

/-- `wakeup(chan)`. -/
def wakeup (c : Chan) (σ : State ι) : State ι :=
  { σ with
    proc := fun t =>
      if (σ.proc t).activity.chan = some c then { σ.proc t with asleep := false } else σ.proc t }

/-- The process `t` sleeps, or returns from its call and is `idle`. -/
def goTo (t : ι) (activity : Activity) (σ : State ι) : State ι :=
  { σ with
    proc := Function.update σ.proc t
      { σ.proc t with asleep := activity.chan.isSome, activity := activity } }

/-- A piece of `pipewrite(p, addr, n)`, from the test of the inner loop for index `i` on. -/
def pipewrite (t : ι) (addr : ℕ → UInt8) (n : ℤ) (i : ℕ) (σ : State ι) : State ι × Event :=
  let (p, bytes, stop) := σ.pipe.writeLoop (σ.proc t).killed addr (n - i).toNat i
  let σ := { σ with pipe := p }
  match stop with
  | .done => ((σ.wakeup .nread).goTo t .idle, .write bytes (some n))
  | .broken => (σ.goTo t .idle, .write bytes (some (-1)))
  | .full i => ((σ.wakeup .nread).goTo t (.write addr n i), .write bytes none)

/-- A piece of `piperead(p, addr, n)`, from the test for an empty pipe on. -/
def piperead (t : ι) (n : ℤ) (σ : State ι) : State ι × Event :=
  if σ.pipe.empty && σ.pipe.writeopen then
    if (σ.proc t).killed then (σ.goTo t .idle, .read n [] (some (-1)))
    else (σ.goTo t (.read n), .read n [] none)
  else
    let (p, bytes) := σ.pipe.readLoop n.toNat
    (({ σ with pipe := p }.wakeup .nwrite).goTo t .idle, .read n bytes (some bytes.length))

/-- `pipeclose(p, writable)`. -/
def pipeclose (writable : Bool) (σ : State ι) : State ι :=
  let σ :=
    if writable then { σ with pipe := { σ.pipe with writeopen := false } }.wakeup .nread
    else { σ with pipe := { σ.pipe with readopen := false } }.wakeup .nwrite
  if !σ.pipe.readopen && !σ.pipe.writeopen then { σ with freed := true } else σ

/-- `kill`: the process is marked, and woken up if it sleeps. -/
def kill (t : ι) (σ : State ι) : State ι :=
  { σ with proc := Function.update σ.proc t { σ.proc t with killed := true, asleep := false } }

end State

/-- What can happen to a pipe. -/
inductive Action (ι : Type)
  | write (t : ι) (addr : ℕ → UInt8) (n : ℤ)
  | read (t : ι) (n : ℤ)
  /-- `sleep` returns in process `t`. -/
  | resume (t : ι)
  | close (writable : Bool)
  | kill (t : ι)

namespace State

/-- Perform one piece of code. -/
def step (σ : State ι) (a : Action ι) : Option (State ι × Event) :=
  if σ.freed then none
  else
    match a with
    | .write t addr n =>
      match (σ.proc t).activity with
      | .idle => some (σ.pipewrite t addr n 0)
      | _ => none
    | .read t n =>
      match (σ.proc t).activity with
      | .idle => some (σ.piperead t n)
      | _ => none
    | .resume t =>
      if (σ.proc t).asleep then none
      else
        match (σ.proc t).activity with
        | .idle => none
        | .write addr n i => some (σ.pipewrite t addr n i)
        | .read n => some (σ.piperead t n)
    | .close writable => some (σ.pipeclose writable, .silent)
    | .kill t => some (σ.kill t, .silent)

/-- After `pipealloc`; the page from `kalloc` holds arbitrary data. -/
def Initial (σ : State ι) : Prop :=
  σ.pipe.nread = 0 ∧ σ.pipe.nwrite = 0 ∧ σ.pipe.readopen = true ∧ σ.pipe.writeopen = true ∧
    σ.freed = false ∧ ∀ t, (σ.proc t).activity = .idle

end State

/-- A pipe used by the processes `ι`. -/
def system (ι : Type) [DecidableEq ι] : System (State ι) (Action ι × Event) :=
  ofFun State.Initial State.step

/-! ## The ring of the pipe -/

namespace Pipe

variable {p p' : Pipe} {bytes : List UInt8}

/-- The bytes in the pipe, the oldest first. -/
def contents (p : Pipe) : List UInt8 :=
  CounterRing.contents p.data p.nread p.nwrite

/-- The pipe holds at most `PIPESIZE` bytes. -/
def Bounded (p : Pipe) : Prop :=
  CounterRing.pending p.nread p.nwrite ≤ PIPESIZE

/-- The counters wrap at a multiple of the size of the ring. -/
theorem PIPESIZE_dvd : PIPESIZE ∣ 2 ^ 32 := by
  decide

theorem PIPESIZE_lt : PIPESIZE + 1 < 2 ^ 32 := by
  decide

theorem contents_eq_nil (h : p.empty = true) : p.contents = [] := by
  have hpending := CounterRing.pending_eq_zero_iff.mpr (of_decide_eq_true h)
  rw [contents, CounterRing.contents, hpending]
  rfl

theorem store_spec (hb : p.Bounded) (hfull : p.full = false) (b : UInt8) :
    (p.store b).contents = p.contents ++ [b] ∧ (p.store b).Bounded := by
  have hlt : PIPESIZE < 2 ^ 32 := by decide
  have hne : CounterRing.pending p.nread p.nwrite ≠ PIPESIZE := fun heq =>
    of_decide_eq_false hfull ((CounterRing.pending_eq_iff hlt).mp heq)
  have hroom : CounterRing.pending p.nread p.nwrite < PIPESIZE := lt_of_le_of_ne hb hne
  have hput : CounterRing.pending p.nread (p.nwrite + 1) =
      CounterRing.pending p.nread p.nwrite + 1 :=
    CounterRing.pending_put (lt_trans (Nat.succ_lt_succ hroom) PIPESIZE_lt)
  refine ⟨CounterRing.contents_put PIPESIZE_dvd hroom hput b, ?_⟩
  rw [Bounded, store, hput]
  exact hroom

theorem take_spec (hb : p.Bounded) (hempty : p.empty = false) :
    p.contents = p.data (Fin.ofNat PIPESIZE p.nread.toNat) ::
        { p with nread := p.nread + 1 }.contents ∧
      { p with nread := p.nread + 1 }.Bounded := by
  have hne : p.nread ≠ p.nwrite := of_decide_eq_false hempty
  have htake := CounterRing.pending_take hne
  refine ⟨CounterRing.contents_take PIPESIZE_dvd hne, ?_⟩
  unfold Bounded at hb ⊢
  dsimp only
  omega

/-- The loop of `pipewrite` appends the bytes it stores. -/
theorem writeLoop_spec (killed : Bool) (addr : ℕ → UInt8) (k i : ℕ) (hb : p.Bounded) :
    (p.writeLoop killed addr k i).1.contents = p.contents ++ (p.writeLoop killed addr k i).2.1 ∧
      (p.writeLoop killed addr k i).1.Bounded := by
  induction k generalizing i p with
  | zero => exact ⟨(List.append_nil _).symm, hb⟩
  | succ k ih =>
    rw [writeLoop]
    split
    · exact ⟨(List.append_nil _).symm, hb⟩
    next hfull =>
      obtain ⟨hstore, hb'⟩ := store_spec hb (Bool.eq_false_iff.mpr hfull) (addr i)
      obtain ⟨hrest, hb''⟩ := ih (i + 1) hb'
      refine ⟨?_, hb''⟩
      rw [hrest, hstore, List.append_assoc]
      rfl

/-- The loop of `piperead` takes the bytes it copies out from the front. -/
theorem readLoop_spec (k : ℕ) (hb : p.Bounded) :
    p.contents = (p.readLoop k).2 ++ (p.readLoop k).1.contents ∧ (p.readLoop k).1.Bounded := by
  induction k generalizing p with
  | zero => exact ⟨rfl, hb⟩
  | succ k ih =>
    rw [readLoop]
    split
    · exact ⟨rfl, hb⟩
    next hempty =>
      obtain ⟨htake, hb'⟩ := take_spec hb (Bool.eq_false_iff.mpr hempty)
      obtain ⟨hrest, hb''⟩ := ih hb'
      refine ⟨?_, hb''⟩
      rw [htake, hrest]
      rfl

/-- The loop of `piperead` copies nothing out only if the pipe is empty. -/
theorem empty_of_readLoop {k : ℕ} (hk : 0 < k) (h : (p.readLoop k).2 = []) : p.empty = true := by
  obtain ⟨k, rfl⟩ := Nat.exists_eq_succ_of_ne_zero hk.ne'
  rw [readLoop] at h
  split at h
  next hempty => exact hempty
  · cases h

end Pipe

/-! ## Runs -/

/-- The bytes that a step stores. -/
def Event.stored : Event → List UInt8
  | .write bytes _ => bytes
  | _ => []

/-- The bytes that a step copies out to its caller. -/
def Event.returned : Event → List UInt8
  | .read _ bytes _ => bytes
  | _ => []

/-- The bytes stored along a run, in the order stored. -/
def stored : List (State ι × (Action ι × Event)) → List UInt8
  | [] => []
  | (_, l) :: hist => stored hist ++ l.2.stored

/-- The bytes returned along a run by successive calls of `piperead`. -/
def returned : List (State ι × (Action ι × Event)) → List UInt8
  | [] => []
  | (_, l) :: hist => returned hist ++ l.2.returned

variable {hist : List (State ι × (Action ι × Event))} {σ σ' : State ι} {a : Action ι} {e : Event}

/-- A step is a piece of `pipewrite` or `piperead`, or it closes an end or kills a process. -/
theorem step_cases (hstep : σ.step a = some (σ', e)) :
    (∃ t addr n i, σ.pipewrite t addr n i = (σ', e)) ∨ (∃ t n, σ.piperead t n = (σ', e)) ∨
      (∃ writable, e = .silent ∧ σ' = σ.pipeclose writable) ∨ ∃ t, e = .silent ∧ σ' = σ.kill t := by
  unfold State.step at hstep
  split at hstep
  · cases hstep
  cases a with
  | write t addr n =>
    dsimp only at hstep
    split at hstep
    · exact .inl ⟨t, addr, n, 0, Option.some.inj hstep⟩
    · cases hstep
  | read t n =>
    dsimp only at hstep
    split at hstep
    · exact .inr (.inl ⟨t, n, Option.some.inj hstep⟩)
    · cases hstep
  | resume t =>
    dsimp only at hstep
    split at hstep
    · cases hstep
    split at hstep
    · cases hstep
    next addr n i _ => exact .inl ⟨t, addr, n, i, Option.some.inj hstep⟩
    next n _ => exact .inr (.inl ⟨t, n, Option.some.inj hstep⟩)
  | close writable =>
    cases hstep
    exact .inr (.inr (.inl ⟨writable, rfl, rfl⟩))
  | kill t =>
    cases hstep
    exact .inr (.inr (.inr ⟨t, rfl, rfl⟩))

/-- What a step does to the pipe: the bytes stored go to its end, those returned come from its
front. -/
structure Passes (σ σ' : State ι) (e : Event) : Prop where
  contents : σ.pipe.contents ++ e.stored = e.returned ++ σ'.pipe.contents
  bounded : σ'.pipe.Bounded

namespace Passes

theorem pipewrite (hb : σ.pipe.Bounded) (t : ι) (addr : ℕ → UInt8) (n : ℤ) (i : ℕ) :
    Passes σ (σ.pipewrite t addr n i).1 (σ.pipewrite t addr n i).2 := by
  have hloop := Pipe.writeLoop_spec (σ.proc t).killed addr (n - i).toNat i hb
  unfold State.pipewrite
  generalize σ.pipe.writeLoop (σ.proc t).killed addr (n - i).toNat i = r at hloop
  obtain ⟨p, bytes, stop⟩ := r
  cases stop <;> exact ⟨hloop.1.symm, hloop.2⟩

theorem piperead (hb : σ.pipe.Bounded) (t : ι) (n : ℤ) :
    Passes σ (σ.piperead t n).1 (σ.piperead t n).2 := by
  have hloop := Pipe.readLoop_spec n.toNat hb
  unfold State.piperead
  split
  · split <;> exact ⟨List.append_nil _, hb⟩
  · exact ⟨(List.append_nil _).trans hloop.1, hloop.2⟩

omit [DecidableEq ι] in
theorem pipeclose (hb : σ.pipe.Bounded) (writable : Bool) :
    Passes σ (σ.pipeclose writable) .silent := by
  -- closing an end does not touch the ring
  have hpipe : (σ.pipeclose writable).pipe.contents = σ.pipe.contents ∧
      (σ.pipeclose writable).pipe.Bounded := by
    unfold State.pipeclose
    dsimp only
    split_ifs <;> exact ⟨rfl, hb⟩
  exact ⟨(List.append_nil _).trans hpipe.1.symm, hpipe.2⟩

theorem step (hb : σ.pipe.Bounded) (hstep : σ.step a = some (σ', e)) : Passes σ σ' e := by
  obtain ⟨t, addr, n, i, h⟩ | ⟨t, n, h⟩ | ⟨writable, rfl, rfl⟩ | ⟨t, rfl, rfl⟩ := step_cases hstep
  · have hpass := pipewrite hb t addr n i
    rwa [h] at hpass
  · have hpass := piperead hb t n
    rwa [h] at hpass
  · exact pipeclose hb writable
  · exact ⟨List.append_nil _, hb⟩

end Passes

/-- Along every run, the bytes stored are those returned and those in the pipe. -/
theorem stored_eq (hrun : (system ι).Run hist σ) :
    stored hist = returned hist ++ σ.pipe.contents ∧ σ.pipe.Bounded := by
  induction hrun with
  | @init σ h =>
    obtain ⟨hread, hwrite, -⟩ := h
    have hempty : σ.pipe.empty = true := by simp [Pipe.empty, hread, hwrite]
    rw [Pipe.contents_eq_nil hempty, Pipe.Bounded, hread, hwrite]
    exact ⟨rfl, by decide⟩
  | @step hist σ σ' l hrun hstep ih =>
    obtain ⟨hstored, hb⟩ := ih
    obtain ⟨hcontents, hb'⟩ := Passes.step hb hstep
    refine ⟨?_, hb'⟩
    calc stored hist ++ l.2.stored = returned hist ++ (σ.pipe.contents ++ l.2.stored) := by
          rw [hstored, List.append_assoc]
      _ = (returned hist ++ l.2.returned) ++ σ'.pipe.contents := by
          rw [hcontents, List.append_assoc]

/-- A piece of `piperead` that returns `0` although it has room for a byte has found the pipe empty
and its write end closed. -/
theorem of_piperead_zero {t : ι} {n m : ℤ} {bytes : List UInt8} (hm : 0 < m)
    (h : (σ.piperead t n).2 = .read m bytes (some 0)) :
    σ.pipe.empty = true ∧ σ.pipe.writeopen = false := by
  unfold State.piperead at h
  split at h
  · split at h <;> cases h
  next hwait =>
    obtain ⟨rfl, -, hret⟩ := Event.read.inj h
    have hlen : ((σ.pipe.readLoop n.toNat).2.length : ℤ) = 0 := Option.some.inj hret
    have hnil := List.length_eq_zero_iff.mp (Int.natCast_eq_zero.mp hlen)
    have hempty := Pipe.empty_of_readLoop (Int.lt_toNat.mpr hm) hnil
    refine ⟨hempty, Bool.eq_false_iff.mpr fun hopen => hwait ?_⟩
    rw [hempty, hopen]
    rfl

/-- Pipes are lossless queues: what `piperead` returns is a prefix of what `pipewrite` has stored,
in order; the counters stay within `PIPESIZE`; and `piperead` returns `0` only at the end of all
data. -/
theorem pipe_fifo (hrun : (system ι).Run hist σ) :
    returned hist <+: stored hist ∧ (σ.pipe.nwrite - σ.pipe.nread).toNat ≤ PIPESIZE ∧
    ∀ a σ' n bytes, σ.step a = some (σ', .read n bytes (some 0)) → 0 < n →
      σ.pipe.writeopen = false ∧ returned hist = stored hist := by
  obtain ⟨hstored, hb⟩ := stored_eq hrun
  refine ⟨⟨σ.pipe.contents, hstored.symm⟩, hb, fun a σ' n bytes hstep hn => ?_⟩
  obtain ⟨t, addr, m, i, h⟩ | ⟨t, m, h⟩ | ⟨writable, he, -⟩ | ⟨t, he, -⟩ := step_cases hstep
  · have hevent := congrArg Prod.snd h
    unfold State.pipewrite at hevent
    dsimp only at hevent
    split at hevent <;> cases hevent
  · obtain ⟨hempty, hclosed⟩ := of_piperead_zero hn (congrArg Prod.snd h)
    refine ⟨hclosed, ?_⟩
    rw [hstored, Pipe.contents_eq_nil hempty, List.append_nil]
  · cases he
  · cases he

/-- A new pipe and two processes. -/
def fresh : State (Fin 2) where
  pipe := ⟨fun _ => 0, 0, 0, true, true⟩
  freed := false
  proc := fun _ => ⟨false, false, .idle⟩

/-- Process `1` waits for a byte; process `0` writes two, of which process `1` reads one at a time;
then the write end is closed. -/
def twoBytes : List (Action (Fin 2)) :=
  [.read 1 1, .write 0 (fun i => 97 + UInt8.ofNat i) 2, .resume 1, .read 1 1, .close true]

/-- What is found after executing actions on a new pipe is found at the end of some run. -/
theorem exists_run (as : List (Action (Fin 2)))
    (P : List (State (Fin 2) × (Action (Fin 2) × Event)) → State (Fin 2) → Bool)
    (h : (exec State.step [] fresh as).any (fun r => P r.1 r.2) = true) :
    ∃ hist σ, (system (Fin 2)).Run hist σ ∧ P hist σ = true :=
  exists_run_of_exec_any ⟨rfl, rfl, rfl, rfl, rfl, fun _ => rfl⟩ h

/-- Process `1` then reads `0` bytes. -/
theorem pipe_fifo_twoBytes :
    ∃ (hist : List (State (Fin 2) × (Action (Fin 2) × Event))) (σ : State (Fin 2)),
      (system (Fin 2)).Run hist σ ∧ stored hist = [97, 98] ∧ returned hist = [97, 98] ∧
        σ.pipe.writeopen = false := by
  obtain ⟨hist, σ, hrun, hσ⟩ := exists_run twoBytes
    (fun hist σ => decide (stored hist = [97, 98] ∧
      (σ.step (.read 1 1)).map Prod.snd = some (.read 1 [] (some 0)))) (by decide +kernel)
  obtain ⟨hstored, hread⟩ := of_decide_eq_true hσ
  obtain ⟨⟨σ', e⟩, hstep, rfl⟩ := Option.map_eq_some_iff.mp hread
  obtain ⟨hclosed, heq⟩ := (pipe_fifo hrun).2.2 _ _ _ _ hstep one_pos
  exact ⟨hist, σ, hrun, hstored, heq.trans hstored, hclosed⟩

end Xv6.Pipes
