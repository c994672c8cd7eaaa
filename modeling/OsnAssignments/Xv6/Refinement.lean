import OsnAssignments.Xv6.Protocol

/-!
# Every build follows the protocol

`Kernel.core` forgets the ready queues. Each function of the kernel acts on the core as the
function of the same name in `Xv6.Protocol` does, so every step of every build is a step of the
protocol (`Kernel.step_core`) and every run of the kernel is one of the protocol (`run_core`).
-/

namespace Xv6

open Loop Transition Function

variable {n : ℕ}

namespace Kernel

variable {p : Slot} {f : Proc → Proc} {i : ℕ}

/-- Forget the ready queues. -/
def core (σ : Kernel n) : Core n where
  procs i := (σ.proc i).toTask
  beyond := σ.beyond
  nextpid := σ.nextpid
  ticks := σ.ticks
  initproc := σ.initproc
  lock := σ.lock
  cpus := σ.cpus

section

variable (σ : Kernel n)

theorem core_procs (i : Slot) : σ.core.procs i = (σ.proc i).toTask := rfl

@[simp] theorem core_cpus : σ.core.cpus = σ.cpus := rfl

/-! ## Reading and writing the table -/

@[simp] theorem proc_modify_self (i : Slot) (f : Proc → Proc) :
    (σ.modify i f).proc i = f (σ.proc i) := by
  simp [modify, setProc, proc]

@[simp] theorem proc_modify_of_ne {i j : Slot} (f : Proc → Proc) (h : j ≠ i) :
    (σ.modify i f).proc j = σ.proc j := by
  have h' : (i : ℕ) ≠ j := fun hij => h (Fin.ext hij.symm)
  simp [modify, setProc, proc, h']

/-- A change of one entry acts on the core as a change of that entry. -/
theorem core_modify (i : Slot) (g : Task → Task) (h : (f (σ.proc i)).toTask = g (σ.proc i).toTask) :
    (σ.modify i f).core = σ.core.modify i g := by
  have hprocs : (fun j => ((σ.modify i f).proc j).toTask) =
      update (fun j => (σ.proc j).toTask) i (g (σ.proc i).toTask) := by
    funext j
    by_cases hj : j = i
    · subst hj
      simp [h]
    · simp [hj]
  simp only [core, Core.modify, hprocs]
  rfl

/-- A change of one entry in the fields of the ready queues does not show in the core. -/
theorem core_modify_eq_self (i : Slot)
    (h : (f (σ.proc i)).toTask = (σ.proc i).toTask) : (σ.modify i f).core = σ.core := by
  rw [core_modify σ i id h]
  exact Core.modify_eq_self rfl

end

/-- Nor does such a change that only the MLFQ build makes. -/
theorem core_ite_modify (b : Build) (σ : Kernel n) (i : Slot)
    (h : (f (σ.proc i)).toTask = (σ.proc i).toTask) :
    (if b = .mlfq then σ.modify i f else σ).core = σ.core := by
  split
  · exact core_modify_eq_self σ i h
  · rfl

section

variable (σ : Kernel n)

@[simp] theorem core_modifyCpu (c : CpuId n) (f : Cpu → Cpu) :
    (σ.modifyCpu c f).core = σ.core.modifyCpu c f := rfl

@[simp] theorem core_sched (c : CpuId n) : (σ.sched c).core = σ.core.sched c := rfl

@[simp] theorem core_unlock (c : CpuId n) : (σ.unlock c).core = σ.core.unlock c := rfl

@[simp] theorem core_endPass (c : CpuId n) : (σ.endPass c).core = σ.core.endPass c := rfl

@[simp] theorem core_setTrap (c : CpuId n) (t : Trap) :
    (σ.setTrap c t).core = σ.core.setTrap c t := rfl

/-! ## The ready queues do not show -/

@[simp] theorem core_push (a : Level) (p : Slot) : (σ.push a p).core = σ.core := by
  rw [push]
  split
  · rfl
  · exact core_modify_eq_self _ p rfl

end

theorem core_ready (b : Build) (a : Level) (p : Slot) (σ : Kernel n) :
    (σ.ready b a p).core = σ.core.ready p := by
  have h : (σ.modify p fun q => { q with state := .runnable }).core = σ.core.ready p :=
    core_modify σ p _ rfl
  rw [ready]
  split
  · rw [core_push, h]
  · exact h

theorem core_ageBody (i : Level) (σ : Kernel n) (j : ℤ) : (ageBody i σ j).core = σ.core := by
  rw [ageBody]
  split
  · rfl
  · split
    · rw [core_push]
      exact core_modify_eq_self _ _ rfl
    · rfl

/-- What every iteration of the aging loops keeps, the whole pass keeps. -/
theorem agePass_induct {I : Kernel n → Prop}
    (hbody : ∀ i σ j, I σ → I (ageBody i σ j)) (h : I σ) : I σ.agePass := by
  have hloop (cond : Kernel n → ℤ → Bool) (i : Level) (j : ℤ) (σ : Kernel n) (h : I σ) :
      I (forLoop cond (ageBody i) NPROC j σ) := by
    obtain ⟨-, h⟩ := forLoop_induct (I := fun _ => I) (P := fun _ _ => True) (Q := False)
      (fun j σ h _ _ => hbody i σ j h) False.elim h
    exact h
  refine foldl_induct (P := fun _ _ => True) (Q := False) (fun σ i _ h _ => ?_) False.elim h
  unfold ageRing
  split_ifs
  · exact h
  · exact hloop _ i _ σ h
  · exact hloop _ i _ _ (hloop _ i _ σ h)

theorem core_agePass (σ : Kernel n) : σ.agePass.core = σ.core :=
  agePass_induct (I := fun τ => τ.core = σ.core) (fun i τ j h => (core_ageBody i τ j).trans h) rfl

theorem core_popFirst (σ : Kernel n) : σ.popFirst.2.core = σ.core := by
  rw [popFirst]
  split <;> rfl

theorem core_requeue (p : Slot) (σ : Kernel n) : (σ.requeue p).core = σ.core := by
  rw [requeue]
  split
  · rw [core_push]
    apply core_modify_eq_self
    split <;> rfl
  · rfl

/-! ## Loops over the table -/

theorem core_wakeup1Body (b : Build) (chan : Chan) (σ : Kernel n) (p : Slot) :
    (wakeup1Body b chan σ p).core = σ.core.modify p (Task.wake chan) := by
  rw [wakeup1Body]
  by_cases h : (σ.proc p).state = .sleeping ∧ (σ.proc p).chan = chan
  · rw [if_pos h, core_ready, core_ite_modify b σ p rfl]
    exact Core.modify_congr (Task.wake_of_sleeping h).symm
  · rw [if_neg h]
    exact (Core.modify_eq_self (Task.wake_of_not h)).symm

/-- A loop over table entries whose body acts on the table of the core by `g` (which may read
`initproc`) acts on it as the loop over `g`. -/
theorem core_foldl {f : Kernel n → Slot → Kernel n}
    {g : Option Slot → (Slot → Task) → Slot → Slot → Task}
    (h : ∀ σ i, (f σ i).core = { σ.core with procs := g σ.initproc σ.core.procs i })
    (l : List Slot) (σ : Kernel n) :
    (l.foldl f σ).core = { σ.core with procs := l.foldl (g σ.initproc) σ.core.procs } := by
  induction l generalizing σ with
  | nil => rfl
  | cons i l ih =>
    have hinit : (f σ i).initproc = σ.initproc := congrArg Core.initproc (h σ i)
    rw [List.foldl_cons, ih, hinit, h]
    rfl

theorem core_wakeup1 (b : Build) (chan : Chan) (σ : Kernel n) :
    (σ.wakeup1 b chan).core = σ.core.mapProcs (Task.wake chan) := by
  rw [wakeup1, core_foldl
    (g := fun _ procs i => update procs i ((procs i).wake chan))
    (core_wakeup1Body b chan), foldl_update_finRange]
  rfl

/-- The table after one iteration of the loop of `exit` by `cur`. -/
private def orphanOne (cur : Slot) (initproc : Option Slot) (procs : Slot → Task) (p : Slot) :
    Slot → Task :=
  if (procs p).parent = some cur ∧ (procs p).state = .zombie then
    fun i => (update procs p ((procs p).orphan cur initproc) i).wake (.ofProc initproc)
  else update procs p ((procs p).orphan cur initproc)

private theorem core_exitBody (b : Build) (cur : Slot) (σ : Kernel n) (p : Slot) :
    (exitBody b cur σ p).core =
      { σ.core with procs := orphanOne cur σ.initproc σ.core.procs p } := by
  rw [exitBody, orphanOne]
  by_cases hparent : (σ.core.procs p).parent = some cur
  · have hcore : (σ.modify p fun q => { q with parent := σ.initproc }).core =
        σ.core.modify p (Task.orphan cur σ.initproc) :=
      core_modify σ p _ (Task.orphan_of_child hparent).symm
    have hstate : ((σ.modify p fun q => { q with parent := σ.initproc }).proc p).state =
        (σ.core.procs p).state := by simp [core]
    rw [if_pos (show (σ.proc p).parent = some cur from hparent)]
    dsimp only
    rw [hstate]
    by_cases hzombie : (σ.core.procs p).state = .zombie
    · rw [if_pos hzombie, if_pos ⟨hparent, hzombie⟩, core_wakeup1, hcore]
      rfl
    · rw [if_neg hzombie, if_neg fun h => hzombie h.2, hcore]
      rfl
  · rw [if_neg (show (σ.proc p).parent ≠ some cur from hparent), if_neg fun h => hparent h.1,
      Task.orphan_of_not hparent, update_eq_self]

/-- The entries after the loop of `exit` has passed over those in `l`: the children of `cur`
among them are orphaned, and init is woken if one of these is a zombie. -/
private theorem foldl_orphanOne (cur : Slot) (initproc : Option Slot) {l : List Slot}
    (hl : l.Nodup) (procs : Slot → Task) :
    l.foldl (orphanOne cur initproc) procs = fun j =>
      let t := if j ∈ l then (procs j).orphan cur initproc else procs j
      if ∃ i ∈ l, (procs i).parent = some cur ∧ (procs i).state = .zombie then
        t.wake (.ofProc initproc)
      else t := by
  induction l generalizing procs with
  | nil => simp
  | cons p l ih =>
    obtain ⟨hp, hl⟩ := List.nodup_cons.mp hl
    -- The entries still to be visited keep their parent, and no wakeup makes or unmakes a zombie.
    have hrest : ∀ i ∈ l, (orphanOne cur initproc procs p i).parent = (procs i).parent ∧
        ((orphanOne cur initproc procs p i).state = .zombie ↔ (procs i).state = .zombie) := by
      intro i hi
      have hip : i ≠ p := fun h => hp (h ▸ hi)
      unfold orphanOne
      split_ifs <;> simp [hip]
    have hexists : (∃ i ∈ l, (orphanOne cur initproc procs p i).parent = some cur ∧
        (orphanOne cur initproc procs p i).state = .zombie) ↔
        ∃ i ∈ l, (procs i).parent = some cur ∧ (procs i).state = .zombie := by
      refine exists_congr fun i => and_congr_right fun hi => ?_
      rw [(hrest i hi).1, (hrest i hi).2]
    rw [List.foldl_cons, ih hl]
    funext j
    simp only [hexists, List.exists_mem_cons_iff]
    unfold orphanOne
    -- a second wakeup of init changes nothing, so that the order of the loop does not matter
    by_cases hpz : (procs p).parent = some cur ∧ (procs p).state = .zombie
    · rw [if_pos hpz]
      by_cases hjp : j = p
      · subst hjp
        simp [hp, hpz, Task.wake_wake]
      · by_cases hjl : j ∈ l <;> simp [hjp, hpz, hjl, Task.orphan_wake, Task.wake_wake]
    · rw [if_neg hpz]
      by_cases hjp : j = p
      · subst hjp
        simp [hp, hpz]
      · simp [hjp, hpz]

/-- The critical section of `exit`, from the effects of its two loops. -/
private theorem core_exitTable_of_loops {cur : Slot} {σ σ₁ σ₂ : Kernel n}
    (h₁ : σ₁.core = σ.core.mapProcs (Task.wake (.ofProc (σ.core.procs cur).parent)))
    (h₂ : σ₂.core = { σ₁.core with
      procs := (List.finRange NPROC).foldl (orphanOne cur σ₁.initproc) σ₁.core.procs }) :
    (σ₂.modify cur fun p => { p with etime := σ₂.ticks, state := .zombie }).core =
      σ.core.exitTable cur := by
  have hinit : σ₁.initproc = σ.core.initproc := congrArg Core.initproc h₁
  have hticks₁ : σ₁.ticks = σ.core.ticks := congrArg Core.ticks h₁
  have hticks₂ : σ₂.ticks = σ₁.ticks := congrArg Core.ticks h₂
  rw [foldl_orphanOne cur _ (List.nodup_finRange _), hinit] at h₂
  rw [core_modify σ₂ cur (fun t => { t with etime := σ.core.ticks, state := .zombie })
    (by rw [hticks₂, hticks₁]), h₂, h₁, Core.exitTable]
  simp only [List.mem_finRange, true_and, if_true, Core.mapProcs, Core.HasZombie,
    Task.wake_parent, Task.wake_state_eq_zombie]
  -- the two sides decide the same test by different instances
  by_cases hzombie : ∃ i, (σ.core.procs i).parent = some cur ∧ (σ.core.procs i).state = .zombie
  · simp only [hzombie, if_true]
  · simp only [hzombie, if_false]

theorem core_exitTable (b : Build) (cur : Slot) (σ : Kernel n) :
    (σ.exitTable b cur).core = σ.core.exitTable cur :=
  core_exitTable_of_loops (core_wakeup1 b _ σ) (core_foldl (core_exitBody b cur) _ _)

theorem core_waitLoop (call : WaitCall) (σ : Kernel n) (c : CpuId n) (cur : Slot) :
    Core.WaitStep call σ.core c cur (σ.waitLoop call c cur).2 (σ.waitLoop call c cur).1.core := by
  unfold waitLoop
  split
  case h_1 i hfind =>
    obtain ⟨hparent, hzombie⟩ := of_find?_eq_some hfind
    have hcore : (σ.modify i fun p => { p with toTask := p.toTask.reap call σ.ticks }).core =
        σ.core.modify i (Task.reap call σ.core.ticks) := core_modify σ i _ rfl
    have hstep : Core.WaitStep call σ.core c cur _ _ := .reap hparent hzombie
    rw [← hcore] at hstep
    exact hstep
  case h_2 hfind =>
    -- the loop has passed over the whole table
    have hnone : ¬ σ.core.HasZombie cur := by
      rintro ⟨i, hparent, hzombie⟩
      have hi := List.find?_eq_none.mp hfind i (List.mem_finRange i)
      exact hi (decide_eq_true ⟨hparent, hzombie⟩)
    dsimp only
    split
    · exact .noChild hnone
    · have hcore : (σ.modify cur fun p =>
          { p with chan := .proc cur, state := .sleeping, context := .wait call }).core =
          σ.core.modify cur fun t =>
            { t with chan := .proc cur, state := .sleeping, context := .wait call } :=
        core_modify σ cur _ rfl
      have hstep : Core.WaitStep call σ.core c cur _ _ := .sleep hnone
      rw [← hcore] at hstep
      exact hstep

/-! ## Selection -/

theorem runnable_of_pickRoundRobin {σ : Kernel n}
    (h : σ.pickRoundRobin i = some p) : (σ.proc p).state = .runnable :=
  of_find?_eq_some (P := fun p => (σ.proc p).state = .runnable) h

theorem runnable_of_pickFcfs {σ : Kernel n} (h : σ.pickFcfs = some p) :
    (σ.proc p).state = .runnable := by
  -- the best process found so far is `RUNNABLE` throughout the loop
  have hfold : ∀ (l : List Slot) (pro : Option Slot),
      (∀ q, pro = some q → (σ.proc q).state = .runnable) →
      ∀ q, l.foldl σ.fcfsBody pro = some q → (σ.proc q).state = .runnable := by
    intro l
    induction l with
    | nil => intro pro hpro; exact hpro
    | cons q l ih =>
      intro pro hpro
      refine ih _ fun r hr => ?_
      unfold fcfsBody at hr
      split at hr
      · exact hpro r hr
      next hq =>
        have hq : (σ.proc q).state = .runnable := not_not.mp hq
        split at hr
        · cases hr; exact hq
        · split at hr
          · cases hr; exact hq
          · exact hpro r hr
  exact hfold _ none (by simp) p h

theorem runnable_foldl_pbsBody (σ : Kernel n) (l : List Slot) {hp : Slot}
    (h : (σ.proc hp).state = .runnable) : (σ.proc (l.foldl σ.pbsBody hp)).state = .runnable := by
  induction l generalizing hp with
  | nil => exact h
  | cons ekaur l ih =>
    refine ih ?_
    unfold pbsBody
    split
    · exact h
    next hrun =>
      split
      · exact not_not.mp hrun
      · exact h

theorem runnable_of_pickPbs {σ : Kernel n} (h : σ.pickPbs i = some p) :
    (σ.proc p).state = .runnable := by
  simp only [pickPbs, Option.bind_eq_bind, Option.bind_eq_some_iff] at h
  obtain ⟨q, hq, hp⟩ := h
  cases hp
  exact runnable_foldl_pbsBody σ _ (runnable_foldl_pbsBody σ _
    (of_find?_eq_some (P := fun p => (σ.proc p).state = .runnable) hq))

theorem core_pickMlfq (σ : Kernel n) : σ.pickMlfq.2.core = σ.core := by
  rw [pickMlfq]
  exact (core_popFirst _).trans (core_agePass σ)

theorem runnable_of_pickMlfq {σ : Kernel n} (h : σ.pickMlfq.1 = some p) :
    (σ.core.procs p).state = .runnable := by
  rw [← core_pickMlfq, core_procs]
  rw [pickMlfq] at h ⊢
  -- the scheduler tests what it has popped
  obtain ⟨-, hrun⟩ := Option.filter_eq_some_iff.mp h
  simpa only [decide_eq_true_eq] using hrun

/-- Selection does not show in the core. -/
theorem core_pick (b : Build) (i : ℕ) (σ : Kernel n) : (σ.pick b i).2.core = σ.core := by
  cases b with
  | roundRobin => rfl
  | fcfs => rfl
  | mlfq => exact core_pickMlfq σ
  | pbs => rfl

/-- Every policy selects a `RUNNABLE` process. -/
theorem runnable_of_pick {b : Build} {σ : Kernel n}
    (h : (σ.pick b i).1 = some p) : (σ.core.procs p).state = .runnable := by
  cases b with
  | roundRobin => exact runnable_of_pickRoundRobin h
  | fcfs => exact runnable_of_pickFcfs h
  | mlfq => exact runnable_of_pickMlfq h
  | pbs => exact runnable_of_pickPbs h

/-! ## Pieces of kernel code -/

theorem current_eq_some {σ : Kernel n} {c : CpuId n} : σ.current c = some p ↔ σ.core.Runs c p := by
  rw [current, guard_bind_eq_some, and_assoc]
  rfl

theorem caller_eq_some {σ : Kernel n} {c : CpuId n} : σ.caller c = some p ↔ σ.core.Calls c p := by
  rw [caller, Option.bind_eq_bind, Option.bind_eq_some_iff]
  simp only [guard_bind_eq_some, current_eq_some]
  constructor
  · rintro ⟨q, hrun, hframe, hq⟩
    cases hq
    exact ⟨hrun, hframe⟩
  · rintro ⟨hrun, hframe⟩
    exact ⟨p, hrun, hframe, rfl⟩

/-- A process in `exit` can make a system call, or `trap` has called `exit`. -/
theorem calls_of_exiting {σ : Kernel n} {c : CpuId n} (h : σ.exiting c = some p) :
    σ.core.Calls c p ∨ (σ.core.cpus c).ctl = .process ∧ (σ.core.cpus c).trap = .exit ∧
      (σ.core.cpus c).proc = some p := by
  rw [exiting] at h
  split at h
  next htrap => exact .inr ⟨htrap.1, htrap.2, h⟩
  · exact .inl (caller_eq_some.mp h)

theorem core_setupStack (p : Slot) (σ : Kernel n) : (σ.setupStack p).core = σ.core.setupStack p :=
  core_modify σ p _ rfl

theorem core_abandon (p : Slot) (σ : Kernel n) : (σ.abandon p).core = σ.core.abandon p :=
  core_modify σ p _ rfl

theorem core_setFrame (σ : Kernel n) (p : Slot) (f : Frame) :
    (σ.modify p fun q => { q with frame := f }).core = σ.core.setFrame p f :=
  core_modify σ p _ rfl

section Step

variable {b : Build} {σ σ' : Kernel n} {c : CpuId n} {e : Event}
variable {pid : ℤ} {ok user : Bool}

/-- A piece of kernel code on CPU `c`: when it can run, the state it leaves and what it did. -/
inductive Piece (b : Build) (σ : Kernel n) (c : CpuId n) : Action → Kernel n → Event → Prop
  | bootFull (hctl : (σ.cpus c).ctl = .boot) :
      Piece b σ c .bootAlloc (σ.modifyCpu c fun k => { k with ctl := .halted }) .silent
  | bootAlloc {p : Slot} {σ₁ : Kernel n} (hctl : (σ.cpus c).ctl = .boot) (hlock : σ.lock = none)
      (halloc : σ.allocproc = some (p, σ₁)) :
      Piece b σ c .bootAlloc (σ₁.modifyCpu c fun k => { k with ctl := .bootKalloc p }) (.alloc p)
  | bootKalloc {p : Slot} (hctl : (σ.cpus c).ctl = .bootKalloc p) :
      Piece b σ c (.bootKalloc true) ({ σ.setupStack p with initproc := some p }.modifyCpu c
        fun k => { k with ctl := .bootPublish p }) .silent
  | bootAbandon {p : Slot} (hctl : (σ.cpus c).ctl = .bootKalloc p) :
      Piece b σ c (.bootKalloc false)
        ((σ.abandon p).modifyCpu c fun k => { k with ctl := .halted }) .silent
  | bootPublish {p : Slot} (hctl : (σ.cpus c).ctl = .bootPublish p) (hlock : σ.lock = none) :
      Piece b σ c .bootPublish
        ((σ.ready b 0 p).modifyCpu c fun k => { k with proc := none, ctl := .idle }) .silent
  | acquire (hctl : (σ.cpus c).ctl = .idle) (htrap : (σ.cpus c).trap = .none)
      (hlock : σ.lock = none) :
      Piece b σ c .acquire
        ({ σ with lock := some c }.modifyCpu c fun k => { k with ctl := .loop, p := 0 }) .silent
  | endPass {σ₁ : Kernel n} (hctl : (σ.cpus c).ctl = .loop) (hlock : σ.lock = some c)
      (hpick : σ.pick b (σ.cpus c).p = (none, σ₁)) : Piece b σ c .select (σ₁.endPass c) .silent
  | dispatch {p : Slot} {σ₁ : Kernel n} (hctl : (σ.cpus c).ctl = .loop) (hlock : σ.lock = some c)
      (hpick : σ.pick b (σ.cpus c).p = (some p, σ₁)) :
      Piece b σ c .select (σ₁.dispatch b p c) (.dispatch p)
  | forkret {cur : Slot} (hctl : (σ.cpus c).ctl = .resumed) (hlock : σ.lock = some c)
      (hproc : (σ.cpus c).proc = some cur) (hctx : (σ.proc cur).context = .forkret) :
      Piece b σ c .resume (σ.unlock c) .silent
  | resumeYield {cur : Slot} {user : Bool} (hctl : (σ.cpus c).ctl = .resumed)
      (hlock : σ.lock = some c) (hproc : (σ.cpus c).proc = some cur)
      (hctx : (σ.proc cur).context = .yield user) :
      Piece b σ c .resume ((σ.unlock c).setTrap c (.recheck user)) .silent
  | resumeSleep {cur : Slot} {exiting : Bool} (hctl : (σ.cpus c).ctl = .resumed)
      (hlock : σ.lock = some c) (hproc : (σ.cpus c).proc = some cur)
      (hctx : (σ.proc cur).context = .sleep exiting) :
      Piece b σ c .resume (((σ.modify cur fun p => { p with chan := .null }).unlock c).setTrap c
        (if exiting then .exit else .none)) .silent
  | resumeWait {cur : Slot} {call : WaitCall} {σ' : Kernel n} {e : Event}
      (hctl : (σ.cpus c).ctl = .resumed) (hlock : σ.lock = some c)
      (hproc : (σ.cpus c).proc = some cur) (hctx : (σ.proc cur).context = .wait call)
      (hwait : (σ.modify cur fun p => { p with chan := .null }).waitLoop call c cur = (σ', e)) :
      Piece b σ c .resume σ' e
  | swtch (hctl : (σ.cpus c).ctl = .leaving) (hlock : σ.lock = some c) :
      Piece b σ c .swtch (σ.modifyCpu c fun k => { k with ctl := .switched, stack := none }) .silent
  | switched {σ' : Kernel n} {e : Event} (hstep : σ.switched b c = some (σ', e)) :
      Piece b σ c .switched σ' e
  | forkFull {cur : Slot} (hcall : σ.core.Calls c cur) : Piece b σ c .fork σ .silent
  | fork {cur np : Slot} {σ₁ : Kernel n} (hcall : σ.core.Calls c cur) (hlock : σ.lock = none)
      (halloc : σ.allocproc = some (np, σ₁)) :
      Piece b σ c .fork (σ₁.modify cur fun p => { p with frame := .kalloc np }) (.alloc np)
  | kalloc {cur np : Slot} (hrun : σ.core.Runs c cur) (hframe : (σ.proc cur).frame = .kalloc np) :
      Piece b σ c (.kalloc true)
        ((σ.setupStack np).modify cur fun p => { p with frame := .copyuvm np }) .silent
  | kallocFail {cur np : Slot} (hrun : σ.core.Runs c cur)
      (hframe : (σ.proc cur).frame = .kalloc np) :
      Piece b σ c (.kalloc false)
        ((σ.abandon np).modify cur fun p => { p with frame := .user }) .silent
  | copyuvm {cur np : Slot} (hrun : σ.core.Runs c cur)
      (hframe : (σ.proc cur).frame = .copyuvm np) :
      Piece b σ c (.copyuvm true) ((σ.modify np fun p => { p with parent := some cur }).modify cur
        fun p => { p with frame := .publish np }) .silent
  | copyuvmFail {cur np : Slot} (hrun : σ.core.Runs c cur)
      (hframe : (σ.proc cur).frame = .copyuvm np) :
      Piece b σ c (.copyuvm false)
        ((σ.abandon np).modify cur fun p => { p with frame := .user }) .silent
  | publish {cur np : Slot} (hrun : σ.core.Runs c cur)
      (hframe : (σ.proc cur).frame = .publish np) (hlock : σ.lock = none) :
      Piece b σ c .publish ((σ.ready b 0 np).modify cur fun p => { p with frame := .user }) .silent
  | exit {cur : Slot} (hcur : σ.exiting c = some cur) (hlock : σ.lock = none)
      (hinit : σ.initproc ≠ some cur) :
      Piece b σ c .exit ((σ.exitTable b cur).sched c) (.exit cur)
  | wait {cur : Slot} {call : WaitCall} {σ' : Kernel n} {e : Event} (hcall : σ.core.Calls c cur)
      (hlock : σ.lock = none) (hwait : σ.waitLoop call c cur = (σ', e)) :
      Piece b σ c (.wait call) σ' e
  | sleep {cur : Slot} {o : Obj} {exiting : Bool} (hcur : σ.exiting c = some cur)
      (hlock : σ.lock = none) :
      Piece b σ c (.sleep o) ((σ.modify cur fun p =>
        { p with chan := .obj o, state := .sleeping, context := .sleep exiting }).sched c) .silent
  | wakeup {o : Obj} (hcall : σ.canCall c ∨ (σ.cpus c).trap = .exit) (hlock : σ.lock = none) :
      Piece b σ c (.wakeup o) (σ.wakeup1 b (.obj o)) .silent
  | kill {cur : Slot} {pid : ℤ} (hcall : σ.core.Calls c cur) (hlock : σ.lock = none) :
      Piece b σ c (.kill pid) (σ.killTable b pid).1 (.kill pid (σ.killTable b pid).2)
  | setPriority {cur : Slot} {newPriority pid : ℤ} (hcall : σ.core.Calls c cur)
      (hlock : σ.lock = none) :
      Piece b σ c (.setPriority newPriority pid) (σ.setPriorityTable newPriority pid).1
        (.setPriority pid (σ.setPriorityTable newPriority pid).2)
  | tick {user : Bool} (htrap : σ.canTrap c user) (hc : c = 0) :
      Piece b σ c (.timer user)
        ({ σ with ticks := σ.ticks + 1 }.setTrap c (.ticked user)) .tick
  | timer {user : Bool} (htrap : σ.canTrap c user) (hc : c ≠ 0) :
      Piece b σ c (.timer user) (σ.setTrap c (.check true user)) .silent
  | device {user : Bool} (htrap : σ.canTrap c user) :
      Piece b σ c (.device user) (σ.setTrap c (.check false user)) .silent
  | fault {cur : Slot} (hcall : σ.core.Calls c cur) :
      Piece b σ c .fault ((σ.modify cur fun p => { p with killed := true }).setTrap c
        (.check false true)) (.fault cur)
  | changeTicks {user : Bool} (htrap : (σ.cpus c).trap = .ticked user) (hlock : σ.lock = none) :
      Piece b σ c .changeTicks ({ σ with procs := σ.procs.map (changeTicksBody b) }.setTrap c
        (.charged user)) .charge
  | wakeupTicks {user : Bool} (htrap : (σ.cpus c).trap = .charged user) (hlock : σ.lock = none) :
      Piece b σ c .wakeupTicks
        ((σ.wakeup1 b (.obj .ticks)).setTrap c (.check true user)) .silent
  | check {σ' : Kernel n} {e : Event} (hstep : σ.check b c = some (σ', e)) :
      Piece b σ c .check σ' e
  | preempt {timer user : Bool} {cur : Slot} (htrap : (σ.cpus c).trap = .preempt timer user)
      (hproc : (σ.cpus c).proc = some cur) :
      Piece b σ c .preempt (σ.setTrap c (if σ.preemptTest (σ.proc cur).priority timer then
        .yield user else .recheck user)) .silent
  | yield {user : Bool} {cur : Slot} (htrap : (σ.cpus c).trap = .yield user)
      (hproc : (σ.cpus c).proc = some cur) (hlock : σ.lock = none) :
      Piece b σ c .yield (((if b = .mlfq then
        σ.modify cur fun p => { p with curtime := 0, waittime := 0 } else σ).modify cur fun p =>
          { p with state := .runnable, context := .yield user }).sched c) .silent
  | recheck {user : Bool} {cur : Slot} (htrap : (σ.cpus c).trap = .recheck user)
      (hproc : (σ.cpus c).proc = some cur) :
      Piece b σ c .recheck
        (σ.setTrap c (if (σ.proc cur).killed && user then .exit else .none)) .silent

theorem piece_of_step {a : Action} (h : σ.step b (c, a) = some (σ', e)) : Piece b σ c a σ' e := by
  cases a with
  | bootAlloc =>
    obtain ⟨⟨hctl, hlock⟩, h⟩ := guard_bind_eq_some.mp h
    split at h
    · cases h
      exact .bootFull hctl
    next halloc =>
      cases h
      exact .bootAlloc hctl hlock halloc
  | bootKalloc ok =>
    dsimp only [step, bootKalloc] at h
    split at h
    next hctl =>
      cases ok <;> cases h
      · exact .bootAbandon hctl
      · exact .bootKalloc hctl
    · cases h
  | bootPublish =>
    dsimp only [step, bootPublish] at h
    split at h
    next hctl =>
      obtain ⟨hlock, h⟩ := guard_bind_eq_some.mp h
      cases h
      exact .bootPublish hctl hlock
    · cases h
  | acquire =>
    obtain ⟨⟨hctl, htrap, hlock⟩, h⟩ := guard_bind_eq_some.mp h
    cases h
    exact .acquire hctl htrap hlock
  | select =>
    obtain ⟨⟨hctl, hlock⟩, h⟩ := guard_bind_eq_some.mp h
    split at h
    next hpick =>
      cases h
      exact .endPass hctl hlock hpick
    next hpick =>
      cases h
      exact .dispatch hctl hlock hpick
  | resume =>
    obtain ⟨⟨hctl, hlock⟩, h⟩ := guard_bind_eq_some.mp h
    obtain ⟨cur, hproc, h⟩ := Option.bind_eq_some_iff.mp h
    split at h
    next hctx =>
      cases h
      exact .forkret hctl hlock hproc hctx
    next hctx =>
      cases h
      exact .resumeYield hctl hlock hproc hctx
    next hctx =>
      cases h
      exact .resumeSleep hctl hlock hproc hctx
    next hctx => exact .resumeWait hctl hlock hproc hctx (Option.some.inj h)
  | swtch =>
    obtain ⟨⟨hctl, hlock⟩, h⟩ := guard_bind_eq_some.mp h
    cases h
    exact .swtch hctl hlock
  | switched => exact .switched h
  | fork =>
    obtain ⟨cur, hcall, h⟩ := Option.bind_eq_some_iff.mp h
    obtain ⟨hlock, h⟩ := guard_bind_eq_some.mp h
    split at h
    · cases h
      exact .forkFull (caller_eq_some.mp hcall)
    next halloc =>
      cases h
      exact .fork (caller_eq_some.mp hcall) hlock halloc
  | kalloc ok =>
    obtain ⟨cur, hrun, h⟩ := Option.bind_eq_some_iff.mp h
    split at h
    next hframe =>
      cases ok <;> cases h
      · exact .kallocFail (current_eq_some.mp hrun) hframe
      · exact .kalloc (current_eq_some.mp hrun) hframe
    · cases h
  | copyuvm ok =>
    obtain ⟨cur, hrun, h⟩ := Option.bind_eq_some_iff.mp h
    split at h
    next hframe =>
      cases ok <;> cases h
      · exact .copyuvmFail (current_eq_some.mp hrun) hframe
      · exact .copyuvm (current_eq_some.mp hrun) hframe
    · cases h
  | publish =>
    obtain ⟨cur, hrun, h⟩ := Option.bind_eq_some_iff.mp h
    split at h
    next hframe =>
      obtain ⟨hlock, h⟩ := guard_bind_eq_some.mp h
      cases h
      exact .publish (current_eq_some.mp hrun) hframe hlock
    · cases h
  | exit =>
    obtain ⟨cur, hcur, h⟩ := Option.bind_eq_some_iff.mp h
    obtain ⟨⟨hlock, hinit⟩, h⟩ := guard_bind_eq_some.mp h
    obtain ⟨rfl, rfl⟩ := Prod.mk.inj (Option.some.inj h)
    exact .exit hcur hlock hinit
  | wait =>
    obtain ⟨cur, hcall, h⟩ := Option.bind_eq_some_iff.mp h
    obtain ⟨hlock, h⟩ := guard_bind_eq_some.mp h
    exact .wait (caller_eq_some.mp hcall) hlock (Option.some.inj h)
  | sleep =>
    obtain ⟨cur, hcur, h⟩ := Option.bind_eq_some_iff.mp h
    obtain ⟨⟨hlock, -⟩, h⟩ := guard_bind_eq_some.mp h
    cases h
    exact .sleep hcur hlock
  | wakeup =>
    obtain ⟨⟨hcall, hlock⟩, h⟩ := guard_bind_eq_some.mp h
    obtain ⟨rfl, rfl⟩ := Prod.mk.inj (Option.some.inj h)
    exact .wakeup (hcall.imp_right And.left) hlock
  | kill =>
    obtain ⟨cur, hcall, h⟩ := Option.bind_eq_some_iff.mp h
    obtain ⟨hlock, h⟩ := guard_bind_eq_some.mp h
    cases h
    exact .kill (caller_eq_some.mp hcall) hlock
  | setPriority =>
    obtain ⟨cur, hcall, h⟩ := Option.bind_eq_some_iff.mp h
    obtain ⟨hlock, h⟩ := guard_bind_eq_some.mp h
    cases h
    exact .setPriority (caller_eq_some.mp hcall) hlock
  | timer =>
    obtain ⟨htrap, h⟩ := guard_bind_eq_some.mp h
    split at h
    next hc =>
      cases h
      exact .tick htrap hc
    next hc =>
      cases h
      exact .timer htrap hc
  | device =>
    obtain ⟨htrap, h⟩ := guard_bind_eq_some.mp h
    cases h
    exact .device htrap
  | fault =>
    obtain ⟨cur, hcall, h⟩ := Option.bind_eq_some_iff.mp h
    cases h
    exact .fault (caller_eq_some.mp hcall)
  | changeTicks =>
    dsimp only [step, changeTicks] at h
    split at h
    next htrap =>
      obtain ⟨hlock, h⟩ := guard_bind_eq_some.mp h
      cases h
      exact .changeTicks htrap hlock
    · cases h
  | wakeupTicks =>
    dsimp only [step, wakeupTicks] at h
    split at h
    next htrap =>
      obtain ⟨hlock, h⟩ := guard_bind_eq_some.mp h
      obtain ⟨rfl, rfl⟩ := Prod.mk.inj (Option.some.inj h)
      exact .wakeupTicks htrap hlock
    · cases h
  | check => exact .check h
  | preempt =>
    dsimp only [step, preempt] at h
    split at h
    next htrap =>
      obtain ⟨cur, hproc, h⟩ := Option.bind_eq_some_iff.mp h
      obtain ⟨-, h⟩ := guard_bind_eq_some.mp h
      cases h
      exact .preempt htrap hproc
    · cases h
  | yield =>
    dsimp only [step, yield] at h
    split at h
    next htrap =>
      obtain ⟨cur, hproc, h⟩ := Option.bind_eq_some_iff.mp h
      obtain ⟨hlock, h⟩ := guard_bind_eq_some.mp h
      cases h
      exact .yield htrap hproc hlock
    · cases h
  | recheck =>
    dsimp only [step, recheck] at h
    split at h
    next htrap =>
      obtain ⟨cur, hproc, h⟩ := Option.bind_eq_some_iff.mp h
      cases h
      exact .recheck htrap hproc
    · cases h

theorem core_allocproc (h : σ.allocproc = some (p, σ')) :
    (σ.core.procs p).state = .unused ∧ σ'.core = σ.core.allocate p := by
  rw [allocproc, Option.bind_eq_bind, Option.bind_eq_some_iff] at h
  obtain ⟨q, hq, hσ'⟩ := h
  cases hσ'
  have hcore := core_modify σ p (f := fun q =>
    { q.toTask.allocate (int32 σ.nextpid) σ.ticks with
      qnt := Vector.replicate 5 0, waittime := 0, qn := 0, curtime := 0, flagq := false })
    (Task.allocate (int32 σ.nextpid) σ.ticks) rfl
  refine ⟨of_find?_eq_some (P := fun i => (σ.proc i).state = .unused) hq, ?_⟩
  rw [Core.allocate]
  exact congrArg (fun s : Core n => { s with nextpid := σ.nextpid + 1 }) hcore

theorem core_countRun (p : Slot) : (σ.countRun b p).core = σ.core.countRun b p := by
  cases b with
  | fcfs => rfl
  | roundRobin | mlfq | pbs => exact core_modify σ p (fun t => { t with nrun := t.nrun + 1 }) rfl

/-- A dispatch, whatever the scheduler's variable `p` is afterwards. -/
theorem core_dispatch (p : Slot) : ∃ i, (σ.dispatch b p c).core = σ.core.dispatch b p i c := by
  -- only the policies differ in what they leave in `p`, and the protocol allows any value
  refine ⟨((σ.dispatch b p c).cpus c).p, ?_⟩
  unfold dispatch Core.dispatch
  rw [core_modifyCpu, core_modify _ p (fun t => { t with state := .running }) rfl,
    core_countRun, core_ite_modify b σ p rfl]
  simp [modifyCpu]

theorem switched_core (h : σ.switched b c = some (σ', e)) :
    Core.Step b σ.core ((c, .switched), e) σ'.core := by
  obtain ⟨⟨hctl, hlock⟩, h⟩ := guard_bind_eq_some.mp h
  -- two assignments to the CPU are one
  have hloop (i : ℕ) : ((σ.core.modifyCpu c fun k => { k with proc := none }).modifyCpu c
      fun k => { k with ctl := .loop, p := i }) =
      σ.core.modifyCpu c fun k => { k with proc := none, ctl := .loop, p := i } := by
    simp [Core.modifyCpu]
  cases b with
  | roundRobin | pbs =>
    cases h
    rw [core_modifyCpu, core_modifyCpu, hloop]
    exact .switchedLoop hctl hlock
  | fcfs =>
    cases h
    exact .switchedIdle hctl hlock
  | mlfq =>
    cases h
    rw [core_endPass]
    split
    · rw [core_requeue]
      exact .switchedIdle hctl hlock
    · exact .switchedIdle hctl hlock

theorem findPid_eq_none (h : σ.findPid pid = none) (i : Slot) : (σ.core.procs i).pid ≠ pid := by
  have := List.find?_eq_none.mp h i (List.mem_finRange i)
  simpa [core_procs] using this

theorem findPid_eq_some (h : σ.findPid pid = some p) :
    (σ.core.procs p).pid = pid ∧ ∀ i < p, (σ.core.procs i).pid ≠ pid := by
  refine ⟨of_find?_eq_some (P := fun i => (σ.proc i).pid = pid) h, fun i hi => ?_⟩
  -- the entries in front of `p` in the table are those that the loop has passed
  obtain ⟨-, l₁, l₂, hl, hbefore⟩ := List.find?_eq_some_iff_append.mp h
  have hsorted : (l₁ ++ p :: l₂).Pairwise (· < ·) := hl ▸ List.pairwise_lt_finRange NPROC
  have hmem : i ∈ l₁ ++ p :: l₂ := hl ▸ List.mem_finRange i
  rcases List.mem_append.mp hmem with h₁ | h₂
  · simpa [core_procs] using hbefore i h₁
  · exfalso
    rcases List.mem_cons.mp h₂ with rfl | h₂
    · exact lt_irrefl _ hi
    · have hrest := (List.pairwise_append.mp hsorted).2.1
      exact lt_asymm hi ((List.pairwise_cons.mp hrest).1 i h₂)

/-- `kill` once it has found the entry `p`. -/
theorem core_killTable (h : σ.findPid pid = some p) :
    (σ.killTable b pid).1.core = σ.core.modify p fun t =>
      { t with killed := true, state := if t.state = .sleeping then .runnable else t.state } := by
  have hkill : (σ.modify p fun q => { q with killed := true }).core =
      σ.core.modify p fun t => { t with killed := true } :=
    core_modify σ p (fun t => { t with killed := true }) rfl
  have hstate : ((σ.modify p fun q => { q with killed := true }).proc p).state =
      (σ.core.procs p).state := by
    rw [proc_modify_self]
    rfl
  rw [killTable, h]
  dsimp only
  rw [hstate]
  split
  next hsleeping =>
    rw [core_ready, hkill, Core.ready, Core.modify_modify]
    exact Core.modify_congr (by rw [if_pos hsleeping])
  next hawake =>
    rw [hkill]
    exact Core.modify_congr (by rw [if_neg hawake])

/-! ### Interrupts -/

theorem canTrap_user (h : σ.canTrap c user) : user = true → ∃ p, σ.core.Calls c p := by
  intro huser
  obtain ⟨p, hp⟩ := Option.isSome_iff_exists.mp (h.2 huser)
  exact ⟨p, caller_eq_some.mp hp⟩

theorem toTask_changeTicksBody (p : Proc) : (changeTicksBody b p).toTask = p.toTask.charge := by
  by_cases hrunning : p.state = .running
  · rw [changeTicksBody, Task.charge, if_neg (not_not.mpr hrunning), if_pos hrunning]
    split <;> rfl
  · rw [changeTicksBody, Task.charge, if_pos hrunning, if_neg hrunning]

theorem check_core (h : σ.check b c = some (σ', e)) :
    Core.Step b σ.core ((c, .check), e) σ'.core := by
  rw [check] at h
  -- what a policy does with an interrupt: yield, ask `preempt`, or go on
  split at h
  next htrap _ =>
    cases h
    exact .trap (.idle htrap)
  next timer user p htrap hproc =>
    dsimp only at h
    split at h
    next hkilled =>
      cases h
      obtain rfl : user = true := (Bool.and_eq_true_iff.mp hkilled).2
      exact .trap (.killed htrap hproc)
    next =>
      split at h
      · cases h
        refine .trap (.decide htrap hproc ?_)
        split <;> simp
      · cases h
        exact .trap (.idle htrap)
      · cases h
        refine .trap (.decide htrap hproc ?_)
        split <;> simp
      · split at h
        · cases h
          rw [core_setTrap, core_modify_eq_self _ _ rfl]
          exact .trap (.decide htrap hproc (.inl rfl))
        · cases h
          exact .trap (.decide htrap hproc (.inr (.inr rfl)))
  · cases h

/-- A piece of kernel code is a step of the protocol. -/
theorem Piece.core {a : Action} (h : Piece b σ c a σ' e) :
    Core.Step b σ.core ((c, a), e) σ'.core := by
  cases h with
  | bootFull hctl => exact .bootFull hctl
  | bootAlloc hctl hlock halloc =>
    obtain ⟨hunused, hcore⟩ := core_allocproc halloc
    rw [core_modifyCpu, hcore]
    exact .bootAlloc hctl hlock hunused
  | bootKalloc hctl =>
    have hstep := Core.Step.bootKalloc (b := b) (s := σ.core) hctl
    rw [← core_setupStack] at hstep
    exact hstep
  | bootAbandon hctl =>
    rw [core_modifyCpu, core_abandon]
    exact .bootAbandon hctl
  | bootPublish hctl hlock =>
    rw [core_modifyCpu, core_ready]
    exact .bootPublish hctl hlock
  | acquire hctl htrap hlock => exact .acquire hctl htrap hlock
  | endPass hctl hlock hpick =>
    have hcore := core_pick b (σ.cpus c).p σ
    rw [hpick] at hcore
    rw [core_endPass, hcore]
    exact .endPass hctl hlock
  | @dispatch p σ₁ hctl hlock hpick =>
    have hcore := core_pick b (σ.cpus c).p σ
    rw [hpick] at hcore
    obtain ⟨i, hi⟩ := core_dispatch (σ := σ₁) (b := b) (c := c) p
    rw [hi, hcore]
    exact .dispatch hctl hlock (runnable_of_pick (b := b) (i := (σ.cpus c).p) (by rw [hpick]))
  | forkret hctl hlock hproc hctx => exact .resumeForkret hctl hlock hproc hctx
  | resumeYield hctl hlock hproc hctx => exact .resumeYield hctl hlock hproc hctx
  | @resumeSleep cur exiting hctl hlock hproc hctx =>
    rw [core_setTrap, core_unlock, core_modify σ cur (fun t => { t with chan := .null }) rfl]
    exact .resumeSleep hctl hlock hproc hctx
  | @resumeWait cur call _ _ hctl hlock hproc hctx hwait =>
    have hstep := core_waitLoop call (σ.modify cur fun p => { p with chan := .null }) c cur
    rw [hwait, core_modify σ cur (fun t => { t with chan := .null }) rfl] at hstep
    exact .resumeWait hctl hlock hproc hctx hstep
  | swtch hctl hlock => exact .swtch hctl hlock
  | switched hstep => exact switched_core hstep
  | forkFull hcall => exact .forkFull hcall
  | fork hcall hlock halloc =>
    obtain ⟨hunused, hcore⟩ := core_allocproc halloc
    rw [core_setFrame, hcore]
    exact .fork hcall hlock hunused
  | kalloc hrun hframe =>
    rw [core_setFrame, core_setupStack]
    exact .kalloc hrun hframe
  | kallocFail hrun hframe =>
    rw [core_setFrame, core_abandon]
    exact .kallocFail hrun hframe
  | @copyuvm cur np hrun hframe =>
    rw [core_setFrame, core_modify _ np (fun t => { t with parent := some cur }) rfl]
    exact .copyuvm hrun hframe
  | copyuvmFail hrun hframe =>
    rw [core_setFrame, core_abandon]
    exact .copyuvmFail hrun hframe
  | publish hrun hframe hlock =>
    rw [core_setFrame, core_ready]
    exact .publish hrun hframe hlock
  | exit hcur hlock hinit =>
    rw [core_sched, core_exitTable]
    exact .exit (calls_of_exiting hcur) hlock hinit
  | @wait cur call _ _ hcall hlock hwait =>
    have hstep := core_waitLoop call σ c cur
    rw [hwait] at hstep
    exact .wait hcall hlock hstep
  | @sleep cur o exiting hcur hlock =>
    rw [core_sched, core_modify σ cur
      (fun t => { t with chan := .obj o, state := .sleeping, context := .sleep exiting }) rfl]
    exact .sleep (calls_of_exiting hcur) hlock
  | wakeup hcall hlock =>
    rw [core_wakeup1]
    exact .wakeup hcall hlock
  | @kill cur pid hcall hlock =>
    cases hfind : σ.findPid pid with
    | none =>
      rw [killTable, hfind]
      exact .killMiss hcall hlock (findPid_eq_none hfind)
    | some =>
      obtain ⟨hpid, hfirst⟩ := findPid_eq_some hfind
      have hret : (σ.killTable b pid).2 = 0 := by rw [killTable, hfind]
      rw [core_killTable hfind, hret]
      exact .kill hcall hlock hpid hfirst
  | @setPriority cur newPriority pid hcall hlock =>
    rw [setPriorityTable]
    split
    next hnone => exact .setPriorityMiss hcall hlock (findPid_eq_none hnone)
    next p hp =>
      rw [core_modify σ p (fun t => { t with priority := newPriority }) rfl]
      exact .setPriority hcall hlock (findPid_eq_some hp).1
  | tick htrap hc =>
    subst hc
    exact .tick htrap.1 (canTrap_user htrap)
  | timer htrap hc => exact .trap (.timer htrap.1 (canTrap_user htrap) hc)
  | device htrap => exact .trap (.device htrap.1 (canTrap_user htrap))
  | @fault cur hcall =>
    rw [core_setTrap, core_modify σ cur (fun t => { t with killed := true }) rfl]
    exact .fault hcall
  | changeTicks htrap hlock =>
    have hcore : { σ with procs := σ.procs.map (changeTicksBody b) }.core =
        σ.core.mapProcs Task.charge := by
      simp only [Kernel.core, Core.mapProcs, proc, Fin.getElem_fin, Vector.getElem_map,
        toTask_changeTicksBody]
    rw [core_setTrap, hcore]
    exact .charge htrap hlock
  | wakeupTicks htrap hlock =>
    rw [core_setTrap, core_wakeup1]
    exact .wakeupTicks htrap hlock
  | check hstep => exact check_core hstep
  | preempt htrap hproc =>
    refine .trap (.preempt htrap hproc ?_)
    split <;> simp
  | @yield user cur htrap hproc hlock =>
    rw [core_sched, core_modify _ cur
      (fun t => { t with state := .runnable, context := .yield user }) rfl,
      core_ite_modify b σ cur rfl]
    exact .yield htrap hproc hlock
  | recheck htrap hproc =>
    split
    next hkilled =>
      obtain ⟨-, rfl⟩ := Bool.and_eq_true_iff.mp hkilled
      exact .trap (.recheckKilled htrap hproc)
    · exact .trap (.recheck htrap hproc)

/-- Every step of the kernel is a step of the protocol with the same label. -/
theorem step_core {l : Label n} (h : (kernel b n).step σ l σ') :
    (protocol b n).step σ.core l σ'.core :=
  (piece_of_step (a := l.1.2) h).core

end Step

/-- The history of a kernel run, with every state reduced to its core. -/
def coreHistory (hist : List (Kernel n × Label n)) : List (Core n × Label n) :=
  hist.map (Prod.map core id)

theorem core_initial (below : Option Slot) : (initial below : Kernel n).core = .initial := by
  simp [core, initial, Core.initial, proc]

/-- Every run of the kernel is a run of the protocol. -/
theorem run_core {b : Build} {hist : List (Kernel n × Label n)} {σ : Kernel n}
    (hrun : (kernel b n).Run hist σ) : (protocol b n).Run (coreHistory hist) σ.core := by
  refine System.Run.simulation core ?_ (fun _ _ _ _ _ h => step_core h) hrun
  rintro σ ⟨below, rfl⟩
  exact core_initial below

end Kernel

end Xv6
