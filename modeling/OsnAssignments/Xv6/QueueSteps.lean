import Mathlib
import OsnAssignments.Xv6.Push
import OsnAssignments.Xv6.ReadyQueues

/-!
# What a step does to the data of the ready queues

`Kernel.core` forgets the ready queues; this module is about what it forgets: the rings, and the
fields `qn`, `qnt`, `flagq` and `curtime` of the processes. `Kernel.Readies` is what code that makes
processes `RUNNABLE` does, and `quiet_step` shows that most steps do no more.
-/

namespace Xv6

open Loop Transition

variable {n : ℕ}

namespace Rings

/-- A call of `push` or `pop`. -/
inductive Call (r : Rings) : Rings → Prop
  | push (a : Level) (b : Slot) : Call r (r.pushed a b)
  | pop (a : Level) : Call r (r.pop a).2

/-- Calls of `push` and `pop`, one after another. -/
abbrev Calls : Rings → Rings → Prop :=
  Relation.ReflTransGen Call

end Rings

/-- What `push` leaves alone in the fields of an entry that concern its level. -/
structure Proc.SameLevel (q q' : Proc) : Prop where
  qn : q'.qn = q.qn
  qnt : q'.qnt = q.qnt
  flagq : q'.flagq = q.flagq

namespace Proc.SameLevel

variable {q q' q'' : Proc}

theorem refl (q : Proc) : q.SameLevel q :=
  ⟨rfl, rfl, rfl⟩

theorem trans (h : q.SameLevel q') (h' : q'.SameLevel q'') : q.SameLevel q'' :=
  ⟨h'.qn.trans h.qn, h'.qnt.trans h.qnt, h'.flagq.trans h.flagq⟩

end Proc.SameLevel

/-- The actions whose steps need not be quiet in the `MLFQ` build. -/
def Action.loud : Action → Bool
  | .bootAlloc | .fork | .select | .switched | .changeTicks | .check | .yield => true
  | _ => false

namespace Kernel

variable {σ σ' σ'' : Kernel n} {p : Slot} {c : CpuId n} {e : Event} {a : Level}
variable {f : Proc → Proc}

/-- A property of an entry before and after a change of one entry. -/
theorem forall_modify {R : Proc → Proc → Prop} (hrefl : ∀ q, R q q)
    (hp : R (σ.proc p) (f (σ.proc p))) (q : Slot) : R (σ.proc q) ((σ.modify p f).proc q) := by
  by_cases hq : q = p
  · subst hq
    rwa [proc_modify_self]
  · rw [proc_modify_of_ne _ _ hq]
    exact hrefl _

/-! ## Code that makes processes ready -/

theorem rings_push (a : Level) (p : Slot) (σ : Kernel n) :
    (σ.push a p).rings = σ.rings.pushed a p := by
  unfold push Rings.pushed
  cases σ.rings.push a p <;> rfl

/-- `push(a, p)` does nothing, or inserts `p` and resets two of its counters. -/
theorem push_cases (a : Level) (p : Slot) (σ : Kernel n) : σ.push a p = σ ∨
      (σ.rings.face[a] = -1 ∨ σ.rings.full a = false) ∧
        (σ.push a p).rings = σ.rings.enqueue a p ∧
        (σ.push a p).proc = (σ.modify p fun q => { q with curtime := 0, waittime := 0 }).proc := by
  unfold push
  split
  · exact .inl rfl
  next r hr =>
    obtain ⟨rfl, hroom⟩ := Rings.of_push_eq_some hr
    exact .inr ⟨hroom, rfl, rfl⟩

/-- The code from `σ` to `σ'` makes processes ready. -/
structure Readies (σ σ' : Kernel n) : Prop where
  calls : σ.rings.Calls σ'.rings
  level : ∀ p, (σ.proc p).SameLevel (σ'.proc p)
  running : ∀ p, (σ.proc p).state = .running →
    (σ'.proc p).state = .running ∧ (σ'.proc p).curtime = (σ.proc p).curtime

namespace Readies

theorem refl (σ : Kernel n) : Readies σ σ :=
  ⟨.refl, fun _ => .refl _, fun _ hp => ⟨hp, rfl⟩⟩

theorem trans (h : Readies σ σ') (h' : Readies σ' σ'') : Readies σ σ'' := by
  refine ⟨h.calls.trans h'.calls, fun p => (h.level p).trans (h'.level p), fun p hp => ?_⟩
  obtain ⟨hrun, hcur⟩ := h.running p hp
  obtain ⟨hrun', hcur'⟩ := h'.running p hrun
  exact ⟨hrun', hcur'.trans hcur⟩

/-- A change of one entry. -/
theorem modify (hlevel : (σ.proc p).SameLevel (f (σ.proc p))) (hrun : (σ.proc p).state = .running →
      (f (σ.proc p)).state = .running ∧ (f (σ.proc p)).curtime = (σ.proc p).curtime) :
    Readies σ (σ.modify p f) :=
  ⟨.refl, forall_modify Proc.SameLevel.refl hlevel,
    forall_modify (R := fun q q' => q.state = .running →
      q'.state = .running ∧ q'.curtime = q.curtime) (fun _ hq => ⟨hq, rfl⟩) hrun⟩

theorem push (hp : (σ.proc p).state ≠ .running) : Readies σ (σ.push a p) := by
  have hcalls : σ.rings.Calls (σ.push a p).rings := by
    rw [rings_push]
    exact .single (.push a p)
  rcases push_cases a p σ with hsame | ⟨-, -, hproc⟩
  · rw [hsame]
    exact .refl σ
  · have hreset : Readies σ (σ.modify p fun q => { q with curtime := 0, waittime := 0 }) :=
      .modify ⟨rfl, rfl, rfl⟩ fun hrun => absurd hrun hp
    exact ⟨hcalls, fun q => by rw [hproc]; exact hreset.level q,
      fun q => by rw [hproc]; exact hreset.running q⟩

theorem ready (hp : (σ.proc p).state ≠ .running) : Readies σ (σ.ready .mlfq a p) := by
  rw [Kernel.ready, if_pos rfl]
  have hready : Readies σ (σ.modify p fun q => { q with state := .runnable }) :=
    .modify ⟨rfl, rfl, rfl⟩ fun hrun => absurd hrun hp
  refine hready.trans (.push ?_)
  rw [proc_modify_self]
  simp

theorem wakeup1Body (chan : Chan) (σ : Kernel n) (p : Slot) :
    Readies σ (σ.wakeup1Body .mlfq chan p) := by
  unfold Kernel.wakeup1Body
  split
  next hsleep =>
    have hne : (σ.proc p).state ≠ .running := by simp [hsleep.1]
    have hreset : Readies σ (σ.modify p fun q => { q with curtime := 0 }) :=
      .modify ⟨rfl, rfl, rfl⟩ fun hrun => absurd hrun hne
    dsimp only
    rw [if_pos rfl]
    refine hreset.trans (.ready ?_)
    rw [proc_modify_self]
    exact hne
  · exact .refl σ

/-- A loop over the table. -/
theorem foldl {f : Kernel n → Slot → Kernel n} (hf : ∀ σ p, Readies σ (f σ p)) (l : List Slot)
    (σ : Kernel n) : Readies σ (l.foldl f σ) := by
  induction l generalizing σ with
  | nil => exact .refl σ
  | cons p l ih => exact (hf σ p).trans (ih (f σ p))

theorem wakeup1 (chan : Chan) (σ : Kernel n) : Readies σ (σ.wakeup1 .mlfq chan) :=
  foldl (wakeup1Body chan) _ σ

theorem exitBody (cur : Slot) (σ : Kernel n) (p : Slot) : Readies σ (σ.exitBody .mlfq cur p) := by
  unfold Kernel.exitBody
  split
  · have hmoved : Readies σ (σ.modify p fun q => { q with parent := σ.initproc }) :=
      .modify ⟨rfl, rfl, rfl⟩ fun hrun => ⟨hrun, rfl⟩
    dsimp only
    split
    · exact hmoved.trans (wakeup1 _ _)
    · exact hmoved
  · exact .refl σ

end Readies

/-! ## Quiet steps -/

/-- The code from `σ` to `σ'` calls `push` and `pop` only, changes no level, and no `curtime` of a
process that was `RUNNING`. -/
structure Quiet (σ σ' : Kernel n) : Prop where
  calls : σ.rings.Calls σ'.rings
  level : ∀ p, (σ.proc p).SameLevel (σ'.proc p)
  curtime : ∀ p, (σ.proc p).state = .running → (σ'.proc p).curtime = (σ.proc p).curtime

theorem Readies.quiet (h : Readies σ σ') : Quiet σ σ' :=
  ⟨h.calls, h.level, fun p hp => (h.running p hp).2⟩

namespace Quiet

theorem refl (σ : Kernel n) : Quiet σ σ :=
  (Readies.refl σ).quiet

section

variable (h : Quiet σ σ')
include h

/-- A change of the fields of an entry that do not concern the ready queues. -/
theorem modify (hlevel : (σ'.proc p).SameLevel (f (σ'.proc p)))
    (hcur : (f (σ'.proc p)).curtime = (σ'.proc p).curtime) : Quiet σ (σ'.modify p f) := by
  refine ⟨h.calls, fun q => (h.level q).trans (forall_modify Proc.SameLevel.refl hlevel q), ?_⟩
  intro q hq
  exact (forall_modify (R := fun q q' => q'.curtime = q.curtime) (fun _ => rfl) hcur q).trans
    (h.curtime q hq)

/-- A change of the rest of the kernel state. -/
theorem congr (hrings : σ''.rings = σ'.rings) (hproc : σ''.proc = σ'.proc) : Quiet σ σ'' := by
  refine ⟨?_, ?_, ?_⟩
  · rw [hrings]
    exact h.calls
  · rw [hproc]
    exact h.level
  · rw [hproc]
    exact h.curtime

theorem modifyCpu (c : CpuId n) (f : Cpu → Cpu) : Quiet σ (σ'.modifyCpu c f) :=
  h.congr rfl rfl

theorem unlock (c : CpuId n) : Quiet σ (σ'.unlock c) :=
  h.congr rfl rfl

theorem sched (c : CpuId n) : Quiet σ (σ'.sched c) :=
  h.congr rfl rfl

theorem setFrame (p : Slot) (frame : Frame) :
    Quiet σ (σ'.modify p fun q => { q with frame := frame }) :=
  h.modify ⟨rfl, rfl, rfl⟩ rfl

theorem waitLoop (call : WaitCall) (c : CpuId n) (cur : Slot) :
    Quiet σ (σ'.waitLoop call c cur).1 := by
  unfold Kernel.waitLoop
  split
  · exact unlock (h.modify ⟨rfl, rfl, rfl⟩ rfl) c
  · dsimp only
    split
    · exact h.unlock c
    · exact sched (h.modify ⟨rfl, rfl, rfl⟩ rfl) c

end

/-- `exit`: the process becomes a zombie. -/
theorem exited (h : Readies σ σ') (cur : Slot) :
    Quiet σ (σ'.modify cur fun q => { q with etime := σ'.ticks, state := .zombie }) :=
  h.quiet.modify ⟨rfl, rfl, rfl⟩ rfl

theorem exitTable (cur : Slot) (σ : Kernel n) : Quiet σ (σ.exitTable .mlfq cur) := by
  have hwoken := Readies.wakeup1 (.ofProc (σ.proc cur).parent) σ
  exact exited (hwoken.trans (.foldl (.exitBody cur) (List.finRange NPROC) _)) cur

theorem killTable (pid : ℤ) (σ : Kernel n) : Quiet σ (σ.killTable .mlfq pid).1 := by
  unfold Kernel.killTable
  split
  · exact refl σ
  next p hp =>
    have hmarked : Readies σ (σ.modify p fun q => { q with killed := true }) :=
      .modify ⟨rfl, rfl, rfl⟩ fun hrun => ⟨hrun, rfl⟩
    dsimp only
    split
    next hsleep => exact (hmarked.trans (.ready (by rw [hsleep]; simp))).quiet
    · exact hmarked.quiet

theorem setPriorityTable (newPriority pid : ℤ) (σ : Kernel n) :
    Quiet σ (σ.setPriorityTable newPriority pid).1 := by
  unfold Kernel.setPriorityTable
  split
  · exact refl σ
  · dsimp only
    exact modify (refl σ) ⟨rfl, rfl, rfl⟩ rfl

/-- The steps that are quiet. -/
theorem step {a : Action} (hinv : σ.core.Inv) (ha : a.loud = false)
    (hstep : σ.step .mlfq (c, a) = some (σ', e)) : Quiet σ σ' := by
  have hmodify {p : Slot} {f : Proc → Proc} (hlevel : (σ.proc p).SameLevel (f (σ.proc p)))
      (hcur : (f (σ.proc p)).curtime = (σ.proc p).curtime) : Quiet σ (σ.modify p f) :=
    (refl σ).modify hlevel hcur
  cases piece_of_step hstep with
  | bootFull | bootAlloc | endPass | dispatch | switched | forkFull | fork | changeTicks | check
  | yield => cases ha
  | acquire | forkret | resumeYield | swtch | tick | timer | device | preempt | recheck =>
    exact (refl σ).congr rfl rfl
  | @bootKalloc p =>
    have hstack : Quiet σ (σ.setupStack p) := hmodify ⟨rfl, rfl, rfl⟩ rfl
    exact hstack.congr rfl rfl
  | bootAbandon | fault => exact modifyCpu (hmodify ⟨rfl, rfl, rfl⟩ rfl) c _
  | @bootPublish p hctl =>
    have hp : (σ.proc p).state = .embryo := hinv.embryo_boot hctl rfl
    exact (Readies.ready (a := 0) (p := p) (by simp [hp])).quiet.congr rfl rfl
  | resumeSleep => exact (unlock (hmodify ⟨rfl, rfl, rfl⟩ rfl) c).modifyCpu c _
  | @resumeWait cur call _ _ _ _ _ _ hwait =>
    have hquiet := (hmodify (p := cur) (f := fun q => { q with chan := .null })
      ⟨rfl, rfl, rfl⟩ rfl).waitLoop call c cur
    rw [hwait] at hquiet
    exact hquiet
  | kalloc | kallocFail | copyuvm | copyuvmFail => exact setFrame (hmodify ⟨rfl, rfl, rfl⟩ rfl) _ _
  | @publish cur np hrun hframe =>
    have hnp : (σ.proc np).state = .embryo := hinv.embryo_child hframe rfl
    exact (Readies.ready (a := 0) (p := np) (by simp [hnp])).quiet.setFrame cur .user
  | @exit cur => exact (exitTable cur σ).sched c
  | @wait cur call _ _ _ _ hwait =>
    have hquiet := (refl σ).waitLoop call c cur
    rw [hwait] at hquiet
    exact hquiet
  | sleep => exact sched (hmodify ⟨rfl, rfl, rfl⟩ rfl) c
  | @wakeup o => exact (Readies.wakeup1 (.obj o) σ).quiet
  | @kill _ pid => exact killTable pid σ
  | @setPriority _ newPriority pid => exact setPriorityTable newPriority pid σ
  | wakeupTicks => exact (Readies.wakeup1 (.obj .ticks) σ).quiet.modifyCpu c _

end Quiet

/-! ## The other steps -/

/-- `allocproc` takes the entry `p`; the ready queues do not notice. -/
structure Allocates (p : Slot) (σ σ' : Kernel n) : Prop where
  rings : σ'.rings = σ.rings
  unused : (σ.proc p).state = .unused
  fresh : (σ'.proc p).qn = 0 ∧ (σ'.proc p).qnt = Vector.replicate 5 0 ∧
    (σ'.proc p).flagq = false ∧ (σ'.proc p).curtime = 0
  level : ∀ q, q ≠ p → (σ.proc q).SameLevel (σ'.proc q)
  curtime : ∀ q, q ≠ p → (σ'.proc q).curtime = (σ.proc q).curtime

theorem allocates {σ₁ : Kernel n} (h : σ.allocproc = some (p, σ₁)) : Allocates p σ σ₁ := by
  have hunused : (σ.proc p).state = .unused := (core_allocproc h).1
  obtain ⟨q, -, h⟩ := Option.bind_eq_some_iff.mp h
  cases h
  have hset : Allocates p σ (σ.modify p fun q =>
      { q.toTask.allocate (int32 σ.nextpid) σ.ticks with
        qnt := Vector.replicate 5 0, waittime := 0, qn := 0, curtime := 0, flagq := false }) := by
    refine ⟨rfl, hunused, ?_, fun q hq => ?_, fun q hq => ?_⟩
    · rw [proc_modify_self]
      exact ⟨rfl, rfl, rfl, rfl⟩
    · rw [proc_modify_of_ne _ _ hq]
      exact .refl _
    · rw [proc_modify_of_ne _ _ hq]
  exact ⟨hset.rings, hset.unused, hset.fresh, hset.level, hset.curtime⟩

theorem Allocates.setFrame (h : Allocates p σ σ') (cur : Slot) (frame : Frame) :
    Allocates p σ (σ'.modify cur fun q => { q with frame := frame }) := by
  have hlevel := forall_modify (σ := σ') (p := cur) (f := fun q => { q with frame := frame })
    Proc.SameLevel.refl ⟨rfl, rfl, rfl⟩
  have hcur := forall_modify (σ := σ') (p := cur) (f := fun q => { q with frame := frame })
    (R := fun q q' => q'.curtime = q.curtime) (fun _ => rfl) rfl
  refine ⟨h.rings, h.unused, ?_, fun q hq => (h.level q hq).trans (hlevel q),
    fun q hq => (hcur q).trans (h.curtime q hq)⟩
  rw [(hlevel p).qn, (hlevel p).qnt, (hlevel p).flagq, hcur p]
  exact h.fresh

theorem bootAlloc_cases (hstep : σ.bootAlloc c = some (σ', e)) :
    Quiet σ σ' ∧ e = .silent ∨ ∃ p, e = .alloc p ∧ Allocates p σ σ' := by
  cases piece_of_step (b := .mlfq) (a := .bootAlloc) hstep with
  | bootFull => exact .inl ⟨(Quiet.refl σ).congr rfl rfl, rfl⟩
  | bootAlloc _ _ halloc =>
    obtain ⟨hrings, hunused, hfresh, hlevel, hcur⟩ := allocates halloc
    exact .inr ⟨_, rfl, hrings, hunused, hfresh, hlevel, hcur⟩

theorem fork_cases (hstep : σ.fork c = some (σ', e)) :
    Quiet σ σ' ∧ e = .silent ∨ ∃ p, e = .alloc p ∧ Allocates p σ σ' := by
  cases piece_of_step (b := .mlfq) (a := .fork) hstep with
  | forkFull => exact .inl ⟨.refl σ, rfl⟩
  | fork _ _ halloc => exact .inr ⟨_, rfl, (allocates halloc).setFrame _ _⟩

/-- `change_ticks` charges a tick. -/
theorem changeTicks_eq (hstep : σ.changeTicks .mlfq c = some (σ', e)) :
    ∃ user, (σ.cpus c).trap = .ticked user ∧ e = .charge ∧
      (∀ q, σ'.proc q = changeTicksBody .mlfq (σ.proc q)) ∧ σ'.rings = σ.rings ∧
      σ'.cpus = (σ.setTrap c (.charged user)).cpus := by
  cases piece_of_step (a := .changeTicks) hstep with
  | changeTicks htrap =>
    refine ⟨_, htrap, rfl, fun q => ?_, rfl, rfl⟩
    simp [proc, setTrap, modifyCpu]

/-- `yield` gives up the CPU. -/
theorem yield_eq (hstep : σ.yield .mlfq c = some (σ', e)) :
    ∃ user cur, (σ.cpus c).trap = .yield user ∧ (σ.cpus c).proc = some cur ∧ e = .silent ∧
      σ' = ((σ.modify cur fun p => { p with curtime := 0, waittime := 0 }).modify cur fun p =>
        { p with state := .runnable, context := .yield user }).sched c := by
  cases piece_of_step (a := .yield) hstep with
  | yield htrap hproc => exact ⟨_, _, htrap, hproc, rfl, rfl⟩

/-- `trap` decides whether the process that runs has used up its slice. -/
theorem check_cases (hstep : σ.check .mlfq c = some (σ', e)) :
    ∃ timer user, (σ.cpus c).trap = .check timer user ∧ e = .silent ∧
      ((σ.cpus c).proc = none ∧ σ' = σ.setTrap c .none ∨
      ∃ p, (σ.cpus c).proc = some p ∧
        (((σ.proc p).killed = true ∧ user = true ∧ σ' = σ.setTrap c .exit) ∨
        (((σ.proc p).killed = true → user = false) ∧ (σ.proc p).state = .running ∧ timer = true ∧
          slices[level (σ.proc p).qn] ≤ (σ.proc p).curtime ∧
          σ' = (σ.modify p fun q => { q with flagq := true }).setTrap c (.yield user)) ∨
        (((σ.proc p).killed = true → user = false) ∧
          ((σ.proc p).state = .running → timer = true →
            (σ.proc p).curtime < slices[level (σ.proc p).qn]) ∧
          σ' = σ.setTrap c (.recheck user)))) := by
  rw [check] at hstep
  split at hstep
  next timer user htrap hproc =>
    cases hstep
    exact ⟨timer, user, htrap, rfl, .inl ⟨hproc, rfl⟩⟩
  next timer user p htrap hproc =>
    dsimp only at hstep
    split_ifs at hstep with hkilled hslice
    · cases hstep
      rw [Bool.and_eq_true] at hkilled
      exact ⟨timer, user, htrap, rfl, .inr ⟨p, hproc, .inl ⟨hkilled.1, hkilled.2, rfl⟩⟩⟩
    · cases hstep
      simp only [Bool.and_eq_true, decide_eq_true_eq] at hkilled hslice
      refine ⟨timer, user, htrap, rfl, .inr ⟨p, hproc,
        .inr (.inl ⟨fun hk => ?_, hslice.1.1, hslice.1.2, hslice.2, rfl⟩)⟩⟩
      exact Bool.eq_false_iff.mpr fun hu => hkilled ⟨hk, hu⟩
    · cases hstep
      simp only [Bool.and_eq_true, decide_eq_true_eq] at hkilled hslice
      refine ⟨timer, user, htrap, rfl,
        .inr ⟨p, hproc, .inr (.inr ⟨fun hk => ?_, fun hrun ht => ?_, rfl⟩)⟩⟩
      · exact Bool.eq_false_iff.mpr fun hu => hkilled ⟨hk, hu⟩
      · exact not_le.mp fun hle => hslice ⟨⟨hrun, ht⟩, hle⟩
  · cases hstep

end Kernel

end Xv6
