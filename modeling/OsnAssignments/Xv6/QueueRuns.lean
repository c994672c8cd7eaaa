import OsnAssignments.Xv6.QueueSteps

/-!
# The ready queues along a run

Every step of the MLFQ kernel keeps the invariant of `Xv6.ReadyQueues`, so that the rings are sound
in every run (`queues_sound`). They are complete (`queues_complete`) provided that no `push` meets
the process it inserts in the word before an empty ring: its search treats an empty ring `i` as the
one entry `queue[i][-1]`, which is `queue[i-1][63]`.
-/

namespace Xv6

open Loop Transition

variable {n : ℕ}

namespace Kernel

variable {σ σ' : Kernel n} {lossless : Prop} {p : Slot} {c : CpuId n} {e : Event}

namespace Queues

variable (h : Queues lossless none σ)
include h

/-- A CPU that keeps its process moves on. -/
theorem modifyCpuStill (f : Cpu → Cpu) (lock : Option (CpuId n))
    (hproc : (f (σ.cpus c)).proc = (σ.cpus c).proc)
    (hcursor : (f (σ.cpus c)).p = (σ.cpus c).p ∨ (σ.cpus c).proc = none) :
    Queues lossless none ({ σ with lock := lock }.modifyCpu c f) := by
  refine h.of_still ⟨rfl, fun _ => .refl _, fun d => ?_, fun d q hq => ?_⟩ <;>
    by_cases hd : d = c
  · subst hd
    rw [cpus_modifyCpu_self]
    exact hproc
  · rw [cpus_modifyCpu_of_ne hd]
  · subst hd
    rw [cpus_modifyCpu_self]
    refine hcursor.resolve_right fun hnone => ?_
    cases hnone.symm.trans hq
  · rw [cpus_modifyCpu_of_ne hd]

section

variable (c : CpuId n)

theorem sched : Queues lossless none (σ.sched c) :=
  h.modifyCpuStill (fun k => { k with ctl := .leaving, trap := .none }) (some c) rfl (.inl rfl)

theorem unlock : Queues lossless none (σ.unlock c) :=
  h.modifyCpuStill (fun k => { k with ctl := .process }) none rfl (.inl rfl)

theorem endPass : Queues lossless none (σ.endPass c) :=
  h.modifyCpuStill (fun k => { k with ctl := .idle }) none rfl (.inl rfl)

theorem setTrap (t : Trap) : Queues lossless none (σ.setTrap c t) :=
  h.modifyCpuStill (fun k => { k with trap := t }) σ.lock rfl (.inl rfl)

theorem setCtl (ctl : Ctl) : Queues lossless none (σ.modifyCpu c fun k => { k with ctl := ctl }) :=
  h.modifyCpuStill (fun k => { k with ctl := ctl }) σ.lock rfl (.inl rfl)

end

/-! ## Steps that leave the ready queues alone -/

theorem allocproc {σ₁ : Kernel n}
    (halloc : σ.allocproc = some (p, σ₁)) : Queues lossless none σ₁ := by
  have hunused := (core_allocproc halloc).1
  rw [Kernel.allocproc, Option.bind_eq_bind, Option.bind_eq_some_iff] at halloc
  obtain ⟨q, -, hσ₁⟩ := halloc
  cases hσ₁
  refine Queues.of_still (h.modifyStill (p := p) (f := fun q =>
    { q.toTask.allocate (int32 σ.nextpid) σ.ticks with
      qnt := Vector.replicate 5 0, waittime := 0, qn := 0, curtime := 0, flagq := false }) ?_)
    ⟨rfl, fun _ => .refl _, fun _ => rfl, fun _ _ _ => rfl⟩
  have hstate : (σ.proc p).state = .unused := hunused
  exact ⟨.inr ⟨by simp [hstate], rfl⟩, by simp [Task.allocate, hstate], fun _ => .inr rfl⟩

/-- A change of an entry that keeps its level and its state. -/
theorem modifyState {f : Proc → Proc}
    (hqn : (f (σ.proc p)).qn = (σ.proc p).qn) (hstate : (f (σ.proc p)).state = (σ.proc p).state) :
    Queues lossless none (σ.modify p f) :=
  h.modifyStill (.of_state hqn hstate)

theorem abandon (hp : (σ.proc p).state = .embryo) : Queues lossless none (σ.abandon p) :=
  h.modifyStill ⟨.inl rfl, iff_of_false nofun (by simp [hp]), nofun⟩

theorem setupStack (p : Slot) : Queues lossless none (σ.setupStack p) :=
  h.modifyState rfl rfl

theorem setFrame (p : Slot) (frame : Frame) :
    Queues lossless none (σ.modify p fun q => { q with frame := frame }) :=
  h.modifyState rfl rfl

/-- One pass of the loop of `wait` or `waitx` by a process that runs. -/
theorem waitLoop {cur : Slot} (call : WaitCall) (c : CpuId n)
    (hrun : (σ.proc cur).state = .running) : Queues lossless none (σ.waitLoop call c cur).1 := by
  unfold Kernel.waitLoop
  split
  next i hi =>
    -- neither a zombie nor a process that runs is in a ring, before or after
    have hzombie : (σ.proc i).state = .zombie := (of_find?_eq_some hi).2
    refine (h.modifyStill (p := i)
      (f := fun p => { p with toTask := p.toTask.reap call σ.ticks }) ?_).unlock c
    exact ⟨.inl rfl, by simp [Task.reap, hzombie], by simp [Task.reap]⟩
  · dsimp only
    split
    · exact h.unlock c
    · refine (h.modifyStill (p := cur) (f := fun p =>
        { p with chan := .proc cur, state := .sleeping, context := .wait call }) ?_).sched c
      exact ⟨.inl rfl, by simp [hrun], by simp⟩

end Queues

/-! ## Steps of the kernel -/

/-- No `push` in this step of the MLFQ kernel finds a stale pointer. -/
def PushesClear (σ : Kernel n) (a : CpuId n × Action) : Prop :=
  match a.2 with
  | .bootPublish => ∀ p, (σ.cpus a.1).ctl = .bootPublish p → σ.rings.PushClear 0 p
  | .publish => ∀ cur np, σ.current a.1 = some cur → (σ.proc cur).frame = .publish np →
      σ.rings.PushClear 0 np
  | .exit => ∀ cur, σ.exiting a.1 = some cur → σ.exitClear cur
  | .wakeup o => σ.wakeup1Clear (.obj o)
  | .wakeupTicks => σ.wakeup1Clear (.obj .ticks)
  | .kill pid => ∀ p, σ.findPid pid = some p → (σ.proc p).state = .sleeping →
      σ.rings.PushClear (level (σ.proc p).qn) p
  | .select => σ.agePassClear
  | .switched => ∀ p, (σ.cpus a.1).proc = some p → σ.requeueClear p
  | _ => True

instance (σ : Kernel n) (a : CpuId n × Action) : Decidable (σ.PushesClear a) := by
  unfold PushesClear
  split <;> infer_instance

theorem pickMlfq_eq (σ : Kernel n) : σ.pickMlfq = (σ.agePass.popFirst.1.filter
      fun p => (σ.agePass.popFirst.2.proc p).state = .runnable, σ.agePass.popFirst.2) := by
  unfold pickMlfq
  generalize σ.agePass.popFirst = popped
  rfl

/-- While `ptable.lock` is free, no CPU is giving up its process. -/
theorem Queues.rest (h : Queues lossless none σ) (hinv : σ.core.Inv) (hlock : σ.lock = none) :
    Rest lossless σ :=
  ⟨h, fun c _ hp => (hinv.control.state_of_unlocked hp (hinv.control.unlocked hlock c)).1⟩

namespace Queues

section

variable (h : Queues lossless none σ)
include h

/-- An entry in the making becomes ready, in the ring of level `0`. -/
theorem readyEmbryo (hinv : σ.core.Inv)
    (hp : (σ.proc p).state = .embryo) (hclear : lossless → σ.rings.PushClear 0 p) :
    Queues lossless none (σ.ready .mlfq 0 p) := by
  have hhold := h.hold (h.not_mem_of_state (p := p) (by simp [hp]))
  have hcpu := hinv.control.proc_ne_of_absent (p := p) (.inr hp)
  exact hhold.ready (h.fresh p hp nofun) hcpu hclear

theorem bootPublish (hinv : σ.core.Inv)
    (hctl : (σ.cpus c).ctl = .bootPublish p) (hclear : lossless → σ.rings.PushClear 0 p) :
    Queues lossless none
      ((σ.ready .mlfq 0 p).modifyCpu c fun k => { k with proc := none, ctl := .idle }) := by
  have hready := h.readyEmbryo hinv (hinv.embryo_boot hctl rfl) hclear
  -- the boot CPU has no process yet, so that `c->proc = 0` changes nothing
  have hcpu : ((σ.ready .mlfq 0 p).cpus c).proc = none := by
    have hcpus : (σ.ready .mlfq 0 p).core.cpus = σ.core.cpus := by
      rw [core_ready]
      rfl
    rw [← core_cpus, hcpus]
    exact ((hinv.control.fits c).off (by rw [core_cpus, hctl]; rfl)).1
  exact hready.modifyCpuStill (fun k => { k with proc := none, ctl := .idle })
    (σ.ready .mlfq 0 p).lock hcpu.symm (.inl rfl)

theorem killTable {pid : ℤ} (hinv : σ.core.Inv) (hlock : σ.lock = none)
    (hclear : lossless → σ.PushesClear (c, .kill pid)) :
    Queues lossless none (σ.killTable .mlfq pid).1 := by
  unfold Kernel.killTable
  split
  · exact h
  next p hp =>
    -- `killed` first, then the wakeup of a process that sleeps
    have hmarked : Rest lossless (σ.modify p fun q => { q with killed := true }) :=
      (h.rest hinv hlock).modify rfl rfl
    dsimp only
    split
    next hsleep =>
      have hhold := hmarked.1.hold (hmarked.1.not_mem_of_state (p := p) (by rw [hsleep]; simp))
      have hcpu (d : CpuId n) : (σ.cpus d).proc ≠ some p := by
        intro hd
        cases (hmarked.2 d p hd).symm.trans hsleep
      refine hhold.ready ?_ hcpu fun hl => ?_
      · rw [level_eq (hhold.qn p)]
      · rw [proc_modify_self] at hsleep ⊢
        exact hclear hl p hp hsleep
    · exact hmarked.1

end

theorem setPriorityTable (newPriority pid : ℤ) (h : Queues lossless none σ) :
    Queues lossless none (σ.setPriorityTable newPriority pid).1 := by
  unfold Kernel.setPriorityTable
  split
  · exact h
  · dsimp only
    exact h.modifyState rfl rfl

/-- The process becomes `RUNNABLE` while its CPU still has it: it is the scheduler that puts it into
a ring, after the switch. -/
theorem yield {cur : Slot} (user : Bool) (h : Queues lossless none σ)
    (hproc : (σ.cpus c).proc = some cur) :
    Queues lossless none (((σ.modify cur fun p => { p with curtime := 0, waittime := 0 }).modify cur
      fun p => { p with state := .runnable, context := .yield user }).sched c) := by
  have hhold := h.hold (h.not_mem_of_cpu hproc)
  have hreset := hhold.modify (f := fun p => { p with curtime := 0, waittime := 0 }) (h.qn cur)
  have hready := hreset.modify
    (f := fun p => { p with state := .runnable, context := .yield user }) (hreset.qn cur)
  refine (hready.release ?_ fun _ => .inr ⟨c, hproc⟩).sched c
  rw [proc_modify_self]
  simp

section

variable (h : Queues lossless none σ)
include h

/-- The test for `RUNNABLE` after the `pop` never fails, so that what is popped is dispatched. -/
theorem pick (hclear : lossless → σ.agePassClear) (i : ℕ) :
    (σ.pick .mlfq i).1 = none ∧ Queues lossless none (σ.pick .mlfq i).2 ∨
      ∃ p, (σ.pick .mlfq i).1 = some p ∧ Queues lossless (some p) (σ.pick .mlfq i).2 := by
  rw [Kernel.pick, pickMlfq_eq]
  rcases (h.agePass hclear).popFirst with ⟨hnone, hqueues⟩ | ⟨p, hp, hrun, hqueues⟩
  · exact .inl ⟨by rw [hnone]; rfl, hqueues⟩
  · refine .inr ⟨p, ?_, hqueues⟩
    rw [hp, Option.filter_some, if_pos (decide_eq_true hrun)]

theorem switched (hinv : σ.core.Inv) (hclear : lossless → σ.PushesClear (c, .switched))
    (hstep : σ.switched .mlfq c = some (σ', e)) : Queues lossless none σ' := by
  obtain ⟨⟨hctl, -⟩, hstep⟩ := guard_bind_eq_some.mp hstep
  cases hstep
  have hfits := hinv.control.fits c
  unfold Cpu.Fits at hfits
  rw [core_cpus, hctl] at hfits
  obtain ⟨p, hp, -, hparked⟩ := hfits
  have hcursor := h.cursor c p hp
  -- the scheduler's variable `p` is the process that has just given up the CPU
  have hslot : (σ.cpus c).p < NPROC := by
    rw [hcursor]
    exact p.isLt
  have hself : (⟨(σ.cpus c).p, hslot⟩ : Slot) = p := Fin.ext hcursor
  rw [dif_pos hslot, hself]
  -- between `c->proc = 0` and the `push` the process is in the hand of the scheduler
  have hleft : Queues lossless (some p) (σ.modifyCpu c fun k => { k with proc := none }) :=
    (h.hold (h.not_mem_of_cpu hp)).modifyCpu
      (fun q hq => Option.mem_unique hq hp) fun q hq => by cases hq
  refine (hleft.requeue ?_ (fun d hd => ?_) fun hl => hclear hl p hp).endPass c
  · intro hembryo
    rw [show (σ.core.procs p).state = .embryo from hembryo] at hparked
    cases hparked
  · by_cases hdc : d = c
    · subst hdc
      rw [cpus_modifyCpu_self] at hd
      cases hd
    · rw [cpus_modifyCpu_of_ne hdc] at hd
      exact hdc (hinv.control.injective d c p hd hp)

theorem changeTicks :
    Queues lossless none { σ with procs := σ.procs.map (changeTicksBody .mlfq) } := by
  have hproc (p : Slot) : ({ σ with procs := σ.procs.map (changeTicksBody .mlfq) }.proc p) =
      changeTicksBody .mlfq (σ.proc p) := by
    simp [proc]
  refine h.of_still ⟨rfl, fun p => ?_, fun _ => rfl, fun _ _ _ => rfl⟩
  rw [hproc]
  refine .of_state ?_ ?_ <;>
  · unfold changeTicksBody
    split_ifs <;> rfl

theorem check (hstep : σ.check .mlfq c = some (σ', e)) : Queues lossless none σ' := by
  obtain ⟨timer, user, -, -, ⟨-, rfl⟩ | ⟨p, -, ⟨-, -, rfl⟩ | ⟨-, -, -, -, rfl⟩ | ⟨-, -, rfl⟩⟩⟩ :=
    check_cases hstep
  · exact h.setTrap c _
  · exact h.setTrap c _
  · exact setTrap (h.modifyState rfl rfl) c _
  · exact h.setTrap c _

/-- Every step of the MLFQ kernel keeps the invariant of the ready queues. -/
theorem step {a : Action} (hinv : σ.core.Inv)
    (hclear : lossless → σ.PushesClear (c, a)) (hstep : σ.step .mlfq (c, a) = some (σ', e)) :
    Queues lossless none σ' := by
  have hrunning {cur : Slot} (hcall : σ.core.Calls c cur) : (σ.proc cur).state = .running :=
    (hinv.control.of_runs hcall.1.1 hcall.1.2.2).2
  cases piece_of_step hstep with
  | bootFull => exact h.setCtl c .halted
  | bootAlloc _ _ halloc => exact (h.allocproc halloc).setCtl c _
  | @bootKalloc p =>
    have hinit : Queues lossless none { σ.setupStack p with initproc := some p } :=
      (h.setupStack p).of_still ⟨rfl, fun _ => .refl _, fun _ => rfl, fun _ _ _ => rfl⟩
    exact hinit.setCtl c _
  | bootAbandon hctl => exact (h.abandon (hinv.embryo_boot hctl rfl)).setCtl c .halted
  | bootPublish hctl => exact h.bootPublish hinv hctl fun hl => hclear hl _ hctl
  | acquire hctl =>
    have hproc : (σ.cpus c).proc = none :=
      ((hinv.control.fits c).off (by rw [core_cpus, hctl]; rfl)).1
    exact h.modifyCpuStill (fun k => { k with ctl := .loop, p := 0 }) (some c) rfl (.inr hproc)
  | endPass _ _ hpick =>
    rcases h.pick hclear (σ.cpus c).p with ⟨-, hqueues⟩ | ⟨p, hp, -⟩
    · rw [hpick] at hqueues
      exact hqueues.endPass c
    · rw [hpick] at hp
      cases hp
  | dispatch hctl _ hpick =>
    rcases h.pick hclear (σ.cpus c).p with ⟨hnone, -⟩ | ⟨p, hp, hqueues⟩
    · rw [hpick] at hnone
      cases hnone
    · have hcore := core_pick .mlfq (σ.cpus c).p σ
      rw [hpick] at hp hqueues hcore
      cases hp
      refine hqueues.dispatch ?_
      exact (congrArg (fun s : Core n => (s.cpus c).proc) hcore).trans
        ((hinv.control.fits c).loop hctl).1
  | forkret => exact h.unlock c
  | resumeYield => exact (h.unlock c).setTrap c _
  | resumeSleep => exact (unlock (h.modifyState rfl rfl) c).setTrap c _
  | @resumeWait cur call _ _ hctl _ hproc _ hwait =>
    have hwoken := h.modifyState (p := cur) (f := fun p => { p with chan := .null }) rfl rfl
    have hqueues := hwoken.waitLoop call c (by
      rw [proc_modify_self]
      exact (hinv.control.of_resumed hctl hproc).2.1)
    rw [hwait] at hqueues
    exact hqueues
  | swtch =>
    exact h.modifyCpuStill (fun k => { k with ctl := .switched, stack := none }) σ.lock rfl
      (.inl rfl)
  | switched hstep => exact h.switched hinv hclear hstep
  | forkFull => exact h
  | fork _ _ halloc => exact (h.allocproc halloc).setFrame _ _
  | kalloc => exact (h.setupStack _).setFrame _ _
  | kallocFail _ hframe | copyuvmFail _ hframe =>
    exact (h.abandon (hinv.embryo_child hframe rfl)).setFrame _ .user
  | copyuvm => exact setFrame (h.modifyState rfl rfl) _ _
  | publish hrun hframe =>
    exact (h.readyEmbryo hinv (hinv.embryo_child hframe rfl) fun hl =>
      hclear hl _ _ (current_eq_some.mpr hrun) hframe).setFrame _ .user
  | @exit cur hcur hlock =>
    obtain ⟨-, hproc, -⟩ := hinv.of_exit (calls_of_exiting hcur)
    exact ((h.rest hinv hlock).exitTable hproc fun hl => hclear hl cur hcur).sched c
  | @wait cur call _ _ hcall _ hwait =>
    have hqueues := h.waitLoop call c (hrunning hcall)
    rw [hwait] at hqueues
    exact hqueues
  | @sleep cur _ _ hcur =>
    obtain ⟨hctl, hproc, -⟩ := hinv.of_exit (calls_of_exiting hcur)
    have hrun : (σ.proc cur).state = .running := (hinv.control.of_runs hctl hproc).2
    exact sched (h.modifyStill ⟨.inl rfl, by simp [hrun], by simp⟩) c
  | wakeup _ hlock => exact ((h.rest hinv hlock).wakeup1 hclear).1
  | kill _ hlock => exact h.killTable hinv hlock hclear
  | setPriority => exact h.setPriorityTable _ _
  | tick =>
    have hticked : Queues lossless none { σ with ticks := σ.ticks + 1 } :=
      h.of_still ⟨rfl, fun _ => .refl _, fun _ => rfl, fun _ _ _ => rfl⟩
    exact hticked.setTrap c _
  | timer | device | preempt | recheck => exact h.setTrap c _
  | fault => exact setTrap (h.modifyState rfl rfl) c _
  | changeTicks => exact h.changeTicks.setTrap c _
  | wakeupTicks _ hlock => exact ((h.rest hinv hlock).wakeup1 hclear).1.setTrap c _
  | check hstep => exact h.check hstep
  | @yield user cur _ hproc => exact h.yield user hproc

end

/-- The invariant holds in every run; if no `push` finds a stale pointer, no process is left
out. -/
theorem of_run {hist : List (Kernel n × Label n)} (hrun : (kernel .mlfq n).Run hist σ)
    (hclear : lossless → ∀ x ∈ hist, x.1.PushesClear x.2.1) : Queues lossless none σ := by
  -- the newest step of the run is the head of the history
  induction hrun with
  | init h =>
    obtain ⟨below, rfl⟩ := h
    exact .initial below
  | step hrun hstep ih =>
    have hrest := ih fun hl x hx => hclear hl x (List.mem_cons_of_mem _ hx)
    exact hrest.step (inv_core hrun) (fun hl => hclear hl _ List.mem_cons_self) hstep

end Queues

variable {hist : List (Kernel n × Label n)}

/-- While `ptable.lock` is free, the entries of ring `i` are distinct `RUNNABLE` processes with `qn
= i`. At all times `qn` is an index of `slices`, and what a scheduler would pop is `RUNNABLE`. -/
theorem queues_sound (hrun : (kernel .mlfq n).Run hist σ) :
    (σ.lock = none →
      (∀ i x, x ∈ σ.rings.live i →
        ∃ p, x = some p ∧ (σ.proc p).state = .runnable ∧ (σ.proc p).qn = i) ∧
      ((List.finRange 5).flatMap σ.rings.live).Nodup) ∧
    (∀ p, 0 ≤ (σ.proc p).qn ∧ (σ.proc p).qn ≤ 4) ∧
    ∀ i, σ.agePass.rings.face[i] ≠ -1 →
      ∃ p, (σ.agePass.rings.pop i).1 = some p ∧ (σ.agePass.proc p).state = .runnable := by
  -- soundness needs nothing of the pushes
  have h : Queues False none σ := .of_run hrun False.elim
  refine ⟨fun _ => ⟨fun i x hx => ?_, ?_⟩, h.qn, fun i hi => ?_⟩
  · obtain ⟨p, rfl, hstate, hqn, -⟩ := h.entry i x hx
    exact ⟨p, rfl, hstate, hqn⟩
  · refine List.nodup_flatMap.mpr ⟨fun i _ => h.nodup i, ?_⟩
    refine (List.nodup_finRange 5).imp fun {i k} hik x hxi hxk => hik ?_
    obtain ⟨p, rfl, -⟩ := h.entry i x hxi
    exact h.ring_unique hxi hxk
  · obtain ⟨p, hp, hstate, -⟩ := (h.agePass False.elim).pop hi
    exact ⟨p, hp, hstate⟩

/-- init has forked, and the child is ready. -/
theorem queues_sound_fork :
    ∃ (hist : List (Kernel 0 × Label 0)) (σ : Kernel 0), (kernel .mlfq 0).Run hist σ ∧
      σ.lock = none ∧ σ.rings.live 0 = [some 1] ∧
      ∃ p, some 1 = some p ∧ (σ.proc p).state = .runnable ∧ (σ.proc p).qn = (0 : Level) := by
  obtain ⟨hist, σ, hrun, hσ⟩ := exists_run (n := 0) .mlfq (startInit ++ forkOn 0)
    (fun _ σ => decide (σ.lock = none ∧ σ.rings.live 0 = [some 1])) (by decide +kernel)
  obtain ⟨hlock, hlive⟩ := of_decide_eq_true hσ
  refine ⟨hist, σ, hrun, hlock, hlive, ((queues_sound hrun).1 hlock).1 0 (some 1) ?_⟩
  rw [hlive]
  exact List.mem_singleton_self _

/-- Completeness of the ready queues, in a run in which no `push` finds a stale pointer: while
`ptable.lock` is free, every `RUNNABLE` process is in a ring. -/
theorem queues_complete (hrun : (kernel .mlfq n).Run hist σ)
    (hclear : ∀ x ∈ hist, x.1.PushesClear x.2.1) (hlock : σ.lock = none)
    (hp : (σ.proc p).state = .runnable) : ∃ i, some p ∈ σ.rings.live i := by
  have h : Queues True none σ := .of_run hrun fun _ => hclear
  -- the only `RUNNABLE` process outside the rings is one that its CPU is leaving, under the lock
  rcases h.complete trivial p hp nofun with hqueued | ⟨c, hc⟩
  · exact hqueued
  · cases ((h.rest (inv_core hrun) hlock).2 c p hc).symm.trans hp

/-- init has forked and slept, and is woken up while its child is ready. -/
def initWakes : List (CpuId 0 × Action) :=
  startInit ++ forkOn 0 ++ onCpu 0 [.sleep (.other 0), .swtch, .switched, .wakeup (.other 0)]

/-- The ring into which init goes is not empty, and the words before the empty rings are null. -/
theorem queues_complete_initWakes :
    ∃ (hist : List (Kernel 0 × Label 0)) (σ : Kernel 0), (kernel .mlfq 0).Run hist σ ∧
      (∀ x ∈ hist, x.1.PushesClear x.2.1) ∧ σ.lock = none ∧ (σ.proc 0).state = .runnable ∧
      ∃ i, some 0 ∈ σ.rings.live i := by
  obtain ⟨hist, σ, hrun, hσ⟩ := exists_run (n := 0) .mlfq initWakes
    (fun hist σ => decide ((∀ x ∈ hist, x.1.PushesClear x.2.1) ∧ σ.lock = none ∧
      (σ.proc 0).state = .runnable)) (by decide +kernel)
  obtain ⟨hclear, hlock, hstate⟩ := of_decide_eq_true hσ
  exact ⟨hist, σ, hrun, hclear, hlock, hstate, queues_complete hrun hclear hlock hstate⟩

/-- The process that CPU `0` dispatches next sleeps and is woken up. -/
def sleepsAndWakes : List (CpuId 0 × Action) :=
  onCpu 0 [.acquire, .select, .resume, .sleep (.other 0), .swtch, .switched, .wakeup (.other 0)]

/-- After 64 turns in which init and its child sleep and wake up, the search for a duplicate in the
empty ring `1` finds init in `queue[0][63]`, and it is in no ring any more. -/
theorem not_queues_complete :
    ∃ (hist : List (Kernel 0 × Label 0)) (σ : Kernel 0), (kernel .mlfq 0).Run hist σ ∧
      σ.lock = none ∧ (σ.proc 0).state = .runnable ∧ ∀ i, some 0 ∉ σ.rings.live i := by
  obtain ⟨hist, σ, hrun, hσ⟩ := exists_run (n := 0) .mlfq
    (initWakes ++ (List.replicate 64 sleepsAndWakes).flatten)
    (fun _ σ => decide (σ.lock = none ∧ (σ.proc 0).state = .runnable ∧
      ∀ i, some 0 ∉ σ.rings.live i)) (by decide +kernel)
  exact ⟨hist, σ, hrun, of_decide_eq_true hσ⟩

end Kernel

end Xv6
