import OsnAssignments.Xv6.Forks

/-!
# The life of a process-table entry

What a step of the protocol can do to one entry of the process table: `Core.Life` lists the
cases, `Core.Step.life` shows that there are no others. Statements about the fields of an entry are
then inductions over a run with one case for each event of an entry's life.
-/

namespace Xv6

/-- The calls that can fail, when they fail: `kalloc` of a kernel stack, and `copyuvm`. -/
def Action.fails : Action → Bool
  | .bootKalloc ok | .kalloc ok | .copyuvm ok => !ok
  | _ => false

/-- The events that change what is recorded about the entry `p`. -/
def Event.marks (p : Slot) : Event → Bool
  | .alloc q | .dispatch q | .exit q | .reap _ q _ _ | .fault q => q == p
  | .charge => true
  | _ => false

/-- The changes of state that are not events of a process's life. -/
inductive ProcState.Moves : ProcState → ProcState → Prop
  | refl (x : ProcState) : Moves x x
  | wake : Moves .sleeping .runnable
  | publish : Moves .embryo .runnable
  | yield : Moves .running .runnable
  | sleep : Moves .running .sleeping

namespace ProcState.Moves

variable {x y : ProcState}

theorem eq_running (h : x.Moves y) (hy : y = .running) : x = .running := by
  cases h <;> first | exact hy | cases hy

theorem eq_unused_iff (h : x.Moves y) : y = .unused ↔ x = .unused := by
  cases h <;> simp

theorem eq_zombie_iff (h : x.Moves y) : y = .zombie ↔ x = .zombie := by
  cases h <;> simp

end ProcState.Moves

namespace Task

/-- `t'` is `t` but for the fields that the scheduler, `fork` and `sleep` work with. -/
structure Keep (t t' : Task) : Prop where
  state : t.state.Moves t'.state
  pid : t'.pid = t.pid
  killed : t'.killed = t.killed
  ctime : t'.ctime = t.ctime
  runtime : t'.runtime = t.runtime
  etime : t'.etime = t.etime
  nrun : t'.nrun = t.nrun
  kstack : t.kstack = true → t'.kstack = true

theorem Keep.refl (t : Task) : t.Keep t :=
  ⟨.refl _, rfl, rfl, rfl, rfl, rfl, rfl, id⟩

theorem moves_wake (chan : Chan) (t : Task) : t.state.Moves (t.wake chan).state := by
  by_cases h : t.state = .sleeping ∧ t.chan = chan
  · rw [wake_of_sleeping h, h.1]
    exact .wake
  · rw [wake_of_not h]
    exact .refl _

theorem moves_wake_wake (chan chan' : Chan) (t : Task) :
    t.state.Moves ((t.wake chan).wake chan').state := by
  by_cases h : t.state = .sleeping ∧ t.chan = chan
  · rw [wake_of_sleeping h, wake_of_not (by simp), h.1]
    exact .wake
  · rw [wake_of_not h]
    exact moves_wake chan' t

end Task

namespace Core

variable {n : ℕ} {s s' : Core n} {b : Build}
variable {cur np : Slot} {frame : Frame}

/-- The entry that CPU `c` is filling in, in `userinit` or in a `fork` of its process. -/
def filling (s : Core n) (c : CpuId n) : Option Slot :=
  match (s.cpus c).ctl.child with
  | some p => some p
  | none => (s.cpus c).proc.bind fun q => (s.procs q).frame.child

/-- What the action `a` on CPU `c`, when it reports `e`, can make of the entry `p`. -/
inductive Life (b : Build) (s : Core n) (c : CpuId n) (p : Slot) : Action → Event → Task → Prop
  | keep {a : Action} {e : Event} {t : Task} (he : e.marks p = false)
      (ht : (s.procs p).Keep t) : Life b s c p a e t
  | alloc {a : Action} (hp : (s.procs p).state = .unused) :
      Life b s c p a (.alloc p) ((s.procs p).allocate (int32 s.nextpid) s.ticks)
  | abandon {a : Action} (ha : a.fails = true) (hc : s.filling c = some p)
      (hp : (s.procs p).state = .embryo) :
      Life b s c p a .silent { s.procs p with kstack := false, state := .unused }
  | dispatch {a : Action} (hp : (s.procs p).state = .runnable) :
      Life b s c p a (.dispatch p)
        { s.procs p with
          state := .running
          nrun := if b = .fcfs then (s.procs p).nrun else (s.procs p).nrun + 1 }
  | exit {a : Action} {parent : Option Slot} (hp : (s.procs p).state = .running) :
      Life b s c p a (.exit p)
        { s.procs p with parent := parent, etime := s.ticks, state := .zombie }
  | reap {a : Action} {q : Slot} {call : WaitCall} (hp : (s.procs p).state = .zombie)
      (hparent : (s.procs p).parent = some q) :
      Life b s c p a (.reap q p (s.procs p).pid ((s.procs p).report call s.ticks))
        ((s.procs p).reap call s.ticks)
  | kill {pid : ℤ} (hpid : (s.procs p).pid = pid) (hfirst : ∀ i < p, (s.procs i).pid ≠ pid) :
      Life b s c p (.kill pid) (.kill pid 0)
        { s.procs p with
          killed := true
          state := if (s.procs p).state = .sleeping then .runnable else (s.procs p).state }
  | fault {a : Action} (hp : (s.procs p).state = .running) :
      Life b s c p a (.fault p) { s.procs p with killed := true }
  | charge {a : Action} : Life b s c p a .charge (s.procs p).charge

namespace Life

variable {c : CpuId n} {p : Slot} {a : Action} {e : Event}
variable {f : Task → Task}

/-- A step that changes the entry `i` in its working fields only. -/
theorem of_modify {i : Slot} (he : e.marks p = false)
    (hi : (s.procs i).Keep (f (s.procs i))) : Life b s c p a e ((s.modify i f).procs p) :=
  .keep he (forall_modify Task.Keep.refl hi p)

/-- The entries that a step of `fork` does not create keep their record. -/
theorem keep_setFrame (hp : p ≠ np) :
    (s.procs p).Keep (((s.modify np f).setFrame cur frame).procs p) := by
  have h := forall_modify (s := s.modify np f) (i := cur)
    (f := fun t => { t with frame := frame }) Task.Keep.refl
    ⟨.refl _, rfl, rfl, rfl, rfl, rfl, rfl, id⟩ p
  rwa [procs_modify_of_ne hp] at h

/-- A step of `fork` in the process `cur`, which works on the entry `np`. -/
theorem of_setFrame (hne : np ≠ cur)
    (he : p ≠ np → e.marks p = false) (hnp : Life b s c np a e (f (s.procs np))) :
    Life b s c p a e (((s.modify np f).setFrame cur frame).procs p) := by
  by_cases hp : p = np
  · subst hp
    rw [Core.setFrame, procs_modify_of_ne hne, procs_modify_self]
    exact hnp
  · exact .keep (he hp) (keep_setFrame hp)

/-- A pass of the loop of `wait` or `waitx` in the state `s₁`, in which `p->chan` of the caller
may have been cleared. -/
theorem of_waitStep {s₁ : Core n} {call : WaitCall}
    (hother : ∀ q, q ≠ cur → s₁.procs q = s.procs q) (hcur : (s.procs cur).Keep (s₁.procs cur))
    (hticks : s₁.ticks = s.ticks) (hrun : (s.procs cur).state = .running)
    (hrun₁ : (s₁.procs cur).state = .running) (hwait : WaitStep call s₁ c cur e s') (p : Slot) :
    Life b s c p a e (s'.procs p) := by
  have hkeep (q : Slot) : (s.procs q).Keep (s₁.procs q) := by
    by_cases hq : q = cur
    · rw [hq]
      exact hcur
    · rw [hother q hq]
      exact .refl _
  cases hwait with
  | @reap i hparent hzombie =>
    -- the caller runs, so it does not reap itself
    have hi : i ≠ cur := by
      rintro rfl
      simp [hrun₁] at hzombie
    by_cases hp : p = i
    · subst hp
      rw [procs_unlock, procs_modify_self, hticks, hother p hi]
      rw [hother p hi] at hparent hzombie
      exact .reap hzombie hparent
    · rw [procs_unlock, procs_modify_of_ne hp]
      exact .keep (by simpa [Event.marks] using Ne.symm hp) (hkeep p)
  | noChild => exact .keep rfl (hkeep p)
  | sleep =>
    refine .keep rfl ?_
    rw [procs_sched]
    by_cases hp : p = cur
    · subst hp
      rw [procs_modify_self]
      refine ⟨?_, hcur.pid, hcur.killed, hcur.ctime, hcur.runtime, hcur.etime, hcur.nrun,
        hcur.kstack⟩
      rw [hrun]
      exact .sleep
    · rw [procs_modify_of_ne hp]
      exact hkeep p

end Life

/-- A running process is not filling in its own entry. -/
theorem Inv.ne_child (h : s.Inv) {c : CpuId n}
    (hrun : s.Runs c cur) (hframe : (s.procs cur).frame = frame) (hnp : frame.child = some np) :
    np ≠ cur := by
  rintro rfl
  have hembryo := h.embryo_child hframe hnp
  rw [(h.control.of_runs hrun.1 hrun.2.2).2] at hembryo
  cases hembryo

theorem Runs.filling_eq {c : CpuId n}
    (hrun : s.Runs c cur) (hframe : (s.procs cur).frame = frame) (hnp : frame.child = some np) :
    s.filling c = some np := by
  simp [filling, hrun.1, hrun.2.2, hframe, hnp, Ctl.child]

/-- Every step does to every entry one of the things listed in `Life`. -/
theorem Step.life {l : Label n} (h : s.Inv) (hstep : Step b s l s') (p : Slot) :
    Life b s l.1.1 p l.1.2 l.2 (s'.procs p) := by
  have hc := h.control
  cases hstep with
  -- where the event names an entry, the split is into that entry and the others
  | @bootAlloc c q hctl hlock hq =>
    by_cases hp : p = q
    · subst hp
      have hself : ((s.allocate p).setCtl c (.bootKalloc p)).procs p =
        (s.procs p).allocate (int32 s.nextpid) s.ticks := procs_modify_self ..
      rw [hself]
      exact .alloc hq
    · have hother : ((s.allocate q).setCtl c (.bootKalloc q)).procs p = s.procs p :=
        procs_modify_of_ne hp ..
      rw [hother]
      exact .keep (by simpa [Event.marks] using Ne.symm hp) (.refl _)
  | bootFull | acquire | endPass | resumeForkret | resumeYield | swtch | switchedLoop
  | switchedIdle | forkFull | killMiss | setPriorityMiss | tick | trap => exact .keep rfl (.refl _)
  | @bootKalloc c q =>
    rw [procs_setCtl]
    change Life b s c p _ _ ((s.setupStack q).procs p)
    exact .of_modify rfl ⟨.refl _, rfl, rfl, rfl, rfl, rfl, rfl, fun _ => rfl⟩
  | @bootAbandon c q hctl =>
    have hq := h.embryo_boot hctl rfl
    rw [procs_setCtl]
    by_cases hp : p = q
    · subst hp
      rw [Core.abandon, procs_modify_self]
      exact .abandon rfl (by simp [filling, hctl, Ctl.child]) hq
    · rw [Core.abandon, procs_modify_of_ne hp]
      exact .keep rfl (.refl _)
  | @bootPublish c q hctl =>
    have hq := h.embryo_boot hctl rfl
    rw [procs_modifyCpu]
    refine .of_modify rfl ⟨?_, rfl, rfl, rfl, rfl, rfl, rfl, id⟩
    rw [hq]
    exact .publish
  | @dispatch c q i hctl hlock hq =>
    by_cases hp : p = q
    · subst hp
      rw [procs_dispatch_self]
      exact .dispatch hq
    · rw [procs_dispatch_of_ne hp]
      exact .keep (by simpa [Event.marks] using Ne.symm hp) (.refl _)
  | resumeSleep =>
    rw [procs_setTrap, procs_unlock]
    exact .of_modify rfl ⟨.refl _, rfl, rfl, rfl, rfl, rfl, rfl, id⟩
  | @resumeWait _ c cur call e hctl hlock hproc hctx hwait =>
    obtain ⟨-, hrun, -⟩ := hc.of_resumed hctl hproc
    refine .of_waitStep (fun q hq => procs_modify_of_ne hq ..) ?_ rfl hrun ?_ hwait p
    · rw [procs_modify_self]
      exact ⟨.refl _, rfl, rfl, rfl, rfl, rfl, rfl, id⟩
    · rw [procs_modify_self]
      exact hrun
  | @fork c cur np hcall hlock hnp =>
    have hne : np ≠ cur := by
      rintro rfl
      simp [(hc.of_runs hcall.1.1 hcall.1.2.2).2] at hnp
    exact .of_setFrame (f := Task.allocate (int32 s.nextpid) s.ticks) hne
      (fun hp => by simpa [Event.marks] using Ne.symm hp) (.alloc hnp)
  | kalloc hrun hframe =>
    refine .of_setFrame (h.ne_child hrun hframe rfl) (fun _ => rfl) ?_
    exact .keep rfl ⟨.refl _, rfl, rfl, rfl, rfl, rfl, rfl, fun _ => rfl⟩
  | kallocFail hrun hframe | copyuvmFail hrun hframe =>
    refine .of_setFrame (h.ne_child hrun hframe rfl) (fun _ => rfl) ?_
    exact .abandon rfl (hrun.filling_eq hframe rfl) (h.embryo_child hframe rfl)
  | copyuvm hrun hframe =>
    refine .of_setFrame (h.ne_child hrun hframe rfl) (fun _ => rfl) ?_
    exact .keep rfl ⟨.refl _, rfl, rfl, rfl, rfl, rfl, rfl, id⟩
  | publish hrun hframe =>
    refine .of_setFrame (h.ne_child hrun hframe rfl) (fun _ => rfl) ?_
    refine .keep rfl ⟨?_, rfl, rfl, rfl, rfl, rfl, rfl, id⟩
    rw [h.embryo_child hframe rfl]
    exact .publish
  | @exit c cur hcall =>
    obtain ⟨hctl, hproc, -⟩ := h.of_exit hcall
    rw [procs_sched]
    by_cases hp : p = cur
    · subst hp
      obtain ⟨parent, hself⟩ := procs_exitTable_self p s
      rw [hself]
      exact .exit (hc.of_runs hctl hproc).2
    · refine .keep (by simpa [Event.marks] using Ne.symm hp) ?_
      rw [procs_exitTable_of_ne hp]
      dsimp only
      split
      · exact ⟨Task.moves_wake_wake _ _ (s.procs p), rfl, rfl, rfl, rfl, rfl, rfl, id⟩
      · exact ⟨Task.moves_wake _ (s.procs p), rfl, rfl, rfl, rfl, rfl, rfl, id⟩
  | wait hcall hlock hwait =>
    have hrun := (hc.of_runs hcall.1.1 hcall.1.2.2).2
    exact .of_waitStep (fun _ _ => rfl) (.refl _) rfl hrun hrun hwait p
  | sleep hcall =>
    obtain ⟨hctl, hproc, -⟩ := h.of_exit hcall
    rw [procs_sched]
    refine .of_modify rfl ⟨?_, rfl, rfl, rfl, rfl, rfl, rfl, id⟩
    rw [(hc.of_runs hctl hproc).2]
    exact .sleep
  | @yield c cur user htrap hproc hlock =>
    rw [procs_sched]
    refine .of_modify rfl ⟨?_, rfl, rfl, rfl, rfl, rfl, rfl, id⟩
    rw [(hc.state_of_unlocked hproc (hc.unlocked hlock c)).1]
    exact .yield
  | wakeup => exact .keep rfl ⟨Task.moves_wake _ _, rfl, rfl, rfl, rfl, rfl, rfl, id⟩
  | @kill c pid cur q hcall hlock hpid hfirst =>
    by_cases hp : p = q
    · subst hp
      rw [procs_modify_self]
      exact .kill hpid hfirst
    · rw [procs_modify_of_ne hp]
      exact .keep rfl (.refl _)
  | setPriority =>
    exact .of_modify rfl ⟨.refl _, rfl, rfl, rfl, rfl, rfl, rfl, id⟩
  | charge => exact .charge
  | wakeupTicks =>
    exact .keep rfl ⟨Task.moves_wake _ _, rfl, rfl, rfl, rfl, rfl, rfl, id⟩
  | @fault c cur hcall =>
    rw [procs_setTrap]
    by_cases hp : p = cur
    · subst hp
      rw [procs_modify_self]
      exact .fault (hc.of_runs hcall.1.1 hcall.1.2.2).2
    · rw [procs_modify_of_ne hp]
      exact .keep (by simpa [Event.marks] using Ne.symm hp) (.refl _)

end Core

end Xv6
