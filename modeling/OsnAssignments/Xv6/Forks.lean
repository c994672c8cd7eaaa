import OsnAssignments.Xv6.Control

/-!
# Entries in the making

`Core.Forks` and `Core.UserMode` are preserved by every step of the protocol, so that `Core.Inv`
holds in every state that the kernel reaches.
-/

namespace Xv6

open Transition

namespace Core

variable {n : ℕ} {s s' : Core n} {b : Build} {l : Label n}
variable {c : CpuId n} {cur i : Slot} {f : Task → Task}

namespace Forks

variable {p : Slot}

theorem initial : (Core.initial : Core n).Forks := by
  have hnone (o : Slot ⊕ CpuId n) : (Core.initial : Core n).child o = none := by
    rcases o with q | c
    · rfl
    · by_cases hc : c = 0 <;> simp [child, Core.initial, Ctl.child, hc]
  refine ⟨fun o p h => ?_, fun o o' p h => ?_, fun q h => absurd rfl h⟩
  · simp [hnone] at h
  · simp [hnone] at h

/-- What may happen to an entry without `Forks` noticing. -/
def Quiet (t t' : Task) : Prop :=
  t'.frame = t.frame ∧ (t.state = .embryo → t'.state = .embryo) ∧
    (t.frame ≠ .user → t.state = .running ∨ t.state = .runnable →
      t'.state = .running ∨ t'.state = .runnable)

theorem Quiet.refl (t : Task) : Quiet t t :=
  ⟨rfl, id, fun _ h => h⟩

theorem Quiet.trans {t t' t'' : Task} (h : Quiet t t') (h' : Quiet t' t'') : Quiet t t'' :=
  ⟨h'.1.trans h.1, fun ht => h'.2.1 (h.2.1 ht),
    fun hframe ht => h'.2.2 (by rwa [h.1]) (h.2.2 hframe ht)⟩

theorem Quiet.wake (chan : Chan) (t : Task) : Quiet t (t.wake chan) := by
  by_cases h : t.state = .sleeping ∧ t.chan = chan
  · rw [Task.wake_of_sleeping h]
    exact ⟨rfl, fun ht => by simp [h.1] at ht, fun _ _ => .inr rfl⟩
  · rw [Task.wake_of_not h]
    exact .refl t

section

variable (h : s.Forks)
include h

/-- A process that is not in the middle of `fork`, because of its state. -/
theorem frame_of_state (hrun : (s.procs p).state ≠ .running)
    (hready : (s.procs p).state ≠ .runnable) : (s.procs p).frame = .user := by
  by_contra hframe
  rcases h.alive p hframe with hp | hp
  · exact hrun hp
  · exact hready hp

/-- An entry in the making is not itself in the middle of `fork`. -/
theorem frame_of_child {o : Slot ⊕ CpuId n} (hp : s.child o = some p) :
    (s.procs p).frame = .user := by
  have hembryo := h.embryo o p hp
  exact h.frame_of_state (by simp [hembryo]) (by simp [hembryo])

/-- A step in which `o` takes the entry `p` in hand, keeps it there or lets go of it. -/
theorem hand {o : Slot ⊕ CpuId n} (hp : ∀ o', s.child o' = some p → o' = o)
    (ho : ∀ q, s'.child o = some q → q = p ∧ (s'.procs p).state = .embryo)
    (hchild : ∀ o' q, o' ≠ o → s'.child o' = some q → s.child o' = some q)
    (hembryo : ∀ q, q ≠ p → (s.procs q).state = .embryo → (s'.procs q).state = .embryo)
    (halive : ∀ q, (s'.procs q).frame ≠ .user →
      (s'.procs q).state = .running ∨ (s'.procs q).state = .runnable) : s'.Forks := by
  have hother (o' : Slot ⊕ CpuId n) (q : Slot) (ho' : o' ≠ o) (hq : s'.child o' = some q) :
      q ≠ p := by
    rintro rfl
    exact ho' (hp o' (hchild o' q ho' hq))
  refine ⟨fun o' q hq => ?_, fun o₁ o₂ q h₁ h₂ => ?_, halive⟩
  · by_cases ho' : o' = o
    · obtain ⟨rfl, hstate⟩ := ho q (ho' ▸ hq)
      exact hstate
    · exact hembryo q (hother o' q ho' hq) (h.embryo o' q (hchild o' q ho' hq))
  -- `p` is in the hand of `o` alone; the other entries are where they were
  · by_cases ho₁ : o₁ = o <;> by_cases ho₂ : o₂ = o
    · exact ho₁.trans ho₂.symm
    · exact absurd (ho q (ho₁ ▸ h₁)).1 (hother o₂ q ho₂ h₂)
    · exact absurd (ho q (ho₂ ▸ h₂)).1 (hother o₁ q ho₁ h₁)
    · exact h.unique o₁ o₂ q (hchild o₁ q ho₁ h₁) (hchild o₂ q ho₂ h₂)

/-- An entry that is free is in nobody's hand. -/
theorem child_ne (hp : (s.procs p).state = .unused) (o : Slot ⊕ CpuId n) : s.child o ≠ some p := by
  intro ho
  have := h.embryo o p ho
  simp [hp] at this

theorem of_quiet (hctl : ∀ c, (s'.cpus c).ctl.child = (s.cpus c).ctl.child)
    (hquiet : ∀ p, Quiet (s.procs p) (s'.procs p)) : s'.Forks := by
  have hchild (o : Slot ⊕ CpuId n) : s'.child o = s.child o := by
    rcases o with q | c
    · rw [child, child, (hquiet q).1]
    · exact hctl c
  refine ⟨fun o p hp => (hquiet p).2.1 (h.embryo o p (hchild o ▸ hp)),
    fun o o' p hp hp' => h.unique o o' p (hchild o ▸ hp) (hchild o' ▸ hp'), fun q hframe => ?_⟩
  rw [(hquiet q).1] at hframe
  exact (hquiet q).2.2 hframe (h.alive q hframe)

theorem modify (hi : Quiet (s.procs i) (f (s.procs i))) : (s.modify i f).Forks :=
  h.of_quiet (fun _ => rfl) (forall_modify Quiet.refl hi)

/-- A CPU that fills in no entry, or goes on filling in the same, moves on. -/
theorem modifyCpu (f : Cpu → Cpu) (lock : Option (CpuId n))
    (hc : (f (s.cpus c)).ctl.child = (s.cpus c).ctl.child) :
    ({ s with lock := lock }.modifyCpu c f).Forks :=
  h.of_quiet
    (forall_modifyCpu (s := { s with lock := lock })
      (R := fun k k' => k'.ctl.child = k.ctl.child) (fun _ => rfl) hc)
    fun _ => .refl _

theorem sched (hc : (s.cpus c).ctl.child = none) : (s.sched c).Forks :=
  h.modifyCpu (fun k => { k with ctl := .leaving, trap := .none }) (some c) hc.symm

theorem unlock (hc : (s.cpus c).ctl.child = none) : (s.unlock c).Forks :=
  h.modifyCpu (fun k => { k with ctl := .process }) none hc.symm

theorem setTrap (c : CpuId n) (t : Trap) : (s.setTrap c t).Forks :=
  h.modifyCpu (fun k => { k with trap := t }) s.lock rfl

/-- One pass of the loop of `wait` or `waitx`, by a process that is not in `fork`. -/
theorem waitStep {call : WaitCall} {e : Event}
    (hctl : (s.cpus c).ctl.child = none) (hframe : (s.procs cur).frame = .user)
    (hstate : (s.procs cur).state = .running) (hwait : WaitStep call s c cur e s') : s'.Forks := by
  cases hwait with
  | reap hparent hzombie =>
    -- a zombie neither is an entry in the making nor fills one in
    have hquiet (t : Task) (ht : t.state = .zombie) : Quiet t (t.reap call s.ticks) :=
      ⟨rfl, by simp [ht], by simp [ht]⟩
    exact (h.modify (hquiet _ hzombie)).unlock hctl
  | noChild => exact h.unlock hctl
  | sleep =>
    refine Forks.sched (h.modify ?_) hctl
    exact ⟨rfl, by simp [hstate], fun hi => absurd hframe hi⟩

/-- The process `cur`, in `fork`, takes the entry `np` in hand, keeps it there or lets go of it; the
entry changes by `f`. -/
theorem handFork {np : Slot} {frame : Frame} (hnp : ∀ o, s.child o = some np → o = .inl cur)
    (hcur : (s.procs cur).state = .running) (hstate : (s.procs np).state ≠ .running)
    (hf : (f (s.procs np)).frame = .user)
    (hframe : ∀ q, frame.child = some q → q = np ∧ (f (s.procs np)).state = .embryo) :
    ((s.modify np f).setFrame cur frame).Forks := by
  have hne : cur ≠ np := by
    rintro rfl
    exact hstate hcur
  have hprocs (q : Slot) : ((s.modify np f).setFrame cur frame).procs q =
      if q = cur then { s.procs cur with frame := frame }
      else if q = np then f (s.procs np) else s.procs q := by
    simp only [Core.setFrame, Core.modify, Function.update_apply]
    by_cases hq : q = cur <;> simp [hq, hne]
  refine h.hand hnp (fun q hq => ?_) (fun o q ho hq => ?_) (fun q hq hembryo => ?_) fun q hq => ?_
  · rw [child, hprocs, if_pos rfl] at hq
    rw [hprocs, if_neg hne.symm, if_pos rfl]
    exact hframe q hq
  · rcases o with r | c
    · rw [child, hprocs, if_neg (by simpa using ho)] at hq
      split_ifs at hq
      · simp [hf, Frame.child] at hq
      · exact hq
    · exact hq
  · rw [hprocs, if_neg hq]
    split_ifs with hqc
    · exact hqc ▸ hembryo
    · exact hembryo
  · rw [hprocs] at hq ⊢
    split_ifs at hq ⊢
    · exact .inl hcur
    · exact absurd hf hq
    · exact h.alive q hq

/-- A process in `fork` hands on its child, or gives it up. -/
theorem release {np : Slot} {frame : Frame} (hcur : (s.procs cur).state = .running)
    (hnp : s.child (.inl cur) = some np) (hf : (f (s.procs np)).frame = .user)
    (hframe : frame = .user ∨ frame.child = some np ∧ (f (s.procs np)).state = .embryo) :
    ((s.modify np f).setFrame cur frame).Forks := by
  have hembryo := h.embryo _ _ hnp
  refine h.handFork (fun o ho => h.unique o _ np ho hnp) hcur (by simp [hembryo]) hf fun q hq => ?_
  rcases hframe with rfl | ⟨hframe, hstate⟩
  · cases hq
  · exact ⟨Option.some.inj (hq.symm.trans hframe), hstate⟩

/-- `userinit`, on CPU `c`, takes the entry `p` in hand or lets go of it. -/
theorem handBoot {g : Cpu → Cpu} (hp : ∀ o, s.child o = some p → o = .inr c)
    (hf : (f (s.procs p)).frame = .user)
    (hg : ∀ q, (g (s.cpus c)).ctl.child = some q → q = p ∧ (f (s.procs p)).state = .embryo) :
    ((s.modify p f).modifyCpu c g).Forks := by
  have hprocs (q : Slot) : ((s.modify p f).modifyCpu c g).procs q =
      if q = p then f (s.procs p) else s.procs q := Function.update_apply ..
  refine h.hand hp (fun q hq => ?_) (fun o q ho hq => ?_) (fun q hq hembryo => ?_) fun q hq => ?_
  · rw [child, cpus_modifyCpu_self] at hq
    rw [hprocs, if_pos rfl]
    exact hg q hq
  · rcases o with r | d
    · rw [child, hprocs] at hq
      split_ifs at hq
      · simp [hf, Frame.child] at hq
      · exact hq
    · rwa [child, cpus_modifyCpu_of_ne (by simpa using ho)] at hq
  · rwa [hprocs, if_neg hq]
  · rw [hprocs] at hq ⊢
    split_ifs at hq ⊢
    · exact absurd hf hq
    · exact h.alive q hq

end

/-- Every step preserves `Forks`. -/
theorem step (h : s.Inv) (hstep : Step b s l s') : s'.Forks := by
  have hf := h.forks
  have hc := h.control
  cases hstep with
  | @bootAlloc c p hctl hlock hp =>
    have hframe := hf.frame_of_state (p := p) (by simp [hp]) (by simp [hp])
    have hboot : ((s.modify p (Task.allocate (int32 s.nextpid) s.ticks)).setCtl c
        (.bootKalloc p)).Forks :=
      hf.handBoot (fun o ho => absurd ho (hf.child_ne hp o)) hframe
        fun q hq => ⟨(Option.some.inj hq).symm, rfl⟩
    exact hboot.of_quiet (fun _ => rfl) fun _ => .refl _
  | bootFull hctl =>
    exact hf.modifyCpu (fun k => { k with ctl := .halted }) s.lock (by rw [hctl]; rfl)
  | @bootKalloc c p hctl =>
    have hchild : s.child (.inr c) = some p := by simp [child, hctl, Ctl.child]
    have hframe := hf.frame_of_child hchild
    have hstack : (s.setupStack p).Forks :=
      hf.modify ⟨hframe.symm, id, fun hne => absurd hframe hne⟩
    have hinit : { s.setupStack p with initproc := some p }.Forks :=
      hstack.of_quiet (fun _ => rfl) fun _ => .refl _
    exact hinit.modifyCpu (fun k => { k with ctl := .bootPublish p }) s.lock
      (by simp [Core.setupStack, Core.modify, hctl, Ctl.child])
  | @bootAbandon c p hctl | @bootPublish c p hctl =>
    have hchild : s.child (.inr c) = some p := by simp [child, hctl, Ctl.child]
    exact hf.handBoot (fun o ho => hf.unique o _ p ho hchild) (hf.frame_of_child hchild)
      fun q hq => by cases hq
  | acquire hctl =>
    exact hf.modifyCpu (fun k => { k with ctl := .loop, p := _ }) _ (by rw [hctl]; rfl)
  | @dispatch c p i hctl hlock hp =>
    refine hf.of_quiet (fun d => ?_)
      (forall_procs_dispatch Quiet.refl fun _ => ⟨rfl, by simp [hp], fun _ _ => .inl rfl⟩)
    by_cases hd : d = c
    · subst hd
      rw [cpus_dispatch_self, hctl]
      rfl
    · rw [cpus_dispatch_of_ne hd]
  | endPass hctl =>
    exact hf.modifyCpu (fun k => { k with ctl := .idle }) none (by rw [hctl]; rfl)
  | resumeForkret hctl => exact hf.unlock (by rw [hctl]; rfl)
  | resumeYield hctl => exact (hf.unlock (by rw [hctl]; rfl)).setTrap _ _
  | resumeSleep hctl =>
    exact (Forks.unlock (hf.modify (.refl _)) (by rw [Core.modify, hctl]; rfl)).setTrap _ _
  | @resumeWait _ c cur call e hctl hlock hproc hctx hwait =>
    obtain ⟨-, hrun, -⟩ := hc.of_resumed hctl hproc
    have hframe := h.frame_of_resumed hctl hproc (by simp [hctx])
    refine Forks.waitStep (hf.modify (.refl _)) (by rw [Core.modify, hctl]; rfl) ?_ ?_ hwait
    · rw [procs_modify_self]
      exact hframe
    · rw [procs_modify_self]
      exact hrun
  | swtch hctl =>
    exact hf.modifyCpu (fun k => { k with ctl := .switched, stack := none }) s.lock
      (by rw [hctl]; rfl)
  | switchedLoop hctl =>
    exact hf.modifyCpu (fun k => { k with proc := none, ctl := .loop, p := _ }) s.lock
      (by rw [hctl]; rfl)
  | @switchedIdle c hctl =>
    have hproc := hf.modifyCpu (c := c) (fun k => { k with proc := none }) s.lock rfl
    refine hproc.modifyCpu (fun k => { k with ctl := .idle }) none ?_
    rw [cpus_modifyCpu_self, hctl]
    rfl
  | @fork c cur np hcall hlock hp =>
    obtain ⟨-, hcur⟩ := hc.of_runs hcall.1.1 hcall.1.2.2
    have hframe := hf.frame_of_state (p := np) (by simp [hp]) (by simp [hp])
    have hfork : ((s.modify np (Task.allocate (int32 s.nextpid) s.ticks)).setFrame cur
        (.kalloc np)).Forks :=
      hf.handFork (fun o ho => absurd ho (hf.child_ne hp o)) hcur (by simp [hp]) hframe
        fun q hq => ⟨(Option.some.inj hq).symm, rfl⟩
    exact hfork.of_quiet (fun _ => rfl) fun _ => .refl _
  | forkFull | killMiss | setPriorityMiss => exact hf
  | @kalloc c cur np hrun hframe =>
    have hchild : s.child (.inl cur) = some np := by simp [child, hframe, Frame.child]
    obtain ⟨-, hcur⟩ := hc.of_runs hrun.1 hrun.2.2
    exact hf.release hcur hchild rfl (.inr ⟨rfl, hf.embryo _ _ hchild⟩)
  | @copyuvm c cur np hrun hframe =>
    have hchild : s.child (.inl cur) = some np := by simp [child, hframe, Frame.child]
    obtain ⟨-, hcur⟩ := hc.of_runs hrun.1 hrun.2.2
    exact hf.release hcur hchild (hf.frame_of_child hchild) (.inr ⟨rfl, hf.embryo _ _ hchild⟩)
  | @kallocFail c cur np hrun hframe | @copyuvmFail c cur np hrun hframe
  | @publish c cur np hrun hframe =>
    have hchild : s.child (.inl cur) = some np := by simp [child, hframe, Frame.child]
    obtain ⟨-, hcur⟩ := hc.of_runs hrun.1 hrun.2.2
    exact hf.release hcur hchild (hf.frame_of_child hchild) (.inl rfl)
  | @exit c cur hcall =>
    obtain ⟨hctl, hproc, hframe⟩ := h.of_exit hcall
    obtain ⟨-, hrun⟩ := hc.of_runs hctl hproc
    have htable : (s.exitTable cur).Forks := by
      refine hf.of_quiet (fun _ => rfl) fun p => ?_
      by_cases hp : p = cur
      · subst hp
        obtain ⟨parent, hself⟩ := procs_exitTable_self p s
        rw [hself]
        exact ⟨rfl, by simp [hrun], fun hne => absurd hframe hne⟩
      · rw [procs_exitTable_of_ne hp]
        have hwake : Quiet (s.procs p) (((s.procs p).wake (.ofProc (s.procs cur).parent)).orphan
          cur s.initproc) := Quiet.wake _ (s.procs p)
        dsimp only
        split
        · exact hwake.trans (.wake _ _)
        · exact hwake
    refine htable.sched ?_
    change (s.cpus c).ctl.child = none
    rw [hctl]
    rfl
  | wait hcall hlock hwait =>
    obtain ⟨⟨hctl, -, hproc⟩, hframe⟩ := hcall
    obtain ⟨-, hrun⟩ := hc.of_runs hctl hproc
    exact hf.waitStep (by rw [hctl]; rfl) hframe hrun hwait
  | sleep hcall =>
    obtain ⟨hctl, hproc, hframe⟩ := h.of_exit hcall
    obtain ⟨-, hrun⟩ := hc.of_runs hctl hproc
    refine Forks.sched (hf.modify ?_) (by rw [Core.modify, hctl]; rfl)
    exact ⟨rfl, by simp [hrun], fun hne => absurd hframe hne⟩
  | @yield c cur user htrap hproc hlock =>
    obtain ⟨hrun, hctl⟩ := hc.state_of_unlocked hproc (hc.unlocked hlock c)
    refine Forks.sched (hf.modify ?_) (by rw [Core.modify, hctl]; rfl)
    exact ⟨rfl, by simp [hrun], fun _ _ => .inr rfl⟩
  | wakeup => exact hf.of_quiet (fun _ => rfl) fun _ => .wake _ _
  | kill =>
    refine hf.modify ⟨rfl, ?_, fun _ => ?_⟩
    · intro hp
      simp [hp]
    · rintro (hp | hp) <;> simp [hp]
  | setPriority => exact hf.modify (.refl _)
  | tick =>
    have hticks : { s with ticks := s.ticks + 1 }.Forks :=
      hf.of_quiet (fun _ => rfl) fun _ => .refl _
    exact hticks.setTrap _ _
  | charge =>
    have hcharge : (s.mapProcs Task.charge).Forks :=
      hf.of_quiet (fun _ => rfl) fun p => Quiet.refl (s.procs p)
    exact hcharge.setTrap _ _
  | wakeupTicks =>
    have hwake : (s.mapProcs (Task.wake (.obj .ticks))).Forks :=
      hf.of_quiet (fun _ => rfl) fun _ => .wake _ _
    exact hwake.setTrap _ _
  | fault => exact (hf.modify (.refl _)).setTrap _ _
  | trap => exact hf.setTrap _ _

end Forks

namespace UserMode

theorem initial : (Core.initial : Core n).UserMode where
  trap c p h := by cases h
  context p _ _ := rfl

section

variable (h : s.UserMode)
include h

/-- A step that only resets frames, after which `trap` handles the interrupts of user code it
handled before, and nothing more has stopped. -/
theorem of_frames
    (hframe : ∀ p, (s'.procs p).frame = (s.procs p).frame ∨ (s'.procs p).frame = .user)
    (htrap : ∀ c p, (s'.cpus c).trap.user = true → (s'.cpus c).proc = some p →
      (s.cpus c).trap.user = true ∧ (s.cpus c).proc = some p ∨ (s.procs p).frame = .user)
    (hstop : ∀ p, s'.Stopped p → (s'.procs p).context ≠ .yield false →
      s.Stopped p ∧ (s.procs p).context ≠ .yield false ∨ (s'.procs p).frame = .user) :
    s'.UserMode where
  -- a frame that is reset is harmless; any other is as it was
  trap c p ht hp := by
    rcases hframe p with hframe | hframe
    · rw [hframe]
      rcases htrap c p ht hp with ⟨ht, hp⟩ | hp
      · exact h.trap c p ht hp
      · exact hp
    · exact hframe
  context p hs hx := by
    rcases hstop p hs hx with ⟨hs', hx'⟩ | hp
    · rcases hframe p with hframe | hframe
      · rw [hframe]
        exact h.context p hs' hx'
      · exact hframe
    · exact hp

theorem modify (hframe : (f (s.procs i)).frame = (s.procs i).frame ∨ (f (s.procs i)).frame = .user)
    (hcontext : (f (s.procs i)).context = (s.procs i).context ∨ (f (s.procs i)).frame = .user) :
    (s.modify i f).UserMode := by
  refine h.of_frames ?_ (fun c p ht hp => .inl ⟨ht, hp⟩) fun p hs hx => ?_
  · exact forall_modify (R := fun t t' => t'.frame = t.frame ∨ t'.frame = .user)
      (fun _ => .inl rfl) hframe
  · rcases forall_modify (R := fun t t' => t'.context = t.context ∨ t'.frame = .user)
      (fun _ => .inl rfl) hcontext p with heq | huser
    · exact .inl ⟨hs, heq ▸ hx⟩
    · exact .inr huser

/-- The context of a process that a CPU is executing is stale. -/
theorem modify_of_running (hproc : (s.cpus c).proc = some i) (hctl : (s.cpus c).ctl = .process)
    (hframe : (f (s.procs i)).frame = (s.procs i).frame) : (s.modify i f).UserMode := by
  refine h.of_frames ?_ (fun c p ht hp => .inl ⟨ht, hp⟩) fun p hs hx => ?_
  · exact forall_modify (R := fun t t' => t'.frame = t.frame ∨ t'.frame = .user)
      (fun _ => .inl rfl) (.inl hframe)
  · have hp : p ≠ i := by
      rintro rfl
      exact hs c hproc hctl
    rw [procs_modify_of_ne hp] at hx
    exact .inl ⟨hs, hx⟩

/-- CPU `c` moves on. -/
theorem modifyCpu (f : Cpu → Cpu) (lock : Option (CpuId n))
    (htrap : ∀ p, (f (s.cpus c)).trap.user = true → (f (s.cpus c)).proc = some p →
      (s.procs p).frame = .user)
    (hstop : ∀ p, (s.cpus c).ctl = .process → (s.cpus c).proc = some p →
      (f (s.cpus c)).ctl = .process ∧ (f (s.cpus c)).proc = some p ∨
        ((s.procs p).context ≠ .yield false → (s.procs p).frame = .user)) :
    ({ s with lock := lock }.modifyCpu c f).UserMode := by
  refine h.of_frames (fun p => .inl rfl) (fun d p ht hp => ?_) fun p hs hx => ?_
  · by_cases hd : d = c
    · subst hd
      rw [cpus_modifyCpu_self] at ht hp
      exact .inr (htrap p ht hp)
    · rw [cpus_modifyCpu_of_ne hd] at ht hp
      exact .inl ⟨ht, hp⟩
  · by_cases hc : (s.cpus c).ctl = .process ∧ (s.cpus c).proc = some p
    · rcases hstop p hc.1 hc.2 with ⟨hctl, hproc⟩ | huser
      · -- the process has not stopped
        have := hs c (by rw [cpus_modifyCpu_self]; exact hproc)
        rw [cpus_modifyCpu_self] at this
        exact absurd hctl this
      · exact .inr (huser hx)
    · refine .inl ⟨fun d hd hctl => ?_, hx⟩
      by_cases hdc : d = c
      · exact hc ⟨hdc ▸ hctl, hdc ▸ hd⟩
      · have := hs d (by rw [cpus_modifyCpu_of_ne hdc]; exact hd)
        rw [cpus_modifyCpu_of_ne hdc] at this
        exact this hctl

/-- The process on CPU `c` moves on in `fork`, and its child changes by `f`. -/
theorem setFrame (hc : s.Control) (hrun : s.Runs c cur)
    (hframe : (f (s.procs i)).frame = (s.procs i).frame ∨ (f (s.procs i)).frame = .user)
    (hcontext : (f (s.procs i)).context = (s.procs i).context ∨ (f (s.procs i)).frame = .user)
    (frame : Frame) : ((s.modify i f).setFrame cur frame).UserMode where
  trap d p ht hp := by
    have hne : p ≠ cur := by
      rintro rfl
      obtain rfl := hc.injective d c p hp hrun.2.2
      change (s.cpus d).trap.user = true at ht
      rw [hrun.2.1] at ht
      cases ht
    rw [Core.setFrame, procs_modify_of_ne hne]
    exact (h.modify hframe hcontext).trap d p ht hp
  context p hs hx := by
    have hne : p ≠ cur := by
      rintro rfl
      exact hs c hrun.2.2 hrun.1
    rw [Core.setFrame, procs_modify_of_ne hne] at hx ⊢
    exact (h.modify hframe hcontext).context p hs hx

/-- A step that leaves the CPUs, the frames and the contexts as they are. -/
theorem of_procs (hcpus : s'.cpus = s.cpus) (hprocs : ∀ p, (s'.procs p).frame = (s.procs p).frame ∧
      (s'.procs p).context = (s.procs p).context) : s'.UserMode := by
  refine h.of_frames (fun p => .inl (hprocs p).1) (fun c p ht hp => ?_) fun p hs hx => ?_
  · rw [hcpus] at ht hp
    exact .inl ⟨ht, hp⟩
  · rw [(hprocs p).2] at hx
    refine .inl ⟨fun c => ?_, hx⟩
    rw [← hcpus]
    exact hs c

/-- A CPU in the boot sequence or in its scheduler moves on. -/
theorem modifyCpu_of_ne (f : Cpu → Cpu) (lock : Option (CpuId n)) (hctl : (s.cpus c).ctl ≠ .process)
    (hf : (f (s.cpus c)).trap = (s.cpus c).trap ∧
      ((f (s.cpus c)).proc = (s.cpus c).proc ∨ (f (s.cpus c)).proc = none)) :
    ({ s with lock := lock }.modifyCpu c f).UserMode := by
  refine h.modifyCpu f lock (fun p ht hp => ?_) fun p hc => absurd hc hctl
  rw [hf.1] at ht
  rcases hf.2 with hproc | hproc
  · exact h.trap c p ht (hproc ▸ hp)
  · simp [hproc] at hp

theorem unlock (c : CpuId n) : (s.unlock c).UserMode :=
  h.modifyCpu (fun k => { k with ctl := .process }) none (h.trap c) fun _ _ hp => .inl ⟨rfl, hp⟩

/-- The process on CPU `c` gives it up. -/
theorem sched (hproc : (s.cpus c).proc = some cur)
    (hcur : (s.procs cur).context ≠ .yield false → (s.procs cur).frame = .user) :
    (s.sched c).UserMode := by
  refine h.modifyCpu (fun k => { k with ctl := .leaving, trap := .none }) (some c)
    (fun p ht => by cases ht) fun p _ hp => .inr ?_
  obtain rfl : cur = p := Option.mem_unique hproc hp
  exact hcur

theorem setTrap {t : Trap}
    (ht : ∀ p, t.user = true → (s.cpus c).proc = some p → (s.procs p).frame = .user) :
    (s.setTrap c t).UserMode :=
  h.modifyCpu (fun k => { k with trap := t }) s.lock ht fun _ hctl hp => .inl ⟨hctl, hp⟩

theorem waitStep {call : WaitCall} {e : Event}
    (hproc : (s.cpus c).proc = some cur) (hframe : (s.procs cur).frame = .user)
    (hwait : WaitStep call s c cur e s') : s'.UserMode := by
  cases hwait with
  | reap => exact (h.modify (.inl rfl) (.inl rfl)).unlock c
  | noChild => exact h.unlock c
  | sleep =>
    refine UserMode.sched (h.modify (.inl rfl) (.inr hframe)) hproc fun _ => ?_
    rw [procs_modify_self]
    exact hframe

end

/-- The process that a CPU interrupted in user code is not in the middle of `fork`. -/
theorem of_calls {user : Bool} (huser : user = true → ∃ p, s.Calls c p) (p : Slot)
    (hu : user = true) (hp : (s.cpus c).proc = some p) : (s.procs p).frame = .user := by
  obtain ⟨q, ⟨-, -, hq⟩, hframe⟩ := huser hu
  obtain rfl : q = p := Option.mem_unique hq hp
  exact hframe

/-- Every step preserves `UserMode`. -/
theorem step (h : s.Inv) (hstep : Step b s l s') : s'.UserMode := by
  have hu := h.user
  have hc := h.control
  cases hstep with
  | @bootAlloc c p hctl =>
    have halloc : (s.allocate p).UserMode :=
      (hu.modify (.inl rfl) (.inl rfl)).of_procs rfl fun _ => ⟨rfl, rfl⟩
    exact halloc.modifyCpu_of_ne (fun k => { k with ctl := .bootKalloc _ }) s.lock
      (by simp [Core.allocate, Core.modify, hctl]) ⟨rfl, .inl rfl⟩
  | bootFull hctl =>
    exact hu.modifyCpu_of_ne (fun k => { k with ctl := .halted }) s.lock (by simp [hctl])
      ⟨rfl, .inl rfl⟩
  | @bootKalloc c p hctl =>
    have hstack : (s.setupStack p).UserMode := hu.modify (.inr rfl) (.inr rfl)
    have hinit : { s.setupStack p with initproc := some p }.UserMode :=
      hstack.of_procs rfl fun _ => ⟨rfl, rfl⟩
    exact hinit.modifyCpu_of_ne (fun k => { k with ctl := .bootPublish p }) s.lock
      (by simp [Core.setupStack, Core.modify, hctl]) ⟨rfl, .inl rfl⟩
  | @bootAbandon c p hctl =>
    have habandon : (s.abandon p).UserMode := hu.modify (.inl rfl) (.inl rfl)
    exact habandon.modifyCpu_of_ne (fun k => { k with ctl := .halted }) s.lock
      (by simp [Core.abandon, Core.modify, hctl]) ⟨rfl, .inl rfl⟩
  | @bootPublish c p hctl =>
    have hready : (s.ready p).UserMode := hu.modify (.inl rfl) (.inl rfl)
    exact hready.modifyCpu_of_ne (fun k => { k with proc := none, ctl := .idle }) s.lock
      (by simp [Core.ready, Core.modify, hctl]) ⟨rfl, .inr rfl⟩
  | acquire hctl =>
    exact hu.modifyCpu_of_ne (fun k => { k with ctl := .loop, p := _ }) _ (by simp [hctl])
      ⟨rfl, .inl rfl⟩
  | @dispatch c p i hctl =>
    have hprocs : ∀ q, ((s.dispatch b p i c).procs q).frame = (s.procs q).frame ∧
        ((s.dispatch b p i c).procs q).context = (s.procs q).context :=
      forall_procs_dispatch (R := fun t t' => t'.frame = t.frame ∧ t'.context = t.context)
        (fun _ => ⟨rfl, rfl⟩) fun _ => ⟨rfl, rfl⟩
    have htrap : (s.cpus c).trap = .none := hc.trap_of_locked (by rw [hctl]; rfl)
    refine hu.of_frames (fun q => .inl (hprocs q).1) (fun d q ht hq => ?_) fun q hs hx => ?_
    · by_cases hd : d = c
      · subst hd
        rw [cpus_dispatch_self, htrap] at ht
        cases ht
      · rw [cpus_dispatch_of_ne hd] at ht hq
        exact .inl ⟨ht, hq⟩
    · rw [(hprocs q).2] at hx
      refine .inl ⟨fun d hd => ?_, hx⟩
      by_cases hdc : d = c
      · rw [hdc, hctl]
        decide
      · have hstop := hs d
        rw [cpus_dispatch_of_ne hdc] at hstop
        exact hstop hd
  | endPass hctl =>
    exact hu.modifyCpu_of_ne (fun k => { k with ctl := .idle }) none (by simp [hctl])
      ⟨rfl, .inl rfl⟩
  | resumeForkret => exact hu.unlock _
  | @resumeYield c cur user hctl hlock hproc hctx =>
    refine (hu.unlock c).setTrap fun p huser hp => ?_
    have hp : (s.cpus c).proc = some p := by simpa [Core.unlock, Core.setCtl] using hp
    obtain rfl : cur = p := Option.mem_unique hproc hp
    obtain rfl : user = true := huser
    exact h.frame_of_resumed hctl hproc (by simp [hctx])
  | @resumeSleep c cur exiting hctl hlock hproc hctx =>
    refine (UserMode.unlock (hu.modify (.inl rfl) (.inl rfl)) c).setTrap fun p _ hp => ?_
    have hp : (s.cpus c).proc = some p := by simpa [Core.unlock, Core.setCtl, Core.modify] using hp
    obtain rfl : cur = p := Option.mem_unique hproc hp
    rw [procs_unlock, procs_modify_self]
    exact h.frame_of_resumed hctl hproc (by simp [hctx])
  | @resumeWait _ c cur call e hctl hlock hproc hctx hwait =>
    have hframe := h.frame_of_resumed hctl hproc (by simp [hctx])
    refine UserMode.waitStep (hu.modify (.inl rfl) (.inl rfl)) hproc ?_ hwait
    rw [procs_modify_self]
    exact hframe
  | swtch hctl =>
    exact hu.modifyCpu_of_ne (fun k => { k with ctl := .switched, stack := none }) s.lock
      (by simp [hctl]) ⟨rfl, .inl rfl⟩
  | switchedLoop hctl =>
    exact hu.modifyCpu_of_ne (fun k => { k with proc := none, ctl := .loop, p := _ }) s.lock
      (by simp [hctl]) ⟨rfl, .inr rfl⟩
  | @switchedIdle c hctl =>
    have hproc := hu.modifyCpu_of_ne (c := c) (fun k => { k with proc := none }) s.lock
      (by simp [hctl]) ⟨rfl, .inr rfl⟩
    refine hproc.modifyCpu_of_ne (fun k => { k with ctl := .idle }) none ?_ ⟨rfl, .inl rfl⟩
    rw [cpus_modifyCpu_self]
    simp [hctl]
  | fork hcall =>
    exact (hu.setFrame hc hcall.1 (.inl rfl) (.inl rfl) _).of_procs rfl fun _ => ⟨rfl, rfl⟩
  | forkFull | killMiss | setPriorityMiss => exact hu
  | kalloc hrun => exact hu.setFrame hc hrun (.inr rfl) (.inr rfl) _
  | kallocFail hrun | copyuvmFail hrun | copyuvm hrun | publish hrun =>
    exact hu.setFrame hc hrun (.inl rfl) (.inl rfl) _
  | @exit c cur hcall =>
    obtain ⟨-, hproc, hframe⟩ := h.of_exit hcall
    obtain ⟨parent, hself⟩ := procs_exitTable_self cur s
    have htable : (s.exitTable cur).UserMode := by
      refine hu.of_procs rfl fun p => ?_
      by_cases hp : p = cur
      · subst hp
        rw [hself]
        exact ⟨rfl, rfl⟩
      · rw [procs_exitTable_of_ne hp]
        dsimp only
        split <;> exact ⟨rfl, rfl⟩
    refine htable.sched hproc fun _ => ?_
    rw [hself]
    exact hframe
  | wait hcall hlock hwait =>
    exact hu.waitStep hcall.1.2.2 hcall.2 hwait
  | sleep hcall =>
    obtain ⟨-, hproc, hframe⟩ := h.of_exit hcall
    refine UserMode.sched (hu.modify (.inl rfl) (.inr hframe)) hproc fun _ => ?_
    rw [procs_modify_self]
    exact hframe
  | @yield c cur user htrap hproc hlock =>
    obtain ⟨-, hctl⟩ := hc.state_of_unlocked hproc (hc.unlocked hlock c)
    refine UserMode.sched (hu.modify_of_running hproc hctl rfl) hproc fun hx => ?_
    rw [procs_modify_self] at hx ⊢
    -- what is saved tells whether the interrupt found user code
    refine hu.trap c cur ?_ hproc
    rw [htrap]
    cases user with
    | true => rfl
    | false => exact absurd rfl hx
  | wakeup => exact hu.of_procs rfl fun _ => ⟨rfl, rfl⟩
  | kill | setPriority => exact hu.modify (.inl rfl) (.inl rfl)
  | tick hcall huser =>
    have hticks : { s with ticks := s.ticks + 1 }.UserMode := hu.of_procs rfl fun _ => ⟨rfl, rfl⟩
    exact hticks.setTrap (of_calls huser)
  | @charge c user htrap =>
    have hcharge : (s.mapProcs Task.charge).UserMode := hu.of_procs rfl fun _ => ⟨rfl, rfl⟩
    exact hcharge.setTrap fun p huser hp => hu.trap c p (by rw [htrap]; exact huser) hp
  | @wakeupTicks c user htrap =>
    have hwake : (s.mapProcs (Task.wake (.obj .ticks))).UserMode :=
      hu.of_procs rfl fun _ => ⟨rfl, rfl⟩
    exact hwake.setTrap fun p huser hp => hu.trap c p (by rw [htrap]; exact huser) hp
  | @fault c cur hcall =>
    have hkilled : (s.modify cur fun t => { t with killed := true }).UserMode :=
      hu.modify (.inl rfl) (.inl rfl)
    refine hkilled.setTrap fun p _ hp => ?_
    obtain rfl : cur = p := Option.mem_unique hcall.1.2.2 hp
    rw [procs_modify_self]
    exact hcall.2
  | @trap c a t htrap =>
    refine hu.setTrap fun p huser hp => ?_
    cases htrap with
    | timer hcall hcalls | device hcall hcalls => exact of_calls hcalls p huser hp
    | idle | recheck => cases huser
    | killed htrap | recheckKilled htrap => exact hu.trap c p (by rw [htrap]; rfl) hp
    | decide htrap _ ht =>
      refine hu.trap c p ?_ hp
      rw [htrap]
      rcases ht with rfl | rfl | rfl <;> exact huser
    | preempt htrap _ ht =>
      refine hu.trap c p ?_ hp
      rw [htrap]
      rcases ht with rfl | rfl <;> exact huser

end UserMode

namespace Inv

theorem initial : (Core.initial : Core n).Inv :=
  ⟨.initial, .initial, .initial⟩

theorem step (h : s.Inv) (hstep : Step b s l s') : s'.Inv :=
  ⟨Control.step h hstep, Forks.step h hstep, UserMode.step h hstep⟩

/-- `Inv` holds at the end of every run of the protocol. -/
theorem of_run {hist : List (Core n × Label n)} (hrun : (protocol b n).Run hist s) : s.Inv := by
  refine hrun.invariant ?_ fun _ _ _ h hstep => h.step hstep
  rintro s rfl
  exact initial

end Inv

end Core

end Xv6
