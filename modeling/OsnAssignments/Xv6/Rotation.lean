import OsnAssignments.Xv6.Dispatch
import OsnAssignments.Xv6.Selection

/-!
# Rotation among processes of equal priority under `PBS`

The only memory the `PBS` scheduler has of earlier choices is its loop variable `p`; `Cpu.cursor` is
the entry at which the next scan starts.

After the dispatch of `x`, every other `RUNNABLE` process of the same priority comes before `x` in
cyclic order from the cursor (`Ahead`). Dispatches of processes of that priority keep this order. A
process of better priority takes the cursor with it, and if it lies after `y` and before `x`, then
`x` comes before `y` afterwards.
-/

namespace Xv6

/-- The entry at which the `PBS` scheduler of this CPU starts its next scan. -/
def Cpu.cursor (k : Cpu) : ℕ :=
  match k.ctl with
  | .loop => k.p
  | .resumed | .process | .leaving | .switched => k.p + 1
  | _ => 0

namespace Core

variable {n : ℕ} {b : Build} {s s' : Core n} {c : CpuId n} {a : Action} {e : Event}

/-- A process that waits in `wait` or `waitx`, or returns from it, leaves the cursor alone. -/
theorem WaitStep.cursor {call : WaitCall} {cur : Slot} (hwait : WaitStep call s c cur e s')
    (hctl : (s.cpus c).ctl = .process ∨ (s.cpus c).ctl = .resumed) :
    (s'.cpus c).cursor = (s.cpus c).cursor ∧ ∀ p, e ≠ .dispatch p := by
  have hcursor : (s.cpus c).cursor = (s.cpus c).p + 1 := by
    rcases hctl with hctl | hctl <;> simp [Cpu.cursor, hctl]
  rw [hcursor]
  cases hwait with
  | reap | noChild =>
    refine ⟨?_, by simp⟩
    rw [cpus_unlock]
    rfl
  | sleep =>
    refine ⟨?_, by simp⟩
    rw [cpus_sched]
    rfl

/-- Only `scheduler` moves its cursor. -/
theorem Step.cursor (hinv : s.Inv) (hstep : Step b s ((c, a), e) s') (hselect : a ≠ .select)
    (hacquire : a ≠ .acquire) (hswitched : a ≠ .switched) :
    (s'.cpus c).cursor = (s.cpus c).cursor ∧ ∀ p, e ≠ .dispatch p := by
  -- moves of `trap` change neither the place nor `p`
  have htrapped (s₁ : Core n) (t : Trap) (h₁ : s₁.cpus = s.cpus) :
      ((s₁.setTrap c t).cpus c).cursor = (s.cpus c).cursor := by
    rw [cpus_setTrap, h₁]
    rfl
  -- a process that gives up the CPU was running outside the lock
  have hparked (s₁ : Core n) (h₁ : s₁.cpus = s.cpus) (hctl : (s.cpus c).ctl = .process) :
      ((s₁.sched c).cpus c).cursor = (s.cpus c).cursor := by
    rw [cpus_sched, h₁]
    simp [Cpu.cursor, hctl]
  cases hstep with
  | acquire | dispatch | endPass | switchedLoop | switchedIdle => contradiction
  | bootAlloc hctl | bootFull hctl | bootKalloc hctl | bootAbandon hctl =>
    refine ⟨?_, by simp⟩
    rw [cpus_setCtl]
    simp [Cpu.cursor, hctl]
  | bootPublish hctl | swtch hctl =>
    refine ⟨?_, by simp⟩
    rw [cpus_modifyCpu_self]
    simp [Cpu.cursor, hctl]
  | resumeForkret hctl =>
    refine ⟨?_, by simp⟩
    rw [cpus_unlock]
    simp [Cpu.cursor, hctl]
  | resumeYield hctl | resumeSleep hctl =>
    refine ⟨?_, by simp⟩
    rw [cpus_setTrap, cpus_unlock]
    simp [Cpu.cursor, hctl, modify]
  | resumeWait hctl hlock hproc hctx hwait => exact hwait.cursor (.inr hctl)
  | exit hcall | sleep hcall =>
    refine ⟨hparked _ rfl ?_, by simp⟩
    exact hcall.elim (fun h => h.1.1) (fun h => h.1)
  | wait hcall hlock hwait => exact hwait.cursor (.inl hcall.1.1)
  | yield htrap hproc hlock =>
    have hunlocked := hinv.control.unlocked hlock c
    exact ⟨hparked _ rfl (hinv.control.state_of_unlocked hproc hunlocked).2, by simp⟩
  | tick | charge | wakeupTicks | fault | trap => exact ⟨htrapped _ _ rfl, by simp⟩
  | fork | forkFull | kalloc | kallocFail | copyuvm | copyuvmFail | publish | wakeup | killMiss
  | kill | setPriorityMiss | setPriority => exact ⟨rfl, by simp⟩

end Core

namespace Kernel

variable {n : ℕ} {hist : List (Kernel n × Label n)} {σ σ' : Kernel n} {c : CpuId n}
  {a : Action} {e : Event} {p : Slot}

/-- A scan dispatches the process that `PBS` selects from the cursor on, and the cursor moves
past it; or it finds none, and the cursor returns to the first entry. -/
theorem cursor_select (hstep : σ.select .pbs c = some (σ', e)) :
    (∃ p, e = .dispatch p ∧ σ.pickPbs (σ.cpus c).cursor = some p ∧ (σ'.cpus c).cursor = p + 1) ∨
      (∀ p, e ≠ .dispatch p) ∧ σ.pickPbs (σ.cpus c).cursor = none ∧ (σ'.cpus c).cursor = 0 := by
  obtain ⟨⟨hctl, -⟩, h⟩ := Transition.guard_bind_eq_some.mp hstep
  have hcursor : (σ.cpus c).cursor = (σ.cpus c).p := by simp [Cpu.cursor, hctl]
  rw [hcursor]
  cases hpick : σ.pickPbs (σ.cpus c).p with
  | none =>
    simp only [pick, hpick] at h
    cases h
    refine .inr ⟨by simp, rfl, ?_⟩
    simp [endPass, modifyCpu, Cpu.cursor]
  | some p =>
    simp only [pick, hpick] at h
    cases h
    refine .inl ⟨p, rfl, rfl, ?_⟩
    simp [dispatch, modifyCpu, Cpu.cursor]

/-- What a step on CPU `c` does to the cursor of `c`. -/
theorem cursor_of_step (hrun : (kernel .pbs n).Run hist σ)
    (hstep : (kernel .pbs n).step σ ((c, a), e) σ') :
    (∃ p, e = .dispatch p ∧ σ.pickPbs (σ.cpus c).cursor = some p ∧ (σ'.cpus c).cursor = p + 1) ∨
      (∀ p, e ≠ .dispatch p) ∧ ((σ'.cpus c).cursor = (σ.cpus c).cursor ∨
        σ.pickPbs (σ.cpus c).cursor = none ∧ (σ'.cpus c).cursor = 0) := by
  by_cases hselect : a = .select
  · subst hselect
    rcases cursor_select hstep with hdispatch | ⟨hne, hend⟩
    · exact .inl hdispatch
    · exact .inr ⟨hne, .inr hend⟩
  · have hsame : (σ'.cpus c).cursor = (σ.cpus c).cursor ∧ ∀ p, e ≠ .dispatch p := by
      by_cases hacquire : a = .acquire
      · subst hacquire
        obtain ⟨⟨hctl, -, -⟩, h⟩ := Transition.guard_bind_eq_some.mp hstep
        cases h
        exact ⟨by simp [modifyCpu, Cpu.cursor, hctl], by simp⟩
      by_cases hswitched : a = .switched
      · subst hswitched
        obtain ⟨⟨hctl, -⟩, h⟩ := Transition.guard_bind_eq_some.mp hstep
        cases h
        exact ⟨by simp [modifyCpu, Cpu.cursor, hctl], by simp⟩
      exact (step_core hstep).cursor (inv_core hrun) hselect hacquire hswitched
    exact .inr ⟨hsame.2, .inl hsame.1⟩

/-! ## The cyclic order of the entries -/

theorem offset_injective {i : ℕ} (hi : i ≤ NPROC) : Function.Injective (offset i) := by
  intro q r h
  ext
  unfold offset at h
  split_ifs at h <;> omega

/-- From entry `i` on, the entry `y` comes before `x` in cyclic table order. -/
def Ahead (i : ℕ) (y x : Slot) : Prop :=
  offset i y < offset i x

namespace Ahead

variable {i : ℕ} {w x y : Slot}

/-- From the entry after `x` on, every other entry comes before `x`. -/
theorem of_ne (h : y ≠ x) : Ahead (x + 1) y x := by
  have hne : (y : ℕ) ≠ x := fun heq => h (Fin.ext heq)
  unfold Ahead offset
  split_ifs <;> omega

/-- A cursor that has passed `y`, and with it `x`, may return to the first entry. -/
theorem wrap (h : Ahead i y x) (hy : (y : ℕ) < i) : Ahead 0 y x := by
  unfold Ahead offset at h ⊢
  split_ifs at h ⊢ <;> omega

/-- The cursor may pass entries that come before `y`. -/
theorem rotate (h : Ahead i y x) (hi : i ≤ NPROC) (hw : offset i w < offset i y) :
    Ahead (w + 1) y x := by
  unfold Ahead offset at h ⊢
  unfold offset at hw
  split_ifs at h hw ⊢ <;> omega

/-- The cursor may be set to any place but those after `y` and before `x`. -/
theorem of_not_between (hyx : y ≠ x) (hwy : w ≠ y) (h : ¬ Ahead y w x) : Ahead (w + 1) y x := by
  have hyx : (y : ℕ) ≠ x := fun heq => hyx (Fin.ext heq)
  have hwy : (w : ℕ) ≠ y := fun heq => hwy (Fin.ext heq)
  unfold Ahead offset at h ⊢
  split_ifs at h ⊢ <;> omega

end Ahead

/-! ## The interval between two dispatches -/

/-- In an interval of a run, listed newest step first, `y` is `RUNNABLE` with the priority of `x`
until it is dispatched. -/
def StaysReady (y x : Slot) : List (Kernel n × Label n) → Prop
  | [] => True
  | z :: earlier =>
    ((∀ w ∈ earlier, w.2.2 ≠ .dispatch y) →
      z.1.Runnable y ∧ (z.1.proc y).priority = (z.1.proc x).priority) ∧ StaysReady y x earlier

instance decidableStaysReady (y x : Slot) :
    (interval : List (Kernel n × Label n)) → Decidable (StaysReady y x interval)
  | [] => inferInstanceAs (Decidable True)
  | _ :: earlier =>
    have := decidableStaysReady y x earlier
    inferInstanceAs (Decidable ((_ → _) ∧ StaysReady y x earlier))

theorem StaysReady.forall {x y : Slot} {z : Kernel n × Label n}
    {earlier : List (Kernel n × Label n)} (h : StaysReady y x (z :: earlier))
    (hno : ∀ w ∈ earlier, w.2.2 ≠ .dispatch y) :
    ∀ w ∈ z :: earlier, w.1.Runnable y ∧ (w.1.proc y).priority = (w.1.proc x).priority := by
  induction earlier generalizing z with
  | nil =>
    intro w hw
    rw [List.mem_singleton.mp hw]
    exact h.1 hno
  | cons z' earlier ih =>
    intro w hw
    rcases List.mem_cons.mp hw with rfl | hw
    · exact h.1 hno
    · exact ih h.2 (fun v hv => hno v (List.mem_cons_of_mem _ hv)) w hw

/-- The step does not dispatch a process of better priority than `y` from an entry that lies after
`y` and before `x` in cyclic table order. -/
def Undisturbed (y x : Slot) (z : Kernel n × Label n) : Prop :=
  ∀ w, z.2.2 = .dispatch w → (z.1.proc w).priority < (z.1.proc y).priority → ¬ Ahead y w x

instance decidableUndisturbed (y x : Slot) (z : Kernel n × Label n) :
    Decidable (Undisturbed y x z) :=
  inferInstanceAs (Decidable (∀ _, _ → _ → ¬ (_ < _)))

section OneCpu

variable {hist earlier later mid : List (Kernel 0 × Label 0)} {σ σ' σ₁ σ₂ : Kernel 0} {l : Label 0}
  {a₁ a₂ : CpuId 0 × Action} {x y : Slot}

/-- One step that does not dispatch `y`. -/
theorem Ahead.step (h : Ahead (σ.cpus 0).cursor y x) (hyx : y ≠ x)
    (hrun : (kernel .pbs 0).Run hist σ) (hstep : (kernel .pbs 0).step σ l σ')
    (hy : σ.Runnable y) (hno : l.2 ≠ .dispatch y) (hfree : Undisturbed y x (σ, l)) :
    Ahead (σ'.cpus 0).cursor y x := by
  obtain ⟨⟨c, a⟩, e⟩ := l
  obtain rfl := eq_boot c
  rcases cursor_of_step hrun hstep with ⟨w, rfl, hpick, hcursor⟩ | ⟨-, hcursor | ⟨hpick, hcursor⟩⟩
  · rw [hcursor]
    have hwy : w ≠ y := fun heq => hno (heq ▸ rfl)
    obtain ⟨⟨q, hq, -⟩, -, hmin⟩ := pickPbs_eq_some_iff.mp hpick
    rcases hmin y hy with hbetter | ⟨-, hle⟩
    · exact .of_not_between hyx hwy (hfree w rfl hbetter)
    · -- `w` has the priority of `y` and comes before it
      have hi : (σ.cpus 0).cursor ≤ NPROC := by omega
      exact h.rotate hi (Nat.lt_of_le_of_ne hle fun heq => hwy (offset_injective hi heq))
  · rwa [hcursor]
  · rw [hcursor]
    -- the pass ends only after the cursor has passed the `RUNNABLE` process `y`
    refine h.wrap (Nat.lt_of_not_le fun hle => ?_)
    exact pickPbs_eq_none_iff.mp hpick y hle hy

/-- Since the dispatch of `x`, and as long as `y` has not been dispatched, `y` comes first. -/
theorem Ahead.of_run
    (hrun : (kernel .pbs 0).Run (later ++ (σ₁, (a₁, .dispatch x)) :: earlier) σ) (hyx : y ≠ x)
    (hno : ∀ z ∈ later, z.2.2 ≠ .dispatch y) (hready : ∀ z ∈ later, z.1.Runnable y)
    (hfree : ∀ z ∈ later, Undisturbed y x z) : Ahead (σ.cpus 0).cursor y x := by
  induction later generalizing σ with
  | nil =>
    obtain ⟨c, a⟩ := a₁
    obtain rfl := eq_boot c
    cases hrun with
    | step hrun hstep =>
      rcases cursor_of_step hrun hstep with ⟨w, hw, -, hcursor⟩ | ⟨hne, -⟩
      · obtain rfl := Event.dispatch.inj hw
        rw [hcursor]
        exact .of_ne hyx
      · exact absurd rfl (hne x)
  | cons z later ih =>
    cases hrun with
    | step hrun hstep =>
      have hrest := ih hrun (fun z hz => hno z (List.mem_cons_of_mem _ hz))
        (fun z hz => hready z (List.mem_cons_of_mem _ hz))
        fun z hz => hfree z (List.mem_cons_of_mem _ hz)
      exact hrest.step hyx hrun hstep (hready _ List.mem_cons_self) (hno _ List.mem_cons_self)
        (hfree _ List.mem_cons_self)

/-- If `x` is dispatched twice and `y` stays `RUNNABLE` with its priority in between, then `y` is
dispatched in between, unless a process of better priority is dispatched from an entry after `y` and
before `x`. -/
theorem dispatched_between
    (hrun : (kernel .pbs 0).Run
      ((σ₂, (a₂, .dispatch x)) :: mid ++ (σ₁, (a₁, .dispatch x)) :: earlier) σ) (hyx : y ≠ x)
    (hready : StaysReady y x ((σ₂, (a₂, .dispatch x)) :: mid))
    (hfree : ∀ z ∈ mid, Undisturbed y x z) : ∃ z ∈ mid, z.2.2 = .dispatch y := by
  by_contra hnone
  have hno : ∀ z ∈ mid, z.2.2 ≠ .dispatch y := fun z hz heq => hnone ⟨z, hz, heq⟩
  have hstays := hready.forall hno
  obtain ⟨hy, hpriority⟩ := hstays _ List.mem_cons_self
  obtain ⟨c, a⟩ := a₂
  obtain rfl := eq_boot c
  cases hrun with
  | step hrun hstep =>
    have hahead : Ahead (σ₂.cpus 0).cursor y x :=
      .of_run hrun hyx hno (fun z hz => (hstays z (List.mem_cons_of_mem _ hz)).1) hfree
    -- the second dispatch prefers `x` to `y`
    rcases cursor_of_step hrun hstep with ⟨w, hw, hpick, -⟩ | ⟨hne, -⟩
    · obtain rfl := Event.dispatch.inj hw
      rcases (pickPbs_eq_some_iff.mp hpick).2.2 y hy with hlt | ⟨-, hle⟩
      · exact absurd hlt (by rw [hpriority]; exact Int.lt_irrefl _)
      · exact Nat.not_le_of_lt hahead hle
    · exact absurd rfl (hne x)

/-- The steps of a history after the last dispatch of `x`. -/
def sinceDispatch (x : Slot) (hist : List (Kernel 0 × Label 0)) : List (Kernel 0 × Label 0) :=
  hist.takeWhile fun z => z.2.2 ≠ .dispatch x

theorem exists_sinceDispatch (h : ∃ z ∈ hist, z.2.2 = .dispatch x) :
    ∃ σ₁ a₁ earlier, hist = sinceDispatch x hist ++ (σ₁, (a₁, .dispatch x)) :: earlier := by
  induction hist with
  | nil => simp at h
  | cons z hist ih =>
    by_cases hz : z.2.2 = .dispatch x
    · obtain ⟨σ₁, a₁, e₁⟩ := z
      obtain rfl : e₁ = .dispatch x := hz
      exact ⟨σ₁, a₁, hist, by simp [sinceDispatch]⟩
    · obtain ⟨σ₁, a₁, earlier, heq⟩ := ih (by simpa [hz] using h)
      refine ⟨σ₁, a₁, earlier, ?_⟩
      rw [sinceDispatch, List.takeWhile_cons_of_pos (by simpa using hz), List.cons_append]
      exact congrArg _ heq

/-- Whether the last step of a history is a dispatch of `x`, and not the first one, and what `P`
tests of the interval from the dispatch before it. -/
def betweenDispatches (x : Slot) (P : List (Kernel 0 × Label 0) → Bool) :
    List (Kernel 0 × Label 0) → Bool
  | [] => false
  | z :: hist =>
    decide (z.2.2 = .dispatch x ∧ ∃ w ∈ hist, w.2.2 = .dispatch x) && P (z :: sinceDispatch x hist)

theorem exists_betweenDispatches {P : List (Kernel 0 × Label 0) → Bool}
    (hrun : (kernel .pbs 0).Run hist σ) (h : betweenDispatches x P hist = true) :
    ∃ σ₁ σ₂ a₁ a₂ mid earlier, (kernel .pbs 0).Run
      ((σ₂, (a₂, .dispatch x)) :: mid ++ (σ₁, (a₁, .dispatch x)) :: earlier) σ ∧
      P ((σ₂, (a₂, .dispatch x)) :: mid) = true := by
  cases hist with
  | nil => cases h
  | cons z hist =>
    obtain ⟨hdispatch, hP⟩ := Bool.and_eq_true_iff.mp h
    obtain ⟨hz, hmem⟩ := of_decide_eq_true hdispatch
    obtain ⟨σ₁, a₁, earlier, hsplit⟩ := exists_sinceDispatch hmem
    obtain ⟨σ₂, a₂, e₂⟩ := z
    obtain rfl : e₂ = .dispatch x := hz
    refine ⟨σ₁, σ₂, a₁, a₂, sinceDispatch x hist, earlier, ?_, hP⟩
    rwa [List.cons_append, ← hsplit]

/-- A timer interrupt of user code ends the turn of the process, and the scheduler goes on. -/
def turnEnds : List Action :=
  [.timer true, .changeTicks, .wakeupTicks, .check, .preempt, .yield, .swtch, .switched]

/-- The scheduler finds no process up to the end of the table and starts a new pass. -/
def newPass : List Action :=
  [.select, .acquire, .select]

/-- Init forks two children and sleeps; they take turns. -/
def turns : List (CpuId 0 × Action) :=
  startInit ++ forkOn 0 ++ forkOn 0 ++ onCpu 0 [.sleep (.other 0), .swtch, .switched, .select] ++
    onCpu 0 (.resume :: turnEnds ++ [.select]) ++ onCpu 0 (.resume :: turnEnds ++ newPass)

/-- The second child gets its turn. -/
theorem dispatched_between_turns :
    ∃ (σ₁ σ₂ σ : Kernel 0) (a₁ a₂ : CpuId 0 × Action) (mid earlier : List (Kernel 0 × Label 0)),
      (kernel .pbs 0).Run
        ((σ₂, (a₂, .dispatch 1)) :: mid ++ (σ₁, (a₁, .dispatch 1)) :: earlier) σ ∧
      ∃ z ∈ mid, z.2.2 = .dispatch 2 := by
  obtain ⟨hist, σ, hrun, hσ⟩ := exists_run .pbs turns
    (fun hist _ => betweenDispatches 1
      (fun interval => decide (StaysReady 2 1 interval ∧ ∀ z ∈ interval, Undisturbed 2 1 z)) hist)
    (by decide +kernel)
  obtain ⟨σ₁, σ₂, a₁, a₂, mid, earlier, hrun, hP⟩ := exists_betweenDispatches hrun hσ
  obtain ⟨hready, hfree⟩ := of_decide_eq_true hP
  refine ⟨σ₁, σ₂, σ, a₁, a₂, mid, earlier, hrun, ?_⟩
  exact dispatched_between hrun (by decide) hready fun z hz => hfree z (List.mem_cons_of_mem _ hz)

/-- Init forks three children, prefers the third and sleeps; the third child sleeps, too. The first
child is dispatched, wakes the third and loses the CPU to it. -/
def overtaken : List (CpuId 0 × Action) :=
  startInit ++ forkOn 0 ++ forkOn 0 ++ forkOn 0 ++
    onCpu 0 [.setPriority 10 4, .sleep (.other 0), .swtch, .switched, .select] ++
    onCpu 0 ([.resume, .sleep (.other 1), .swtch, .switched] ++ newPass) ++
    onCpu 0 (.resume :: .wakeup (.other 1) :: turnEnds ++ [.select]) ++
    onCpu 0 ([.resume, .sleep (.other 1), .swtch, .switched] ++ newPass)

/-- The first child is dispatched twice while the second, of the same priority, stays `RUNNABLE`
and is not dispatched. -/
theorem not_dispatched_between :
    ∃ (σ₁ σ₂ σ : Kernel 0) (a₁ a₂ : CpuId 0 × Action) (mid earlier : List (Kernel 0 × Label 0)),
      (kernel .pbs 0).Run
        ((σ₂, (a₂, .dispatch 1)) :: mid ++ (σ₁, (a₁, .dispatch 1)) :: earlier) σ ∧
      (∀ z ∈ (σ₂, (a₂, Event.dispatch 1)) :: mid, (z.1.proc 1).pid = 2 ∧ (z.1.proc 2).pid = 3 ∧
        z.1.Runnable 2 ∧ (z.1.proc 2).priority = (z.1.proc 1).priority) ∧
      ∀ z ∈ mid, z.2.2 ≠ .dispatch 2 := by
  obtain ⟨hist, σ, hrun, hσ⟩ := exists_run .pbs overtaken
    (fun hist _ => betweenDispatches 1
      (fun interval => decide ((∀ z ∈ interval, (z.1.proc 1).pid = 2 ∧ (z.1.proc 2).pid = 3 ∧
          z.1.Runnable 2 ∧ (z.1.proc 2).priority = (z.1.proc 1).priority) ∧
        ∀ z ∈ interval, z.2.2 ≠ .dispatch 2)) hist)
    (by decide +kernel)
  obtain ⟨σ₁, σ₂, a₁, a₂, mid, earlier, hrun, hP⟩ := exists_betweenDispatches hrun hσ
  obtain ⟨hready, hno⟩ := of_decide_eq_true hP
  exact ⟨σ₁, σ₂, σ, a₁, a₂, mid, earlier, hrun, hready,
    fun z hz => hno z (List.mem_cons_of_mem _ hz)⟩

end OneCpu

end Kernel

end Xv6
