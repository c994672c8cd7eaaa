import OsnAssignments.Xv6.Refinement
import OsnAssignments.Xv6.Selection

/-!
# Preemption under `PBS`

After an interrupt, `trap` asks `preempt` whether the running process should give up the CPU. The
scheduler then looks at the `RUNNABLE` processes only, whereas `preempt` counts every entry of the
table with a pid: one that sleeps, a zombie, and the running process itself, so that on a timer
interrupt the answer is always yes.
-/

namespace Xv6.Kernel

variable {n : ℕ} {σ : Kernel 0} {p q : Slot} {timer user : Bool}

/-- The process on the only CPU, which the `PBS` scheduler has dispatched, is in `trap`, in front of
the call of `preempt`. -/
structure AtPreempt (σ : Kernel 0) (p : Slot) (timer user : Bool) : Prop where
  ctl : (σ.cpus 0).ctl = .process
  trap : (σ.cpus 0).trap = .preempt timer user
  proc : (σ.cpus 0).proc = some p
  running : (σ.proc p).state = .running
  pid : (σ.proc p).pid ≠ 0
  lock : σ.lock = none
  /-- The loop variable of the scheduler points to the process it has dispatched. -/
  cursor : (σ.cpus 0).p = p

/-- The comparison that `preempt` makes between the priority of an entry and that of the running
process. -/
def Beats (timer : Bool) (priority prior : ℤ) : Prop :=
  if timer then priority ≤ prior else priority < prior

instance decidableBeats (timer : Bool) (priority prior : ℤ) :
    Decidable (Beats timer priority prior) :=
  inferInstanceAs (Decidable (ite _ _ _))

theorem Beats.le {priority prior : ℤ} (h : Beats timer priority prior) : priority ≤ prior := by
  unfold Beats at h
  split at h
  · exact h
  · exact h.le

theorem preemptTest_iff {σ : Kernel n} {prior : ℤ} : σ.preemptTest prior timer = true ↔
    ∃ a, (σ.proc a).pid ≠ 0 ∧ Beats timer (σ.proc a).priority prior := by
  cases timer <;> simp [preemptTest, Beats, and_comm]

/-- Another process is `RUNNABLE`, and beats the running process `p`. -/
def Rival (σ : Kernel 0) (p : Slot) (timer : Bool) (q : Slot) : Prop :=
  q ≠ p ∧ σ.Runnable q ∧ Beats timer (σ.proc q).priority (σ.proc p).priority

/-- What follows when `preempt` makes the process on the only CPU yield, up to the next dispatch. -/
def afterPreempt (σ : Kernel 0) : Option (Kernel 0 × Event) := do
  let (σ, _) ← σ.preempt 0
  let (σ, _) ← σ.yield .pbs 0
  let (σ, _) ← σ.swtch 0
  let (σ, _) ← σ.switched .pbs 0
  σ.nextDispatch .pbs 0

/-- The scheduler goes on behind the process `p`, which has yielded. -/
structure Yielded (σ τ : Kernel 0) (p : Slot) : Prop where
  ctl : (τ.cpus 0).ctl = .loop
  trap : (τ.cpus 0).trap = .none
  lock : τ.lock = some 0
  cursor : (τ.cpus 0).p = p + 1
  runnable : ∀ q, τ.Runnable q ↔ q = p ∨ σ.Runnable q
  priority : ∀ q, (τ.proc q).priority = (σ.proc q).priority

/-- If `preempt` answers yes, the process yields and the scheduler goes on behind it. -/
theorem exists_yielded (h : AtPreempt σ p timer user)
    (hyes : σ.preemptTest (σ.proc p).priority timer = true) :
    ∃ τ, σ.Yielded τ p ∧ σ.afterPreempt = τ.nextDispatch .pbs 0 := by
  let σ₁ := σ.setTrap 0 (.yield user)
  let σ₂ := (σ₁.modify p fun x => { x with state := .runnable, context := .yield user }).sched 0
  let σ₃ := σ₂.modifyCpu 0 fun k => { k with ctl := .switched, stack := none }
  let σ₄ := (σ₃.modifyCpu 0 fun k => { k with proc := none }).modifyCpu 0
    fun k => { k with ctl := .loop, p := p + 1 }
  have hpreempt : σ.preempt 0 = some (σ₁, .silent) := by
    simp [preempt, h.trap, h.proc, h.lock, hyes, σ₁]
  have hyield : σ₁.yield .pbs 0 = some (σ₂, .silent) := by
    simp [yield, σ₁, σ₂, setTrap, modifyCpu, h.proc, h.lock]
  have hswtch : σ₂.swtch 0 = some (σ₃, .silent) := by
    simp [swtch, σ₂, σ₃, sched, modifyCpu, guard]
  have hswitched : σ₃.switched .pbs 0 = some (σ₄, .silent) := by
    simp [switched, σ₁, σ₂, σ₃, σ₄, setTrap, modify, setProc, sched, modifyCpu, guard, h.cursor]
  have hproc (q : Slot) : σ₄.proc q =
      (σ.modify p fun x => { x with state := .runnable, context := .yield user }).proc q := rfl
  refine ⟨σ₄, ⟨?_, ?_, rfl, ?_, fun q => ?_, fun q => ?_⟩, ?_⟩
  · simp [σ₄, modifyCpu]
  · simp [σ₂, σ₃, σ₄, sched, modifyCpu]
  · simp [σ₄, modifyCpu]
  · rw [Runnable, hproc]
    by_cases hq : q = p
    · simp [hq]
    · simp [hq]
  · rw [hproc]
    by_cases hq : q = p
    · simp [hq]
    · simp [hq]
  · simp [afterPreempt, hpreempt, hyield, hswtch, hswitched]

/-- In the cyclic order from behind `p` on, the entry `p` itself comes last. -/
theorem offset_lt_of_ne (h : q ≠ p) : offset (p + 1) q < offset (p + 1) p := by
  have hne : (q : ℕ) ≠ p := fun heq => h (Fin.ext heq)
  have := q.isLt
  have := p.isLt
  unfold offset
  split_ifs <;> omega

/-- If the running process has a rival, the next process that the scheduler dispatches is another
one, with the same priority or a better one. -/
theorem dispatch_of_rival (h : AtPreempt σ p timer user)
    (hyes : σ.preemptTest (σ.proc p).priority timer = true) (hq : σ.Rival p timer q) :
    ∃ r, r ≠ p ∧ (σ.proc r).priority ≤ (σ.proc p).priority ∧
      ∃ σ', σ.afterPreempt = some (σ', .dispatch r) := by
  obtain ⟨τ, hτ, hafter⟩ := exists_yielded h hyes
  have hready : τ.Runnable q := (hτ.runnable q).mpr (.inr hq.2.1)
  have hcursor : (τ.cpus 0).p ≤ NPROC := by
    rw [hτ.cursor]
    exact p.isLt
  obtain ⟨r, ⟨hr, hbest⟩, σ', hnext, -⟩ :=
    nextDispatch_pbs hτ.ctl hτ.trap hτ.lock hcursor ⟨q, hready⟩
  rw [hτ.cursor] at hbest
  have hle : (σ.proc q).priority ≤ (σ.proc p).priority := hq.2.2.le
  have hrq := hbest q hready
  have hrp := hbest p ((hτ.runnable p).mpr (.inl rfl))
  simp only [hτ.priority] at hrq hrp
  refine ⟨r, ?_, ?_, σ', hafter.trans hnext⟩
  · -- the rival is not worse than `p`, and comes before it in the order of the scan
    rintro rfl
    have hlt := offset_lt_of_ne hq.1
    rcases hrq with hrq | hrq <;> omega
  · rcases hrp with hrp | hrp <;> omega

/-- Preemption is not spurious: if `preempt` answers yes, the process has a rival, and the scheduler
then dispatches another process of the same priority or a better one. -/
def PreemptsForOther (σ : Kernel 0) (p : Slot) (timer : Bool) : Prop :=
  σ.preemptTest (σ.proc p).priority timer = true →
    (∃ q, σ.Rival p timer q) ∧
      ∃ r, r ≠ p ∧ (σ.proc r).priority ≤ (σ.proc p).priority ∧
        ∃ σ', σ.afterPreempt = some (σ', .dispatch r)

/-- On a timer interrupt `preempt` always answers yes, since it counts the running process. -/
theorem AtPreempt.preemptTest_timer (h : AtPreempt σ p true user) :
    σ.preemptTest (σ.proc p).priority true = true :=
  preemptTest_iff.mpr ⟨p, h.pid, le_refl _⟩

/-- Preemption is not spurious exactly if the running process has a rival, or the interrupt is not
from the timer and every process of a smaller priority is `RUNNABLE`: then none has one, and
`preempt` answers no. -/
theorem preemptsForOther_iff (σ : Kernel 0) (p : Slot) (timer user : Bool)
    (h : AtPreempt σ p timer user) :
    σ.PreemptsForOther p timer ↔ (∃ q, σ.Rival p timer q) ∨
      timer = false ∧ ∀ a, (σ.proc a).pid ≠ 0 →
        (σ.proc a).priority < (σ.proc p).priority → σ.Runnable a := by
  constructor
  · intro hother
    cases timer with
    | true => exact .inl (hother h.preemptTest_timer).1
    | false =>
      by_cases hyes : σ.preemptTest (σ.proc p).priority false = true
      · exact .inl (hother hyes).1
      · refine .inr ⟨rfl, fun a hpid hlt => absurd ?_ hyes⟩
        exact preemptTest_iff.mpr ⟨a, hpid, hlt⟩
  · intro hcond hyes
    -- the entry that `preempt` has found is `RUNNABLE`, and not `p` itself
    have hrival : ∃ q, σ.Rival p timer q := by
      rcases hcond with hrival | ⟨rfl, hready⟩
      · exact hrival
      · obtain ⟨a, hpid, hlt⟩ := preemptTest_iff.mp hyes
        exact ⟨a, fun heq => lt_irrefl _ (heq ▸ hlt), hready a hpid hlt, hlt⟩
    obtain ⟨q, hq⟩ := hrival
    exact ⟨⟨q, hq⟩, dispatch_of_rival h hyes hq⟩

/-- Process `1`, with pid 1, is running and a timer interrupt has come; process `2`, with pid 2, has
the given state and the same priority. -/
def interrupted (state : ProcState) : Kernel 0 :=
  let σ : Kernel 0 := initial none
  let σ := σ.modifyCpu 0 fun k =>
    { k with ctl := .process, trap := .preempt true true, proc := some 1, stack := some 1, p := 1 }
  (σ.modify 1 fun x => { x with state := .running, pid := 1, priority := 60 }).modify 2
    fun x => { x with state := state, pid := 2, priority := 60 }

theorem atPreempt_interrupted (state : ProcState) : AtPreempt (interrupted state) 1 true true where
  ctl := rfl
  trap := rfl
  proc := rfl
  running := by simp [interrupted]
  pid := by simp [interrupted]
  lock := rfl
  cursor := rfl

/-- If process `2` is `RUNNABLE`, it takes over. -/
theorem preemptsForOther_interrupted : (interrupted .runnable).PreemptsForOther 1 true := by
  refine (preemptsForOther_iff _ 1 true true (atPreempt_interrupted .runnable)).mpr (.inl ⟨2, ?_⟩)
  exact ⟨by decide, by simp [interrupted, Runnable], by simp [interrupted, Beats]⟩

/-- If process `2` sleeps, process `1` yields, and the scheduler dispatches it again. -/
theorem not_preemptsForOther :
    (interrupted .sleeping).preemptTest ((interrupted .sleeping).proc 1).priority true = true ∧
      (interrupted .sleeping).afterPreempt.map (·.2) = some (.dispatch 1) ∧
      ¬ (interrupted .sleeping).PreemptsForOther 1 true := by
  have hyes : (interrupted .sleeping).preemptTest
      ((interrupted .sleeping).proc 1).priority true = true := by decide +kernel
  have hnext : (interrupted .sleeping).afterPreempt.map (·.2) = some (.dispatch 1) := by
    decide +kernel
  refine ⟨hyes, hnext, fun hother => ?_⟩
  obtain ⟨-, r, hr, -, σ', hafter⟩ := hother hyes
  rw [hafter] at hnext
  exact hr (Event.dispatch.inj (Option.some.inj hnext))

end Xv6.Kernel
