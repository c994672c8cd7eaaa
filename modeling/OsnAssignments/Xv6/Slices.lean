import Mathlib
import OsnAssignments.Xv6.Aging
import OsnAssignments.Xv6.OneCpu
import OsnAssignments.Xv6.QueueRuns

/-!
# Time slices on one CPU

`change_ticks` charges the tick to the process that runs, `trap` compares `curtime` with the slice
of its level and sets `flagq`, `yield` resets `curtime`, and the scheduler, once it has the CPU
back, lowers the level if `flagq` is set. On a machine with one CPU nothing comes in between.
`Sliced` says what each of these places knows of the ticks that the current dispatch has been
charged (`charged`).
-/

namespace Xv6

open Loop Transition

/-! ## The ticks of a dispatch -/

/-- The slice of the level of the process. -/
def Proc.slice (q : Proc) : ℤ :=
  slices[level q.qn]

theorem Proc.slice_pos (q : Proc) : 0 < q.slice := by
  have h : ∀ i : Level, 0 < slices[i] := by decide
  exact h _

theorem Proc.SameLevel.slice {q q' : Proc} (h : q.SameLevel q') : q'.slice = q.slice := by
  rw [Proc.slice, Proc.slice, h.qn]

namespace Kernel

variable {hist : List (Kernel 0 × Label 0)} {σ σ' : Kernel 0} {a : Action} {e : Event} {p q : Slot}
variable {x : Proc}

/-- The ticks that `p` has been charged since it was last dispatched. -/
def charged (p : Slot) : List (Kernel 0 × Label 0) → ℕ
  | [] => 0
  | (σ, l) :: hist =>
    match l.2 with
    | .dispatch q => if q = p then 0 else charged p hist
    | .charge => if (σ.proc p).state = .running then charged p hist + 1 else charged p hist
    | _ => charged p hist

/-- Whether the CPU entered the handler in which it is on a timer interrupt. -/
def inTimer : List (Kernel 0 × Label 0) → Bool
  | [] => false
  | (σ, l) :: hist =>
    if (σ.cpus 0).trap = .none then
      match l.1.2 with
      | .timer _ => true
      | _ => false
    else inTimer hist

/-- What is known of a process that runs while the CPU is at `t` in `trap`; `timer` says whether it
entered on a timer interrupt. -/
def Phase (timer : Bool) (t : Trap) (q : Proc) : Prop :=
  match t with
  | .ticked _ => timer = true ∧ q.flagq = false ∧ q.curtime < q.slice
  -- the tick is charged, and not yet compared with the slice
  | .charged _ | .check true _ => timer = true ∧ q.flagq = false ∧ q.curtime ≤ q.slice
  | .yield _ => timer = true ∧ q.flagq = true ∧ q.curtime = q.slice
  | .exit => q.flagq = false ∧
      (q.curtime < q.slice ∨ timer = true ∧ q.killed = true ∧ q.curtime = q.slice)
  -- another policy
  | .preempt _ _ => False
  | _ => q.flagq = false ∧ q.curtime < q.slice

/-- What is known of a process that has given up the CPU after `k` ticks, before the scheduler looks
at it. -/
def Left (k : ℕ) (q : Proc) : Prop :=
  q.state = .runnable ∧ q.flagq = true ∧ k = q.slice ∨
    q.state ≠ .runnable ∧ q.flagq = false ∧
      (k < q.slice ∨ k = q.slice ∧ q.killed = true)

/-- The slices along a run. -/
structure Sliced (hist : List (Kernel 0 × Label 0)) (σ : Kernel 0) : Prop where
  flagq : ∀ p, (σ.cpus 0).proc ≠ some p → (σ.proc p).flagq = false
  running : ∀ p, (σ.proc p).state = .running →
    (σ.proc p).curtime = charged p hist ∧ Phase (inTimer hist) (σ.cpus 0).trap (σ.proc p)
  left : ∀ p, (σ.cpus 0).proc = some p → (σ.proc p).state ≠ .running →
    Left (charged p hist) (σ.proc p)

theorem inTimer_cons_of_trap {l : Label 0} (h : (σ.cpus 0).trap ≠ .none) :
    inTimer ((σ, l) :: hist) = inTimer hist := by
  rw [inTimer, if_neg h]

/-- A process that runs is on the CPU. -/
theorem on_cpu_of_running (hinv : σ.core.Inv) (hp : (σ.proc p).state = .running) :
    (σ.cpus 0).proc = some p := by
  obtain ⟨c, hc⟩ := hinv.control.running p hp
  rwa [eq_boot c] at hc

/-- Code that decides nothing about slices. -/
theorem Phase.move {x' : Proc} (h : Phase (inTimer hist) (σ.cpus 0).trap x)
    (hmove : Trap.Move a (σ.cpus 0).trap (σ'.cpus 0).trap) (hlevel : x.SameLevel x')
    (hcur : x'.curtime = x.curtime) (hkilled : x.killed = true → x'.killed = true) :
    Phase (inTimer ((σ, ((0, a), e)) :: hist)) (σ'.cpus 0).trap x' := by
  have hslice := hlevel.slice
  have hflagq := hlevel.flagq
  rw [inTimer]
  generalize (σ.cpus 0).trap = t at *
  generalize (σ'.cpus 0).trap = t' at *
  -- at the same place, or where the same is known, the facts carry over
  have hmono {P : Prop} (h : P ∧ x.flagq = false ∧ x.curtime ≤ x.slice) :
      P ∧ x'.flagq = false ∧ x'.curtime ≤ x'.slice := by
    rwa [hflagq, hcur, hslice]
  have hbelow (h : x.flagq = false ∧ x.curtime < x.slice) :
      x'.flagq = false ∧ x'.curtime < x'.slice := by
    rwa [hflagq, hcur, hslice]
  cases hmove with
  | refl =>
    cases t with
    | none | recheck => exact hbelow h
    | ticked => exact ⟨h.1, hbelow h.2⟩
    | charged => exact hmono h
    | check timer => cases timer with
      | true => exact hmono h
      | false => exact hbelow h
    | yield => exact ⟨h.1, by rw [hflagq, hcur, hslice]; exact h.2⟩
    | exit =>
      rw [Phase, hflagq, hcur, hslice]
      exact ⟨h.1, h.2.imp_right fun hused => ⟨hused.1, hkilled hused.2.1, hused.2.2⟩⟩
    | preempt => exact h
  | tick user ha => exact ⟨by rw [ha]; rfl, hbelow h⟩
  | interrupt | resume | done => exact hbelow h
  | woken => exact hmono h
  | preempt => exact h.elim
  | reenter | killed =>
    have hlow := hbelow h
    exact ⟨hlow.1, .inl hlow.2⟩

theorem charged_dispatch (l : CpuId 0 × Action) : charged p ((σ, (l, .dispatch p)) :: hist) = 0 :=
  if_pos rfl

theorem charged_cons_of_ne (he : ∀ q, e ≠ .dispatch q) (he' : e ≠ .charge) (l : CpuId 0 × Action) :
    charged p ((σ, (l, e)) :: hist) = charged p hist := by
  cases e with
  | dispatch q => exact absurd rfl (he q)
  | charge => exact absurd rfl he'
  | _ => rfl

/-- The process on the CPU keeps what it knows through a step that decides nothing. -/
theorem Sliced.goes (h : Sliced hist σ) (hinv' : σ'.core.Inv) (hgoes : Core.Goes a σ.core σ'.core)
    (hidle : ∀ q, (σ.cpus 0).proc ≠ some q → (σ'.proc q).flagq = false)
    (hlevel : ∀ q, (σ.cpus 0).proc = some q → (σ.proc q).SameLevel (σ'.proc q))
    (hcur : ∀ q, (σ.proc q).state = .running → (σ'.proc q).curtime = (σ.proc q).curtime)
    (hkilled : ∀ q, (σ.proc q).state = .running → (σ.proc q).killed = true →
      (σ'.proc q).killed = true)
    (he : ∀ q, e ≠ .dispatch q) (he' : e ≠ .charge) : Sliced ((σ, ((0, a), e)) :: hist) σ' := by
  have hproc : (σ'.cpus 0).proc = (σ.cpus 0).proc := hgoes.proc
  refine ⟨fun p hp => hidle p (by rwa [← hproc]), fun p hp => ?_, fun p hp hstop => ?_⟩
  · have hon : (σ.cpus 0).proc = some p := hproc ▸ on_cpu_of_running hinv' hp
    have hrun : (σ.proc p).state = .running := (hgoes.state p hon).symm.trans hp
    obtain ⟨hcharged, hphase⟩ := h.running p hrun
    rw [charged_cons_of_ne he he', hcur p hrun]
    exact ⟨hcharged, hphase.move hgoes.trap (hlevel p hon) (hcur p hrun) (hkilled p hrun)⟩
  · have hon : (σ.cpus 0).proc = some p := hproc ▸ hp
    have hstop : (σ.proc p).state ≠ .running := fun hrun =>
      hstop ((hgoes.state p hon).trans hrun)
    have hsame := hgoes.parked p hon hstop
    have hleft := h.left p hon hstop
    have hstate : (σ'.proc p).state = (σ.proc p).state := congrArg Task.state hsame
    have hkill : (σ'.proc p).killed = (σ.proc p).killed := congrArg Task.killed hsame
    rw [charged_cons_of_ne he he', Left, hstate, hkill, (hlevel p hon).flagq, (hlevel p hon).slice]
    exact hleft

/-- The process on the CPU goes to sleep or exits. -/
theorem Sliced.stops (h : Sliced hist σ) (hinv' : σ'.core.Inv)
    (hstops : Core.Stops σ.core σ'.core p)
    (hidle : ∀ q, (σ.cpus 0).proc ≠ some q → (σ'.proc q).flagq = false)
    (hlevel : (σ.proc p).SameLevel (σ'.proc p))
    (he : ∀ q, e ≠ .dispatch q) (he' : e ≠ .charge) : Sliced ((σ, ((0, a), e)) :: hist) σ' := by
  have hproc : (σ.cpus 0).proc = some p := hstops.proc
  have hproc' : (σ'.cpus 0).proc = some p := hstops.proc'
  have hgone : (σ'.proc p).state = .sleeping ∨ (σ'.proc p).state = .zombie := hstops.state
  refine ⟨fun q hq => hidle q (by rwa [hproc, ← hproc']), fun q hq => ?_, fun q hq _ => ?_⟩
  · cases hproc'.symm.trans (on_cpu_of_running hinv' hq)
    rw [hq] at hgone
    rcases hgone with hgone | hgone <;> cases hgone
  · cases hproc'.symm.trans hq
    obtain ⟨hcharged, hphase⟩ := h.running p hstops.running
    refine .inr ⟨by rcases hgone with hgone | hgone <;> rw [hgone] <;> nofun, ?_⟩
    rw [charged_cons_of_ne he he', hlevel.flagq, hlevel.slice, ← hcharged,
      show (σ'.proc p).killed = (σ.proc p).killed from hstops.killed]
    rcases hstops.trap with htrap | htrap
    · rw [show (σ.cpus 0).trap = .none from htrap] at hphase
      exact ⟨hphase.1, .inl hphase.2⟩
    · rw [show (σ.cpus 0).trap = .exit from htrap] at hphase
      exact ⟨hphase.1, hphase.2.imp_right fun hused => ⟨hused.2.2, hused.2.1⟩⟩

/-- A process in a handler runs. -/
theorem running_of_trap (hinv : σ.core.Inv) (htrap : (σ.cpus 0).trap ≠ .none)
    (hp : (σ.cpus 0).proc = some p) : (σ.proc p).state = .running := by
  rcases hinv.control.trap 0 htrap with hidle | hctl
  · have hnone := ((hinv.control.fits 0).off (by rw [hidle]; rfl)).1
    cases hp.symm.trans hnone
  · exact hinv.control.running_of_inProcess (by rw [hctl]; rfl) hp

/-! ## The steps that decide -/

namespace Sliced

variable (h : Sliced hist σ)
include h

/-- A step of a handler that leaves the process on the CPU. -/
theorem inHandler (hinv : σ.core.Inv) (hne : (σ.cpus 0).trap ≠ .none)
    (hproc : (σ'.cpus 0).proc = (σ.cpus 0).proc)
    (hstate : ∀ q, (σ'.proc q).state = (σ.proc q).state)
    (hflagq : ∀ q, (σ.cpus 0).proc ≠ some q → (σ'.proc q).flagq = (σ.proc q).flagq)
    (hphase : ∀ p, (σ.cpus 0).proc = some p → (σ.proc p).state = .running →
      (σ'.proc p).curtime = charged p ((σ, ((0, a), e)) :: hist) ∧
      Phase (inTimer hist) (σ'.cpus 0).trap (σ'.proc p)) :
    Sliced ((σ, ((0, a), e)) :: hist) σ' := by
  refine ⟨fun p hp => ?_, fun p hp => ?_, fun p hp hstop => ?_⟩
  · rw [hproc] at hp
    rw [hflagq p hp]
    exact h.flagq p hp
  · rw [hstate p] at hp
    rw [inTimer_cons_of_trap hne]
    exact hphase p (on_cpu_of_running hinv hp) hp
  · rw [hproc] at hp
    exact absurd ((hstate p).trans (running_of_trap hinv hne hp)) hstop

theorem changeTicks (hinv : σ.core.Inv)
    (hstep : σ.changeTicks .mlfq 0 = some (σ', e)) : Sliced ((σ, ((0, a), e)) :: hist) σ' := by
  obtain ⟨user, htrap, rfl, hproc, -, hcpus⟩ := changeTicks_eq hstep
  have hcpu : σ'.cpus 0 = { σ.cpus 0 with trap := .charged user } := by
    rw [hcpus]
    exact cpus_modifyCpu_self ..
  have hkeep (q : Slot) : (σ'.proc q).state = (σ.proc q).state ∧
      (σ'.proc q).flagq = (σ.proc q).flagq ∧ (σ'.proc q).slice = (σ.proc q).slice := by
    rw [hproc, changeTicksBody]
    split_ifs <;> exact ⟨rfl, rfl, rfl⟩
  refine h.inHandler hinv (by simp [htrap]) (by rw [hcpu]) (fun q => (hkeep q).1)
    (fun q _ => (hkeep q).2.1) fun p _ hrun => ?_
  obtain ⟨hcharged, hphase⟩ := h.running p hrun
  have hcur : (σ'.proc p).curtime = (σ.proc p).curtime + 1 := by
    rw [hproc, changeTicksBody, if_neg (not_not.mpr hrun), if_pos rfl]
  rw [htrap] at hphase
  obtain ⟨htimer, hflagq, hlt⟩ := hphase
  refine ⟨by rw [hcur, charged, if_pos hrun, hcharged]; rfl, ?_⟩
  rw [hcpu, Phase, hcur, (hkeep p).2.1, (hkeep p).2.2]
  exact ⟨htimer, hflagq, hlt⟩

theorem check (hinv : σ.core.Inv)
    (hstep : σ.check .mlfq 0 = some (σ', e)) : Sliced ((σ, ((0, a), e)) :: hist) σ' := by
  obtain ⟨timer, user, htrap, rfl, hcase⟩ := check_cases hstep
  have hne : (σ.cpus 0).trap ≠ .none := by simp [htrap]
  -- the cases that only move on in `trap`
  have hsetTrap (t : Trap) (ht : ∀ p, (σ.cpus 0).proc = some p → (σ.proc p).state = .running →
      Phase (inTimer hist) (.check timer user) (σ.proc p) → Phase (inTimer hist) t (σ.proc p)) :
      Sliced ((σ, ((0, a), .silent)) :: hist) (σ.setTrap 0 t) := by
    have hcpu : (σ.setTrap 0 t).cpus 0 = { σ.cpus 0 with trap := t } := cpus_modifyCpu_self ..
    refine h.inHandler hinv hne (by rw [hcpu]) (fun _ => rfl) (fun _ _ => rfl) fun p hp hrun => ?_
    obtain ⟨hcharged, hphase⟩ := h.running p hrun
    rw [htrap] at hphase
    rw [hcpu]
    exact ⟨hcharged, ht p hp hrun hphase⟩
  rcases hcase with
    ⟨hnone, rfl⟩ | ⟨p, hp, ⟨hkilled, -, rfl⟩ | ⟨-, hrun, rfl, hle, rfl⟩ | ⟨-, hlt, rfl⟩⟩
  · refine hsetTrap .none fun p hp => ?_
    cases hnone.symm.trans hp
  · refine hsetTrap .exit fun q hq _ hphase => ?_
    cases hp.symm.trans hq
    cases timer with
    | false => exact ⟨hphase.1, .inl hphase.2⟩
    | true =>
      exact ⟨hphase.2.1, (lt_or_eq_of_le hphase.2.2).imp_right (⟨hphase.1, hkilled, ·⟩)⟩
  · -- the slice has been used up
    generalize hσ : σ.modify p (fun q => { q with flagq := true }) = σ₁
    have hcpu : (σ₁.setTrap 0 (.yield user)).cpus 0 = { σ₁.cpus 0 with trap := .yield user } :=
      cpus_modifyCpu_self ..
    have hself : σ₁.proc p = { σ.proc p with flagq := true } := by rw [← hσ, proc_modify_self]
    have hother (q : Slot) (hq : q ≠ p) : σ₁.proc q = σ.proc q := by
      rw [← hσ, proc_modify_of_ne _ _ hq]
    have hcpus : σ₁.cpus = σ.cpus := by rw [← hσ]; rfl
    refine h.inHandler hinv hne (by rw [hcpu, hcpus]) (fun q => ?_) (fun q hq => ?_)
      fun q hq _ => ?_
    · by_cases hqp : q = p
      · subst hqp
        exact congrArg (·.state) hself
      · exact congrArg (·.state) (hother q hqp)
    · exact congrArg Proc.flagq (hother q fun heq => hq (heq ▸ hp))
    · cases hp.symm.trans hq
      obtain ⟨hcharged, hphase⟩ := h.running p hrun
      rw [htrap] at hphase
      rw [hcpu, show (σ₁.setTrap 0 (.yield user)).proc p = σ₁.proc p from rfl, hself]
      exact ⟨hcharged, hphase.1, rfl, le_antisymm hphase.2.2 hle⟩
  · refine hsetTrap (.recheck user) fun q hq hrun hphase => ?_
    cases hp.symm.trans hq
    cases timer with
    | false => exact hphase
    | true => exact ⟨hphase.2.1, hlt hrun rfl⟩

theorem yield (hinv : σ.core.Inv) (hinv' : σ'.core.Inv)
    (hstep : σ.yield .mlfq 0 = some (σ', e)) : Sliced ((σ, ((0, a), e)) :: hist) σ' := by
  obtain ⟨user, p, htrap, hp, rfl, hσ'⟩ := yield_eq hstep
  have hproc' : (σ'.cpus 0).proc = some p := by
    rw [hσ']
    exact hp
  have hsched (τ : Kernel 0) : (τ.sched 0).proc = τ.proc := rfl
  have hself : (σ'.proc p).state = .runnable ∧ (σ'.proc p).flagq = (σ.proc p).flagq ∧
      (σ'.proc p).slice = (σ.proc p).slice := by
    rw [hσ', hsched, proc_modify_self, proc_modify_self]
    exact ⟨rfl, rfl, rfl⟩
  refine ⟨fun q hq => ?_, fun q hq => ?_, fun q hq _ => ?_⟩
  · have hqp : q ≠ p := fun heq => hq (heq ▸ hproc')
    rw [hσ', hsched, proc_modify_of_ne _ _ hqp, proc_modify_of_ne _ _ hqp]
    exact h.flagq q fun hon => hqp (Option.mem_unique hon hp)
  · cases hproc'.symm.trans (on_cpu_of_running hinv' hq)
    cases hq.symm.trans hself.1
  · cases hproc'.symm.trans hq
    obtain ⟨hcharged, hphase⟩ := h.running p (running_of_trap hinv (by simp [htrap]) hp)
    rw [htrap] at hphase
    refine .inl ⟨hself.1, hself.2.1.trans hphase.2.1, ?_⟩
    rw [hself.2.2, ← hphase.2.2, hcharged]
    rfl

end Sliced

/-! ### The scheduler -/

/-- What neither aging nor `push` changes in an entry. -/
structure SameTally (q q' : Proc) : Prop where
  qnt : q'.qnt = q.qnt
  flagq : q'.flagq = q.flagq

namespace SameTally

theorem refl (q : Proc) : SameTally q q :=
  ⟨rfl, rfl⟩

theorem trans {q q' q'' : Proc} (h : SameTally q q') (h' : SameTally q' q'') : SameTally q q'' :=
  ⟨h'.qnt.trans h.qnt, h'.flagq.trans h.flagq⟩

theorem push (i : Level) (p : Slot) (τ : Kernel 0) (q : Slot) :
    SameTally (τ.proc q) ((τ.push i p).proc q) := by
  rcases push_cases i p τ with hsame | ⟨-, -, hproc⟩
  · rw [hsame]
    exact .refl _
  · rw [hproc]
    exact forall_modify SameTally.refl ⟨rfl, rfl⟩ q

theorem ageBody (i : Level) (τ : Kernel 0) (j : ℤ) (q : Slot) :
    SameTally (τ.proc q) ((τ.ageBody i j).proc q) := by
  unfold Kernel.ageBody
  split
  · exact .refl _
  next x hx =>
    split
    · refine trans ?_ (push (i - 1) x _ q)
      exact forall_modify (σ := { τ with rings := τ.rings.remove i x })
        (f := fun q => { q with qn := q.qn - 1 }) SameTally.refl ⟨rfl, rfl⟩ q
    · exact .refl _

theorem agePass (τ : Kernel 0) (q : Slot) : SameTally (τ.proc q) (τ.agePass.proc q) :=
  agePass_induct (I := fun υ => SameTally (τ.proc q) (υ.proc q))
    (fun i υ j h => h.trans (ageBody i υ j q)) (refl _)

end SameTally

theorem proc_popFirst (τ : Kernel 0) : τ.popFirst.2.proc = τ.proc := by
  unfold popFirst
  split <;> rfl

/-- The loop that pops the first non-empty ring takes the first entry of the ring of its level. -/
theorem head_of_popFirst {τ : Kernel 0} (h : Queues False none τ) (hp : τ.popFirst.1 = some p) :
    ∃ i, (τ.rings.live i).head? = some (some p) ∧ (τ.proc p).qn = i := by
  unfold popFirst at hp
  split at hp
  · cases hp
  next i hi =>
    have hface : τ.rings.face[i] ≠ -1 := of_find?_eq_some (P := fun i => τ.rings.face[i] ≠ -1) hi
    have hlive := Rings.live_pop (h.valid i) hface
    rw [show (τ.rings.pop i).1 = some p from hp] at hlive
    obtain ⟨q, hq, -, hqn, -⟩ := h.entry i (some p) (by rw [hlive]; exact List.mem_cons_self)
    cases hq
    exact ⟨i, by rw [hlive]; rfl, hqn⟩

/-- `p` is dispatched: it starts with no ticks, at the level of the ring from which it was taken. -/
structure TakesOver (p : Slot) (σ σ' : Kernel 0) : Prop where
  ring : ∃ i, (σ.agePass.rings.live i).head? = some (some p) ∧ (σ'.proc p).qn = i
  proc : (σ'.cpus 0).proc = some p
  trap : (σ'.cpus 0).trap = (σ.cpus 0).trap
  running : (σ'.proc p).state = .running
  curtime : (σ'.proc p).curtime = 0
  level : (σ.agePass.proc p).SameLevel (σ'.proc p)
  others : ∀ q, q ≠ p → σ'.proc q = σ.agePass.proc q

theorem takesOver_dispatch {τ : Kernel 0} (hτ : τ.proc = σ.agePass.proc)
    (htrap : (τ.cpus 0).trap = (σ.cpus 0).trap)
    (hring : ∃ i, (σ.agePass.rings.live i).head? = some (some p) ∧ (σ.agePass.proc p).qn = i) :
    TakesOver p σ (τ.dispatch .mlfq p 0) := by
  have hself : (τ.dispatch .mlfq p 0).proc p =
      { τ.proc p with
        waittime := 0, curtime := 0, nrun := (τ.proc p).nrun + 1, state := .running } := by
    unfold dispatch countRun
    rw [if_pos rfl, proc_modifyCpu, proc_modify_self, proc_modify_self, proc_modify_self]
  have hother (q : Slot) (hq : q ≠ p) : (τ.dispatch .mlfq p 0).proc q = τ.proc q := by
    unfold dispatch countRun
    rw [if_pos rfl, proc_modifyCpu, proc_modify_of_ne _ _ hq, proc_modify_of_ne _ _ hq,
      proc_modify_of_ne _ _ hq]
  rw [hτ] at hself hother
  refine ⟨?_, ?_, ?_, ?_, ?_, ?_, hother⟩
  · rw [hself]
    exact hring
  · unfold dispatch
    rw [cpus_modifyCpu_self]
  · unfold dispatch
    rw [cpus_modifyCpu_self]
    exact htrap
  · rw [hself]
  · rw [hself]
  · rw [hself]
    exact ⟨rfl, rfl, rfl⟩

/-- The scheduler finds no process, or dispatches one. -/
theorem select_cases (h : Queues False none σ) (hstep : σ.select .mlfq 0 = some (σ', e)) :
    (σ.cpus 0).ctl = .loop ∧
      (e = .silent ∧ σ'.proc = σ.agePass.proc ∧ (σ'.cpus 0).proc = (σ.cpus 0).proc ∨
      ∃ p, e = .dispatch p ∧ TakesOver p σ σ') := by
  obtain ⟨⟨hctl, -⟩, hstep⟩ := guard_bind_eq_some.mp hstep
  refine ⟨hctl, ?_⟩
  have hcore := core_pickMlfq σ
  rw [pick, pickMlfq_eq] at hstep
  rw [pickMlfq_eq] at hcore
  have hproc := proc_popFirst σ.agePass
  have hhead (p : Slot) := head_of_popFirst (p := p) (h.agePass False.elim)
  generalize σ.agePass.popFirst = popped at hstep hcore hproc hhead
  obtain ⟨found, τ⟩ := popped
  have hcpus : τ.cpus = σ.cpus := congrArg Core.cpus hcore
  dsimp only at hstep
  split at hstep
  next heq =>
    obtain ⟨-, rfl⟩ := Prod.mk.inj heq
    cases hstep
    refine .inl ⟨rfl, hproc, ?_⟩
    rw [endPass, cpus_modifyCpu_self, ← hcpus]
  next p _ heq =>
    obtain ⟨hfound, rfl⟩ := Prod.mk.inj heq
    cases hstep
    have hfound : found = some p := (Option.filter_eq_some_iff.mp hfound).1
    exact .inr ⟨p, rfl, takesOver_dispatch hproc (by rw [hcpus]) (hhead p hfound)⟩

/-- The level below. -/
def lower (qn : ℤ) : ℤ :=
  if qn ≠ 4 then qn + 1 else qn

/-- The scheduler has the CPU back from `p`: a process that is `RUNNABLE` and has used up its slice
goes down. -/
structure GoesDown (p : Slot) (σ σ' : Kernel 0) : Prop where
  others : ∀ q, q ≠ p → σ'.proc q = σ.proc q
  qnt : (σ'.proc p).qnt = (σ.proc p).qnt
  ready : (σ.proc p).state = .runnable → (σ'.proc p).flagq = false ∧
    (σ'.proc p).qn = if (σ.proc p).flagq = true then lower (σ.proc p).qn else (σ.proc p).qn
  stopped : (σ.proc p).state ≠ .runnable → σ'.proc p = σ.proc p

theorem proc_push_of_ne (i : Level) (τ : Kernel 0) (hq : q ≠ p) :
    (τ.push i p).proc q = τ.proc q := by
  rcases push_cases i p τ with hsame | ⟨-, -, hproc⟩
  · rw [hsame]
  · rw [hproc, proc_modify_of_ne _ _ hq]

theorem goesDown_requeue (p : Slot) (σ : Kernel 0) : GoesDown p σ (σ.requeue p) := by
  unfold requeue
  split
  next hrun =>
    dsimp only
    generalize hτ : σ.modify p _ = τ
    have hself : (τ.proc p).state = .runnable ∧ (τ.proc p).qnt = (σ.proc p).qnt ∧
        (τ.proc p).flagq = false ∧ (τ.proc p).qn =
          if (σ.proc p).flagq = true then lower (σ.proc p).qn else (σ.proc p).qn := by
      rw [← hτ, proc_modify_self]
      split
      · exact ⟨hrun, rfl, rfl, rfl⟩
      next hflagq => exact ⟨hrun, rfl, Bool.eq_false_iff.mpr hflagq, rfl⟩
    have hpush :=
      (Readies.push (a := level (τ.proc p).qn) (p := p) (σ := τ) (by simp [hself.1])).level p
    refine ⟨fun q hq => ?_, hpush.qnt.trans hself.2.1, fun _ => ?_, fun h => absurd hrun h⟩
    · rw [proc_push_of_ne _ τ hq, ← hτ, proc_modify_of_ne _ _ hq]
    · exact ⟨hpush.flagq.trans hself.2.2.1, hpush.qn.trans hself.2.2.2⟩
  next hrun => exact ⟨fun _ _ => rfl, rfl, fun h => absurd h hrun, fun _ => rfl⟩

theorem switched_cases (h : Queues False none σ) (hinv : σ.core.Inv)
    (hstep : σ.switched .mlfq 0 = some (σ', e)) :
    ∃ p, (σ.cpus 0).proc = some p ∧ (σ.proc p).state ≠ .running ∧ e = .silent ∧
      (σ'.cpus 0).proc = none ∧ GoesDown p σ σ' := by
  obtain ⟨⟨hctl, -⟩, hstep⟩ := guard_bind_eq_some.mp hstep
  cases hstep
  have hfits := hinv.control.fits 0
  unfold Cpu.Fits at hfits
  rw [core_cpus, hctl] at hfits
  obtain ⟨p, hp, -, hparked⟩ := hfits
  -- the scheduler's variable `p` is the process that has just given up the CPU
  have hcursor := h.cursor 0 p hp
  have hslot : (σ.cpus 0).p < NPROC := by
    rw [hcursor]
    exact p.isLt
  have hself : (⟨(σ.cpus 0).p, hslot⟩ : Slot) = p := Fin.ext hcursor
  rw [dif_pos hslot, hself]
  have hdown := goesDown_requeue p (σ.modifyCpu 0 fun k => { k with proc := none })
  refine ⟨p, hp, ?_, rfl, ?_, hdown.others, hdown.qnt, hdown.ready, hdown.stopped⟩
  · intro hrun
    rw [show (σ.core.procs p).state = .running from hrun] at hparked
    cases hparked
  · have hcore := core_requeue p (σ.modifyCpu 0 fun k => { k with proc := none })
    have hcpus := congrArg Core.cpus hcore
    rw [core_cpus] at hcpus
    rw [endPass, cpus_modifyCpu_self, hcpus, core_cpus, cpus_modifyCpu_self]

namespace Sliced

theorem select (h : Sliced hist σ) (hqueues : Queues False none σ) (hinv : σ.core.Inv)
    (hinv' : σ'.core.Inv) (hstep : σ.select .mlfq 0 = some (σ', e)) :
    Sliced ((σ, ((0, a), e)) :: hist) σ' := by
  obtain ⟨hctl, hcase⟩ := select_cases hqueues hstep
  have hnone : (σ.cpus 0).proc = none := ((hinv.control.fits 0).loop hctl).1
  have htrap : (σ.cpus 0).trap = .none := hinv.control.trap_of_locked (by rw [core_cpus, hctl]; rfl)
  -- no process is on the CPU, so that no flag is set
  have hflagq (q : Slot) : (σ.agePass.proc q).flagq = false :=
    (SameTally.agePass σ q).flagq.trans (h.flagq q (by simp [hnone]))
  rcases hcase with ⟨-, hproc, hproc'⟩ | ⟨p, rfl, hover⟩
  · rw [hnone] at hproc'
    refine ⟨fun q _ => by rw [hproc]; exact hflagq q, fun q hq => ?_, fun q hq => ?_⟩
    · cases hproc'.symm.trans (on_cpu_of_running hinv' hq)
    · cases hproc'.symm.trans hq
  · refine ⟨fun q hq => ?_, fun q hq => ?_, fun q hq hstop => ?_⟩
    · rw [hover.others q fun heq => hq (heq ▸ hover.proc)]
      exact hflagq q
    · cases hover.proc.symm.trans (on_cpu_of_running hinv' hq)
      rw [hover.trap, htrap, hover.curtime, charged_dispatch]
      refine ⟨rfl, hover.level.flagq.trans (hflagq p), ?_⟩
      rw [hover.curtime]
      exact Proc.slice_pos _
    · cases hover.proc.symm.trans hq
      exact absurd hover.running hstop

theorem switched (h : Sliced hist σ) (hqueues : Queues False none σ) (hinv : σ.core.Inv)
    (hinv' : σ'.core.Inv) (hstep : σ.switched .mlfq 0 = some (σ', e)) :
    Sliced ((σ, ((0, a), e)) :: hist) σ' := by
  obtain ⟨p, hp, hstop, rfl, hproc', hdown⟩ := switched_cases hqueues hinv hstep
  refine ⟨fun q _ => ?_, fun q hq => ?_, fun q hq => ?_⟩
  · by_cases hqp : q = p
    · subst hqp
      rcases h.left q hp hstop with ⟨hready, -⟩ | ⟨hgone, hflagq, -⟩
      · exact (hdown.ready hready).1
      · rw [hdown.stopped hgone]
        exact hflagq
    · rw [hdown.others q hqp]
      exact h.flagq q fun hon => hqp (Option.mem_unique hon hp)
  · cases hproc'.symm.trans (on_cpu_of_running hinv' hq)
  · cases hproc'.symm.trans hq

end Sliced

/-! ## The other steps -/

/-- A step that decides nothing about slices is quiet, or `allocproc` takes an entry. -/
theorem quiet_or_allocates (hinv : σ.core.Inv) (ha : a.decides = false)
    (hstep : σ.step .mlfq (0, a) = some (σ', e)) :
    Quiet σ σ' ∧ (∀ p, e ≠ .alloc p) ∨ ∃ p, e = .alloc p ∧ Allocates p σ σ' := by
  by_cases hloud : a.loud = true
  · -- the silent case of `allocproc` finds no entry
    have hsilent (h : Quiet σ σ' ∧ e = .silent) : Quiet σ σ' ∧ ∀ p, e ≠ .alloc p :=
      ⟨h.1, fun p => by rw [h.2]; nofun⟩
    cases a with
    | bootAlloc => exact (bootAlloc_cases hstep).imp_left hsilent
    | fork => exact (fork_cases hstep).imp_left hsilent
    | select | switched | changeTicks | check | yield => cases ha
    | _ => cases hloud
  · refine .inl ⟨.step hinv (Bool.eq_false_iff.mpr hloud) hstep, ?_⟩
    rintro p rfl
    have hcore : Core.Step .mlfq σ.core ((0, a), .alloc p) σ'.core := step_core hstep
    rcases hcore.of_alloc with rfl | rfl <;> exact hloud rfl

namespace Sliced

theorem undecided (h : Sliced hist σ) (hinv : σ.core.Inv) (hinv' : σ'.core.Inv)
    (ha : a.decides = false) (hstep : σ.step .mlfq (0, a) = some (σ', e)) :
    Sliced ((σ, ((0, a), e)) :: hist) σ' := by
  have hcore : Core.Step .mlfq σ.core ((0, a), e) σ'.core := step_core hstep
  obtain ⟨he, he'⟩ := hcore.event ha
  obtain ⟨hidle, hlevel, hcur⟩ :
      (∀ q, (σ.cpus 0).proc ≠ some q → (σ'.proc q).flagq = false) ∧
      (∀ q, (σ.cpus 0).proc = some q → (σ.proc q).SameLevel (σ'.proc q)) ∧
      ∀ q, (σ.proc q).state = .running → (σ'.proc q).curtime = (σ.proc q).curtime := by
    rcases quiet_or_allocates hinv ha hstep with ⟨hquiet, -⟩ | ⟨p, -, halloc⟩
    · exact ⟨fun q hq => (hquiet.level q).flagq.trans (h.flagq q hq), fun q _ => hquiet.level q,
        hquiet.curtime⟩
    · refine ⟨fun q hq => ?_, fun q hq => halloc.level q ?_, fun q hq => halloc.curtime q ?_⟩
      · by_cases hqp : q = p
        · rw [hqp]
          exact halloc.fresh.2.2.1
        · exact (halloc.level q hqp).flagq.trans (h.flagq q hq)
      · rintro rfl
        exact hinv.control.proc_ne_of_absent (.inl halloc.unused) 0 hq
      · rintro rfl
        cases halloc.unused.symm.trans hq
  rcases hcore.goes hinv ha with hgoes | ⟨p, hstops⟩
  · exact h.goes hinv' hgoes hidle hlevel hcur
      (fun q => (hcore.life hinv q).killed_of_running) he he'
  · exact h.stops hinv' hstops hidle (hlevel p hstops.proc) he he'

theorem step (h : Sliced hist σ) (hqueues : Queues False none σ) (hinv : σ.core.Inv)
    (hinv' : σ'.core.Inv) (hstep : σ.step .mlfq (0, a) = some (σ', e)) :
    Sliced ((σ, ((0, a), e)) :: hist) σ' := by
  by_cases ha : a.decides = true
  · cases a with
    | select => exact h.select hqueues hinv hinv' hstep
    | switched => exact h.switched hqueues hinv hinv' hstep
    | changeTicks => exact h.changeTicks hinv hstep
    | check => exact h.check hinv hstep
    | yield => exact h.yield hinv hinv' hstep
    | _ => cases ha
  · exact h.undecided hinv hinv' (Bool.eq_false_iff.mpr ha) hstep

theorem initial (below : Option Slot) : Sliced [] (Kernel.initial below) := by
  have hproc (p : Slot) : (Kernel.initial below : Kernel 0).proc p = .zero := by
    simp [Kernel.initial, proc]
  refine ⟨fun p _ => by rw [hproc]; rfl, fun p hp => ?_, fun p hp => ?_⟩
  · rw [hproc] at hp
    cases hp
  · cases hp

theorem of_run (hrun : (kernel .mlfq 0).Run hist σ) : Sliced hist σ := by
  induction hrun with
  | init h =>
    obtain ⟨below, rfl⟩ := h
    exact initial below
  | @step hist σ σ' l hrun hstep ih =>
    obtain ⟨⟨c, a⟩, e⟩ := l
    obtain rfl := eq_boot c
    exact ih.step (.of_run hrun False.elim) (inv_core hrun) (inv_core (hrun.step hstep)) hstep

end Sliced

/-! ## Levels and tallies -/

/-- Charging a tick to a level adds one to the tally. -/
theorem sum_of_charged {v w : Vector ℤ 5} {i : Level}
    (hw : ∀ k : Level, w[k] = if k = i then v[i] + 1 else v[k]) :
    ∑ k : Level, w[k] = ∑ k : Level, v[k] + 1 := by
  have hget (k : Level) : w[k] = v[k] + if k = i then 1 else 0 := by
    rw [hw k]
    split_ifs with hk
    · rw [hk]
    · rw [add_zero]
  simp only [hget, Finset.sum_add_distrib, Finset.sum_ite_eq', Finset.mem_univ, if_true]

/-- What a step does to levels and tallies. -/
inductive Refiles (σ σ' : Kernel 0) : Action → Event → Prop
  | quiet {a : Action} {e : Event} (ha : a.decides = false) (he : ∀ p, e ≠ .alloc p)
      (h : Quiet σ σ') : Refiles σ σ' a e
  | alloc {a : Action} {p : Slot} (ha : a.decides = false) (h : Allocates p σ σ') :
      Refiles σ σ' a (.alloc p)
  | charge (h : ∀ q, σ'.proc q = changeTicksBody .mlfq (σ.proc q)) :
    Refiles σ σ' .changeTicks .charge
  | trap {a : Action} (ha : a = .check ∨ a = .yield)
      (h : ∀ q, (σ'.proc q).qn = (σ.proc q).qn ∧ (σ'.proc q).qnt = (σ.proc q).qnt) :
      Refiles σ σ' a .silent
  | endPass (h : σ'.proc = σ.agePass.proc) : Refiles σ σ' .select .silent
  | dispatch {p : Slot} (h : TakesOver p σ σ') : Refiles σ σ' .select (.dispatch p)
  | switched {p : Slot} (hp : (σ.cpus 0).proc = some p) (hstop : (σ.proc p).state ≠ .running)
      (h : GoesDown p σ σ') : Refiles σ σ' .switched .silent

/-- A change of one entry in fields other than its level and tally. -/
theorem kept_modify {f : Proc → Proc} (hf : ∀ x, (f x).qn = x.qn ∧ (f x).qnt = x.qnt) (τ : Kernel 0)
    (p q : Slot) : ((τ.modify p f).proc q).qn = (τ.proc q).qn ∧
      ((τ.modify p f).proc q).qnt = (τ.proc q).qnt :=
  forall_modify (R := fun x x' => x'.qn = x.qn ∧ x'.qnt = x.qnt) (fun _ => ⟨rfl, rfl⟩) (hf _) q

theorem refiles (hqueues : Queues False none σ) (hinv : σ.core.Inv)
    (hstep : σ.step .mlfq (0, a) = some (σ', e)) : Refiles σ σ' a e := by
  by_cases ha : a.decides = true
  · cases a with
    | select =>
      obtain ⟨-, ⟨rfl, hproc, -⟩ | ⟨p, rfl, hover⟩⟩ := select_cases hqueues hstep
      · exact .endPass hproc
      · exact .dispatch hover
    | switched =>
      obtain ⟨p, hp, hstop, rfl, -, hdown⟩ := switched_cases hqueues hinv hstep
      exact .switched hp hstop hdown
    | changeTicks =>
      obtain ⟨user, -, rfl, hproc, -⟩ := changeTicks_eq hstep
      exact .charge hproc
    | check =>
      obtain ⟨timer, user, -, rfl,
          ⟨-, rfl⟩ | ⟨p, -, ⟨-, -, rfl⟩ | ⟨-, -, -, -, rfl⟩ | ⟨-, -, rfl⟩⟩⟩ :=
        check_cases hstep
      · exact .trap (.inl rfl) fun _ => ⟨rfl, rfl⟩
      · exact .trap (.inl rfl) fun _ => ⟨rfl, rfl⟩
      · exact .trap (.inl rfl) (kept_modify (f := fun x => { x with flagq := true })
          (fun _ => ⟨rfl, rfl⟩) σ p)
      · exact .trap (.inl rfl) fun _ => ⟨rfl, rfl⟩
    | yield =>
      obtain ⟨user, cur, -, -, rfl, rfl⟩ := yield_eq hstep
      refine .trap (.inr rfl) fun q => ?_
      have hreset := kept_modify (f := fun x => { x with curtime := 0, waittime := 0 })
        (fun _ => ⟨rfl, rfl⟩) σ cur q
      have hready (τ : Kernel 0) := kept_modify
        (f := fun x => { x with state := .runnable, context := .yield user })
        (fun _ => ⟨rfl, rfl⟩) τ cur q
      exact ⟨(hready _).1.trans hreset.1, (hready _).2.trans hreset.2⟩
    | _ => cases ha
  · have ha := Bool.eq_false_iff.mpr ha
    rcases quiet_or_allocates hinv ha hstep with ⟨hquiet, he⟩ | ⟨p, rfl, halloc⟩
    · exact .quiet ha he hquiet
    · exact .alloc ha halloc

theorem sum_replicate_zero : ∑ i : Level, (Vector.replicate 5 (0 : ℤ))[i] = 0 := by
  decide

/-- The ticks of the levels add up to the running time. -/
theorem runtime_eq_sum (hrun : (kernel .mlfq 0).Run hist σ) (p : Slot) :
    (σ.proc p).runtime = ∑ i : Level, (σ.proc p).qnt[i] := by
  induction hrun with
  | init h =>
    obtain ⟨below, rfl⟩ := h
    have hproc : (Kernel.initial below : Kernel 0).proc p = .zero := by simp [Kernel.initial, proc]
    rw [hproc]
    exact sum_replicate_zero.symm
  | @step hist σ σ' l hrun hstep ih =>
    obtain ⟨⟨c, a⟩, e⟩ := l
    obtain rfl := eq_boot c
    have hinv := inv_core hrun
    have hcore : Core.Step .mlfq σ.core ((0, a), e) σ'.core := step_core hstep
    have hlife := hcore.life hinv p
    -- where no tick is charged and the entry is not allocated, neither side changes
    have hsame (hqnt : (σ'.proc p).qnt = (σ.proc p).qnt) (hcharge : e ≠ .charge)
        (halloc : e ≠ .alloc p) : (σ'.proc p).runtime = ∑ i : Level, (σ'.proc p).qnt[i] := by
      rw [hqnt, ← ih]
      exact hlife.runtime_eq hcharge halloc
    cases refiles (.of_run hrun False.elim) hinv hstep with
    | quiet ha he h => exact hsame (h.level p).qnt (hcore.event ha).2 (he p)
    | @alloc _ q ha h =>
      by_cases hpq : p = q
      · subst hpq
        rw [h.fresh.2.1, sum_replicate_zero]
        exact hlife.runtime_of_alloc
      · exact hsame (h.level p hpq).qnt (by simp) fun heq => hpq (Event.alloc.inj heq).symm
    | charge h =>
      rw [h p, changeTicksBody, if_pos rfl]
      split_ifs
      · exact ih
      · dsimp only
        rw [sum_of_charged fun k => getElem_set_level .., ih]
    | trap ha h => exact hsame (h p).2 (by simp) (by simp)
    | endPass h => exact hsame (by rw [h]; exact (SameTally.agePass σ p).qnt) (by simp) (by simp)
    | @dispatch q h =>
      refine hsame (Eq.trans ?_ (SameTally.agePass σ p).qnt) (by simp) (by simp)
      by_cases hpq : p = q
      · subst hpq
        exact h.level.qnt
      · rw [h.others p hpq]
    | @switched q hq hstop h =>
      refine hsame ?_ (by simp) (by simp)
      by_cases hpq : p = q
      · subst hpq
        exact h.qnt
      · rw [h.others p hpq]

/-! ## Slices are enforced -/

/-- What holds of the slices in a state. -/
structure Enforced (hist : List (Kernel 0 × Label 0)) (σ : Kernel 0) : Prop where
  /-- Outside the timer handler. -/
  below : ∀ p, (σ.proc p).state = .running → (σ.cpus 0).trap = .none ∨ inTimer hist = false →
    (σ.proc p).curtime < (σ.proc p).slice
  curtime : ∀ p, (σ.proc p).state = .running → (σ.proc p).curtime = charged p hist
  charged_le : ∀ p, (σ.cpus 0).proc = some p → charged p hist ≤ (σ.proc p).slice
  /-- A process that sleeps or ends after its last tick has been killed. -/
  killed : ∀ p, (σ.cpus 0).proc = some p → charged p hist = (σ.proc p).slice →
    (σ.proc p).state = .sleeping ∨ (σ.proc p).state = .zombie → (σ.proc p).killed = true
  qn : ∀ p, 0 ≤ (σ.proc p).qn ∧ (σ.proc p).qn ≤ 4
  runtime : ∀ p, (σ.proc p).runtime = ∑ i : Level, (σ.proc p).qnt[i]

/-- What a step does to the level of `p`. -/
structure MovesLevel (hist : List (Kernel 0 × Label 0)) (σ : Kernel 0) (a : Action) (e : Event)
    (σ' : Kernel 0) (p : Slot) : Prop where
  /-- The scheduler has the CPU back from `p`. -/
  down : a = .switched → (σ.cpus 0).proc = some p → (σ'.proc p).qn =
    if charged p hist = (σ.proc p).slice ∧ (σ.proc p).state = .runnable then lower (σ.proc p).qn
    else (σ.proc p).qn
  /-- The scheduler has moved up the processes that have waited for too long. -/
  up : a = .select → (σ'.proc p).qn = (σ.proc p).qn ∨
    σ.overdue (some p) = true ∧ (σ'.proc p).qn = (σ.proc p).qn - 1
  dispatch : e = .dispatch p →
    ∃ i, (σ.agePass.rings.live i).head? = some (some p) ∧ (σ'.proc p).qn = i
  alloc : e = .alloc p → (σ'.proc p).qn = 0
  kept : (a = .switched → (σ.cpus 0).proc ≠ some p) → a ≠ .select → e ≠ .alloc p →
    (σ'.proc p).qn = (σ.proc p).qn

theorem Phase.below {timer : Bool} {t : Trap} (h : Phase timer t x)
    (hout : t = .none ∨ timer = false) : x.curtime < x.slice := by
  rcases hout with rfl | rfl
  · exact h.2
  · cases t with
    | none | recheck => exact h.2
    | ticked | charged | yield => cases h.1
    | check timer => cases timer with
      | true => cases h.1
      | false => exact h.2
    | exit => exact h.2.resolve_right fun hused => Bool.noConfusion hused.1
    | preempt => exact h.elim

theorem Phase.le {timer : Bool} {t : Trap} (h : Phase timer t x) : x.curtime ≤ x.slice := by
  cases t with
  | none | recheck => exact h.2.le
  | ticked | yield => exact h.2.2.le
  | charged => exact h.2.2
  | check timer => cases timer with
    | true => exact h.2.2
    | false => exact h.2.le
  | exit => exact h.2.elim le_of_lt fun hused => hused.2.2.le
  | preempt => exact h.elim

theorem Left.le {k : ℕ} (h : Left k x) : k ≤ x.slice := by
  rcases h with ⟨-, -, hk⟩ | ⟨-, -, hk | ⟨hk, -⟩⟩
  · exact hk.le
  · exact hk.le
  · exact hk.le

theorem enforced (hrun : (kernel .mlfq 0).Run hist σ) : Enforced hist σ := by
  have h := Sliced.of_run hrun
  have hqueues : Queues False none σ := .of_run hrun False.elim
  refine ⟨fun p hp hout => (h.running p hp).2.below hout, fun p hp => (h.running p hp).1,
    fun p hp => ?_, fun p hp hk hgone => ?_, hqueues.qn, runtime_eq_sum hrun⟩
  · by_cases hstate : (σ.proc p).state = .running
    · obtain ⟨hcharged, hphase⟩ := h.running p hstate
      rw [← hcharged]
      exact hphase.le
    · exact (h.left p hp hstate).le
  · have hstop : (σ.proc p).state ≠ .running ∧ (σ.proc p).state ≠ .runnable := by
      rcases hgone with hgone | hgone <;> simp [hgone]
    rcases h.left p hp hstop.1 with ⟨hready, -⟩ | ⟨-, -, hlt | ⟨-, hkilled⟩⟩
    · exact absurd hready hstop.2
    · exact absurd hk hlt.ne
    · exact hkilled

theorem movesLevel (hrun : (kernel .mlfq 0).Run hist σ)
    (hstep : σ.step .mlfq (0, a) = some (σ', e)) (p : Slot) : MovesLevel hist σ a e σ' p := by
  have h := Sliced.of_run hrun
  have hqueues : Queues False none σ := .of_run hrun False.elim
  have haged := hqueues.filed.aged
  have hup : (σ.agePass.proc p).qn = (σ.proc p).qn ∨
      σ.overdue (some p) = true ∧ (σ.agePass.proc p).qn = (σ.proc p).qn - 1 := by
    rcases haged.procs p with hsame | ⟨hqn, hold, -⟩
    · exact .inl (by rw [hsame])
    · exact .inr ⟨hold, hqn⟩
  have hcore : Core.Step .mlfq σ.core ((0, a), e) σ'.core := step_core hstep
  cases refiles hqueues (inv_core hrun) hstep with
  | quiet ha he hquiet =>
    refine ⟨?_, ?_, fun hd => absurd hd ((hcore.event ha).1 p), fun hd => absurd hd (he p),
      fun _ _ _ => (hquiet.level p).qn⟩ <;> rintro rfl <;> cases ha
  | @alloc _ q ha halloc =>
    refine ⟨?_, ?_, by simp, fun heq => ?_, fun _ _ hne => ?_⟩
    · rintro rfl
      cases ha
    · rintro rfl
      cases ha
    · cases heq
      exact halloc.fresh.1
    · exact (halloc.level p fun heq => hne (by rw [heq])).qn
  | charge hproc =>
    refine ⟨by simp, by simp, by simp, by simp, fun _ _ _ => ?_⟩
    rw [hproc p, changeTicksBody]
    split_ifs <;> rfl
  | trap ha hkept =>
    refine ⟨?_, ?_, by simp, by simp, fun _ _ _ => (hkept p).1⟩ <;> rintro rfl <;>
      rcases ha with ha | ha <;> cases ha
  | endPass hproc =>
    refine ⟨by simp, fun _ => ?_, by simp, by simp, fun _ hne => absurd rfl hne⟩
    rw [hproc]
    exact hup
  | @dispatch q hover =>
    refine ⟨by simp, fun _ => ?_, fun heq => ?_, by simp, fun _ hne => absurd rfl hne⟩
    · by_cases hpq : p = q
      · subst hpq
        rw [hover.level.qn]
        exact hup
      · rw [hover.others p hpq]
        exact hup
    · cases heq
      exact hover.ring
  | @switched q hq hstop hdown =>
    refine ⟨fun _ hp => ?_, by simp, by simp, by simp, fun hne _ _ => ?_⟩
    · cases hq.symm.trans hp
      rcases h.left p hp hstop with ⟨hready, hflagq, hk⟩ | ⟨hgone, -, hk⟩
      · rw [(hdown.ready hready).2, if_pos hflagq, if_pos ⟨hk, hready⟩]
      · rw [hdown.stopped hgone, if_neg fun h => hgone h.2]
    · rw [hdown.others p fun heq => hne rfl (heq ▸ hq)]

/-- init uses up its slice while it runs user code. -/
def usesSlice : List (CpuId 0 × Action) :=
  startInit ++ onCpu 0 [.timer true, .changeTicks, .wakeupTicks, .check, .yield, .swtch]

/-- init forks a child and kills it before it has run, and the child runs for one tick. -/
def killedRuns : List (CpuId 0 × Action) :=
  startInit ++ forkOn 0 ++ onCpu 0 [.kill 2, .sleep (.other 0), .swtch, .switched, .acquire,
    .select, .resume, .timer true, .changeTicks, .wakeupTicks, .check, .exit, .swtch]

end Kernel

end Xv6
