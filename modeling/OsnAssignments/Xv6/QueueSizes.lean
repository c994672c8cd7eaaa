import Mathlib
import OsnAssignments.Xv6.QueueRuns
import OsnAssignments.Xv6.QueueSteps

/-!
# The size counters of the ready queues

`push` increments `sz[a]` and `pop` decrements it, so that calls of these two keep `sz` in step with
the rings (`Sized.of_calls`). `remove` does not touch `sz`. It is called when a process has waited
for more than `age` ticks, and from then on the counter of the ring that has lost the process is too
large.
-/

namespace Xv6

open Loop Transition

variable {n : ℕ}

namespace Rings

variable {r r' : Rings} {a : Level} {b : Slot}

/-- The counters say how many entries the rings hold. -/
structure Sized (r : Rings) : Prop where
  valid : r.Valid
  size : ∀ i, r.sz[i] = (r.live i).length

theorem sized_empty (below : Option Slot) : (empty below).Sized := by
  refine ⟨valid_empty below, fun i => ?_⟩
  rw [live_empty]
  exact getElem_replicate_level 0 i

theorem Sized.pushed (h : r.Sized) : (r.pushed a b).Sized := by
  unfold Rings.pushed
  cases hpush : r.push a b with
  | none => exact h
  | some =>
    obtain ⟨rfl, hroom⟩ := of_push_eq_some hpush
    refine ⟨valid_enqueue h.valid a b, fun i => ?_⟩
    have hsz : (r.enqueue a b).sz[i] = if i = a then r.sz[a] + 1 else r.sz[i] :=
      getElem_set_level ..
    rw [Option.getD_some, hsz]
    by_cases hi : i = a
    · subst hi
      rw [if_pos rfl, live_enqueue h.valid hroom, h.size i, List.length_append]
      simp
    · rw [if_neg hi, live_enqueue_of_ne h.valid hi]
      exact h.size i

theorem Sized.pop (h : r.Sized) : (r.pop a).2.Sized := by
  refine ⟨valid_pop h.valid a, fun i => ?_⟩
  by_cases hempty : r.face[a] = -1
  · have hsame : (r.pop a).2 = r := by rw [Rings.pop, if_pos hempty]
    rw [hsame]
    exact h.size i
  have hsz : (r.pop a).2.sz[i] = if i = a then r.sz[a] - 1 else r.sz[i] := by
    unfold Rings.pop
    rw [if_neg hempty]
    split_ifs <;> simp_all [getElem_set_level]
  rw [hsz]
  by_cases hi : i = a
  · subst hi
    rw [if_pos rfl, h.size i, live_pop (h.valid i) hempty, List.length_cons]
    push_cast
    omega
  · rw [if_neg hi, live_pop_of_ne hi]
    exact h.size i

theorem Sized.of_calls (h : r.Sized) (hcalls : r.Calls r') : r'.Sized := by
  induction hcalls with
  | refl => exact h
  | tail _ hcall ih =>
    cases hcall with
    | push => exact ih.pushed
    | pop => exact ih.pop

end Rings

namespace Kernel

variable {σ σ' : Kernel n} {c : CpuId n} {e : Event} {p : Slot}

/-! ## Steps without aging -/

/-- No process in the rings `1` to `4` has waited for more than `age` ticks. -/
def NoneOld (σ : Kernel n) : Prop :=
  ∀ i : Level, i ≠ 0 → ∀ p : Slot, some p ∈ σ.rings.live i → (σ.proc p).waittime ≤ age

instance (σ : Kernel n) : Decidable σ.NoneOld :=
  inferInstanceAs (Decidable (∀ _, _ → _))

section

variable (hv : σ.rings.Valid)
include hv

theorem ageBody_eq_self {i : Level} {j : ℤ} (hold : σ.NoneOld) (hi : i ≠ 0)
    (hj : CircularBuffer.Occupied NPROC σ.rings.face[i] σ.rings.back[i] j) : σ.ageBody i j = σ := by
  unfold ageBody
  cases hget : σ.rings.get i j with
  | none => rfl
  | some p =>
    have hp := hold i hi p ((Rings.mem_live (hv i)).mpr ⟨j, hj, hget⟩)
    exact if_neg (not_lt.mpr hp)

theorem ageRing_eq_self {i : Level} (hold : σ.NoneOld) (hi : i ≠ 0) : σ.ageRing i = σ := by
  have hvi := hv i
  unfold CircularBuffer.Valid at hvi
  unfold ageRing
  -- each loop goes through indices that hold entries
  split_ifs with hempty hle
  · rfl
  · refine forLoop_eq_self (fun j hj hguard => ageBody_eq_self hv hold hi ?_) _
    have : j ≤ σ.rings.back[i] := by simpa [ageGuard] using hguard
    exact ⟨hempty, .inl ⟨hle, hj, this⟩⟩
  · have hhigh :
        forLoop (fun _ j => decide (j < NPROC)) (ageBody i) NPROC σ.rings.face[i] σ = σ := by
      refine forLoop_eq_self (fun j hj hguard => ageBody_eq_self hv hold hi ?_) _
      exact ⟨hempty, .inr ⟨by omega, .inl ⟨hj, of_decide_eq_true hguard⟩⟩⟩
    dsimp only
    rw [hhigh]
    refine forLoop_eq_self (fun j hj hguard => ageBody_eq_self hv hold hi ?_) _
    have : j ≤ σ.rings.back[i] := by simpa [ageGuard] using hguard
    exact ⟨hempty, .inr ⟨by omega, .inr ⟨hj, this⟩⟩⟩

theorem agePass_eq_self (hold : σ.NoneOld) : σ.agePass = σ := by
  simp [agePass, ageRing_eq_self hv hold]

end

theorem calls_popFirst (σ : Kernel n) : σ.rings.Calls σ.popFirst.2.rings := by
  unfold popFirst
  split
  · exact .refl
  next i _ => exact .single (.pop i)

theorem calls_select (hv : σ.rings.Valid) (hold : σ.NoneOld)
    (hstep : σ.select .mlfq c = some (σ', e)) : σ.rings.Calls σ'.rings := by
  obtain ⟨-, hstep⟩ := guard_bind_eq_some.mp hstep
  have hpick : (σ.pick .mlfq (σ.cpus c).p).2 = σ.popFirst.2 := by
    rw [pick, pickMlfq_eq, agePass_eq_self hv hold]
  have hcalls := calls_popFirst σ
  rw [← hpick] at hcalls
  generalize σ.pick .mlfq (σ.cpus c).p = picked at hstep hcalls
  obtain ⟨_ | p, σ₁⟩ := picked
  · cases hstep
    exact hcalls
  · cases hstep
    exact hcalls

theorem calls_switched (hstep : σ.switched .mlfq c = some (σ', e)) : σ.rings.Calls σ'.rings := by
  obtain ⟨-, hstep⟩ := guard_bind_eq_some.mp hstep
  cases hstep
  change σ.rings.Calls (dite _ _ _ : Kernel n).rings
  split
  · unfold requeue
    split
    · dsimp only
      rw [rings_push]
      exact .single (.push _ _)
    · exact .refl
  · exact .refl

/-- A step in which no process ages calls `push` and `pop` only. -/
theorem calls_step {a : Action} (hinv : σ.core.Inv) (hv : σ.rings.Valid)
    (hold : a = .select → σ.NoneOld) (hstep : σ.step .mlfq (c, a) = some (σ', e)) :
    σ.rings.Calls σ'.rings := by
  have halloc (h : Quiet σ σ' ∧ e = .silent ∨ ∃ p, e = .alloc p ∧ Allocates p σ σ') :
      σ.rings.Calls σ'.rings := by
    rcases h with ⟨hquiet, -⟩ | ⟨p, -, halloc⟩
    · exact hquiet.calls
    · exact halloc.rings ▸ .refl
  by_cases hloud : a.loud = false
  · exact (Quiet.step hinv hloud hstep).calls
  cases a with
  | bootAlloc => exact halloc (bootAlloc_cases hstep)
  | fork => exact halloc (fork_cases hstep)
  | select => exact calls_select hv (hold rfl) hstep
  | switched => exact calls_switched hstep
  | changeTicks =>
    obtain ⟨user, -, -, -, hrings, -⟩ := changeTicks_eq hstep
    exact hrings ▸ .refl
  | check =>
    obtain ⟨timer, user, -, -, ⟨-, rfl⟩ | ⟨p, -, ⟨-, -, rfl⟩ | ⟨-, -, -, -, rfl⟩ | ⟨-, -, rfl⟩⟩⟩ :=
      check_cases hstep <;> exact .refl
  | yield =>
    obtain ⟨user, cur, -, -, -, rfl⟩ := yield_eq hstep
    exact .refl
  | _ => exact absurd rfl hloud

/-! ## The counters along a run -/

/-- In every run in which no scheduler finds a process that has waited for more than `age` ticks
in the rings `1` to `4`, each counter is the number of entries of its ring. -/
theorem sizes_exact {hist : List (Kernel n × Label n)} (hrun : (kernel .mlfq n).Run hist σ)
    (hold : ∀ x ∈ hist, x.2.1.2 = .select → x.1.NoneOld) (i : Level) :
    σ.rings.sz[i] = (σ.rings.live i).length := by
  suffices h : σ.rings.Sized from h.size i
  induction hrun with
  | init h =>
    obtain ⟨below, rfl⟩ := h
    exact Rings.sized_empty below
  | @step hist σ σ' l hrun hstep ih =>
    have hsized := ih fun x hx => hold x (List.mem_cons_of_mem _ hx)
    have hlast := hold (σ, l) List.mem_cons_self
    exact hsized.of_calls (calls_step (inv_core hrun) hsized.valid hlast hstep)

/-- Nineteen children of init are ready, and init uses up its slice. -/
def crowd : List (CpuId 0 × Action) :=
  startInit ++ (List.replicate 19 (forkOn 0)).flatten ++
    onCpu 0 [.timer true, .changeTicks, .wakeupTicks, .check, .yield, .swtch, .switched]

/-- The next process runs until its slice is used up. -/
def slice : List (CpuId 0 × Action) :=
  onCpu 0 [.acquire, .select, .resume, .timer true, .changeTicks, .wakeupTicks, .check, .yield,
    .swtch, .switched]

/-- init waits in ring `1`, and none of its children has run. -/
theorem sizes_exact_crowd :
    ∃ (hist : List (Kernel 0 × Label 0)) (σ : Kernel 0), (kernel .mlfq 0).Run hist σ ∧
      (∀ x ∈ hist, x.2.1.2 = .select → x.1.NoneOld) ∧ (σ.rings.live 0).length = 19 ∧
      σ.rings.sz[(0 : Level)] = 19 := by
  obtain ⟨hist, σ, hrun, hσ⟩ := exists_run (n := 0) .mlfq crowd
    (fun hist σ => decide ((∀ x ∈ hist, x.2.1.2 = .select → x.1.NoneOld) ∧
      (σ.rings.live 0).length = 19)) (by decide +kernel)
  obtain ⟨hold, hlen⟩ := of_decide_eq_true hσ
  refine ⟨hist, σ, hrun, hold, hlen, ?_⟩
  rw [sizes_exact hrun hold 0, hlen]
  rfl

/-- The children run one tick each. Then init has waited for 19 ticks; the scheduler moves it from
ring `1` to ring `0` and dispatches it. Ring `1` holds the 19 children, and its counter says 20. -/
theorem not_sizes_exact :
    ∃ (hist : List (Kernel 0 × Label 0)) (σ : Kernel 0), (kernel .mlfq 0).Run hist σ ∧
      (σ.rings.live 1).length = 19 ∧ σ.rings.sz[(1 : Level)] = 20 := by
  obtain ⟨hist, σ, hrun, hσ⟩ := exists_run (n := 0) .mlfq
    (crowd ++ (List.replicate 19 slice).flatten ++ onCpu 0 [.acquire, .select])
    (fun _ σ => decide ((σ.rings.live 1).length = 19 ∧ σ.rings.sz[(1 : Level)] = 20))
    (by decide +kernel)
  exact ⟨hist, σ, hrun, of_decide_eq_true hσ⟩

end Kernel

end Xv6
