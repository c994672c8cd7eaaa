import Mathlib.Data.List.Basic
import Mathlib.Tactic.Common

/-!
# Runs of labelled transition systems

A system has initial states and labelled steps. A run is recorded as its history: the list,
newest step first, of the state each step starts in together with the step's label. Facts about
one state, about whole histories, and about the runs all of whose steps meet a condition are
then proved by the same induction.
-/

namespace Transition

/-- A labelled transition system: its initial states and its steps. -/
structure System (S L : Type*) where
  /-- The states a run may start in. -/
  init : S → Prop
  /-- `step s l s'`: the system can move from `s` to `s'` with label `l`. -/
  step : S → L → S → Prop

namespace System

variable {S S' L : Type*} {T : System S L} {hist : List (S × L)} {s : S}

/-- `T.Run hist s`: some run of `T` ends in `s`, and `hist` lists its steps, newest first, each
as the state it starts in and its label. -/
inductive Run (T : System S L) : List (S × L) → S → Prop
  | init {s : S} : T.init s → Run T [] s
  | step {hist : List (S × L)} {s s' : S} {l : L} :
      Run T hist s → T.step s l s' → Run T ((s, l) :: hist) s'

/-- A predicate on histories and states that holds initially and is preserved by every step
holds at the end of every run. -/
theorem Run.historyInvariant {I : List (S × L) → S → Prop} (hinit : ∀ s, T.init s → I [] s)
    (hstep : ∀ hist s l s', T.Run hist s → I hist s → T.step s l s' → I ((s, l) :: hist) s')
    (hrun : T.Run hist s) : I hist s := by
  induction hrun with
  | init h => exact hinit _ h
  | step hr hs ih => exact hstep _ _ _ _ hr ih hs

/-- A predicate on states that holds initially and is preserved by every step holds at the end
of every run. -/
theorem Run.invariant {I : S → Prop} (hinit : ∀ s, T.init s → I s)
    (hstep : ∀ s l s', I s → T.step s l s' → I s') (hrun : T.Run hist s) : I s :=
  Run.historyInvariant (I := fun _ s => I s) hinit
    (fun _ _ _ _ _ hI hs => hstep _ _ _ hI hs) hrun

/-- The conditional form of `Run.invariant`: the steps that meet `G` preserve `I`, so `I` holds
at the end of every run whose steps all meet `G`. -/
theorem Run.invariant_of_forall {I : S → Prop} {G : S → L → Prop} (hinit : ∀ s, T.init s → I s)
    (hstep : ∀ s l s', I s → G s l → T.step s l s' → I s')
    (hrun : T.Run hist s) (hG : ∀ x ∈ hist, G x.1 x.2) : I s := by
  induction hrun with
  | init h => exact hinit _ h
  | step hr hs ih =>
    have hlast := hG _ List.mem_cons_self
    exact hstep _ _ _ (ih fun x hx => hG x (List.mem_cons_of_mem _ hx)) hlast hs

/-- `Run.invariant_of_forall` with a rank: if every step that meets `G` lowers the rank that comes
with `I`, then a run of such steps has at most as many as the rank of the initial states. -/
theorem Run.rankedInvariant {I : S → ℕ → Prop} {G : S → L → Prop} {n₀ : ℕ}
    (hinit : ∀ s, T.init s → I s n₀)
    (hstep : ∀ s l s' n, I s n → G s l → T.step s l s' → ∃ n' < n, I s' n')
    (hrun : T.Run hist s) (hG : ∀ x ∈ hist, G x.1 x.2) : ∃ n, I s n ∧ hist.length + n ≤ n₀ := by
  induction hrun with
  | init h => exact ⟨n₀, hinit _ h, by simp⟩
  | @step hist s s' l hr hs ih =>
    obtain ⟨n, hI, hle⟩ := ih fun x hx => hG x (List.mem_cons_of_mem _ hx)
    obtain ⟨n', hlt, hI'⟩ := hstep s l s' n hI (hG _ List.mem_cons_self) hs
    refine ⟨n', hI', ?_⟩
    rw [List.length_cons]
    omega

/-- Every step of a run is a step of the system, from the end of an initial part of that run. -/
theorem Run.exists_step (hrun : T.Run hist s) {x : S × L} (hx : x ∈ hist) :
    ∃ hist' s', T.Run hist' x.1 ∧ T.step x.1 x.2 s' := by
  induction hrun with
  | init => cases hx
  | @step hist s s' l hr hs ih =>
    rcases List.mem_cons.mp hx with rfl | hx
    · exact ⟨hist, s', hr, hs⟩
    · exact ih hx

/-- A map on states that sends initial states to initial states and steps to steps with the same
label sends every run to a run. -/
theorem Run.simulation {T' : System S' L} (f : S → S') (hinit : ∀ s, T.init s → T'.init (f s))
    (hstep : ∀ hist s l s', T.Run hist s → T.step s l s' → T'.step (f s) l (f s'))
    (hrun : T.Run hist s) : T'.Run (hist.map (Prod.map f id)) (f s) := by
  induction hrun with
  | init h => exact .init (hinit _ h)
  | step hr hs ih => exact .step ih (hstep _ _ _ _ hr hs)

end System

/-! ## Systems whose step is a partial function -/

section Function

/-- A partial function that starts with a test succeeds when the test and the rest do. -/
theorem guard_bind_eq_some {α : Type} {p : Prop} [Decidable p] {f : Unit → Option α} {a : α} :
    (guard p >>= f) = some a ↔ p ∧ f () = some a := by
  by_cases hp : p <;> simp [hp, guard]

variable {S A E : Type*} (start : S → Prop) (next : S → A → Option (S × E))

/-- The system whose steps are those of the partial function `next`; a step is labelled with the
action and with what `next` reports about it. -/
def ofFun : System S (A × E) where
  init := start
  step s l s' := next s l.1 = some (s', l.2)

/-- Perform the actions in order, stopping with `none` at the first one that is not enabled, and
add the steps to the history `later`. -/
def exec : List (S × (A × E)) → S → List A → Option (List (S × (A × E)) × S)
  | later, s, [] => some (later, s)
  | later, s, a :: as =>
    match next s a with
    | some (s', e) => exec ((s, (a, e)) :: later) s' as
    | none => none

variable {start next}

/-- Executing actions from the end of a run extends the run. -/
theorem run_of_exec (later : List (S × (A × E))) {hist later' : List (S × (A × E))} {s s' : S}
    {as : List A} (hrun : (ofFun start next).Run (later ++ hist) s)
    (h : exec next later s as = some (later', s')) :
    (ofFun start next).Run (later' ++ hist) s' := by
  induction as generalizing later s with
  | nil =>
    obtain ⟨rfl, rfl⟩ : later = later' ∧ s = s' := by simpa [exec] using h
    exact hrun
  | cons a as ih =>
    rw [exec] at h
    cases hn : next s a with
    | none => simp [hn] at h
    | some r => exact ih _ (hrun.step (l := (a, r.2)) hn) (by simpa [hn] using h)

/-- Whatever a Boolean test finds after an execution from an initial state is found at the end
of some run. -/
theorem exists_run_of_exec_any {s : S} {as : List A} {P : List (S × (A × E)) → S → Bool}
    (hs : start s) (h : (exec next [] s as).any (fun r => P r.1 r.2) = true) :
    ∃ hist s', (ofFun start next).Run hist s' ∧ P hist s' = true := by
  obtain ⟨⟨hist, s'⟩, hexec, hP⟩ := (Option.any_eq_true _ _).mp h
  have hrun : (ofFun start next).Run (hist ++ []) s' := run_of_exec [] (.init hs) hexec
  rw [List.append_nil] at hrun
  exact ⟨hist, s', hrun, hP⟩

end Function

end Transition
