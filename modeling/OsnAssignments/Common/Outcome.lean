import Mathlib.Tactic.Common

/-!
# Computations that may fail and may run out of fuel

In `ExceptT ε Option α` the outcome `none` means that the fuel did not suffice, `throw e` that the
computation failed with `e`, and `pure a` that it returned `a`. `Ends E P r` is total correctness:
the computation does end, it fails only as `E` says, and what it returns satisfies `P`.
-/

namespace Outcome

variable {ε α β : Type} {E E' : ε → Prop} {P P' : α → Prop} {Q : β → Prop}

/-- The computation has an outcome, which is a failure in `E` or a value in `P`. -/
def Ends (E : ε → Prop) (P : α → Prop) (r : ExceptT ε Option α) : Prop :=
  (∃ e, r = throw e ∧ E e) ∨ ∃ a, r = pure a ∧ P a

theorem Ends.pure {a : α} (h : P a) : Ends E P (pure a) :=
  .inr ⟨a, rfl, h⟩

theorem Ends.throw {e : ε} (h : E e) : Ends E P (throw e) :=
  .inl ⟨e, rfl, h⟩

theorem Ends.mono {r : ExceptT ε Option α} (h : Ends E P r) (hE : ∀ e, E e → E' e)
    (hP : ∀ a, P a → P' a) : Ends E' P' r :=
  h.imp (fun ⟨e, hr, he⟩ => ⟨e, hr, hE e he⟩) fun ⟨a, hr, ha⟩ => ⟨a, hr, hP a ha⟩

/-- The rule of composition. -/
theorem Ends.bind {r : ExceptT ε Option α} {f : α → ExceptT ε Option β} (h : Ends E P r)
    (hf : ∀ a, P a → Ends E Q (f a)) : Ends E Q (r >>= f) := by
  rcases h with ⟨e, rfl, he⟩ | ⟨a, rfl, ha⟩
  · exact .inl ⟨e, rfl, he⟩
  · exact hf a ha

/-- What is returned satisfies the postcondition. -/
theorem Ends.of_eq_pure {r : ExceptT ε Option α} {a : α} (h : Ends E P r) (hr : r = Pure.pure a) :
    P a := by
  rcases h with ⟨e, rfl, -⟩ | ⟨b, rfl, hb⟩
  · cases Option.some.inj hr
  · exact Except.ok.inj (Option.some.inj hr) ▸ hb

end Outcome
