import Mathlib.Logic.Function.Basic
import Mathlib.Tactic.Common

/-!
# Sequences of writes

A store maps addresses to values, and a write gives one address a new value. A crash leaves the
store after some of the first writes of a sequence. Performing a part of a sequence and then all of
it is the same as performing all of it.
-/

namespace Writes

open Function

variable {ι β : Type*} [DecidableEq ι]

/-- The store after the writes `ws`, performed in order. -/
def apply (d : ι → β) (ws : List (ι × β)) : ι → β :=
  ws.foldl (fun d w => update d w.1 w.2) d

variable {d d' : ι → β} {ws : List (ι × β)} {x : ι}

@[simp]
theorem apply_nil (d : ι → β) : apply d [] = d := rfl

@[simp]
theorem apply_cons (d : ι → β) (w : ι × β) (ws : List (ι × β)) :
    apply d (w :: ws) = apply (update d w.1 w.2) ws := rfl

theorem apply_append (d : ι → β) (ws ws' : List (ι × β)) :
    apply d (ws ++ ws') = apply (apply d ws) ws' := by
  rw [apply, List.foldl_append]
  rfl

theorem apply_singleton_of_ne {w : ι × β} (h : w.1 ≠ x) : apply d [w] x = d x :=
  update_of_ne h.symm _ _

/-- An address that no write names keeps its value. -/
theorem apply_of_forall_ne (h : ∀ w ∈ ws, w.1 ≠ x) : apply d ws x = d x := by
  induction ws generalizing d with
  | nil => rfl
  | cons w ws ih =>
    rw [apply_cons, ih fun w' hw' => h w' (List.mem_cons_of_mem _ hw'),
      update_of_ne (h w List.mem_cons_self).symm]

/-- Two stores agree after the same writes where these write, and where they agreed before. -/
theorem apply_congr (h : (∃ w ∈ ws, w.1 = x) ∨ d x = d' x) : apply d ws x = apply d' ws x := by
  induction ws generalizing d d' with
  | nil => simpa using h
  | cons w ws ih =>
    rw [apply_cons, apply_cons]
    refine ih ?_
    by_cases hw : w.1 = x
    · subst hw
      exact .inr (by simp)
    · rcases h with ⟨w', hmem, rfl⟩ | h
      · rcases List.mem_cons.mp hmem with rfl | hmem
        · exact absurd rfl hw
        · exact .inl ⟨w', hmem, rfl⟩
      · exact .inr (by simp [update_of_ne (Ne.symm hw), h])

/-- Performing some of the writes changes nothing about performing all of them. -/
theorem apply_apply_of_subset {part : List (ι × β)} (h : part ⊆ ws) :
    apply (apply d part) ws x = apply d ws x := by
  apply apply_congr
  by_cases hx : ∃ w ∈ ws, w.1 = x
  · exact .inl hx
  · exact .inr (apply_of_forall_ne fun w hw hwx => hx ⟨w, h hw, hwx⟩)

/-- If all writes to an address carry the same value and there is one, that is the value after
them. -/
theorem apply_eq_of_forall {v : β} (hex : ∃ w ∈ ws, w.1 = x)
    (hall : ∀ w ∈ ws, w.1 = x → w.2 = v) : apply d ws x = v := by
  induction ws generalizing d with
  | nil => simp at hex
  | cons w ws ih =>
    rw [apply_cons]
    by_cases hlater : ∃ w' ∈ ws, w'.1 = x
    · exact ih hlater fun w' hw' => hall w' (List.mem_cons_of_mem _ hw')
    · obtain ⟨w', hmem, hx⟩ := hex
      rcases List.mem_cons.mp hmem with rfl | hmem
      · rw [apply_of_forall_ne fun w'' hw'' hne => hlater ⟨w'', hw'', hne⟩, hx,
          update_self]
        exact hall w' List.mem_cons_self hx
      · exact absurd ⟨w', hmem, hx⟩ hlater

end Writes
