import Mathlib

/-!
# Sums over a history

`tally f hist` adds up what `f` counts for each label of a history, for example how often something
was done, or how much of something was handed out.
-/

namespace Transition

variable {S L ι : Type*}

/-- The sum of `f` over the labels of a history. -/
def tally (f : L → ℤ) (hist : List (S × L)) : ℤ :=
  (hist.map fun x => f x.2).sum

@[simp]
theorem tally_nil (f : L → ℤ) : tally f ([] : List (S × L)) = 0 := rfl

@[simp]
theorem tally_cons (f : L → ℤ) (x : S × L) (hist : List (S × L)) :
    tally f (x :: hist) = f x.2 + tally f hist := rfl

/-- Counting for each index and adding up the counts. -/
theorem tally_sum [Fintype ι] (f : ι → L → ℤ) (hist : List (S × L)) :
    tally (fun l => ∑ i, f i l) hist = ∑ i, tally (f i) hist := by
  induction hist with
  | nil => simp
  | cons x hist ih => simp only [tally_cons, ih, Finset.sum_add_distrib]

end Transition
