import OsnAssignments.Common.ForkJoin
import OsnAssignments.Common.Loop

/-!
# Three merge sorts

The functions of `q1/Q1.c` that sort an array `arr[low..high]`: `normal_mergeSort`, `mergeSort`,
which sorts the halves in child processes over shared memory, and `threaded_mergeSort`, which sorts
them in threads. All three fall back to a selection sort on at most four elements.

The array is a memory with integer addresses. Every read and every write of an element of `arr` is
a step of its own; the local variables of a call, with the arrays `L` and `R` of `merge`, are not
shared. `fork`, `pthread_create`, `waitpid` and `pthread_join` succeed.

Indices are unbounded integers, which is right for the calls that `runSorts` makes. `Checked` has
`normal_mergeSort` with the `int` indices of the source, for every call.
-/

namespace MergeSort

open ForkJoin Loop

/-- Code that accesses `arr`. -/
abbrev Code (β : Type) := ForkJoin.Code ℤ ℤ β

/-- `swap(&arr[a], &arr[b])`. -/
def swap (a b : ℤ) : Code Unit := do
  let t ← Code.load a
  let y ← Code.load b
  Code.store a y
  Code.store b t

/-- One iteration of the inner loop of the selection sort; the pair is `(mini, mi)`. -/
def scanBody (s : ℤ × ℤ) (j : ℤ) : Code (ℤ × ℤ) := do
  let x ← Code.load j
  if x < s.2 then
    -- The source reads `arr[j]` again to assign `mi`.
    let mi ← Code.load j
    return (j, mi)
  else
    return s

/-- One iteration of the outer loop of the selection sort. -/
def selectBody (high : ℤ) (_ : Unit) (i : ℤ) : Code Unit := do
  let mi ← Code.load i
  let s ← Code.fold scanBody (i, mi) (upTo i high)
  swap i s.1

/-- The selection sort in the `else` branch of the three functions. -/
def selectionSort (low high : ℤ) : Code Unit :=
  Code.fold (selectBody high) () (upTo low high)

/-- The loops of `merge` that copy the rest of `L` or `R` to `arr[k]`, `arr[k + 1]`, … -/
def copyLoop (k : ℤ) : List ℤ → Code Unit
  | [] => return ()
  | v :: vs => do
    Code.store k v
    copyLoop (k + 1) vs

/-- The loop of `merge` over what is left of `L` and `R`, and the two loops after it. -/
def mergeLoop (k : ℤ) : List ℤ → List ℤ → Code Unit
  | a :: as, b :: bs =>
    if a ≤ b then do
      Code.store k a
      mergeLoop (k + 1) as (b :: bs)
    else do
      Code.store k b
      mergeLoop (k + 1) (a :: as) bs
  | as, [] => copyLoop k as
  | [], bs => copyLoop k bs

/-- `merge(arr, l, m, r)`. -/
def merge (l m r : ℤ) : Code Unit := do
  -- All reads of `arr` come before all writes.
  let L ← Code.loadAll (upTo l m)
  let R ← Code.loadAll (upTo (m + 1) r)
  mergeLoop l L R

/-- `low + (high - low) / 2`. -/
def middle (low high : ℤ) : ℤ :=
  low + (high - low).tdiv 2

theorem middle_bounds {low high : ℤ} (h : low ≤ high - 4) :
    low ≤ middle low high ∧ middle low high + 1 ≤ high := by
  unfold middle
  rw [Int.tdiv_eq_ediv_of_nonneg (by omega)]
  omega

/-- `normal_mergeSort(arr, low, high)`. -/
def normalMergeSort (low high : ℤ) : Code Unit :=
  if h : low ≤ high - 4 then do
    let m := middle low high
    normalMergeSort low m
    normalMergeSort (m + 1) high
    merge low m high
  else
    selectionSort low high
termination_by (high - low).toNat
decreasing_by all_goals have := middle_bounds h; omega

/-! ### `int` indices -/

/-- The value of an `int` expression; `none` if it overflows. -/
def int? (x : ℤ) : Option ℤ :=
  if -2 ^ 31 ≤ x ∧ x < 2 ^ 31 then some x else none

namespace Checked

/-- The selection sort. If it has an iteration, its variables `i` and `j` end at `high + 1`. -/
def selectionSort (low high : ℤ) : Option (Code Unit) := do
  if low ≤ high then
    let _ ← int? (high + 1)
  return MergeSort.selectionSort low high

/-- `merge(arr, l, m, r)`: the values of `n1` and `n2`, and the last one of `k`. -/
def merge (l m r : ℤ) : Option (Code Unit) := do
  let _ ← int? (m - l + 1)
  let _ ← int? (r - m)
  let _ ← int? (r + 1)
  return MergeSort.merge l m r

/-- `normal_mergeSort(arr, low, high)`; `none` if an index overflows. -/
def normalMergeSort (low high : ℤ) : Option (Code Unit) := do
  let _ ← int? (high - 4)
  if h : low ≤ high - 4 then
    let _ ← int? (high - low)
    let _ ← int? (middle low high)
    let _ ← int? (middle low high + 1)
    let left ← normalMergeSort low (middle low high)
    let right ← normalMergeSort (middle low high + 1) high
    let both ← merge low (middle low high) high
    return do
      left
      right
      both
  else
    selectionSort low high
termination_by (high - low).toNat
decreasing_by all_goals have := middle_bounds h; omega

end Checked

/-! ### Children and threads -/

/-- `mergeSort(arr, low, high)`. -/
def mergeSort (low high : ℤ) : Task ℤ ℤ :=
  if h : low ≤ high - 4 then
    let m := middle low high
    -- The parent forks both children before it waits for the first.
    .fork (mergeSort low m) (mergeSort (m + 1) high) (merge low m high)
  else
    .seq (selectionSort low high)
termination_by (high - low).toNat
decreasing_by all_goals have := middle_bounds h; omega

/-- `threaded_mergeSort` on the arguments `{l, r, arr}`. -/
def threadedMergeSort (l r : ℤ) : Task ℤ ℤ :=
  let m := middle l r
  if l > r then
    .seq (return ())
  else if h : l ≤ r - 4 then
    .fork (threadedMergeSort l m) (threadedMergeSort (m + 1) r) (merge l m r)
  else
    .seq (selectionSort l r)
termination_by (r - l).toNat
decreasing_by all_goals have := middle_bounds h; omega

end MergeSort
