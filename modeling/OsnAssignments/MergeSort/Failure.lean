import OsnAssignments.Common.ForkFailure
import OsnAssignments.MergeSort.Sorting

/-!
# Merge sort with forks that fail

`mergeSort` does not test the results of `fork`. If one is `-1`, the parent goes on as if there were
a child, and merges a half of the array that nobody has sorted. Since the merge keeps the order
inside each half, the array is sorted in the end exactly if every half for which a `fork` failed was
sorted already (`HalvesSorted`).
-/

namespace MergeSort.Failure

open ForkJoin Loop

/-- The results of the two calls of `fork` in `mergeSort(arr, low, high)`: whether each succeeds. No
two calls of `mergeSort` in one recursion have the same range. -/
abbrev Forks := ℤ → ℤ → Bool × Bool

/-- `mergeSort(arr, low, high)`, when the calls of `fork` have the results `ok`. -/
def mergeSort (ok : Forks) (low high : ℤ) : Plan ℤ ℤ :=
  if h : low ≤ high - 4 then
    let m := middle low high
    .fork (ok low high).1 (mergeSort ok low m) (ok low high).2 (mergeSort ok (m + 1) high)
      (merge low m high)
  else
    .seq (selectionSort low high)
termination_by (high - low).toNat
decreasing_by all_goals have := middle_bounds h; omega

/-- The array after `mergeSort`, when the processes run one after the other. -/
def result (ok : Forks) (low high : ℤ) (arr : ℤ → ℤ) : ℤ → ℤ :=
  (mergeSort ok low high).toTask.eval arr

/-- Every half of the array for which a `fork` fails is sorted. -/
def HalvesSorted (ok : Forks) (arr : ℤ → ℤ) (low high : ℤ) : Prop :=
  if h : low ≤ high - 4 then
    let m := middle low high
    (if (ok low high).1 then HalvesSorted ok arr low m else MonotoneOn arr (Set.Icc low m)) ∧
      (if (ok low high).2 then HalvesSorted ok arr (m + 1) high
        else MonotoneOn arr (Set.Icc (m + 1) high))
  else
    True
termination_by (high - low).toNat
decreasing_by all_goals have := middle_bounds h; omega

variable {ok : Forks} {arr arr' : ℤ → ℤ} {low m high : ℤ}
variable {S : Set ℤ}

/-! ## Every interleaving computes the result -/

/-- What a child does to the array: nothing, if it could not be created. -/
def child (created : Bool) (f : (ℤ → ℤ) → ℤ → ℤ) : (ℤ → ℤ) → ℤ → ℤ :=
  if created then f else id

/-- The sequential execution of a call that forks. -/
theorem result_of_le (h : low ≤ high - 4) : result ok low high arr =
    ((merge low (middle low high) high).eval
      (child (ok low high).2 (result ok (middle low high + 1) high)
        (child (ok low high).1 (result ok low (middle low high)) arr))).2 := by
  have hidle (created : Bool) (p : Plan ℤ ℤ) (arr : ℤ → ℤ) :
      (if created then p.toTask else .seq (.ret ())).eval arr =
        child created p.toTask.eval arr := by
    cases created <;> rfl
  unfold result
  rw [mergeSort, dif_pos h, Plan.toTask, Task.eval, hidle, hidle]

theorem result_of_not_le (h : ¬ low ≤ high - 4) :
    result ok low high arr = ((selectionSort low high).eval arr).2 := by
  rw [result, mergeSort, dif_neg h]
  rfl

/-- The task of a child accesses nothing outside the range of the child. -/
theorem within_child {p : Plan ℤ ℤ} (created : Bool) (h : p.toTask.Within S) :
    (if created then p.toTask else .seq (.ret ())).Within S := by
  cases created
  · exact trivial
  · exact h

theorem within_toTask (ok : Forks) (low high : ℤ) :
    (mergeSort ok low high).toTask.Within (Set.Icc low high) := by
  induction low, high using mergeSort.induct with
  | case1 low high h m ih₁ ih₂ =>
    obtain ⟨hlow, hhigh⟩ := middle_bounds h
    rw [mergeSort, dif_pos h]
    refine ⟨(within_child _ ih₁).mono fun i hi => ?_, (within_child _ ih₂).mono fun i hi => ?_,
      uses_merge hlow (by omega)⟩
    · exact ⟨hi.1, hi.2.trans (by omega)⟩
    · exact ⟨le_trans (by omega) hi.1, hi.2⟩
  | case2 low high h =>
    rw [mergeSort, dif_neg h]
    exact uses_selectionSort low high

theorem separate_toTask (ok : Forks) (low high : ℤ) : (mergeSort ok low high).toTask.Separate := by
  induction low, high using mergeSort.induct with
  | case1 low high h m ih₁ ih₂ =>
    have hchild {p : Plan ℤ ℤ} (created : Bool) (hp : p.toTask.Separate) :
        (if created then p.toTask else .seq (.ret ())).Separate := by
      cases created
      · exact trivial
      · exact hp
    rw [mergeSort, dif_pos h]
    exact ⟨hchild _ ih₁, hchild _ ih₂, _, _, disjoint_halves low m high,
      within_child _ (within_toTask ok low m), within_child _ (within_toTask ok (m + 1) high)⟩
  | case2 low high h =>
    rw [mergeSort, dif_neg h]
    trivial

/-! ## When the result is sorted -/

theorem local_child {f : (ℤ → ℤ) → ℤ → ℤ} (created : Bool) (h : Local S f) :
    Local S (child created f) := by
  cases created
  · exact ⟨fun _ _ _ => rfl, fun _ _ _ _ => rfl⟩
  · exact h

theorem halvesSorted_of_le (h : low ≤ high - 4) : HalvesSorted ok arr low high ↔
    (if (ok low high).1 then HalvesSorted ok arr low (middle low high)
      else MonotoneOn arr (Set.Icc low (middle low high))) ∧
    (if (ok low high).2 then HalvesSorted ok arr (middle low high + 1) high
      else MonotoneOn arr (Set.Icc (middle low high + 1) high)) := by
  rw [HalvesSorted, dif_pos h]

theorem monotoneOn_congr (h : ∀ i ∈ S, arr' i = arr i) : MonotoneOn arr' S ↔ MonotoneOn arr S :=
  ⟨fun hs => hs.congr h, fun hs => hs.congr fun i hi => (h i hi).symm⟩

/-- Whether the halves are sorted depends on the range only. -/
theorem halvesSorted_congr (h : ∀ i ∈ Set.Icc low high, arr' i = arr i) :
    HalvesSorted ok arr' low high ↔ HalvesSorted ok arr low high := by
  induction low, high using mergeSort.induct with
  | case1 low high hle m ih₁ ih₂ =>
    obtain ⟨hlow, hhigh⟩ := middle_bounds hle
    have hleft : ∀ i ∈ Set.Icc low m, arr' i = arr i := fun i hi =>
      h i ⟨hi.1, hi.2.trans (by omega)⟩
    have hright : ∀ i ∈ Set.Icc (m + 1) high, arr' i = arr i := fun i hi =>
      h i ⟨le_trans (by omega) hi.1, hi.2⟩
    simp only [m] at ih₁ ih₂ hleft hright
    rw [halvesSorted_of_le hle, halvesSorted_of_le hle, ih₁ hleft, ih₂ hright,
      monotoneOn_congr hleft, monotoneOn_congr hright]
  | case2 low high hle =>
    rw [HalvesSorted, dif_neg hle, HalvesSorted, dif_neg hle]

/-- A half after its child has run, or has not been created. -/
theorem monotoneOn_child_iff (created : Bool)
    (h : ∀ arr, MonotoneOn (result ok low high arr) (Set.Icc low high) ↔
      HalvesSorted ok arr low high) :
    MonotoneOn (child created (result ok low high) arr) (Set.Icc low high) ↔
      if created then HalvesSorted ok arr low high else MonotoneOn arr (Set.Icc low high) := by
  cases created
  · exact Iff.rfl
  · exact h arr

theorem monotoneOn_result_iff (ok : Forks) (low high : ℤ) (arr : ℤ → ℤ) :
    MonotoneOn (result ok low high arr) (Set.Icc low high) ↔ HalvesSorted ok arr low high := by
  induction low, high using mergeSort.induct generalizing arr with
  | case1 low high h m ih₁ ih₂ =>
    obtain ⟨hlow, hhigh⟩ := middle_bounds h
    obtain ⟨hleft, hright⟩ := halves_of_local
      (local_child (ok low high).1 (within_toTask ok low m).local)
      (local_child (ok low high).2 (within_toTask ok (m + 1) high).local) arr
    rw [result_of_le h, monotoneOn_merge_iff (by omega) (by omega), halvesSorted_of_le h]
    refine and_congr ?_ ?_
    · -- the second child leaves the first half alone
      exact (monotoneOn_congr hleft).trans (monotoneOn_child_iff (ok low high).1 ih₁)
    · -- the second half is as it was when the first child has run
      rw [monotoneOn_child_iff (ok low high).2 ih₂]
      split_ifs
      · exact halvesSorted_congr hright
      · exact monotoneOn_congr hright
  | case2 low high h =>
    rw [result_of_not_le h, HalvesSorted, dif_neg h]
    exact iff_of_true (eval_selectionSort low high arr).1 trivial

/-- Whatever forks fail, the elements are those of the array. -/
theorem perm_result (ok : Forks) (low high : ℤ) (arr : ℤ → ℤ) :
    (segment (result ok low high arr) low high).Perm (segment arr low high) := by
  induction low, high using mergeSort.induct generalizing arr with
  | case1 low high h m ih₁ ih₂ =>
    obtain ⟨hlow, hhigh⟩ := middle_bounds h
    have hchild {low high : ℤ} (created : Bool) (arr : ℤ → ℤ)
        (hp : ∀ arr, (segment (result ok low high arr) low high).Perm (segment arr low high)) :
        (segment (child created (result ok low high) arr) low high).Perm
          (segment arr low high) := by
      cases created
      · exact .refl _
      · exact hp arr
    rw [result_of_le h]
    refine (perm_segment_merge (by omega) (by omega) _).trans ?_
    exact perm_segment_halves (by omega) (by omega)
      (local_child _ (within_toTask ok low m).local)
      (local_child _ (within_toTask ok (m + 1) high).local) (hchild _ arr ih₁) (hchild _ _ ih₂)
  | case2 low high h =>
    rw [result_of_not_le h]
    exact (eval_selectionSort low high arr).2

/-- With no failure, `mergeSort` performs the task of `MergeSort.mergeSort`. -/
theorem toTask_of_success (low high : ℤ) :
    (mergeSort (fun _ _ => (true, true)) low high).toTask = MergeSort.mergeSort low high := by
  induction low, high using mergeSort.induct with
  | case1 low high h m ih₁ ih₂ =>
    rw [mergeSort, dif_pos h, MergeSort.mergeSort, dif_pos h, Plan.toTask]
    simp only [if_true]
    rw [ih₁, ih₂]
  | case2 low high h =>
    rw [mergeSort, dif_neg h, MergeSort.mergeSort, dif_neg h]
    rfl

/-- Whatever the results of `fork`, every interleaving of `mergeSort(arr, 0, n - 1)` returns with
the same array, which is a sorted permutation exactly if every half for which a `fork` failed was
sorted. -/
theorem mergeSort_sorts_iff (ok : Forks) (arr : ℤ → ℤ) (n : ℕ) :
    (mergeSort ok 0 (n - 1)).Ends arr (result ok 0 (n - 1) arr) ∧
      (MonotoneOn (result ok 0 (n - 1) arr) (Set.Icc 0 (n - 1)) ∧
          (segment (result ok 0 (n - 1) arr) 0 (n - 1)).Perm (segment arr 0 (n - 1)) ↔
        HalvesSorted ok arr 0 (n - 1)) := by
  refine ⟨Plan.ends (separate_toTask ok 0 (n - 1)) arr, ?_⟩
  rw [monotoneOn_result_iff, and_iff_left (perm_result ok 0 (n - 1) arr)]

/-- The first `fork` of every call fails. -/
def firstFails : Forks := fun _ _ => (false, true)

/-- Five elements whose first half is sorted. -/
theorem mergeSort_sorts_five :
    MonotoneOn (result firstFails 0 4 fun i => if i < 3 then i else -i) (Set.Icc 0 4) := by
  refine ((mergeSort_sorts_iff firstFails (fun i => if i < 3 then i else -i) 5).2.mpr ?_).1
  rw [halvesSorted_of_le (by decide)]
  refine ⟨?_, ?_⟩
  · have hm : middle 0 ((5 : ℕ) - 1) = 2 := by decide
    rw [if_neg (by decide), hm]
    intro i hi j hj hij
    have := hi.2
    have := hj.2
    simp only [if_pos (show i < 3 by omega), if_pos (show j < 3 by omega)]
    exact hij
  · have hm : middle 0 ((5 : ℕ) - 1) = 2 := by decide
    rw [if_pos (by decide), hm, HalvesSorted, dif_neg (by decide)]
    trivial

/-- Five elements in descending order. -/
theorem segment_result_descending :
    segment (result firstFails 0 4 fun i => 4 - i) 0 4 = [0, 1, 4, 3, 2] := by
  have hm : middle 0 4 = 2 := by decide
  have hsecond : result firstFails 3 4 (fun i => 4 - i) =
      ((selectionSort 3 4).eval fun i => 4 - i).2 := result_of_not_le (by decide)
  have hleft : segment ((selectionSort 3 4).eval fun i => 4 - i).2 0 2 = [4, 3, 2] := by
    decide +kernel
  have hright : segment ((selectionSort 3 4).eval fun i => 4 - i).2 (2 + 1) 4 = [0, 1] := by
    decide +kernel
  rw [result_of_le (by decide), hm]
  show segment ((merge 0 2 4).eval (result firstFails 3 4 fun i => 4 - i)).2 0 4 = _
  rw [hsecond, segment_merge (by decide) (by decide), hleft, hright]
  simp [merged]

/-- The first half of the five elements stays in descending order. -/
theorem not_mergeSort_sorts :
    (mergeSort firstFails 0 4).Ends (fun i => 4 - i) (result firstFails 0 4 fun i => 4 - i) ∧
      ¬ MonotoneOn (result firstFails 0 4 fun i => 4 - i) (Set.Icc 0 4) := by
  refine ⟨Plan.ends (separate_toTask firstFails 0 4) _, fun h => ?_⟩
  have hsorted := pairwise_segment_iff.mpr h
  rw [segment_result_descending] at hsorted
  exact absurd hsorted (by decide)

end MergeSort.Failure
