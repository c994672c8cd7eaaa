import Mathlib
import OsnAssignments.MergeSort.Model

/-!
# The concurrent merge sorts compute what the sequential one does

Each of the three functions accesses `arr[low..high]` only, so that two children of one call use
disjoint parts of the array. The general theorem on such tasks (`Task.Separate.ends`) then reduces
every interleaving to the sequential execution, which is that of `normal_mergeSort`.
-/

namespace MergeSort

open ForkJoin Loop

variable {S : Set ℤ} {low high l m r k : ℤ}

/-! ## What is accessed -/

theorem uses_swap {a b : ℤ} (ha : a ∈ S) (hb : b ∈ S) : (swap a b).Uses S fun _ => True := by
  refine (Code.uses_load ha).bind fun t _ => (Code.uses_load hb).bind fun y _ => ?_
  exact (Code.uses_store y ha).bind fun _ _ => Code.uses_store t hb

/-- The inner loop keeps `mini` among the addresses it has visited. -/
theorem uses_scanBody {s : ℤ × ℤ} {j : ℤ} (hs : s.1 ∈ S) (hj : j ∈ S) :
    (scanBody s j).Uses S fun s => s.1 ∈ S := by
  refine (Code.uses_load hj).bind fun x _ => ?_
  split
  · exact (Code.uses_load hj).bind fun mi _ => hj
  · exact hs

theorem uses_selectionSort (low high : ℤ) :
    (selectionSort low high).Uses (Set.Icc low high) fun _ => True := by
  refine Code.uses_fold trivial fun i hi _ _ => ?_
  have hi : i ∈ Set.Icc low high := mem_upTo.mp hi
  refine (Code.uses_load hi).bind fun mi _ => ?_
  refine Code.Uses.bind (P := fun s => s.1 ∈ Set.Icc low high) ?_ fun s hs => uses_swap hi hs
  refine Code.uses_fold hi fun j hj s hs => uses_scanBody hs ?_
  obtain ⟨hij, hjh⟩ := mem_upTo.mp hj
  exact ⟨Int.le_trans hi.1 hij, hjh⟩

/-- The copying loops stay in the range as long as there is room for the rest. -/
theorem uses_copyLoop {vs : List ℤ} (hl : l ≤ k) (hr : k + vs.length ≤ r + 1) :
    (copyLoop k vs).Uses (Set.Icc l r) fun _ => True := by
  induction vs generalizing k with
  | nil => trivial
  | cons v vs ih =>
    simp only [List.length_cons] at hr
    have hk : k ∈ Set.Icc l r := ⟨hl, by omega⟩
    exact (Code.uses_store v hk).bind fun _ _ => ih (by omega) (by push_cast at hr; omega)

theorem uses_mergeLoop {as bs : List ℤ} (hl : l ≤ k) (hr : k + as.length + bs.length ≤ r + 1) :
    (mergeLoop k as bs).Uses (Set.Icc l r) fun _ => True := by
  -- what is left of the two lists always fits between `k` and the end of the range
  induction k, as, bs using mergeLoop.induct with
  | case1 k a as b bs hab ih =>
    rw [mergeLoop, if_pos hab]
    simp only [List.length_cons] at hr ih
    have hk : k ∈ Set.Icc l r := ⟨hl, by omega⟩
    exact (Code.uses_store a hk).bind fun _ _ => ih (by omega) (by push_cast at hr ⊢; omega)
  | case2 k a as b bs hab ih =>
    rw [mergeLoop, if_neg hab]
    simp only [List.length_cons] at hr ih
    have hk : k ∈ Set.Icc l r := ⟨hl, by omega⟩
    exact (Code.uses_store b hk).bind fun _ _ => ih (by omega) (by push_cast at hr ⊢; omega)
  | case3 k as =>
    have hloop : mergeLoop k as [] = copyLoop k as := by
      cases as <;> rw [mergeLoop]
    rw [hloop]
    exact uses_copyLoop hl (by simpa using hr)
  | case4 k bs =>
    have hloop : mergeLoop k [] bs = copyLoop k bs := by
      cases bs <;> rw [mergeLoop]
      simp
    rw [hloop]
    exact uses_copyLoop hl (by simpa using hr)

theorem uses_merge (hl : l ≤ m) (hr : m ≤ r) : (merge l m r).Uses (Set.Icc l r) fun _ => True := by
  refine (Code.uses_loadAll fun i hi => ?_).bind fun L hL => ?_
  · obtain ⟨hli, him⟩ := mem_upTo.mp hi
    exact ⟨hli, Int.le_trans him hr⟩
  refine (Code.uses_loadAll fun i hi => ?_).bind fun R hR => ?_
  · obtain ⟨hmi, hir⟩ := mem_upTo.mp hi
    exact ⟨by omega, hir⟩
  -- the two halves fill the range
  rw [length_upTo] at hL hR
  exact uses_mergeLoop (Int.le_refl l) (by omega)

/-! ## Concurrent calls are separate -/

theorem within_mergeSort (low high : ℤ) : (mergeSort low high).Within (Set.Icc low high) := by
  induction low, high using mergeSort.induct with
  | case1 low high h m ih₁ ih₂ =>
    obtain ⟨hlow, hhigh⟩ := middle_bounds h
    rw [mergeSort, dif_pos h]
    refine ⟨ih₁.mono fun i hi => ?_, ih₂.mono fun i hi => ?_, uses_merge hlow (by omega)⟩
    · exact ⟨hi.1, by have := hi.2; omega⟩
    · exact ⟨by have := hi.1; omega, hi.2⟩
  | case2 low high h =>
    rw [mergeSort, dif_neg h]
    exact uses_selectionSort low high

theorem disjoint_halves (low m high : ℤ) : Disjoint (Set.Icc low m) (Set.Icc (m + 1) high) := by
  refine Set.disjoint_left.mpr fun i hi hi' => ?_
  have := hi.2
  have := hi'.1
  omega

theorem separate_mergeSort (low high : ℤ) : (mergeSort low high).Separate := by
  induction low, high using mergeSort.induct with
  | case1 low high h m ih₁ ih₂ =>
    rw [mergeSort, dif_pos h]
    exact ⟨ih₁, ih₂, _, _, disjoint_halves low m high, within_mergeSort _ _, within_mergeSort _ _⟩
  | case2 low high h =>
    rw [mergeSort, dif_neg h]
    trivial

/-! ## The sequential execution -/

theorem eval_mergeSort (low high : ℤ) (σ : ℤ → ℤ) :
    (mergeSort low high).eval σ = ((normalMergeSort low high).eval σ).2 := by
  induction low, high using mergeSort.induct generalizing σ with
  | case1 low high h m ih₁ ih₂ =>
    rw [mergeSort, dif_pos h, normalMergeSort, dif_pos h]
    simp only [m] at ih₁ ih₂
    -- the sequential execution of a fork runs the two halves in the order of `normal_mergeSort`
    simp only [Task.eval, Code.eval_bind, ih₁, ih₂]
  | case2 low high h =>
    rw [mergeSort, dif_neg h, normalMergeSort, dif_neg h]
    rfl

/-- On a range that is not empty `threaded_mergeSort` has the structure of `mergeSort`. -/
theorem threadedMergeSort_eq (h : l ≤ r) : threadedMergeSort l r = mergeSort l r := by
  induction l, r using threadedMergeSort.induct with
  | case1 => omega
  | case2 l r m hempty hlarge ih₁ ih₂ =>
    obtain ⟨hlow, hhigh⟩ := middle_bounds hlarge
    rw [threadedMergeSort, if_neg hempty, dif_pos hlarge, mergeSort, dif_pos hlarge]
    simp only [m] at ih₁ ih₂
    rw [ih₁ hlow, ih₂ hhigh]
  | case3 l r hempty hsmall =>
    rw [threadedMergeSort, if_neg hempty, dif_neg hsmall, mergeSort, dif_neg hsmall]

/-- On an empty range `normal_mergeSort` does nothing. -/
theorem normalMergeSort_of_lt (h : r < l) : normalMergeSort l r = .ret () := by
  have hempty : upTo l r = [] := List.eq_nil_iff_forall_not_mem.mpr fun i hi => by
    have := mem_upTo.mp hi
    omega
  rw [normalMergeSort, dif_neg (by omega), selectionSort, hempty]
  rfl

/-- For every array and every range, every interleaving of `mergeSort` and every interleaving of
`threaded_mergeSort` ends, and ends with the array that `normal_mergeSort` computes. -/
theorem concurrent_sorts_agree (low high : ℤ) (arr : ℤ → ℤ) :
    (mergeSort low high).Ends arr ((normalMergeSort low high).eval arr).2 ∧
      (threadedMergeSort low high).Ends arr ((normalMergeSort low high).eval arr).2 := by
  have hprocesses : (mergeSort low high).Ends arr ((normalMergeSort low high).eval arr).2 := by
    rw [← eval_mergeSort]
    exact (separate_mergeSort low high).ends arr
  refine ⟨hprocesses, ?_⟩
  by_cases h : low ≤ high
  · rw [threadedMergeSort_eq h]
    exact hprocesses
  · -- the thread returns at once
    have hlt : high < low := by omega
    rw [threadedMergeSort, if_pos hlt, normalMergeSort_of_lt hlt]
    exact Task.Separate.ends (t := .seq (.ret ())) trivial arr

end MergeSort
