import OsnAssignments.MergeSort.Agreement

/-!
# The sequential merge sort sorts

`selectionSort` puts the smallest of the remaining elements in front of them, so that the part it
has been through is sorted and bounds the rest (`Selected`). `merge` writes the merge of the two
halves: its result is sorted exactly if both halves are. `normal_mergeSort` is correct by induction
on its recursion.
-/

namespace MergeSort

open ForkJoin Loop Function

/-- The elements `arr[low], …, arr[high]`. -/
def segment (arr : ℤ → ℤ) (low high : ℤ) : List ℤ :=
  (upTo low high).map arr

variable {arr : ℤ → ℤ} {low high l m r k t : ℤ}

theorem segment_append (hlow : low ≤ m + 1) (hhigh : m ≤ high) :
    segment arr low m ++ segment arr (m + 1) high = segment arr low high := by
  rw [segment, segment, segment, ← List.map_append, upTo_append hlow hhigh]

theorem segment_congr {arr' : ℤ → ℤ} (h : ∀ i, low ≤ i → i ≤ high → arr' i = arr i) :
    segment arr' low high = segment arr low high := by
  refine List.map_congr_left fun i hi => ?_
  obtain ⟨hlow, hhigh⟩ := mem_upTo.mp hi
  exact h i hlow hhigh

/-- A part of the array is sorted if its list of elements is. -/
theorem pairwise_segment_iff :
    (segment arr low high).Pairwise (· ≤ ·) ↔ MonotoneOn arr (Set.Icc low high) := by
  rw [segment, List.pairwise_map]
  constructor
  · intro h i hi j hj hij
    rcases hij.eq_or_lt with rfl | hlt
    · exact le_rfl
    -- the range is the part up to `i` and the part after it, which holds `j`
    rw [← upTo_append (m := i) (by linarith [hi.1]) hi.2, List.pairwise_append] at h
    exact h.2.2 i (mem_upTo.mpr ⟨hi.1, le_rfl⟩) j (mem_upTo.mpr ⟨hlt, hj.2⟩)
  · intro h
    refine (pairwise_lt_upTo low high).imp_of_mem fun {i j} hi hj hij => ?_
    exact h (mem_upTo.mp hi) (mem_upTo.mp hj) hij.le

/-! ## The selection sort -/

theorem eval_swap (a b : ℤ) (arr : ℤ → ℤ) : ((swap a b).eval arr).2 = arr ∘ Equiv.swap a b := by
  have heval : ((swap a b).eval arr).2 =
      update (update arr a (arr b)) b (arr a) := rfl
  ext i
  rw [heval, comp_apply, Equiv.swap_apply_def]
  rcases eq_or_ne i b with rfl | hb
  · by_cases ha : i = a <;> simp [ha]
  · rcases eq_or_ne i a with rfl | ha
    · simp [hb]
    · simp [ha, hb]

/-- Exchanging two elements permutes the part of the array that holds both. -/
theorem perm_segment_swap {a b : ℤ} (ha : a ∈ Set.Icc low high) (hb : b ∈ Set.Icc low high) :
    (segment (arr ∘ Equiv.swap a b) low high).Perm (segment arr low high) := by
  have hnodup : (upTo low high).Nodup := (pairwise_lt_upTo low high).imp fun h => h.ne
  have hperm : ((upTo low high).map (Equiv.swap a b)).Perm (upTo low high) := by
    refine (List.perm_ext_iff_of_nodup (hnodup.map (Equiv.injective _)) hnodup).mpr fun i => ?_
    rw [List.mem_map]
    have hmem (i : ℤ) (hi : i ∈ upTo low high) : Equiv.swap a b i ∈ upTo low high := by
      rw [Equiv.swap_apply_def]
      split_ifs
      · exact mem_upTo.mpr hb
      · exact mem_upTo.mpr ha
      · exact hi
    constructor
    · rintro ⟨j, hj, rfl⟩
      exact hmem j hj
    · intro hi
      exact ⟨Equiv.swap a b i, hmem i hi, Equiv.swap_apply_self a b i⟩
  have hmap := hperm.map arr
  rwa [List.map_map] at hmap

theorem eval_scanBody (s : ℤ × ℤ) (j : ℤ) (arr : ℤ → ℤ) :
    (scanBody s j).eval arr = (if arr j < s.2 then (j, arr j) else s, arr) := by
  rw [scanBody, Code.eval_bind]
  show (if arr j < s.2 then _ else _ : Code (ℤ × ℤ)).eval arr = _
  split_ifs <;> rfl

/-- The inner loop finds a smallest element and leaves the array alone. -/
theorem eval_scan (arr : ℤ → ℤ) (js : List ℤ) (s : ℤ × ℤ) (hs : s.2 = arr s.1) :
    ∃ mini, (Code.fold scanBody s js).eval arr = ((mini, arr mini), arr) ∧
      (mini = s.1 ∨ mini ∈ js) ∧ arr mini ≤ arr s.1 ∧ ∀ j ∈ js, arr mini ≤ arr j := by
  induction js generalizing s with
  | nil =>
    refine ⟨s.1, ?_, .inl rfl, le_rfl, nofun⟩
    rw [← hs]
    rfl
  | cons j js ih =>
    rw [Code.eval_fold_cons, eval_scanBody]
    by_cases hlt : arr j < s.2
    · obtain ⟨mini, heval, hmem, hle, hall⟩ := ih (j, arr j) rfl
      rw [if_pos hlt]
      rw [hs] at hlt
      refine ⟨mini, heval, .inr ?_, hle.trans hlt.le, List.forall_mem_cons.mpr ⟨hle, hall⟩⟩
      exact List.mem_cons.mpr hmem
    · obtain ⟨mini, heval, hmem, hle, hall⟩ := ih s hs
      rw [if_neg hlt]
      rw [hs, not_lt] at hlt
      refine ⟨mini, heval, hmem.imp_right (List.mem_cons_of_mem j), hle, ?_⟩
      exact List.forall_mem_cons.mpr ⟨hle.trans hlt, hall⟩

/-- An iteration of the outer loop exchanges `arr[i]` and a smallest element from `arr[i]` on. -/
theorem eval_selectBody {i : ℤ} (hi : i ≤ high) (arr : ℤ → ℤ) :
    ∃ mini ∈ Set.Icc i high, (∀ j ∈ Set.Icc i high, arr mini ≤ arr j) ∧
      ((selectBody high () i).eval arr).2 = arr ∘ Equiv.swap i mini := by
  obtain ⟨mini, heval, hmem, -, hall⟩ := eval_scan arr (upTo i high) (i, arr i) rfl
  refine ⟨mini, ?_, fun j hj => hall j (mem_upTo.mpr hj), ?_⟩
  · rcases hmem with rfl | hmem
    · exact ⟨le_rfl, hi⟩
    · exact mem_upTo.mp hmem
  · have hbody : (selectBody high () i).eval arr =
        (Code.fold scanBody (i, arr i) (upTo i high) >>= fun s => swap i s.1).eval arr := rfl
    rw [hbody, Code.eval_bind, heval, eval_swap]

/-- The elements in front of `arr[t]` are sorted, and none is larger than one from `arr[t]` on. -/
structure Selected (low t high : ℤ) (arr : ℤ → ℤ) : Prop where
  sorted : MonotoneOn arr (Set.Ico low t)
  le : ∀ i ∈ Set.Ico low t, ∀ j ∈ Set.Icc t high, arr i ≤ arr j

/-- One more element is selected. -/
theorem Selected.step (h : Selected low t high arr) {mini : ℤ} (hmini : mini ∈ Set.Icc t high)
    (hle : ∀ j ∈ Set.Icc t high, arr mini ≤ arr j) :
    Selected low (t + 1) high (arr ∘ Equiv.swap t mini) := by
  have hfront (i : ℤ) (hi : i < t) : (arr ∘ Equiv.swap t mini) i = arr i := by
    have := hmini.1
    rw [comp_apply, Equiv.swap_apply_of_ne_of_ne (by omega) (by omega)]
  have hself : (arr ∘ Equiv.swap t mini) t = arr mini := by
    rw [comp_apply, Equiv.swap_apply_left]
  -- the elements from `arr[t]` on are still those from `arr[t]` on
  have hrest (j : ℤ) (hj : j ∈ Set.Icc t high) :
      ∃ j' ∈ Set.Icc t high, (arr ∘ Equiv.swap t mini) j = arr j' := by
    refine ⟨Equiv.swap t mini j, ?_, rfl⟩
    rw [Equiv.swap_apply_def]
    split_ifs
    · exact hmini
    · exact ⟨le_rfl, hmini.1.trans hmini.2⟩
    · exact hj
  refine ⟨fun i hi j hj hij => ?_, fun i hi j hj => ?_⟩
  · rcases (Int.lt_add_one_iff.mp hj.2).eq_or_lt with rfl | hjt
    · rcases hij.eq_or_lt with rfl | hlt
      · exact le_rfl
      · rw [hself, hfront i hlt]
        exact h.le i ⟨hi.1, hlt⟩ mini hmini
    · rw [hfront i (by omega), hfront j hjt]
      exact h.sorted ⟨hi.1, by omega⟩ ⟨hj.1, hjt⟩ hij
  · obtain ⟨j', hj', heq⟩ := hrest j ⟨by linarith [hj.1], hj.2⟩
    rw [heq]
    rcases (Int.lt_add_one_iff.mp hi.2).eq_or_lt with rfl | hlt
    · rw [hself]
      exact hle j' hj'
    · rw [hfront i hlt]
      exact h.le i ⟨hi.1, hlt⟩ j' hj'

/-- What is left of the selection sort once the elements in front of `arr[t]` are selected. -/
theorem eval_selectFrom (hlow : low ≤ t) (h : Selected low t high arr) :
    MonotoneOn ((Code.fold (selectBody high) () (upTo t high)).eval arr).2 (Set.Icc low high) ∧
      (segment ((Code.fold (selectBody high) () (upTo t high)).eval arr).2 low high).Perm
        (segment arr low high) := by
  induction hn : (high + 1 - t).toNat generalizing t arr with
  | zero =>
    rw [upTo_eq_nil (by omega)]
    exact ⟨h.sorted.mono fun i hi => ⟨hi.1, by have := hi.2; omega⟩, .refl _⟩
  | succ n ih =>
    have ht : t ≤ high := by omega
    obtain ⟨mini, hmini, hle, hbody⟩ := eval_selectBody ht arr
    rw [upTo_eq_cons ht, Code.eval_fold_cons, hbody]
    obtain ⟨hsorted, hperm⟩ := ih (by omega) (h.step hmini hle) (by omega)
    refine ⟨hsorted, hperm.trans (perm_segment_swap ⟨hlow, ht⟩ ?_)⟩
    exact ⟨hlow.trans hmini.1, hmini.2⟩

theorem eval_selectionSort (low high : ℤ) (arr : ℤ → ℤ) :
    MonotoneOn ((selectionSort low high).eval arr).2 (Set.Icc low high) ∧
      (segment ((selectionSort low high).eval arr).2 low high).Perm (segment arr low high) := by
  refine eval_selectFrom le_rfl ⟨fun i hi => ?_, fun i hi => ?_⟩
  · exact absurd (hi.1.trans_lt hi.2) (lt_irrefl low)
  · exact absurd (hi.1.trans_lt hi.2) (lt_irrefl low)

/-! ## The merge -/

/-- The two halves, merged. -/
def merged (as bs : List ℤ) : List ℤ :=
  as.merge bs fun a b => decide (a ≤ b)

theorem merged_cons_cons (a b : ℤ) (as bs : List ℤ) : merged (a :: as) (b :: bs) =
    if a ≤ b then a :: merged as (b :: bs) else b :: merged (a :: as) bs := by
  rw [merged, List.cons_merge_cons]
  simp [merged]

/-- The three loops of `merge` write the merged list. -/
theorem mergeLoop_eq (k : ℤ) (as bs : List ℤ) : mergeLoop k as bs = copyLoop k (merged as bs) := by
  induction k, as, bs using mergeLoop.induct with
  | case1 k a as b bs hab ih =>
    rw [mergeLoop, if_pos hab, ih, merged_cons_cons, if_pos hab, copyLoop]
  | case2 k a as b bs hab ih =>
    rw [mergeLoop, if_neg hab, ih, merged_cons_cons, if_neg hab, copyLoop]
  | case3 k as => cases as <;> simp [mergeLoop, merged]
  | case4 k bs => cases bs <;> simp [mergeLoop, merged]

theorem eval_copyLoop_of_lt {i : ℤ} (vs : List ℤ) (hi : i < k) (arr : ℤ → ℤ) :
    ((copyLoop k vs).eval arr).2 i = arr i := by
  induction vs generalizing k arr with
  | nil => rfl
  | cons v vs ih =>
    show ((copyLoop (k + 1) vs).eval (update arr k v)).2 i = arr i
    rw [ih (by omega), update_of_ne hi.ne]

/-- After a copying loop the part of the array it has written is the list. -/
theorem segment_copyLoop (vs : List ℤ) (arr : ℤ → ℤ) (hr : k + vs.length = r + 1) :
    segment ((copyLoop k vs).eval arr).2 k r = vs := by
  induction vs generalizing k arr with
  | nil =>
    rw [segment, upTo_eq_nil (by simp at hr; omega), List.map_nil]
  | cons v vs ih =>
    rw [List.length_cons] at hr
    show segment ((copyLoop (k + 1) vs).eval (update arr k v)).2 k r = v :: vs
    rw [segment, upTo_eq_cons (by omega), List.map_cons, eval_copyLoop_of_lt vs (by omega),
      update_self]
    exact congrArg (v :: ·) (ih _ (by push_cast at hr; omega))

theorem length_segment (arr : ℤ → ℤ) (low high : ℤ) :
    (segment arr low high).length = (high + 1 - low).toNat := by
  rw [segment, List.length_map, length_upTo]

/-- `merge` replaces the two halves by their merge. -/
theorem segment_merge (hl : l ≤ m + 1) (hr : m ≤ r) (arr : ℤ → ℤ) :
    segment ((merge l m r).eval arr).2 l r = merged (segment arr l m) (segment arr (m + 1) r) := by
  have heval : ((merge l m r).eval arr).2 =
      ((copyLoop l (merged (segment arr l m) (segment arr (m + 1) r))).eval arr).2 := by
    rw [merge, Code.eval_bind, Code.eval_loadAll, Code.eval_bind, Code.eval_loadAll, mergeLoop_eq]
    rfl
  rw [heval]
  refine segment_copyLoop _ arr ?_
  rw [merged, (List.merge_perm_append _).length_eq, List.length_append, length_segment,
    length_segment]
  omega

/-- Merging keeps the order inside each of the two lists. -/
theorem sublist_merged (as bs : List ℤ) :
    as.Sublist (merged as bs) ∧ bs.Sublist (merged as bs) := by
  induction as generalizing bs with
  | nil => simp [merged]
  | cons a as iha =>
    induction bs with
    | nil => simp [merged]
    | cons b bs ihb =>
      rw [merged_cons_cons]
      split_ifs
      · exact ⟨(iha (b :: bs)).1.cons_cons a, (iha (b :: bs)).2.cons a⟩
      · exact ⟨ihb.1.cons b, ihb.2.cons_cons b⟩

theorem pairwise_merged_iff {as bs : List ℤ} :
    (merged as bs).Pairwise (· ≤ ·) ↔ as.Pairwise (· ≤ ·) ∧ bs.Pairwise (· ≤ ·) := by
  constructor
  · intro h
    exact ⟨h.sublist (sublist_merged as bs).1, h.sublist (sublist_merged as bs).2⟩
  · rintro ⟨has, hbs⟩
    have h : (merged as bs).Pairwise fun a b => decide (a ≤ b) = true := by
      refine List.pairwise_merge (fun a b c hab hbc => ?_) (fun a b => ?_) as bs ?_ ?_
      · exact decide_eq_true ((of_decide_eq_true hab).trans (of_decide_eq_true hbc))
      · simpa using le_total a b
      · simpa using has
      · simpa using hbs
    simpa using h

/-- The result of `merge` is sorted exactly if both halves are. -/
theorem monotoneOn_merge_iff (hl : l ≤ m + 1) (hr : m ≤ r) (arr : ℤ → ℤ) :
    MonotoneOn ((merge l m r).eval arr).2 (Set.Icc l r) ↔
      MonotoneOn arr (Set.Icc l m) ∧ MonotoneOn arr (Set.Icc (m + 1) r) := by
  rw [← pairwise_segment_iff, segment_merge hl hr, pairwise_merged_iff, pairwise_segment_iff,
    pairwise_segment_iff]

theorem perm_segment_merge (hl : l ≤ m + 1) (hr : m ≤ r) (arr : ℤ → ℤ) :
    (segment ((merge l m r).eval arr).2 l r).Perm (segment arr l r) := by
  rw [segment_merge hl hr, ← segment_append hl hr]
  exact List.merge_perm_append _

/-! ## The recursion -/

/-- Code that accesses only `arr[low..high]`. -/
theorem uses_normalMergeSort (low high : ℤ) :
    (normalMergeSort low high).Uses (Set.Icc low high) fun _ => True := by
  induction low, high using normalMergeSort.induct with
  | case1 low high h m ih₁ ih₂ =>
    obtain ⟨hlow, hhigh⟩ := middle_bounds h
    rw [normalMergeSort, dif_pos h]
    refine (ih₁.mono (fun i hi => ?_) fun _ => id).bind fun _ _ => ?_
    · exact ⟨hi.1, hi.2.trans (by omega)⟩
    refine (ih₂.mono (fun i hi => ?_) fun _ => id).bind fun _ _ => uses_merge hlow (by omega)
    exact ⟨le_trans (by omega) hi.1, hi.2⟩
  | case2 low high h =>
    rw [normalMergeSort, dif_neg h]
    exact uses_selectionSort low high

/-- Two transformers for the two halves, one after the other: the second leaves the first half
alone, and finds the second half as it was. -/
theorem halves_of_local {f g : (ℤ → ℤ) → ℤ → ℤ} (hf : Local (Set.Icc low m) f)
    (hg : Local (Set.Icc (m + 1) high) g) (arr : ℤ → ℤ) :
    (∀ i ∈ Set.Icc low m, g (f arr) i = f arr i) ∧ ∀ i ∈ Set.Icc (m + 1) high, f arr i = arr i := by
  refine ⟨fun i hi => hg.frame i ?_ _, fun i hi => hf.frame i ?_ _⟩
  · exact fun hmem => absurd (hi.2.trans_lt hmem.1) (by omega)
  · exact fun hmem => absurd (hmem.2.trans_lt hi.1) (by omega)

/-- If each of the two transformers permutes its half, they permute the whole. -/
theorem perm_segment_halves {f g : (ℤ → ℤ) → ℤ → ℤ} (hlow : low ≤ m + 1) (hhigh : m ≤ high)
    (hf : Local (Set.Icc low m) f) (hg : Local (Set.Icc (m + 1) high) g)
    (hfperm : (segment (f arr) low m).Perm (segment arr low m))
    (hgperm : (segment (g (f arr)) (m + 1) high).Perm (segment (f arr) (m + 1) high)) :
    (segment (g (f arr)) low high).Perm (segment arr low high) := by
  obtain ⟨hleft, hright⟩ := halves_of_local hf hg arr
  rw [← segment_append hlow hhigh, ← segment_append hlow hhigh,
    segment_congr fun i hi hi' => hleft i ⟨hi, hi'⟩]
  refine hfperm.append (hgperm.trans ?_)
  rw [segment_congr fun i hi hi' => hright i ⟨hi, hi'⟩]

theorem eval_normalMergeSort (low high : ℤ) (arr : ℤ → ℤ) :
    MonotoneOn ((normalMergeSort low high).eval arr).2 (Set.Icc low high) ∧
      (segment ((normalMergeSort low high).eval arr).2 low high).Perm (segment arr low high) := by
  induction low, high using normalMergeSort.induct generalizing arr with
  | case1 low high h m ih₁ ih₂ =>
    obtain ⟨hlow, hhigh⟩ := middle_bounds h
    have hf := (uses_normalMergeSort low m).local
    have hg := (uses_normalMergeSort (m + 1) high).local
    rw [normalMergeSort, dif_pos h, Code.eval_bind, Code.eval_bind]
    constructor
    · rw [monotoneOn_merge_iff (by omega) (by omega)]
      refine ⟨(ih₁ arr).1.congr fun i hi => ?_, (ih₂ _).1⟩
      exact ((halves_of_local hf hg arr).1 i hi).symm
    · refine (perm_segment_merge (by omega) (by omega) _).trans ?_
      exact perm_segment_halves (by omega) (by omega) hf hg (ih₁ arr).2 (ih₂ _).2
  | case2 low high h =>
    rw [normalMergeSort, dif_neg h]
    exact eval_selectionSort low high arr

/-- Without an overflow, an `int` expression has its value. -/
theorem int?_eq_some {x : ℤ} (hmin : -2 ^ 31 ≤ x) (hmax : x < 2 ^ 31) : int? x = some x :=
  if_pos ⟨hmin, hmax⟩

/-- With indices from zero on, `int`s do as well as integers, up to the last but one of them and,
for an empty range, down to the fourth. -/
theorem checked_normalMergeSort (hlow : 0 ≤ low) (hmin : -2 ^ 31 + 4 ≤ high)
    (hmax : high + 1 < 2 ^ 31) :
    Checked.normalMergeSort low high = some (normalMergeSort low high) := by
  induction low, high using normalMergeSort.induct with
  | case1 low high h m ih₁ ih₂ =>
    obtain ⟨hm, hm'⟩ : low ≤ m ∧ m + 1 ≤ high := middle_bounds h
    have hmerge : Checked.merge low m high = some (merge low m high) := by
      rw [Checked.merge, int?_eq_some (by omega) (by omega), int?_eq_some (by omega) (by omega),
        int?_eq_some (by omega) (by omega)]
      rfl
    rw [Checked.normalMergeSort, normalMergeSort, dif_pos h, dif_pos h,
      int?_eq_some (by omega) (by omega), int?_eq_some (by omega) (by omega),
      int?_eq_some (show -2 ^ 31 ≤ m by omega) (by omega),
      int?_eq_some (show -2 ^ 31 ≤ m + 1 by omega) (by omega), ih₁ hlow (by omega) (by omega),
      ih₂ (by omega) hmin hmax, hmerge]
    rfl
  | case2 low high h =>
    rw [Checked.normalMergeSort, normalMergeSort, dif_neg h, dif_neg h,
      int?_eq_some (by omega) (by omega), Checked.selectionSort,
      int?_eq_some (by omega) (by omega)]
    split <;> rfl

/-- For every array and all indices with `INT_MIN + 4 <= high < INT_MAX`,
`normal_mergeSort(arr, low, high)` computes no index that overflows, sorts `arr[low..high]` by
permuting it, leaves the other elements alone and accesses only elements of the array. -/
theorem normalMergeSort_sorts (arr : ℤ → ℤ) (length low high : ℤ) (hlow : 0 ≤ low)
    (hhigh : high < length) (hmin : -2 ^ 31 + 4 ≤ high) (hmax : high + 1 < 2 ^ 31) :
    ∃ sort, Checked.normalMergeSort low high = some sort ∧
      MonotoneOn (sort.eval arr).2 (Set.Icc low high) ∧
      (segment (sort.eval arr).2 low high).Perm (segment arr low high) ∧
      (∀ i ∉ Set.Icc low high, (sort.eval arr).2 i = arr i) ∧
      sort.Uses (Set.Ico 0 length) fun _ => True := by
  obtain ⟨hsorted, hperm⟩ := eval_normalMergeSort low high arr
  have huses := uses_normalMergeSort low high
  refine ⟨_, checked_normalMergeSort hlow hmin hmax, hsorted, hperm,
    fun i hi => huses.eval_apply hi arr, ?_⟩
  refine huses.mono (fun i hi => ?_) fun _ => id
  exact ⟨hlow.trans hi.1, hi.2.trans_lt hhigh⟩

/-- Three of five elements. -/
theorem normalMergeSort_sorts_three : ∃ sort, Checked.normalMergeSort 1 3 = some sort ∧
    segment (sort.eval fun i => 5 - i).2 1 3 = [2, 3, 4] ∧
      sort.Uses (Set.Ico 0 5) fun _ => True := by
  obtain ⟨sort, hsome, hsorted, hperm, -, huses⟩ :=
    normalMergeSort_sorts (fun i => 5 - i) 5 1 3 (by decide) (by decide) (by decide) (by decide)
  refine ⟨sort, hsome, ?_, huses⟩
  have hpairs := pairwise_segment_iff.mpr hsorted
  have hsame := hperm.trans (show List.Perm _ [2, 3, 4] by decide)
  exact hsame.eq_of_pairwise (fun _ _ _ _ => le_antisymm) hpairs (by decide)

/-- For `high = INT_MIN` the test `low <= high - 4` overflows, and for `high = INT_MAX` the loops of
the selection sort count past the largest `int`. -/
theorem not_normalMergeSort_sorts : Checked.normalMergeSort 0 (-2 ^ 31) = none ∧
    Checked.normalMergeSort (2 ^ 31 - 1) (2 ^ 31 - 1) = none := by
  constructor
  · rw [Checked.normalMergeSort]
    rfl
  · rw [Checked.normalMergeSort, dif_neg (by decide)]
    rfl

end MergeSort
