import Mathlib.Data.List.FinRange
import Mathlib.Logic.Function.Basic
import Mathlib.Tactic.Common

/-!
# Counting loops

The `for` loops of C over an integer index, as lists of index values (`upTo`, `downTo`) and as
a loop whose guard is tested again before every iteration (`forLoop`), the part of a range that a
search looks at (`visited`), and the loops that end with `break` (`breakLoop`), with their rules.
-/

namespace Loop

open Function

variable {hi j lo : ℤ}

/-! ## Index ranges -/

/-- The values of `j` in `for (j = lo; j <= hi; j++)`. -/
def upTo (lo hi : ℤ) : List ℤ :=
  (List.range (hi + 1 - lo).toNat).map fun k : ℕ => lo + k

/-- The values of `j` in `for (j = hi; j >= lo; j--)`. -/
def downTo (hi lo : ℤ) : List ℤ :=
  (List.range (hi + 1 - lo).toNat).map fun k : ℕ => hi - k

@[simp]
theorem mem_upTo : j ∈ upTo lo hi ↔ lo ≤ j ∧ j ≤ hi := by
  rw [upTo, List.mem_map]
  constructor
  · rintro ⟨k, hk, rfl⟩
    have := List.mem_range.mp hk
    omega
  · rintro ⟨hlo, hhi⟩
    exact ⟨(j - lo).toNat, List.mem_range.mpr (by omega), by omega⟩

theorem length_upTo (lo hi : ℤ) : (upTo lo hi).length = (hi + 1 - lo).toNat := by
  simp [upTo]

theorem upTo_eq_nil (h : hi < lo) : upTo lo hi = [] := by
  rw [upTo, Int.toNat_of_nonpos (by omega), List.range_zero, List.map_nil]

/-- A range is the range up to `m` and the range after it. -/
theorem upTo_append {m : ℤ} (hlo : lo ≤ m + 1) (hhi : m ≤ hi) :
    upTo lo m ++ upTo (m + 1) hi = upTo lo hi := by
  have hlen : (hi + 1 - lo).toNat = (m + 1 - lo).toNat + (hi + 1 - (m + 1)).toNat := by omega
  rw [upTo, upTo, upTo, hlen, List.range_add, List.map_append, List.map_map]
  congr 1
  refine List.map_congr_left fun k _ => ?_
  rw [comp_apply]
  omega

theorem upTo_eq_cons (h : lo ≤ hi) : upTo lo hi = lo :: upTo (lo + 1) hi := by
  have hone : upTo lo lo = [lo] := by
    have hlen : (lo + 1 - lo).toNat = 1 := by omega
    rw [upTo, hlen]
    simp
  rw [← upTo_append (m := lo) (by omega) h, hone, List.singleton_append]

theorem pairwise_lt_upTo (lo hi : ℤ) : (upTo lo hi).Pairwise (· < ·) := by
  refine List.pairwise_map.mpr (List.pairwise_lt_range.imp fun h => ?_)
  omega

theorem downTo_eq_nil (h : hi < lo) : downTo hi lo = [] := by
  rw [downTo, Int.toNat_eq_zero.mpr (by omega), List.range_zero, List.map_nil]

theorem downTo_eq_cons (h : lo ≤ hi) : downTo hi lo = hi :: downTo (hi - 1) lo := by
  have hlen : (hi + 1 - lo).toNat = (hi - 1 + 1 - lo).toNat + 1 := by omega
  rw [downTo, downTo, hlen, List.range_succ_eq_map, List.map_cons, List.map_map]
  refine congrArg₂ _ (by simp) (List.map_congr_left fun k _ => ?_)
  simp only [comp_apply]
  omega

/-! ## Searches -/

section Visited

variable {α : Type*} {p : α → Bool} {l : List α} {a : α}

/-- What a search for `p` that returns at the first hit looks at. -/
def visited (p : α → Bool) : List α → List α
  | [] => []
  | a :: l => a :: if p a then [] else visited p l

theorem mem_of_mem_visited (h : a ∈ visited p l) : a ∈ l := by
  induction l with
  | nil => exact h
  | cons b l ih =>
    rw [visited, List.mem_cons] at h
    refine List.mem_cons.mpr (h.imp_right fun h => ?_)
    split at h
    · cases h
    · exact ih h

/-- A search that has a hit looks at one. -/
theorem any_visited (p : α → Bool) (l : List α) : (visited p l).any p = l.any p := by
  induction l with
  | nil => rfl
  | cons a l ih =>
    rw [visited, List.any_cons, List.any_cons]
    cases ha : p a with
    | true => simp
    | false => simpa using ih

/-- In a sorted list the search looks at what has no hit before it. -/
theorem mem_visited_iff [LinearOrder α] (hl : l.Pairwise (· < ·)) :
    a ∈ visited p l ↔ a ∈ l ∧ ∀ b ∈ l, b < a → p b = false := by
  induction l with
  | nil => simp [visited]
  | cons b l ih =>
    obtain ⟨hb, hl⟩ := List.pairwise_cons.mp hl
    rw [visited, List.mem_cons]
    constructor
    · rintro (rfl | h)
      · refine ⟨List.mem_cons_self, fun c hc hca => ?_⟩
        rcases List.mem_cons.mp hc with rfl | hc
        · exact absurd hca (lt_irrefl _)
        · exact absurd hca (hb c hc).not_gt
      · split at h
        · cases h
        next hhit =>
          obtain ⟨ha, hbefore⟩ := (ih hl).mp h
          refine ⟨List.mem_cons_of_mem _ ha, fun c hc hca => ?_⟩
          rcases List.mem_cons.mp hc with rfl | hc
          · exact Bool.eq_false_iff.mpr hhit
          · exact hbefore c hc hca
    · rintro ⟨ha, hbefore⟩
      refine (List.mem_cons.mp ha).imp_right fun ha => ?_
      rw [if_neg (Bool.eq_false_iff.mp (hbefore b List.mem_cons_self (hb a ha)))]
      exact (ih hl).mpr ⟨ha, fun c hc => hbefore c (List.mem_cons_of_mem _ hc)⟩

end Visited

/-! ## Loops over a table -/

/-- What a loop that stops at the first entry with property `P` finds has the property. -/
theorem of_find?_eq_some {α : Type*} {P : α → Prop} [DecidablePred P] {l : List α} {a : α}
    (h : l.find? (fun x => decide (P x)) = some a) : P a := by
  simpa using List.find?_some h

/-- A loop over distinct entries that changes each entry it visits by `g`. -/
theorem foldl_update_of_nodup {ι α : Type*} [DecidableEq ι] (g : α → α) {l : List ι}
    (hl : l.Nodup) (p : ι → α) : l.foldl (fun p i => update p i (g (p i))) p =
      fun i => if i ∈ l then g (p i) else p i := by
  induction l generalizing p with
  | nil => simp
  | cons i l ih =>
    obtain ⟨hi, hl⟩ := List.nodup_cons.mp hl
    rw [List.foldl_cons, ih hl]
    funext j
    by_cases hj : j = i
    · subst hj
      simp [hi]
    · simp [hj]

/-- A loop over a whole table that changes each entry by `g`. -/
theorem foldl_update_finRange {n : ℕ} {α : Type*} (g : α → α) (p : Fin n → α) :
    (List.finRange n).foldl (fun p i => update p i (g (p i))) p = fun i => g (p i) := by
  rw [foldl_update_of_nodup g (List.nodup_finRange n)]
  simp

/-- A loop that acts on the first entries that pass a test and stops after `m` of them, where the
actions do not change the outcome of the test. -/
theorem foldl_capped {S A : Type*} {f : S → A → S} (num : S → ℕ) (P : S → A → Prop)
    [∀ s a, Decidable (P s a)] {m : ℕ} (hnum : ∀ s a, num (f s a) = num s + 1)
    (hP : ∀ s a b, P (f s a) b ↔ P s b) (l : List A) (s : S) :
    l.foldl (fun s a => if num s < m ∧ P s a then f s a else s) s =
      ((l.filter fun a => P s a).take (m - num s)).foldl f s := by
  induction l generalizing s with
  | nil => simp
  | cons a l ih =>
    rw [List.foldl_cons, ih]
    by_cases ha : P s a
    · by_cases hm : num s < m
      · -- this entry is the first of those that are still to be taken
        have hrest : m - num s = (m - (num s + 1)) + 1 := by omega
        simp only [hm, ha, and_self, if_true, hP, hnum, hrest, List.filter_cons, decide_true,
          List.take_succ_cons, List.foldl_cons]
      · have hrest : m - num s = 0 := by omega
        simp [hm, hrest]
    · simp [ha]

/-- The first `m` entries of a sorted list that pass a test are those with fewer than `m` such
entries before them. -/
theorem mem_take_filter_iff {A : Type*} [LinearOrder A] {P : A → Prop} [DecidablePred P]
    {l : List A} (hl : l.Pairwise (· < ·)) {m : ℕ} {a : A} : a ∈ (l.filter fun b => P b).take m ↔
      a ∈ l ∧ P a ∧ (l.countP fun b => b < a ∧ P b) < m := by
  induction l generalizing m with
  | nil => simp
  | cons b l ih =>
    obtain ⟨hb, hl⟩ := List.pairwise_cons.mp hl
    -- the entries after `b` do not count for `b`, and `b` counts for them if it passes the test
    have hfirst : (l.countP fun c => decide (c < b) && decide (P c)) = 0 :=
      List.countP_eq_zero.mpr fun c hc => by simp [not_lt_of_gt (hb c hc)]
    by_cases hPb : P b
    · cases m with
      | zero => simp
      | succ =>
        rw [List.filter_cons_of_pos (by simpa using hPb), List.take_succ_cons, List.mem_cons, ih hl]
        by_cases hab : a = b
        · subst hab
          simp [hPb, hfirst]
        · by_cases hal : a ∈ l
          · simp [hab, hal, hb a hal, hPb]
          · simp [hab, hal]
    · rw [List.filter_cons_of_neg (by simpa using hPb), ih hl]
      by_cases hab : a = b
      · subst hab
        simp [hPb]
      · simp [hab, hPb]

/-! ## Loops with a guard -/

section ForLoop

variable {S : Type*} (cond : S → ℤ → Bool) (body : S → ℤ → S)

/-- `for (; cond; j++) body` from index `j`, for at most `fuel` iterations. -/
def forLoop : ℕ → ℤ → S → S
  | 0, _, s => s
  | fuel + 1, j, s => if cond s j then forLoop fuel (j + 1) (body s j) else s

/-- `P` holds in front of every iteration that `forLoop` performs. -/
def forLoopAll (P : S → ℤ → Prop) : ℕ → ℤ → S → Prop
  | 0, _, _ => True
  | fuel + 1, j, s => cond s j = true → P s j ∧ forLoopAll P fuel (j + 1) (body s j)

instance forLoopAll.decidable (P : S → ℤ → Prop) [∀ s j, Decidable (P s j)] :
    ∀ fuel j s, Decidable (forLoopAll cond body P fuel j s)
  | 0, _, _ => .isTrue trivial
  | fuel + 1, j, s =>
    have := forLoopAll.decidable P fuel (j + 1) (body s j)
    inferInstanceAs (Decidable (cond s j = true → P s j ∧ _))

variable {cond body}

/-- What every iteration preserves holds at the end. If `Q`, each iteration may assume `P`. -/
theorem forLoop_induct {I : ℤ → S → Prop} {P : S → ℤ → Prop} {Q : Prop}
    (hbody : ∀ j s, I j s → cond s j = true → (Q → P s j) → I (j + 1) (body s j))
    {fuel : ℕ} {s : S} (hall : Q → forLoopAll cond body P fuel j s) (h : I j s) :
    ∃ j', I j' (forLoop cond body fuel j s) := by
  induction fuel generalizing j s with
  | zero => exact ⟨j, h⟩
  | succ fuel ih =>
    by_cases hcond : cond s j = true
    · rw [forLoop, if_pos hcond]
      exact ih (fun hQ => (hall hQ hcond).2) (hbody j s h hcond fun hQ => (hall hQ hcond).1)
    · rw [forLoop, if_neg hcond]
      exact ⟨j, h⟩

/-- A loop none of whose iterations changes anything. -/
theorem forLoop_eq_self {s : S} (h : ∀ j, lo ≤ j → cond s j = true → body s j = s)
    (fuel : ℕ) : forLoop cond body fuel lo s = s := by
  induction fuel generalizing lo with
  | zero => rfl
  | succ fuel ih =>
    rw [forLoop]
    split
    next hcond =>
      rw [h lo le_rfl hcond]
      exact ih fun j hj => h j (by omega)
    · rfl

/-- A loop whose index stays below `hi` while the guard holds ends because its guard fails. -/
theorem forLoop_exit {I : ℤ → S → Prop}
    (hbody : ∀ j s, I j s → cond s j = true → I (j + 1) (body s j))
    (hlt : ∀ j s, I j s → cond s j = true → j < hi) {fuel : ℕ} {s : S}
    (hfuel : hi ≤ j + fuel) (h : I j s) :
    ∃ j', I j' (forLoop cond body fuel j s) ∧ cond (forLoop cond body fuel j s) j' = false := by
  induction fuel generalizing j s with
  | zero =>
    refine ⟨j, h, Bool.eq_false_iff.mpr fun hcond => ?_⟩
    have := hlt j s h hcond
    omega
  | succ fuel ih =>
    by_cases hcond : cond s j = true
    · rw [forLoop, if_pos hcond]
      exact ih (by push_cast at hfuel; omega) (hbody j s h hcond)
    · rw [forLoop, if_neg hcond]
      exact ⟨j, h, Bool.eq_false_iff.mpr hcond⟩

end ForLoop

/-! ## Loops that end with `break` -/

section BreakLoop

variable {S : Type*} (body : S → S × Bool)

/-- `while (1) body`, where the body says whether it ends with `break`; `none` if the loop is still
running after `fuel` iterations. -/
def breakLoop : ℕ → S → Option S
  | 0, _ => none
  | fuel + 1, s => if (body s).2 then some (body s).1 else breakLoop fuel (body s).1

/-- `P` holds in front of each of the first `fuel` iterations of the loop. -/
def breakLoopAll (P : S → Prop) : ℕ → S → Prop
  | 0, _ => True
  | fuel + 1, s => P s ∧ ((body s).2 = false → breakLoopAll P fuel (body s).1)

variable {body}

/-- Every iteration from a state of rank `n` either leaves the loop with `Q`, or goes on to a state
of smaller rank: the loop ends, with `Q`. -/
theorem exists_breakLoop (body : S → S × Bool) {I : ℕ → S → Prop} {Q : S → Prop}
    (hbody : ∀ n s, I n s → ((body s).2 = true ∧ Q (body s).1) ∨
      ((body s).2 = false ∧ ∃ m < n, I m (body s).1)) {n : ℕ} {s : S} (h : I n s) :
    ∃ fuel s', breakLoop body fuel s = some s' ∧ Q s' := by
  induction n using Nat.strong_induction_on generalizing s with
  | _ n ih =>
    rcases hbody n s h with ⟨hbreak, hQ⟩ | ⟨hgo, m, hm, hI⟩
    · exact ⟨1, (body s).1, by simp [breakLoop, hbreak], hQ⟩
    · obtain ⟨fuel, s', hrun, hQ⟩ := ih m hm hI
      exact ⟨fuel + 1, s', by simpa [breakLoop, hgo] using hrun, hQ⟩

end BreakLoop

/-! ## Conditions along a loop over a list -/

section Foldl

variable {S A : Type*} (f : S → A → S)

/-- `P` holds in front of every iteration of the loop `foldl`. -/
def foldlAll (P : S → A → Prop) : List A → S → Prop
  | [], _ => True
  | a :: l, s => P s a ∧ foldlAll P l (f s a)

instance foldlAll.decidable (P : S → A → Prop) [∀ s a, Decidable (P s a)] :
    ∀ l s, Decidable (foldlAll f P l s)
  | [], _ => .isTrue trivial
  | a :: l, s =>
    have := foldlAll.decidable P l (f s a)
    inferInstanceAs (Decidable (P s a ∧ _))

variable {f}

/-- What every iteration preserves holds at the end. If `Q`, each iteration may assume `P`. -/
theorem foldl_induct {I : S → Prop} {P : S → A → Prop} {Q : Prop} {l : List A}
    (hbody : ∀ s, ∀ a ∈ l, I s → (Q → P s a) → I (f s a)) {s : S}
    (hall : Q → foldlAll f P l s) (h : I s) : I (l.foldl f s) := by
  induction l generalizing s with
  | nil => exact h
  | cons a l ih =>
    have hfirst := hbody s a List.mem_cons_self h fun hQ => (hall hQ).1
    exact ih (fun s a ha => hbody s a (List.mem_cons_of_mem _ ha)) (fun hQ => (hall hQ).2) hfirst

end Foldl

end Loop
