import Mathlib.Data.List.MinMax

/-!
# The first minimum of a scan

`List.argmin f l` is what a loop computes that walks through `l` and replaces its candidate only
by an element with a strictly smaller value of `f`. If the loop walks in the order of a key `g`,
the candidate it ends with is determined by `f` and `g`: it has the smallest value of `f`, and
among the elements with that value the smallest key.
-/

namespace FirstMin

variable {α β γ : Type*} [DecidableEq α] [LinearOrder β] [LinearOrder γ] {f : α → β} {g : α → γ}
  {l : List α} {a b m : α}

variable (hl : l.Pairwise (g · < g ·))
include hl

/-- In a list that ascends in the key `g`, what stands first has the smaller key. -/
theorem key_le_of_idxOf_le (ha : a ∈ l) (hb : b ∈ l) (h : l.idxOf a ≤ l.idxOf b) : g a ≤ g b := by
  have ha' := List.idxOf_lt_length_iff.mpr ha
  have hb' := List.idxOf_lt_length_iff.mpr hb
  rcases h.eq_or_lt with heq | hlt
  · rw [(List.idxOf_inj ha).mp heq]
  · have hkey := List.pairwise_iff_getElem.mp hl _ _ ha' hb' hlt
    rw [List.getElem_idxOf ha', List.getElem_idxOf hb'] at hkey
    exact hkey.le

/-- In a list that ascends in the key `g`, elements with the same key are the same. -/
theorem eq_of_key_eq (ha : a ∈ l) (hb : b ∈ l) (h : g a = g b) : a = b := by
  have ha' := List.idxOf_lt_length_iff.mpr ha
  have hb' := List.idxOf_lt_length_iff.mpr hb
  rcases lt_trichotomy (l.idxOf a) (l.idxOf b) with hlt | heq | hlt
  · have hkey := List.pairwise_iff_getElem.mp hl _ _ ha' hb' hlt
    rw [List.getElem_idxOf ha', List.getElem_idxOf hb'] at hkey
    exact absurd h hkey.ne
  · exact (List.idxOf_inj ha).mp heq
  · have hkey := List.pairwise_iff_getElem.mp hl _ _ hb' ha' hlt
    rw [List.getElem_idxOf ha', List.getElem_idxOf hb'] at hkey
    exact absurd h hkey.ne'

/-- The first minimum of `f` in a list that ascends in the key `g` is the element that is least
with respect to `f`, and then `g`. -/
theorem argmin_eq_some_iff :
    l.argmin f = some m ↔ m ∈ l ∧ ∀ a ∈ l, f m < f a ∨ f m = f a ∧ g m ≤ g a := by
  have hspec {m : α} (hm : l.argmin f = some m) :
      m ∈ l ∧ ∀ a ∈ l, f m < f a ∨ f m = f a ∧ g m ≤ g a := by
    obtain ⟨hmem, hle, hfirst⟩ := List.argmin_eq_some_iff.mp hm
    refine ⟨hmem, fun a ha => ?_⟩
    rcases (hle a ha).lt_or_eq with hlt | heq
    · exact .inl hlt
    · exact .inr ⟨heq, key_le_of_idxOf_le hl hmem ha (hfirst a ha heq.ge)⟩
  refine ⟨hspec, fun ⟨hmem, hleast⟩ => ?_⟩
  -- the element that `argmin` returns is below `m`, and `m` is below it
  obtain ⟨m', hm'⟩ : ∃ m', l.argmin f = some m' := by
    cases h : l.argmin f with
    | none =>
      rw [List.argmin_eq_none.mp h] at hmem
      cases hmem
    | some m' => exact ⟨m', rfl⟩
  obtain ⟨hmem', hleast'⟩ := hspec hm'
  rcases hleast m' hmem' with hlt | ⟨heq, hle⟩ <;> rcases hleast' m hmem with hlt' | ⟨heq', hle'⟩
  · exact absurd hlt hlt'.not_gt
  · exact absurd heq' hlt.ne'
  · exact absurd heq hlt'.ne'
  · rw [hm', eq_of_key_eq hl hmem' hmem (le_antisymm hle' hle)]

end FirstMin
