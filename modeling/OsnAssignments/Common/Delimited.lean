import Mathlib.Data.List.Basic
import Mathlib.Tactic.Common

/-!
# Lists of records that end in a delimiter

`join d ls` writes the records `ls` one after another, each followed by the delimiter `d`. If `d`
does not occur in the records, the text and a rest without `d` behind it can be taken apart again in
one way only.
-/

namespace Delimited

variable {α : Type*} {d : α} {ls ls' : List (List α)} {l r r' : List α}

/-- The records, each followed by the delimiter. -/
def join (d : α) (ls : List (List α)) : List α :=
  ls.flatMap fun l => l ++ [d]

@[simp]
theorem join_nil : join d [] = [] := rfl

@[simp]
theorem join_cons : join d (l :: ls) = l ++ d :: join d ls := by
  simp [join]

@[simp]
theorem join_append : join d (ls ++ ls') = join d ls ++ join d ls' := by
  simp [join]

theorem eq_nil_of_join_eq_nil (h : join d ls = []) : ls = [] := by
  cases ls with
  | nil => rfl
  | cons => simp at h

theorem mem_of_mem_join {x : α} (h : x ∈ join d ls) : x = d ∨ ∃ l ∈ ls, x ∈ l := by
  obtain ⟨l, hl, hx⟩ := List.mem_flatMap.mp h
  rcases List.mem_append.mp hx with hx | hx
  · exact .inr ⟨l, hl, hx⟩
  · exact .inl (List.mem_singleton.mp hx)

theorem delimiter_mem_join (h : ls ≠ []) : d ∈ join d ls := by
  cases ls with
  | nil => exact absurd rfl h
  | cons => simp

/-- The first record of a text is determined. -/
theorem append_cons_inj {l l' x x' : List α} (hl : d ∉ l) (hl' : d ∉ l')
    (h : l ++ d :: x = l' ++ d :: x') : l = l' ∧ x = x' := by
  induction l generalizing l' with
  | nil =>
    cases l' with
    | nil => exact ⟨rfl, (List.cons.inj h).2⟩
    | cons =>
      obtain ⟨rfl, -⟩ := List.cons.inj h
      exact absurd List.mem_cons_self hl'
  | cons a l ih =>
    cases l' with
    | nil =>
      obtain ⟨rfl, -⟩ := List.cons.inj h
      exact absurd List.mem_cons_self hl
    | cons =>
      obtain ⟨rfl, htail⟩ := List.cons.inj h
      obtain ⟨rfl, rfl⟩ := ih (fun hd => hl (List.mem_cons_of_mem _ hd))
        (fun hd => hl' (List.mem_cons_of_mem _ hd)) htail
      exact ⟨rfl, rfl⟩

/-- The records of a text and what follows them are determined. -/
theorem join_append_inj (hls : ∀ l ∈ ls, d ∉ l) (hls' : ∀ l ∈ ls', d ∉ l) (hr : d ∉ r)
    (hr' : d ∉ r') (h : join d ls ++ r = join d ls' ++ r') : ls = ls' ∧ r = r' := by
  induction ls generalizing ls' with
  | nil =>
    cases ls' with
    | nil => exact ⟨rfl, h⟩
    | cons =>
      rw [join_nil, List.nil_append] at h
      rw [h] at hr
      simp at hr
  | cons l ls ih =>
    cases ls' with
    | nil =>
      rw [join_nil, List.nil_append] at h
      rw [← h] at hr'
      simp at hr'
    | cons l' =>
      rw [join_cons, join_cons, List.append_assoc, List.append_assoc, List.cons_append,
        List.cons_append] at h
      obtain ⟨rfl, htail⟩ :=
        append_cons_inj (hls l List.mem_cons_self) (hls' l' List.mem_cons_self) h
      obtain ⟨rfl, rfl⟩ := ih (fun x hx => hls x (List.mem_cons_of_mem _ hx))
        (fun x hx => hls' x (List.mem_cons_of_mem _ hx)) htail
      exact ⟨rfl, rfl⟩

end Delimited
