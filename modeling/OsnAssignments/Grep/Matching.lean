import Mathlib.Computability.Language
import OsnAssignments.Grep.Model

/-!
# What the matcher of grep accepts

A pattern is read as a list of items: a character, or `.` for any character, each of them once or,
if a star follows it, any number of times. A `$` at the end that no star follows ties the match to
the end of the text, as a `^` at the beginning ties it to the start. The pattern then denotes the
product of the languages of its items.

A star that follows no item, and a `^` or `$` elsewhere, is a character like any other.
-/

namespace Grep

open Computability

/-! ## The meaning of a pattern -/

/-- A character or `.`, once or repeated. -/
inductive Item
  | one (c : UInt8)
  | many (c : UInt8)
  deriving DecidableEq, Repr

/-- The texts of one character that the character `c` of a pattern stands for. -/
def single (c : UInt8) : Language UInt8 :=
  {s | ∃ t, s = [t] ∧ (c = dot ∨ c = t)}

/-- The texts that an item stands for. -/
def Item.language : Item → Language UInt8
  | one c => single c
  | many c => (single c)∗

/-- A pattern without its `^`. -/
structure Pattern where
  items : List Item
  /-- Whether a `$` ends the pattern. -/
  atEnd : Bool
  deriving DecidableEq, Repr

/-- A pattern with one more item in front. -/
def Pattern.cons (i : Item) (p : Pattern) : Pattern :=
  { p with items := i :: p.items }

/-- The texts that the items of a pattern stand for, one after the other. -/
def Pattern.language (p : Pattern) : Language UInt8 :=
  (p.items.map Item.language).prod

/-- How the bytes of a pattern are read. -/
def Pattern.read : List UInt8 → Pattern
  | [] => ⟨[], false⟩
  | [c] => if c = dollar then ⟨[], true⟩ else ⟨[.one c], false⟩
  | c :: d :: re =>
    -- a star belongs to the character in front of it, whatever that is
    if d = star then (read re).cons (.many c) else (read (d :: re)).cons (.one c)

/-- The text `s` matches the pattern when `after` follows it. -/
def Pattern.Matches (p : Pattern) (s after : List UInt8) : Prop :=
  s ∈ p.language ∧ (p.atEnd = true → after = [])

/-- A pattern without the `^` at its beginning. -/
def withoutCaret (re : List UInt8) : List UInt8 :=
  if re.head? = some caret then re.tail else re

/-! ## The matcher -/

variable {c : UInt8} {p : Pattern} {re text s after : List UInt8}
variable {t : UInt8}

theorem cons_mem_language_cons_one :
    t :: s ∈ (p.cons (.one c)).language ↔ (c = dot ∨ c = t) ∧ s ∈ p.language := by
  constructor
  · rintro ⟨_, ⟨t', rfl, ht⟩, s', hs', heq⟩
    obtain ⟨rfl, rfl⟩ := List.cons.inj heq
    exact ⟨ht, hs'⟩
  · rintro ⟨ht, hs⟩
    exact Language.append_mem_mul (a := [t]) ⟨t, rfl, ht⟩ hs

theorem nil_notMem_language_cons_one : [] ∉ (p.cons (.one c)).language := by
  rintro ⟨_, ⟨t, rfl, -⟩, s', -, heq⟩
  exact absurd heq (List.cons_ne_nil t s')

/-- The repetitions of a character are the texts made of it. -/
theorem mem_kstar_single : s ∈ (single c)∗ ↔ ∀ t ∈ s, c = dot ∨ c = t := by
  constructor
  · rintro ⟨pieces, rfl, hpieces⟩ t ht
    obtain ⟨piece, hpiece, hmem⟩ := List.mem_flatten.mp ht
    obtain ⟨t', rfl, ht'⟩ := hpieces piece hpiece
    rwa [List.mem_singleton.mp hmem]
  · intro h
    refine ⟨s.map fun t => [t], (List.flatMap_singleton' s).symm, ?_⟩
    intro piece hpiece
    obtain ⟨t, ht, rfl⟩ := List.mem_map.mp hpiece
    exact ⟨t, rfl, h t ht⟩

/-- The test of the matcher on one character. -/
theorem accepts_iff : (t == c || c == dot) = true ↔ c = dot ∨ c = t := by
  rw [Bool.or_eq_true, beq_iff_eq, beq_iff_eq, or_comm, eq_comm (a := t)]

/-- `matchstar` tries every split of the text whose first part repeats the character. -/
theorem matchstar_iff (here : List UInt8 → Bool) : matchstar here c text = true ↔
      ∃ s rest, s ++ rest = text ∧ s ∈ (single c)∗ ∧ here rest = true := by
  simp only [mem_kstar_single]
  induction text with
  | nil =>
    rw [matchstar]
    constructor
    · intro h
      exact ⟨[], [], rfl, by simp, h⟩
    · rintro ⟨s, rest, heq, -, h⟩
      obtain ⟨-, rfl⟩ := List.append_eq_nil_iff.mp heq
      exact h
  | cons t text ih =>
    rw [matchstar, Bool.or_eq_true, Bool.and_eq_true, ih]
    constructor
    · rintro (h | ⟨ht, s, rest, rfl, hs, h⟩)
      · exact ⟨[], t :: text, rfl, by simp, h⟩
      · refine ⟨t :: s, rest, rfl, ?_, h⟩
        exact List.forall_mem_cons.mpr ⟨accepts_iff.mp ht, hs⟩
    · rintro ⟨s, rest, heq, hs, h⟩
      cases s with
      | nil =>
        obtain rfl : rest = t :: text := heq
        exact .inl h
      | cons t' s =>
        obtain ⟨rfl, rfl⟩ := List.cons.inj heq
        refine .inr ⟨?_, s, rest, rfl, fun u hu => hs u (List.mem_cons_of_mem _ hu), h⟩
        exact accepts_iff.mpr (hs t' List.mem_cons_self)

/-- What `matchhere` decides about the beginning of a text. -/
def MatchesHere (p : Pattern) (text : List UInt8) : Prop :=
  ∃ s after, s ++ after = text ∧ p.Matches s after

theorem matchesHere_nil : MatchesHere ⟨[], false⟩ text :=
  ⟨[], text, rfl, Language.nil_mem_one, nofun⟩

theorem matchesHere_end : MatchesHere ⟨[], true⟩ text ↔ text = [] := by
  constructor
  · rintro ⟨s, after, rfl, hs, hafter⟩
    obtain rfl : s = [] := (Language.mem_one s).mp hs
    exact hafter rfl
  · rintro rfl
    exact ⟨[], [], rfl, Language.nil_mem_one, fun _ => rfl⟩

theorem not_matchesHere_cons_one : ¬ MatchesHere (p.cons (.one c)) [] := by
  rintro ⟨s, after, heq, hs, -⟩
  obtain ⟨rfl, -⟩ := List.append_eq_nil_iff.mp heq
  exact nil_notMem_language_cons_one hs

theorem matchesHere_cons_one :
    MatchesHere (p.cons (.one c)) (t :: text) ↔ (c = dot ∨ c = t) ∧ MatchesHere p text := by
  constructor
  · rintro ⟨s, after, heq, hs, hafter⟩
    cases s with
    | nil => exact absurd hs nil_notMem_language_cons_one
    | cons t' s =>
      obtain ⟨rfl, rfl⟩ := List.cons.inj heq
      obtain ⟨ht, hs⟩ := cons_mem_language_cons_one.mp hs
      exact ⟨ht, s, after, rfl, hs, hafter⟩
  · rintro ⟨ht, s, after, rfl, hs, hafter⟩
    exact ⟨t :: s, after, rfl, cons_mem_language_cons_one.mpr ⟨ht, hs⟩, hafter⟩

theorem matchesHere_cons_many : MatchesHere (p.cons (.many c)) text ↔
      ∃ s rest, s ++ rest = text ∧ s ∈ (single c)∗ ∧ MatchesHere p rest := by
  constructor
  · rintro ⟨s, after, rfl, ⟨s₁, hs₁, s₂, hs₂, rfl⟩, hafter⟩
    exact ⟨s₁, s₂ ++ after, by simp, hs₁, s₂, after, rfl, hs₂, hafter⟩
  · rintro ⟨s₁, _, rfl, hs₁, s₂, after, rfl, hs₂, hafter⟩
    exact ⟨s₁ ++ s₂, after, by simp, Language.append_mem_mul hs₁ hs₂, hafter⟩

/-- `matchhere` finds the beginnings of the text that match. -/
theorem matchhere_iff : matchhere re text = true ↔ MatchesHere (.read re) text := by
  -- the cases are those of `Pattern.read`
  induction re using Pattern.read.induct generalizing text with
  | case1 => simp [matchhere, Pattern.read, matchesHere_nil]
  | case2 => simp [matchhere, Pattern.read, matchesHere_end]
  | case3 c hc =>
    have hread : Pattern.read [c] = Pattern.cons (.one c) ⟨[], false⟩ := by
      rw [Pattern.read, if_neg hc]
      rfl
    rw [hread]
    cases text with
    | nil => simp [matchhere, hc, not_matchesHere_cons_one]
    | cons => simp [matchhere, hc, matchesHere_cons_one, matchesHere_nil]
  | case4 c re ih =>
    have hhere : matchhere (c :: star :: re) text = matchstar (matchhere re) c text := by
      rw [matchhere.eq_def]
      exact if_pos rfl
    rw [hhere, matchstar_iff, Pattern.read, if_pos rfl, matchesHere_cons_many]
    simp only [ih]
  | case5 c d re hd ih =>
    rw [Pattern.read, if_neg hd]
    cases text with
    | nil => simp [matchhere, hd, not_matchesHere_cons_one]
    | cons => simp [matchhere, hd, matchesHere_cons_one, ih]

/-- The loop of `match` looks for a match at every place of the text. -/
theorem matchLoop_iff : matchLoop re text = true ↔
      ∃ front rest, front ++ rest = text ∧ MatchesHere (.read re) rest := by
  induction text with
  | nil =>
    rw [matchLoop, matchhere_iff]
    constructor
    · intro h
      exact ⟨[], [], rfl, h⟩
    · rintro ⟨front, rest, heq, h⟩
      obtain ⟨-, rfl⟩ := List.append_eq_nil_iff.mp heq
      exact h
  | cons t text ih =>
    rw [matchLoop, Bool.or_eq_true, matchhere_iff, ih]
    constructor
    · rintro (h | ⟨front, rest, rfl, h⟩)
      · exact ⟨[], t :: text, rfl, h⟩
      · exact ⟨t :: front, rest, rfl, h⟩
    · rintro ⟨front, rest, heq, h⟩
      cases front with
      | nil =>
        obtain rfl : rest = t :: text := heq
        exact .inl h
      | cons t' front =>
        obtain ⟨rfl, rfl⟩ := List.cons.inj heq
        exact .inr ⟨front, rest, rfl, h⟩

/-- `match(re, text)` returns 1 exactly if a part of the text matches the pattern; the part starts
at the beginning of the text if the pattern begins with `^`. -/
theorem matchRe_iff (re text : List UInt8) :
    matchRe re text = true ↔ ∃ front s after, front ++ s ++ after = text ∧
      (re.head? = some caret → front = []) ∧ (Pattern.read (withoutCaret re)).Matches s after := by
  by_cases hcaret : re.head? = some caret
  · obtain ⟨re, rfl⟩ : ∃ tail, re = caret :: tail := by
      cases re with
      | nil => cases hcaret
      | cons c re =>
        obtain rfl : c = caret := Option.some.inj hcaret
        exact ⟨re, rfl⟩
    rw [matchRe, if_pos rfl, matchhere_iff, withoutCaret, if_pos hcaret, List.tail_cons]
    constructor
    · rintro ⟨s, after, heq, h⟩
      exact ⟨[], s, after, heq, fun _ => rfl, h⟩
    · rintro ⟨front, s, after, heq, hfront, h⟩
      obtain rfl := hfront rfl
      exact ⟨s, after, heq, h⟩
  · have hloop : matchRe re text = matchLoop re text := by
      cases re with
      | nil => rfl
      | cons c re => exact if_neg fun hc => hcaret (congrArg some hc)
    rw [hloop, matchLoop_iff, withoutCaret, if_neg hcaret]
    constructor
    · rintro ⟨front, _, rfl, s, after, rfl, h⟩
      exact ⟨front, s, after, List.append_assoc .., fun hc => absurd hc hcaret, h⟩
    · rintro ⟨front, s, after, rfl, -, h⟩
      exact ⟨front, s ++ after, (List.append_assoc ..).symm, s, after, rfl, h⟩

-- A star after `^` is a character, `$` in the middle is one, and `$*` may repeat it.
example : Pattern.read (withoutCaret [caret, star, dollar, 97, star, dollar]) =
    ⟨[.one star, .one dollar, .many 97], true⟩ := by decide

example : Pattern.read (withoutCaret [97, dollar, star]) = ⟨[.one 97, .many dollar], false⟩ := by
  decide

end Grep
