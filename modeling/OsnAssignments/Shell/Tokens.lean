import Mathlib.Data.List.TakeWhile
import OsnAssignments.Shell.Model

/-!
# The tokens of a line

`Lexes line ts` says, without reference to the scanner, that the line consists of the tokens `ts`:
whitespace is skipped, `>>` is one token, and a word is as long as it can be. Every line has exactly
one token sequence, and `gettoken` and `peek` follow it wherever the pointer stands:
`gettoken_cons`, `gettoken_nil` and `peek_eq` are all that the parser's proofs use of the scanner.
-/

namespace Shell

/-- A token of the language; `symbol c` stands for a character of `symbols`. -/
inductive Token
  | word (w : List UInt8)
  | symbol (c : UInt8)
  | append
  deriving DecidableEq, Repr

namespace Token

/-- What `gettoken` returns for the token. -/
def code : Token → Code
  | word _ => .word
  | symbol c => .symbol c
  | append => .append

/-- The symbol that the token starts with. -/
def first : Token → Option UInt8
  | word _ => none
  | symbol c => some c
  | append => some greater

/-- The bytes of the token. -/
def text : Token → List UInt8
  | word w => w
  | symbol c => [c]
  | append => [greater, greater]

end Token

/-- A word: at least one byte, and every byte may stand in a word. -/
def IsWord (w : List UInt8) : Prop :=
  w ≠ [] ∧ ∀ b ∈ w, wordByte b

/-- The line consists of these tokens. -/
inductive Lexes : Ptr → List Token → Prop
  | nil : Lexes [] []
  | skip {c : UInt8} {s : Ptr} {ts : List Token} (hc : c ∈ whitespace) (h : Lexes s ts) :
    Lexes (c :: s) ts
  | symbol {c : UInt8} {s : Ptr} {ts : List Token} (hc : c ∈ symbols)
    (hgt : c = greater → s.head? ≠ some greater) (h : Lexes s ts) :
    Lexes (c :: s) (.symbol c :: ts)
  | append {s : Ptr} {ts : List Token} (h : Lexes s ts) :
    Lexes (greater :: greater :: s) (.append :: ts)
  | word {w : List UInt8} {s : Ptr} {ts : List Token} (hw : IsWord w)
    (hmax : ∀ b ∈ s.head?, ¬ wordByte b) (h : Lexes s ts) :
    Lexes (w ++ s) (.word w :: ts)

variable {line s s' : Ptr} {t : Token} {ts ts' : List Token} {c : UInt8} {w : List UInt8}

/-! ## Characters -/

theorem not_mem_whitespace_of_symbol (hc : c ∈ symbols) : c ∉ whitespace := by
  have hdisj : ∀ c ∈ symbols, c ∉ whitespace := by decide +kernel
  exact hdisj c hc

theorem wordByte_iff : wordByte c ↔ c ∉ whitespace ∧ c ∉ symbols := by
  simp [wordByte]

theorem skip_cons_of_mem (hc : c ∈ whitespace) : skip (c :: s) = skip s := by
  rw [skip, List.dropWhile_cons_of_pos (List.contains_iff_mem.mpr hc), skip]

theorem skip_cons_of_not_mem (hc : c ∉ whitespace) : skip (c :: s) = c :: s := by
  rw [skip, List.dropWhile_cons_of_neg (by rwa [List.contains_iff_mem])]

theorem skip_suffix : skip s <:+ s :=
  List.dropWhile_suffix _

/-- Behind a word of maximal length, the word is what the scanner runs over. -/
theorem dropWhile_wordByte (hw : ∀ b ∈ w, wordByte b) (hmax : ∀ b ∈ s.head?, ¬ wordByte b) :
    (w ++ s).dropWhile wordByte = s := by
  rw [List.dropWhile_append_of_pos hw]
  cases s with
  | nil => rfl
  | cons b => exact List.dropWhile_cons_of_neg (hmax b rfl)

theorem token_word (hw : IsWord w) (hmax : ∀ b ∈ s.head?, ¬ wordByte b) :
    token (w ++ s) = (.word, s) := by
  have hdrop := dropWhile_wordByte hw.2 hmax
  obtain ⟨b, w, rfl⟩ := List.exists_cons_of_ne_nil hw.1
  obtain ⟨-, hb⟩ := wordByte_iff.mp (hw.2 b List.mem_cons_self)
  have hgt : b ≠ greater := fun h => hb (h ▸ by decide)
  calc token (b :: w ++ s) = (.word, (b :: w ++ s).dropWhile wordByte) :=
        (if_neg hgt).trans (if_neg (by rwa [List.contains_iff_mem]))
    _ = (.word, s) := by rw [hdrop]

theorem token_symbol (hc : c ∈ symbols) (hgt : c = greater → s.head? ≠ some greater) :
    token (c :: s) = (.symbol c, s) := by
  by_cases hcg : c = greater
  · subst hcg
    cases s with
    | nil => rfl
    | cons d =>
      have hd : d ≠ greater := fun h => hgt rfl (congrArg some h)
      simp only [token, ↓reduceIte, hd]
  · exact (if_neg hcg).trans (if_pos (List.contains_iff_mem.mpr hc))

/-! ## Lines and their tokens -/

/-- Whitespace in front makes no difference. -/
theorem lexes_skip_iff : Lexes (skip s) ts ↔ Lexes s ts := by
  induction s with
  | nil => rfl
  | cons c s ih =>
    by_cases hc : c ∈ whitespace
    · rw [skip_cons_of_mem hc, ih]
      refine ⟨.skip hc, fun h => ?_⟩
      generalize hline : c :: s = line at h
      cases h with
      | nil => cases hline
      | skip _ h => exact (List.cons.inj hline).2 ▸ h
      | symbol hc' =>
        exact absurd ((List.cons.inj hline).1 ▸ hc) (not_mem_whitespace_of_symbol hc')
      | append => exact absurd ((List.cons.inj hline).1 ▸ hc) (by decide)
      | word hw =>
        obtain ⟨b, w, rfl⟩ := List.exists_cons_of_ne_nil hw.1
        have hb := (wordByte_iff.mp (hw.2 b List.mem_cons_self)).1
        exact absurd ((List.cons.inj hline).1 ▸ hc) hb
    · rw [skip_cons_of_not_mem hc]

/-- The pointers mark the word `w` of the line. -/
structure Span.Marks (span : Span) (line : Ptr) (w : List UInt8) : Prop where
  suffix : span.q <:+ line
  split : span.q = w ++ span.eq
  isWord : IsWord w
  maximal : ∀ b ∈ span.eq.head?, ¬ wordByte b

theorem Span.Marks.text_eq {span : Span} (h : span.Marks line w) : span.text = w := by
  rw [Span.text, h.split, List.length_append, Nat.add_sub_cancel, List.take_left]

/-- The `switch` of `gettoken` at a token. -/
theorem exists_token_eq (h : Lexes s (t :: ts)) (hs : skip s = s) :
    ∃ eq, token s = (t.code, eq) ∧ Lexes eq ts ∧ eq <:+ s ∧ eq.length < s.length ∧
      ∀ w, t = .word w → (Span.mk s eq).Marks s w := by
  cases h with
  | @skip c s _ hc =>
    -- the pointer does not stand at whitespace
    have hlen := (skip_suffix (s := s)).length_le
    rw [← skip_cons_of_mem hc, hs, List.length_cons] at hlen
    exact absurd hlen (Nat.not_succ_le_self _)
  | symbol hc hgt h =>
    exact ⟨_, token_symbol hc hgt, h, List.suffix_cons .., by simp, nofun⟩
  | append h =>
    refine ⟨_, rfl, h, (List.suffix_cons ..).trans (List.suffix_cons ..), ?_, nofun⟩
    exact Nat.lt_succ_of_lt (Nat.lt_succ_self _)
  | word hw hmax h =>
    refine ⟨_, token_word hw hmax, h, List.suffix_append .., ?_, ?_⟩
    · have hpos := List.length_pos_iff.mpr hw.1
      rw [List.length_append]
      omega
    · rintro w ⟨⟩
      exact ⟨List.suffix_rfl, rfl, hw, hmax⟩

theorem skip_skip : skip (skip s) = skip s := by
  induction s with
  | nil => rfl
  | cons c s ih =>
    by_cases hc : c ∈ whitespace
    · rw [skip_cons_of_mem hc, ih]
    · rw [skip_cons_of_not_mem hc, skip_cons_of_not_mem hc]

/-- The pointer `s` into the line stands before these tokens. -/
structure Reads (line s : Ptr) (ts : List Token) : Prop where
  suffix : s <:+ line
  lexes : Lexes s ts

/-- `gettoken` at a token: the code of the token, the word that is marked, and the tokens left. -/
theorem gettoken_cons (h : Reads line s (t :: ts)) :
    ∃ span s', gettoken s = (t.code, span, s') ∧ Reads line s' ts ∧ s'.length < s.length ∧
      ∀ w, t = .word w → span.Marks line w := by
  obtain ⟨eq, htoken, hlex, hsuff, hlen, hmarks⟩ :=
    exists_token_eq (lexes_skip_iff.mpr h.lexes) skip_skip
  have hskip : skip eq <:+ eq := skip_suffix
  refine ⟨⟨skip s, eq⟩, skip eq, ?_, ⟨?_, lexes_skip_iff.mpr hlex⟩, ?_, fun w hw => ?_⟩
  · rw [gettoken, htoken]
  · exact hskip.trans (hsuff.trans (skip_suffix.trans h.suffix))
  · have hle : (skip s).length ≤ s.length := skip_suffix.length_le
    have hle' := hskip.length_le
    omega
  · obtain ⟨-, hsplit, hword, hmax⟩ := hmarks w hw
    exact ⟨skip_suffix.trans h.suffix, hsplit, hword, hmax⟩

/-- A line without tokens is whitespace. -/
theorem skip_eq_nil (h : Lexes s []) : skip s = [] := by
  generalize hts : [] = ts at h
  induction h with
  | nil => rfl
  | skip hc _ ih => rw [skip_cons_of_mem hc, ih hts]
  | symbol | append | word => cases hts

/-- `gettoken` at the end of the line. -/
theorem gettoken_nil (h : Reads line s []) : ∃ span, gettoken s = (.eof, span, []) := by
  refine ⟨⟨[], []⟩, ?_⟩
  rw [gettoken, skip_eq_nil h.lexes]
  rfl

/-! ## Looking ahead -/

/-- The first token starts with one of the symbols. -/
def startsWith (toks : List UInt8) (ts : List Token) : Bool :=
  (ts.head?.bind Token.first).any toks.contains

theorem head_eq_of_lexes (h : Lexes s ts) (hs : skip s = s) {toks : List UInt8}
    (htoks : toks ⊆ symbols) : s.head?.any toks.contains = startsWith toks ts := by
  cases h with
  | nil => rfl
  | @skip c s _ hc =>
    have hlen := (skip_suffix (s := s)).length_le
    rw [← skip_cons_of_mem hc, hs, List.length_cons] at hlen
    exact absurd hlen (Nat.not_succ_le_self _)
  | symbol | append => rfl
  | word hw =>
    obtain ⟨b, w, rfl⟩ := List.exists_cons_of_ne_nil hw.1
    obtain ⟨-, hb⟩ := wordByte_iff.mp (hw.2 b List.mem_cons_self)
    exact Bool.eq_false_iff.mpr fun h => hb (htoks (List.contains_iff_mem.mp h))

/-- `peek` looks at the first token, and stays before it. -/
theorem peek_eq (h : Reads line s ts) (toks : List UInt8) (htoks : toks ⊆ symbols) :
    ∃ s', peek s toks = (startsWith toks ts, s') ∧ Reads line s' ts ∧ s'.length ≤ s.length := by
  have hlex := lexes_skip_iff.mpr h.lexes
  refine ⟨skip s, ?_, ⟨skip_suffix.trans h.suffix, hlex⟩, skip_suffix.length_le⟩
  rw [peek, head_eq_of_lexes hlex skip_skip htoks]

/-! ## Every line has one token sequence -/

theorem exists_lexes (s : Ptr) : ∃ ts, Lexes s ts := by
  induction hn : s.length using Nat.strongRecOn generalizing s with
  | _ n ih =>
    subst hn
    cases s with
    | nil => exact ⟨[], .nil⟩
    | cons c s =>
      by_cases hws : c ∈ whitespace
      · obtain ⟨ts, h⟩ := ih s.length (by simp) s rfl
        exact ⟨ts, .skip hws h⟩
      by_cases hsym : c ∈ symbols
      · obtain ⟨ts, h⟩ := ih s.length (by simp) s rfl
        by_cases hgt : c = greater ∧ s.head? = some greater
        · obtain ⟨rfl, hhead⟩ := hgt
          obtain ⟨s, rfl⟩ := List.head?_eq_some_iff.mp hhead
          obtain ⟨ts, h⟩ := ih s.length (Nat.lt_succ_of_lt (Nat.lt_succ_self _)) s rfl
          exact ⟨_, .append h⟩
        · exact ⟨_, .symbol hsym (fun hc hhead => hgt ⟨hc, hhead⟩) h⟩
      · have hc : wordByte c := wordByte_iff.mpr ⟨hws, hsym⟩
        obtain ⟨ts, h⟩ := ih (s.dropWhile wordByte).length
          (Nat.lt_succ_of_le (List.dropWhile_suffix _).length_le) _ rfl
        have hsplit : c :: s.takeWhile wordByte ++ s.dropWhile wordByte = c :: s := by
          rw [List.cons_append, List.takeWhile_append_dropWhile]
        rw [← hsplit]
        refine ⟨_, .word ⟨by simp, fun b hb => ?_⟩ (fun b hb => ?_) h⟩
        · rcases List.mem_cons.mp hb with rfl | hb
          · exact hc
          · exact List.mem_takeWhile_imp hb
        · have hnot := List.head?_dropWhile_not wordByte s
          rw [hb] at hnot
          simpa using hnot

theorem lexes_unique (h : Lexes s ts) (h' : Lexes s ts') : ts = ts' := by
  induction ts generalizing s ts' with
  | nil =>
    cases ts' with
    | nil => rfl
    | cons t' =>
      obtain ⟨span, hnil⟩ := gettoken_nil ⟨List.suffix_rfl, h⟩
      obtain ⟨span', s', hcons, -⟩ := gettoken_cons ⟨List.suffix_rfl, h'⟩
      have hcode := congrArg Prod.fst (hnil.symm.trans hcons)
      cases t' <;> cases hcode
  | cons t ts ih =>
    obtain ⟨span, s₁, hcons, hrest, -, hword⟩ := gettoken_cons ⟨List.suffix_rfl, h⟩
    cases ts' with
    | nil =>
      obtain ⟨span, hnil⟩ := gettoken_nil ⟨List.suffix_rfl, h'⟩
      have hcode := congrArg Prod.fst (hnil.symm.trans hcons)
      cases t <;> cases hcode
    | cons t' =>
      obtain ⟨span', s₂, hcons', hrest', -, hword'⟩ := gettoken_cons ⟨List.suffix_rfl, h'⟩
      rw [hcons, Prod.mk.injEq, Prod.mk.injEq] at hcons'
      obtain ⟨hcode, rfl, rfl⟩ := hcons'
      refine congrArg₂ _ ?_ (ih hrest.lexes hrest'.lexes)
      -- words are told apart by what is marked, other tokens by their codes
      cases t <;> cases t' <;> try cases hcode
      · exact congrArg _ ((hword _ rfl).text_eq.symm.trans (hword' _ rfl).text_eq)
      all_goals rfl

end Shell
