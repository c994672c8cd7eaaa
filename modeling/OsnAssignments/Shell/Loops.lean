import OsnAssignments.Common.Outcome
import OsnAssignments.Shell.Grammar

/-!
# The loops of the parser

The loops of `parseredirs`, `parseexec` and `parseline` at a pointer that stands before given
tokens. For each of them one lemma per kind of first token says what a round does. From these follow
two statements by induction: the loop ends, and what it returns is derived from the tokens it has
passed (`_sound`); and if the tokens can be derived, the loop returns what the derivation determines
(`_complete`).
-/

namespace Shell

open Outcome

variable {line s : Ptr} {t op : Token} {ts xs ys zs : List Token} {w : List UInt8}
  {ws : List (List UInt8)} {rs : List (Redir (List UInt8))} {k argc mode fd : ℕ}
  {toks : List UInt8} {c : UInt8} {α β : Type}

/-! ## Commands and their words -/

/-- The redirection with its file replaced. -/
def Redir.map (f : α → β) (r : Redir α) : Redir β :=
  ⟨f r.file, r.mode, r.fd⟩

theorem map_redirs (f : α → β) (cmd : Cmd α) (rs : List (Redir α)) :
    (cmd.redirs rs).map f = (cmd.map f).redirs (rs.map (Redir.map f)) := by
  induction rs generalizing cmd with
  | nil => rfl
  | cons r rs ih => exact ih (.redir cmd r.file r.mode r.fd)

theorem forall_words_redirs {P : α → Prop} {cmd : Cmd α} {rs : List (Redir α)}
    (h : ∀ word ∈ cmd.words, P word) (hrs : ∀ r ∈ rs, P r.file) :
    ∀ word ∈ (cmd.redirs rs).words, P word := by
  induction rs generalizing cmd with
  | nil => exact h
  | cons r rs ih =>
    refine ih (fun word hword => ?_) fun r' hr' => hrs r' (List.mem_cons_of_mem _ hr')
    rcases List.mem_append.mp hword with hword | hword
    · exact h word hword
    · rw [List.mem_singleton.mp hword]
      exact hrs r List.mem_cons_self

theorem words_iterate_back (n : ℕ) (cmd : Cmd α) : (Cmd.back^[n] cmd).words = cmd.words := by
  induction n generalizing cmd with
  | zero => rfl
  | succ n ih => exact ih (.back cmd)

theorem map_iterate_back (f : α → β) (n : ℕ) (cmd : Cmd α) :
    (Cmd.back^[n] cmd).map f = Cmd.back^[n] (cmd.map f) := by
  induction n generalizing cmd with
  | zero => rfl
  | succ n ih => exact ih (.back cmd)

/-- The pointers mark a word of the line. -/
def Span.InLine (line : Ptr) (span : Span) : Prop :=
  span.Marks line span.text

theorem Span.Marks.inLine {span : Span} (h : span.Marks line w) : span.InLine line := by
  rw [Span.InLine, h.text_eq]
  exact h

/-! ## First tokens -/

theorem exists_of_startsWith (h : startsWith toks ts) :
    ∃ t ts', ts = t :: ts' ∧ t.first.any toks.contains := by
  cases ts with
  | nil => cases h
  | cons t ts => exact ⟨t, ts, rfl, h⟩

/-- A single symbol other than `>` is found only where it stands. -/
theorem exists_of_startsWith_singleton (hc : c ≠ greater) (h : startsWith [c] ts) :
    ∃ ts', ts = .symbol c :: ts' := by
  obtain ⟨t, ts, rfl, ht⟩ := exists_of_startsWith h
  cases t with
  | word => cases ht
  | symbol d =>
    have hd : d = c := List.mem_singleton.mp (List.contains_iff_mem.mp ht)
    exact ⟨ts, hd ▸ rfl⟩
  | append =>
    have hd : greater = c := List.mem_singleton.mp (List.contains_iff_mem.mp ht)
    exact absurd hd.symm hc

theorem startsWith_redir (op : Token) (ts : List Token) :
    startsWith [less, greater] (op :: ts) = op.redir.isSome := by
  cases op with
  | word => rfl
  | append => rfl
  | symbol c =>
    change [less, greater].contains c = _
    by_cases hl : c = less
    · subst hl
      rfl
    by_cases hg : c = greater
    · subst hg
      rfl
    · simp [Token.redir, hl, hg]

theorem redirOf_code (hop : op.redir = some (mode, fd)) (file : α) :
    redirOf op.code file = [⟨file, mode, fd⟩] := by
  cases op with
  | word => cases hop
  | append =>
    cases hop
    rfl
  | symbol =>
    simp only [Token.redir] at hop
    split_ifs at hop with hl hg
    · cases hop
      subst hl
      rfl
    · cases hop
      subst hg
      rfl

/-! ## parseredirs -/

theorem redirLoop_stop (h : Reads line s ts) (hts : startsWith [less, greater] ts = false) :
    ∃ s', redirLoop (k + 1) s = pure ([], s') ∧ Reads line s' ts ∧ s'.length ≤ s.length := by
  obtain ⟨s', hpeek, hreads, hlen⟩ := peek_eq h [less, greater] (by decide)
  refine ⟨s', ?_, hreads, hlen⟩
  rw [redirLoop, hpeek, hts]

theorem redirLoop_step (h : Reads line s (op :: .word w :: ts)) (hop : op.redir = some (mode, fd)) :
    ∃ file s', redirLoop (k + 1) s = (redirLoop k s' >>= fun r =>
        pure (⟨file, mode, fd⟩ :: r.1, r.2)) ∧
      file.Marks line w ∧ Reads line s' ts ∧ s'.length < s.length := by
  obtain ⟨s₁, hpeek, hreads, hlen⟩ := peek_eq h [less, greater] (by decide)
  obtain ⟨span, s₂, htok, hreads, hlen₂, -⟩ := gettoken_cons hreads
  obtain ⟨file, s₃, hword, hreads, hlen₃, hmarks⟩ := gettoken_cons hreads
  refine ⟨file, s₃, ?_, hmarks w rfl, hreads, by omega⟩
  rw [redirLoop, hpeek, startsWith_redir, hop]
  simp only [Option.isSome_some, htok, hword, redirOf_code hop]
  rfl

theorem redirLoop_fail (h : Reads line s (op :: ts)) (hop : op.redir.isSome)
    (hts : ∀ w ts', ts ≠ .word w :: ts') : redirLoop (k + 1) s = throw .missingFile := by
  obtain ⟨s₁, hpeek, hreads, -⟩ := peek_eq h [less, greater] (by decide)
  obtain ⟨span, s₂, htok, hreads, -⟩ := gettoken_cons hreads
  obtain ⟨file, s₃, code, hnext, hcode⟩ :
      ∃ file s₃ code, gettoken s₂ = (code, file, s₃) ∧ code ≠ .word := by
    cases ts with
    | nil =>
      obtain ⟨file, hnil⟩ := gettoken_nil hreads
      exact ⟨_, _, _, hnil, nofun⟩
    | cons t ts =>
      obtain ⟨file, s₃, hcons, -⟩ := gettoken_cons hreads
      refine ⟨_, _, _, hcons, ?_⟩
      cases t with
      | word w => exact absurd rfl (hts w ts)
      | symbol => nofun
      | append => nofun
  rw [redirLoop, hpeek, startsWith_redir, hop]
  simp only [htok, hnext, if_neg hcode]

theorem redirLoop_sound (h : Reads line s ts) (hk : s.length < k) :
    Ends (fun _ => True) (fun (rs, s') => ∃ xs ys, ts = xs ++ ys ∧
        Redirs xs (rs.map (Redir.map Span.text)) ∧ (∀ r ∈ rs, r.file.InLine line) ∧
        Reads line s' ys ∧ s'.length ≤ s.length) (redirLoop k s) := by
  induction k generalizing s ts with
  | zero => exact absurd hk (Nat.not_lt_zero _)
  | succ k ih =>
    by_cases hstart : startsWith [less, greater] ts
    · obtain ⟨op, ts, rfl, -⟩ := exists_of_startsWith hstart
      rw [startsWith_redir] at hstart
      by_cases hword : ∃ w ts', ts = .word w :: ts'
      · obtain ⟨w, ts, rfl⟩ := hword
        obtain ⟨⟨mode, fd⟩, hop⟩ := Option.isSome_iff_exists.mp hstart
        obtain ⟨file, s', heq, hmarks, hreads, hlen⟩ := redirLoop_step (k := k) h hop
        rw [heq]
        refine (ih hreads (by omega)).bind ?_
        rintro ⟨rs, s₂⟩ ⟨xs, ys, rfl, hrs, hall, hreads, hlen₂⟩
        have hle : s₂.length ≤ s.length := Nat.le_of_lt (Nat.lt_of_le_of_lt hlen₂ hlen)
        refine .pure ⟨op :: .word w :: xs, ys, rfl, ?_, ?_, hreads, hle⟩
        · rw [List.map_cons, Redir.map, hmarks.text_eq]
          exact .cons hop hrs
        · intro x hx
          rcases List.mem_cons.mp hx with rfl | hx
          · exact hmarks.inLine
          · exact hall x hx
      · rw [redirLoop_fail h hstart fun w ts' hts => hword ⟨w, ts', hts⟩]
        exact .throw trivial
    · obtain ⟨s', heq, hreads, hlen⟩ := redirLoop_stop (k := k) h (Bool.eq_false_iff.mpr hstart)
      rw [heq]
      exact .pure ⟨[], ts, rfl, .nil, nofun, hreads, hlen⟩

theorem redirLoop_complete (hrs : Redirs xs rs) (h : Reads line s (xs ++ ys))
    (hys : startsWith [less, greater] ys = false) (hk : s.length < k) :
    ∃ r s', redirLoop k s = pure (r, s') ∧ r.map (Redir.map Span.text) = rs ∧
      Reads line s' ys ∧ s'.length ≤ s.length := by
  induction hrs generalizing s k with
  | nil =>
    obtain ⟨k, rfl⟩ := Nat.exists_eq_add_one_of_ne_zero (Nat.ne_zero_of_lt hk)
    obtain ⟨s', heq, hreads, hlen⟩ := redirLoop_stop (k := k) h hys
    exact ⟨[], s', heq, rfl, hreads, hlen⟩
  | @cons op mode fd w xs rs hop _ ih =>
    obtain ⟨k, rfl⟩ := Nat.exists_eq_add_one_of_ne_zero (Nat.ne_zero_of_lt hk)
    obtain ⟨file, s₁, heq, hmarks, hreads, hlen⟩ := redirLoop_step (k := k) h hop
    obtain ⟨r, s', hrest, hmap, hreads, hlen'⟩ := ih (k := k) hreads (by omega)
    refine ⟨⟨file, mode, fd⟩ :: r, s', ?_, ?_, hreads, by omega⟩
    · rw [heq, hrest, pure_bind]
    · rw [List.map_cons, Redir.map, hmarks.text_eq, hmap]

theorem parseredirs_sound (h : Reads line s ts) :
    Ends (fun _ => True) (fun (rs, s') => ∃ xs ys, ts = xs ++ ys ∧
        Redirs xs (rs.map (Redir.map Span.text)) ∧ (∀ r ∈ rs, r.file.InLine line) ∧
        Reads line s' ys ∧ s'.length ≤ s.length) (parseredirs s) :=
  redirLoop_sound h (Nat.lt_succ_self _)

theorem parseredirs_complete (hrs : Redirs xs rs) (h : Reads line s (xs ++ ys))
    (hys : startsWith [less, greater] ys = false) :
    ∃ r s', parseredirs s = pure (r, s') ∧ r.map (Redir.map Span.text) = rs ∧
      Reads line s' ys ∧ s'.length ≤ s.length :=
  redirLoop_complete hrs h hys (Nat.lt_succ_self _)

/-! ## parseexec -/

/-- The symbols that end a simple command. -/
def stops : List UInt8 := [bar, closing, ampersand, semicolon]

theorem argLoop_stop (argc : ℕ) (h : Reads line s ts) (hts : ts = [] ∨ startsWith stops ts) :
    ∃ s', argLoop (k + 1) argc s = pure ([], [], s') ∧ Reads line s' ts ∧
      s'.length ≤ s.length := by
  obtain ⟨s₁, hpeek, hreads, hlen⟩ := peek_eq h stops (by decide)
  rcases hts with rfl | hts
  · obtain ⟨span, hnil⟩ := gettoken_nil hreads
    refine ⟨[], ?_, ⟨List.nil_suffix, .nil⟩, Nat.zero_le _⟩
    have hpeek : peek s stops = (false, s₁) := hpeek
    rw [stops] at hpeek
    simp only [argLoop, hpeek, hnil, if_true]
  · refine ⟨s₁, ?_, hreads, hlen⟩
    rw [hts, stops] at hpeek
    simp only [argLoop, hpeek]

theorem argLoop_word (argc : ℕ) (h : Reads line s (.word w :: ts)) :
    ∃ word s', argLoop (k + 1) argc s = (if argc + 1 ≥ maxArgs then throw .tooManyArgs else
        parseredirs s' >>= fun r => argLoop k (argc + 1) r.2 >>= fun a =>
          pure (word :: a.1, r.1 ++ a.2.1, a.2.2)) ∧
      word.Marks line w ∧ Reads line s' ts ∧ s'.length < s.length := by
  obtain ⟨s₁, hpeek, hreads, hlen⟩ := peek_eq h stops (by decide)
  obtain ⟨word, s₂, htok, hreads, hlen₂, hmarks⟩ := gettoken_cons hreads
  refine ⟨word, s₂, ?_, hmarks w rfl, hreads, by omega⟩
  have hpeek : peek s stops = (false, s₁) := hpeek
  have htok : gettoken s₁ = (.word, word, s₂) := htok
  rw [stops] at hpeek
  simp only [argLoop, hpeek, htok, reduceCtorEq, if_false, if_true]

theorem argLoop_fail (h : Reads line s (t :: ts)) (hstop : startsWith stops (t :: ts) = false)
    (ht : ∀ w, t ≠ .word w) : argLoop (k + 1) argc s = throw .notAWord := by
  obtain ⟨s₁, hpeek, hreads, -⟩ := peek_eq h stops (by decide)
  obtain ⟨span, s₂, htok, -⟩ := gettoken_cons hreads
  rw [hstop, stops] at hpeek
  cases t with
  | word w => exact absurd rfl (ht w)
  | symbol | append => simp only [argLoop, hpeek, htok, Token.code, reduceCtorEq, if_false]

theorem argLoop_sound (h : Reads line s ts) (hargc : argc < maxArgs) (hk : s.length < k) :
    Ends (fun _ => True) (fun (words, rs, s') => ∃ xs ys, ts = xs ++ ys ∧
        Args xs (words.map Span.text) (rs.map (Redir.map Span.text)) ∧
        argc + words.length < maxArgs ∧
        (∀ word ∈ words, word.InLine line) ∧ (∀ r ∈ rs, r.file.InLine line) ∧
        Reads line s' ys ∧ s'.length ≤ s.length) (argLoop k argc s) := by
  induction k generalizing s ts argc with
  | zero => exact absurd hk (Nat.not_lt_zero _)
  | succ k ih =>
    by_cases hstop : ts = [] ∨ startsWith stops ts
    · obtain ⟨s', heq, hreads, hlen⟩ := argLoop_stop (k := k) argc h hstop
      rw [heq]
      exact .pure ⟨[], ts, rfl, .nil, hargc, nofun, nofun, hreads, hlen⟩
    obtain ⟨hne, hstop⟩ := not_or.mp hstop
    obtain ⟨t, ts, rfl⟩ := List.exists_cons_of_ne_nil hne
    by_cases ht : ∃ w, t = .word w
    · obtain ⟨w, rfl⟩ := ht
      obtain ⟨word, s', heq, hmarks, hreads, hlen⟩ := argLoop_word (k := k) argc h
      rw [heq]
      split_ifs with hmany
      · exact .throw trivial
      refine (parseredirs_sound hreads).bind ?_
      rintro ⟨rs, s₂⟩ ⟨xs, ys, rfl, hrs, hall, hreads, hlen₂⟩
      have hlt : s₂.length < s.length := Nat.lt_of_le_of_lt hlen₂ hlen
      refine (ih hreads (Nat.lt_of_not_le hmany) (by omega)).bind ?_
      rintro ⟨words, rs', s₃⟩ ⟨xs', ys, rfl, hargs, hnum, hwords, hall', hreads, hlen₃⟩
      have hle : s₃.length ≤ s.length := Nat.le_of_lt (Nat.lt_of_le_of_lt hlen₃ hlt)
      refine .pure ⟨.word w :: (xs ++ xs'), ys, ?_, ?_, ?_, ?_, ?_, hreads, hle⟩
      · rw [List.cons_append, List.append_assoc]
      · rw [List.map_cons, List.map_append, hmarks.text_eq]
        exact .cons hrs hargs
      · simp only [List.length_cons] at hnum ⊢
        omega
      · intro x hx
        rcases List.mem_cons.mp hx with rfl | hx
        · exact hmarks.inLine
        · exact hwords x hx
      · intro x hx
        exact (List.mem_append.mp hx).elim (hall x) (hall' x)
    · rw [argLoop_fail h (Bool.eq_false_iff.mpr hstop) fun w hw => ht ⟨w, hw⟩]
      exact .throw trivial

/-- What follows a word is a word, a redirection, or what follows the command. -/
theorem startsWith_args (hargs : Args xs ws rs) (hys : startsWith toks ys = false) :
    startsWith toks (xs ++ ys) = false := by
  cases hargs with
  | nil => exact hys
  | cons => rfl

theorem argLoop_complete (hargs : Args xs ws rs) (h : Reads line s (xs ++ ys))
    (hys : ys = [] ∨ startsWith stops ys) (hredir : startsWith [less, greater] ys = false)
    (hargc : argc + ws.length < maxArgs) (hk : s.length < k) :
    ∃ words r s', argLoop k argc s = pure (words, r, s') ∧ words.map Span.text = ws ∧
      r.map (Redir.map Span.text) = rs ∧ Reads line s' ys ∧ s'.length ≤ s.length := by
  induction hargs generalizing s k argc with
  | nil =>
    obtain ⟨k, rfl⟩ := Nat.exists_eq_add_one_of_ne_zero (Nat.ne_zero_of_lt hk)
    obtain ⟨s', heq, hreads, hlen⟩ := argLoop_stop (k := k) argc h hys
    exact ⟨[], [], s', heq, rfl, rfl, hreads, hlen⟩
  | @cons w ws xs xs' rs rs' hrs hargs ih =>
    obtain ⟨k, rfl⟩ := Nat.exists_eq_add_one_of_ne_zero (Nat.ne_zero_of_lt hk)
    rw [List.cons_append, List.append_assoc] at h
    rw [List.length_cons] at hargc
    have hargc' : argc + 1 + ws.length < maxArgs := by omega
    obtain ⟨word, s₁, heq, hmarks, hreads, hlen⟩ := argLoop_word (k := k) argc h
    obtain ⟨r, s₂, hredirs, hr, hreads, hlen₂⟩ :=
      parseredirs_complete hrs hreads (startsWith_args hargs hredir)
    obtain ⟨words, r', s₃, hrest, hwords, hr', hreads, hlen₃⟩ :=
      ih (k := k) hreads hargc' (by omega)
    refine ⟨word :: words, r ++ r', s₃, ?_, ?_, ?_, hreads, by omega⟩
    · rw [heq, if_neg (by omega), hredirs, pure_bind, hrest, pure_bind]
    · rw [List.map_cons, hmarks.text_eq, hwords]
    · rw [List.map_append, hr, hr']

/-! ## parseline -/

/-- The loop of `parseline` takes every `&` there is. -/
theorem backLoop_eq {n : ℕ} (cmd : Cmd Span)
    (h : Reads line s (.replicate n (.symbol ampersand) ++ ys))
    (hys : startsWith [ampersand] ys = false) (hk : s.length < k) :
    ∃ s', backLoop k cmd s = pure (Cmd.back^[n] cmd, s') ∧ Reads line s' ys ∧
      s'.length ≤ s.length := by
  induction n generalizing s k cmd with
  | zero =>
    obtain ⟨k, rfl⟩ := Nat.exists_eq_add_one_of_ne_zero (Nat.ne_zero_of_lt hk)
    obtain ⟨s', hpeek, hreads, hlen⟩ := peek_eq h [ampersand] (by decide)
    refine ⟨s', ?_, hreads, hlen⟩
    have hpeek : peek s [ampersand] = (startsWith [ampersand] ys, s') := hpeek
    rw [backLoop, hpeek, hys]
    rfl
  | succ n ih =>
    obtain ⟨k, rfl⟩ := Nat.exists_eq_add_one_of_ne_zero (Nat.ne_zero_of_lt hk)
    rw [List.replicate_succ, List.cons_append] at h
    obtain ⟨s₁, hpeek, hreads, hlen⟩ := peek_eq h [ampersand] (by decide)
    obtain ⟨span, s₂, htok, hreads, hlen₂, -⟩ := gettoken_cons hreads
    obtain ⟨s', hrest, hreads, hlen₃⟩ := ih (k := k) (.back cmd) hreads (by omega)
    refine ⟨s', ?_, hreads, by omega⟩
    have hpeek : peek s [ampersand] = (true, s₁) := hpeek
    simp only [backLoop, hpeek, htok, hrest, Function.iterate_succ_apply]

theorem exists_replicate_append (ts : List Token) :
    ∃ n ys, ts = .replicate n (.symbol ampersand) ++ ys ∧ startsWith [ampersand] ys = false := by
  induction ts with
  | nil => exact ⟨0, [], rfl, rfl⟩
  | cons t ts ih =>
    by_cases ht : startsWith [ampersand] (t :: ts)
    · obtain ⟨n, ys, rfl, hys⟩ := ih
      obtain ⟨ts', hts⟩ := exists_of_startsWith_singleton (by decide) ht
      obtain ⟨rfl, -⟩ := List.cons.inj hts
      exact ⟨n + 1, ys, rfl, hys⟩
    · exact ⟨0, t :: ts, rfl, Bool.eq_false_iff.mpr ht⟩

end Shell
