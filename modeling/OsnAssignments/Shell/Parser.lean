import OsnAssignments.Shell.Loops

/-!
# The parser and the grammar

`parse_sound`: with four units of fuel for every byte of the line and a few more, the parser ends;
what it returns is derived from the tokens it has passed. `parse_complete`: where a derivation
exists and a token follows that can follow it, the parser returns the command of that derivation.
Neither says anything about the bytes of the line: the scanner is used only through `Reads`.
-/

namespace Shell

open Outcome

variable {line s : Ptr} {ts xs ys : List Token} {N : Nonterminal} {tree : Tree} {k : ℕ}
  {toks : List UInt8}

/-- The function that parses the nonterminal. -/
def parseAt : Nonterminal → ℕ → Ptr → Parse (Cmd Span × Ptr)
  | .line => parseline
  | .pipe => parsepipe
  | .exec => parseexec

/-- The number of calls from the function down to `parseblock`. -/
def depth : Nonterminal → ℕ
  | .line => 4
  | .pipe => 3
  | .exec => 2

/-! ## What the parser returns is derived -/

/-- The command is derived from the tokens between the two pointers. -/
def Parsed (line s : Ptr) (ts : List Token) (N : Nonterminal) : Cmd Span × Ptr → Prop
  | (cmd, s') => ∃ xs ys, ts = xs ++ ys ∧ Derives N xs (cmd.map Span.text) ∧
      (∀ word ∈ cmd.words, word.InLine line) ∧ Reads line s' ys ∧ s'.length ≤ s.length

/-- The functions at one amount of fuel. -/
def Sound (line : Ptr) (k : ℕ) : Prop :=
  ∀ N s ts, Reads line s ts → 4 * s.length + depth N ≤ k →
    Ends (fun _ => True) (Parsed line s ts N) (parseAt N k s)

theorem parseline_sound (ih : Sound line k) (h : Reads line s ts) (hk : 4 * s.length + 4 ≤ k + 1) :
    Ends (fun _ => True) (Parsed line s ts .line) (parseline (k + 1) s) := by
  rw [parseline]
  refine (ih .pipe s ts h (Nat.le_of_succ_le_succ hk)).bind ?_
  rintro ⟨cmd, s₁⟩ ⟨xs, ys, rfl, hder, hall, hreads, hlen₁⟩
  obtain ⟨n, ys, rfl, hamp⟩ := exists_replicate_append ys
  obtain ⟨s₂, hback, hreads, hlen₂⟩ := backLoop_eq cmd hreads hamp (Nat.lt_succ_self _)
  obtain ⟨s₃, hpeek, hreads, hlen₃⟩ := peek_eq hreads [semicolon] (by decide)
  dsimp only
  rw [hback, pure_bind]
  dsimp only
  rw [hpeek]
  by_cases hsemi : startsWith [semicolon] ys
  · obtain ⟨ys, rfl⟩ := exists_of_startsWith_singleton (by decide) hsemi
    obtain ⟨span, s₄, htok, hreads, hlen₄, -⟩ := gettoken_cons hreads
    rw [hsemi]
    dsimp only
    rw [htok]
    dsimp only
    refine (ih .line s₄ ys hreads (by simp only [depth]; omega)).bind ?_
    rintro ⟨rest, s₅⟩ ⟨xs', ys, rfl, hder', hall', hreads, hlen₅⟩
    have hlen : s₅.length ≤ s.length := by omega
    refine .pure ⟨xs ++ .replicate n (.symbol ampersand) ++ .symbol semicolon :: xs', ys, ?_, ?_,
      ?_, hreads, hlen⟩
    · simp only [List.append_assoc, List.cons_append]
    · rw [Cmd.map, map_iterate_back]
      exact .list n hder hder'
    · rw [Cmd.words, words_iterate_back]
      exact List.forall_mem_append.mpr ⟨hall, hall'⟩
  · rw [Bool.eq_false_iff.mpr hsemi]
    refine .pure ⟨xs ++ .replicate n (.symbol ampersand), ys, ?_, ?_, ?_, hreads, ?_⟩
    · rw [List.append_assoc]
    · rw [map_iterate_back]
      exact .line n hder
    · rwa [words_iterate_back]
    · omega

theorem parsepipe_sound (ih : Sound line k) (h : Reads line s ts) (hk : 4 * s.length + 3 ≤ k + 1) :
    Ends (fun _ => True) (Parsed line s ts .pipe) (parsepipe (k + 1) s) := by
  rw [parsepipe]
  refine (ih .exec s ts h (Nat.le_of_succ_le_succ hk)).bind ?_
  rintro ⟨cmd, s₁⟩ ⟨xs, ys, rfl, hder, hall, hreads, hlen₁⟩
  obtain ⟨s₂, hpeek, hreads, hlen₂⟩ := peek_eq hreads [bar] (by decide)
  dsimp only
  rw [hpeek]
  by_cases hbar : startsWith [bar] ys
  · obtain ⟨ys, rfl⟩ := exists_of_startsWith_singleton (by decide) hbar
    obtain ⟨span, s₃, htok, hreads, hlen₃, -⟩ := gettoken_cons hreads
    rw [hbar]
    dsimp only
    rw [htok]
    dsimp only
    refine (ih .pipe s₃ ys hreads (by simp only [depth]; omega)).bind ?_
    rintro ⟨rest, s₄⟩ ⟨xs', ys, rfl, hder', hall', hreads, hlen₄⟩
    have hlen : s₄.length ≤ s.length := by omega
    refine .pure ⟨xs ++ .symbol bar :: xs', ys, ?_, .pipe hder hder', ?_, hreads, hlen⟩
    · simp only [List.append_assoc, List.cons_append]
    · exact List.forall_mem_append.mpr ⟨hall, hall'⟩
  · rw [Bool.eq_false_iff.mpr hbar]
    exact .pure ⟨xs, ys, rfl, .exec hder, hall, hreads, Nat.le_trans hlen₂ hlen₁⟩

theorem parseblock_sound (ih : Sound line k) (h : Reads line s ts)
    (hts : startsWith [opening] ts) (hk : 4 * s.length + 1 ≤ k + 1) :
    Ends (fun _ => True) (Parsed line s ts .exec) (parseblock (k + 1) s) := by
  obtain ⟨s₁, hpeek, hreads, hlen₁⟩ := peek_eq h [opening] (by decide)
  obtain ⟨ts, rfl⟩ := exists_of_startsWith_singleton (by decide) hts
  obtain ⟨span, s₂, htok, hreads, hlen₂, -⟩ := gettoken_cons hreads
  rw [parseblock, hpeek, hts]
  dsimp only
  rw [htok]
  dsimp only
  refine (ih .line s₂ ts hreads (by simp only [depth]; omega)).bind ?_
  rintro ⟨cmd, s₃⟩ ⟨xs, ys, rfl, hder, hall, hreads, hlen₃⟩
  obtain ⟨s₄, hpeek, hreads, hlen₄⟩ := peek_eq hreads [closing] (by decide)
  dsimp only
  rw [hpeek]
  by_cases hclose : startsWith [closing] ys
  · obtain ⟨ys, rfl⟩ := exists_of_startsWith_singleton (by decide) hclose
    obtain ⟨span, s₅, htok, hreads, hlen₅, -⟩ := gettoken_cons hreads
    rw [hclose]
    dsimp only
    rw [htok]
    refine (parseredirs_sound hreads).bind ?_
    rintro ⟨rs, s₆⟩ ⟨xs', ys, rfl, hrs, hfiles, hreads, hlen₆⟩
    have hlen : s₆.length ≤ s.length := by omega
    refine .pure ⟨.symbol opening :: xs ++ .symbol closing :: xs', ys, ?_, ?_,
      forall_words_redirs hall hfiles, hreads, hlen⟩
    · simp only [List.append_assoc, List.cons_append]
    · rw [map_redirs]
      exact .block hder hrs
  · rw [Bool.eq_false_iff.mpr hclose]
    exact .throw trivial

theorem parseexec_sound (ih : ∀ j < k + 1, Sound line j) (h : Reads line s ts)
    (hk : 4 * s.length + 2 ≤ k + 1) :
    Ends (fun _ => True) (Parsed line s ts .exec) (parseexec (k + 1) s) := by
  obtain ⟨s₁, hpeek, hreads, hlen₁⟩ := peek_eq h [opening] (by decide)
  rw [parseexec, hpeek]
  by_cases hopen : startsWith [opening] ts
  · obtain ⟨k, rfl⟩ := Nat.exists_eq_add_one_of_ne_zero (n := k) (by omega)
    rw [hopen]
    refine (parseblock_sound (ih k (by omega)) hreads hopen (by omega)).mono (fun _ h => h) ?_
    rintro ⟨cmd, s'⟩ ⟨xs, ys, hts, hder, hall, hreads, hlen⟩
    exact ⟨xs, ys, hts, hder, hall, hreads, Nat.le_trans hlen hlen₁⟩
  · rw [Bool.eq_false_iff.mpr hopen]
    refine (parseredirs_sound hreads).bind ?_
    rintro ⟨rs, s₂⟩ ⟨xs, ys, rfl, hrs, hfiles, hreads, hlen₂⟩
    refine (argLoop_sound hreads (by decide : 0 < maxArgs) (Nat.lt_succ_self _)).bind ?_
    rintro ⟨words, rs', s₃⟩ ⟨xs', ys, rfl, hargs, hnum, hwords, hfiles', hreads, hlen₃⟩
    have hlen : s₃.length ≤ s.length := by omega
    refine .pure ⟨xs ++ xs', ys, (List.append_assoc ..).symm, ?_, ?_, hreads, hlen⟩
    · rw [map_redirs, List.map_append]
      refine .simple hrs hargs ?_
      rwa [List.length_map, ← Nat.zero_add words.length]
    · exact forall_words_redirs hwords (List.forall_mem_append.mpr ⟨hfiles, hfiles'⟩)

/-- With enough fuel the parser ends, and what it returns is derived from the tokens passed. -/
theorem parse_sound (line : Ptr) (k : ℕ) : Sound line k := by
  induction k using Nat.strongRecOn with
  | _ k ih =>
    intro N s ts h hk
    have hpos : k ≠ 0 := by
      have hdepth : 0 < depth N := by cases N <;> decide
      omega
    obtain ⟨k, rfl⟩ := Nat.exists_eq_add_one_of_ne_zero hpos
    cases N with
    | line => exact parseline_sound (ih k (Nat.lt_succ_self k)) h hk
    | pipe => exact parsepipe_sound (ih k (Nat.lt_succ_self k)) h hk
    | exec => exact parseexec_sound ih h hk

/-! ## What is derived is returned -/

/-- The symbols that can follow the nonterminal. -/
def follow : Nonterminal → List UInt8
  | .line => [closing]
  | .pipe => [closing, ampersand, semicolon]
  | .exec => stops

/-- The tokens can stand behind the nonterminal. -/
def Follows (N : Nonterminal) (ts : List Token) : Prop :=
  ts = [] ∨ startsWith (follow N) ts

theorem Follows.startsWith_eq_false (h : Follows N ts) (toks : List UInt8)
    (htoks : ∀ c ∈ toks, c ∉ follow N) : startsWith toks ts = false := by
  rcases h with rfl | h
  · rfl
  · obtain ⟨t, ts, rfl, ht⟩ := exists_of_startsWith h
    refine Bool.eq_false_iff.mpr fun hstart => ?_
    obtain ⟨c, hc, hfollow⟩ := (Option.any_eq_true _ _).mp ht
    obtain ⟨d, hd, htok⟩ := (Option.any_eq_true _ _).mp hstart
    have hcd : c = d := Option.mem_unique hc hd
    exact htoks d (List.contains_iff_mem.mp htok) (hcd ▸ List.contains_iff_mem.mp hfollow)

theorem Follows.mono {N' : Nonterminal} (h : Follows N ts) (hsub : ∀ c ∈ follow N, c ∈ follow N') :
    Follows N' ts := by
  rcases h with h | h
  · exact .inl h
  · obtain ⟨t, ts, rfl, ht⟩ := exists_of_startsWith h
    obtain ⟨c, hc, hfollow⟩ := (Option.any_eq_true _ _).mp ht
    refine .inr ((Option.any_eq_true _ _).mpr ⟨c, hc, ?_⟩)
    exact List.contains_iff_mem.mpr (hsub c (List.contains_iff_mem.mp hfollow))

theorem Follows.replicate (n : ℕ) (h : Follows .pipe ts) :
    Follows .pipe (.replicate n (.symbol ampersand) ++ ts) := by
  cases n with
  | zero => exact h
  | succ => exact .inr rfl

/-- The parser returns the command, and stops before the tokens `ys`. -/
def Returns (line s : Ptr) (k : ℕ) (N : Nonterminal) (ys : List Token) (tree : Tree) : Prop :=
  ∃ cmd s', parseAt N k s = pure (cmd, s') ∧ cmd.map Span.text = tree ∧ Reads line s' ys ∧
    s'.length ≤ s.length

/-- `parseline` up to the last `&`. -/
theorem parseline_eq {n : ℕ}
    (h : Returns line s k .pipe (.replicate n (.symbol ampersand) ++ ys) tree)
    (hys : startsWith [ampersand] ys = false) :
    ∃ cmd s₁, parseline (k + 1) s = (if startsWith [semicolon] ys then
          parseline k (gettoken s₁).2.2 >>= fun r => pure (.list cmd r.1, r.2)
        else pure (cmd, s₁)) ∧
      cmd.map Span.text = Cmd.back^[n] tree ∧ Reads line s₁ ys ∧ s₁.length ≤ s.length := by
  obtain ⟨cmd, s₁, hpipe, rfl, hreads, hlen₁⟩ := h
  obtain ⟨s₂, hback, hreads, hlen₂⟩ := backLoop_eq cmd hreads hys (Nat.lt_succ_self _)
  obtain ⟨s₃, hpeek, hreads, hlen₃⟩ := peek_eq hreads [semicolon] (by decide)
  have hpipe : parsepipe k s = pure (cmd, s₁) := hpipe
  refine ⟨Cmd.back^[n] cmd, s₃, ?_, map_iterate_back .., hreads, by omega⟩
  simp only [parseline, hpipe, pure_bind, hback, hpeek]
  cases startsWith [semicolon] ys <;> rfl

/-- `parsepipe` up to the end of its first command. -/
theorem parsepipe_eq (h : Returns line s k .exec ys tree) :
    ∃ cmd s₁, parsepipe (k + 1) s = (if startsWith [bar] ys then
          parsepipe k (gettoken s₁).2.2 >>= fun r => pure (.pipe cmd r.1, r.2)
        else pure (cmd, s₁)) ∧
      cmd.map Span.text = tree ∧ Reads line s₁ ys ∧ s₁.length ≤ s.length := by
  obtain ⟨cmd, s₁, hexec, rfl, hreads, hlen₁⟩ := h
  obtain ⟨s₂, hpeek, hreads, hlen₂⟩ := peek_eq hreads [bar] (by decide)
  have hexec : parseexec k s = pure (cmd, s₁) := hexec
  refine ⟨cmd, s₂, ?_, rfl, hreads, by omega⟩
  simp only [parsepipe, hexec, pure_bind, hpeek]
  cases startsWith [bar] ys <;> rfl

theorem parseblock_complete {zs : List Token} {rs : List (Redir (List UInt8))}
    (ih : ∀ {s : Ptr} {ys : List Token}, Reads line s (xs ++ ys) → Follows .line ys →
      4 * s.length + 4 ≤ k → Returns line s k .line ys tree)
    (hrs : Redirs ys rs) (h : Reads line s (.symbol opening :: xs ++ .symbol closing :: ys ++ zs))
    (hzs : startsWith [less, greater] zs = false) (hk : 4 * s.length + 1 ≤ k + 1) :
    ∃ cmd s', parseblock (k + 1) s = pure (cmd, s') ∧ cmd.map Span.text = tree.redirs rs ∧
      Reads line s' zs ∧ s'.length ≤ s.length := by
  simp only [List.cons_append, List.append_assoc] at h
  obtain ⟨s₁, hpeek, hreads, hlen₁⟩ := peek_eq h [opening] (by decide)
  obtain ⟨span, s₂, htok, hreads, hlen₂, -⟩ := gettoken_cons hreads
  obtain ⟨cmd, s₃, hline, rfl, hreads, hlen₃⟩ := ih hreads (.inr rfl) (by omega)
  obtain ⟨s₄, hpeek', hreads, hlen₄⟩ := peek_eq hreads [closing] (by decide)
  obtain ⟨span', s₅, htok', hreads, hlen₅, -⟩ := gettoken_cons hreads
  obtain ⟨r, s₆, hredirs, rfl, hreads, hlen₆⟩ := parseredirs_complete hrs hreads hzs
  refine ⟨cmd.redirs r, s₆, ?_, map_redirs .., hreads, by omega⟩
  have hline : parseline k s₂ = pure (cmd, s₃) := hline
  have hpeek : peek s [opening] = (true, s₁) := hpeek
  have hpeek' : peek s₃ [closing] = (true, s₄) := hpeek'
  simp only [parseblock, hpeek, htok, hline, pure_bind, hpeek', htok', hredirs]

/-- What stands at the start of a simple command. -/
theorem startsWith_simple {zs : List Token} {ws : List (List UInt8)}
    {rs rs' : List (Redir (List UInt8))} (hrs : Redirs xs rs) (hargs : Args ys ws rs')
    (hzs : startsWith [opening] zs = false) : startsWith [opening] (xs ++ (ys ++ zs)) = false := by
  cases hrs with
  | nil =>
    rw [List.nil_append]
    exact startsWith_args hargs hzs
  | cons hop =>
    refine Bool.eq_false_iff.mpr fun hstart => ?_
    obtain ⟨ts, hts⟩ := exists_of_startsWith_singleton (by decide) hstart
    obtain ⟨rfl, -⟩ := List.cons.inj hts
    cases hop

/-- Where a derivation exists, the parser returns its command. -/
theorem parse_complete (h : Derives N xs tree) : ∀ {s : Ptr} {ys : List Token} {k : ℕ},
    Reads line s (xs ++ ys) → Follows N ys → 4 * s.length + depth N ≤ k →
      Returns line s k N ys tree := by
  induction h with
  | @line xs c n _ ih =>
    intro s ys k hreads hys hk
    simp only [depth] at hk
    obtain ⟨k, rfl⟩ := Nat.exists_eq_add_one_of_ne_zero (n := k) (by omega)
    rw [List.append_assoc] at hreads
    have hamp := hys.startsWith_eq_false [ampersand] (by decide +kernel)
    have hfollow := (hys.mono (by decide +kernel)).replicate n
    have hpipe := ih (k := k) hreads hfollow (by simp only [depth]; omega)
    obtain ⟨cmd, s₁, heq, hcmd, hreads, hlen⟩ := parseline_eq hpipe hamp
    rw [hys.startsWith_eq_false _ (by decide +kernel)] at heq
    exact ⟨cmd, s₁, heq, hcmd, hreads, hlen⟩
  | @list xs zs c d n _ _ ih ih' =>
    intro s ys k hreads hys hk
    simp only [depth] at hk
    obtain ⟨k, rfl⟩ := Nat.exists_eq_add_one_of_ne_zero (n := k) (by omega)
    simp only [List.append_assoc, List.cons_append] at hreads
    have hfollow : Follows .pipe (.symbol semicolon :: (zs ++ ys)) := .inr rfl
    have hpipe := ih (k := k) hreads (hfollow.replicate n) (by simp only [depth]; omega)
    obtain ⟨cmd, s₁, heq, hcmd, hreads, hlen₁⟩ := parseline_eq hpipe rfl
    obtain ⟨span, s₂, htok, hreads, hlen₂, -⟩ := gettoken_cons hreads
    obtain ⟨rest, s₃, hline, rfl, hreads, hlen₃⟩ :=
      ih' (k := k) hreads hys (by simp only [depth]; omega)
    have hline : parseline k s₂ = pure (rest, s₃) := hline
    refine ⟨.list cmd rest, s₃, ?_, ?_, hreads, by omega⟩
    · have hsemi : startsWith [semicolon] (.symbol semicolon :: (zs ++ ys)) := rfl
      rw [parseAt, heq, if_pos hsemi, htok, hline, pure_bind]
    · rw [Cmd.map, hcmd]
  | exec _ ih =>
    intro s ys k hreads hys hk
    simp only [depth] at hk
    obtain ⟨k, rfl⟩ := Nat.exists_eq_add_one_of_ne_zero (n := k) (by omega)
    have hexec := ih (k := k) hreads (hys.mono (by decide +kernel)) (by simp only [depth]; omega)
    obtain ⟨cmd, s₁, heq, hcmd, hreads, hlen⟩ := parsepipe_eq hexec
    rw [hys.startsWith_eq_false _ (by decide +kernel)] at heq
    exact ⟨cmd, s₁, heq, hcmd, hreads, hlen⟩
  | @pipe xs zs c d _ _ ih ih' =>
    intro s ys k hreads hys hk
    simp only [depth] at hk
    obtain ⟨k, rfl⟩ := Nat.exists_eq_add_one_of_ne_zero (n := k) (by omega)
    rw [List.append_assoc, List.cons_append] at hreads
    have hexec := ih (k := k) hreads (.inr rfl) (by simp only [depth]; omega)
    obtain ⟨cmd, s₁, heq, hcmd, hreads, hlen₁⟩ := parsepipe_eq hexec
    obtain ⟨span, s₂, htok, hreads, hlen₂, -⟩ := gettoken_cons hreads
    obtain ⟨rest, s₃, hpipe, rfl, hreads, hlen₃⟩ :=
      ih' (k := k) hreads hys (by simp only [depth]; omega)
    have hpipe : parsepipe k s₂ = pure (rest, s₃) := hpipe
    refine ⟨.pipe cmd rest, s₃, ?_, ?_, hreads, by omega⟩
    · have hbar : startsWith [bar] (.symbol bar :: (zs ++ ys)) := rfl
      rw [parseAt, heq, if_pos hbar, htok, hpipe, pure_bind]
    · rw [Cmd.map, hcmd]
  | @block xs zs c rs _ hrs ih =>
    intro s ys k hreads hys hk
    simp only [depth] at hk
    obtain ⟨k, rfl⟩ : ∃ j, k = j + 2 := ⟨k - 2, by omega⟩
    obtain ⟨s₁, hpeek, hreads, hlen₁⟩ := peek_eq hreads [opening] (by decide)
    obtain ⟨cmd, s₂, hblock, hcmd, hreads, hlen₂⟩ := parseblock_complete
      (fun hreads hys hk => ih hreads hys hk) hrs hreads
      (hys.startsWith_eq_false _ (by decide +kernel)) (k := k) (by omega)
    refine ⟨cmd, s₂, ?_, hcmd, hreads, by omega⟩
    have hpeek : peek s [opening] = (true, s₁) := hpeek
    simp only [parseAt, parseexec, hpeek, hblock]
  | @simple xs zs ws rs rs' hrs hargs =>
    intro s ys k hreads hys hk
    simp only [depth] at hk
    obtain ⟨k, rfl⟩ := Nat.exists_eq_add_one_of_ne_zero (n := k) (by omega)
    have hargc : 0 + ws.length < maxArgs := by omega
    have hredir := hys.startsWith_eq_false [less, greater] (by decide +kernel)
    have hopen := startsWith_simple hrs hargs (hys.startsWith_eq_false _ (by decide +kernel))
    rw [List.append_assoc] at hreads
    obtain ⟨s₁, hpeek, hreads, hlen₁⟩ := peek_eq hreads [opening] (by decide)
    obtain ⟨r, s₂, hredirs, rfl, hreads, hlen₂⟩ :=
      parseredirs_complete hrs hreads (startsWith_args hargs hredir)
    obtain ⟨words, r', s₃, hloop, rfl, rfl, hreads, hlen₃⟩ :=
      argLoop_complete hargs hreads hys hredir hargc (Nat.lt_succ_self _)
    refine ⟨(Cmd.exec words).redirs (r ++ r'), s₃, ?_, ?_, hreads, by omega⟩
    · rw [hopen] at hpeek
      simp only [parseAt, parseexec, hpeek, hredirs, pure_bind, hloop]
    · rw [map_redirs, List.map_append]
      rfl

end Shell
