import OsnAssignments.Shell.Parser

/-!
# The shell's parser is correct

`nulterminate` writes into the line while other words of the line are still to be read. The writes
hit only positions behind words, where no word has a byte, so that afterwards every string is the
word that the scanner has marked (`string_nulterminate`). With the results on the parser, this gives
`parse_correct` for the command and `nulterminate_harmless` for the memory that its pointers lead
into.
-/

namespace Shell

open CString Outcome Function

variable {line s r : Ptr} {span : Span} {i : ℕ} {w : List UInt8} {α β : Type}

/-! ## Strings -/

theorem Cmd.map_congr {f g : α → β} {cmd : Cmd α} (h : ∀ word ∈ cmd.words, f word = g word) :
    cmd.map f = cmd.map g := by
  induction cmd with
  | exec => exact congrArg _ (List.map_congr_left h)
  | redir cmd file mode fd ih =>
    obtain ⟨hcmd, hfile⟩ := List.forall_mem_append.mp h
    rw [Cmd.map, Cmd.map, ih hcmd, hfile file (List.mem_singleton_self file)]
  | pipe left right ihl ihr | list left right ihl ihr =>
    obtain ⟨hl, hr⟩ := List.forall_mem_append.mp h
    rw [Cmd.map, Cmd.map, ihl hl, ihr hr]
  | back cmd ih => rw [Cmd.map, Cmd.map, ih h]

/-- `nulterminate` as one loop over all words. -/
theorem nulterminate_eq_foldl (line : Ptr) (cmd : Cmd Span) (buf : Buffer) :
    nulterminate line cmd buf =
      cmd.words.foldl (fun buf word => update buf (addr line word.eq) 0) buf := by
  induction cmd generalizing buf with
  | exec => rfl
  | redir cmd file mode fd ih => rw [nulterminate, ih, Cmd.words, List.foldl_append]; rfl
  | pipe left right ihl ihr | list left right ihl ihr =>
    rw [nulterminate, ihl, ihr, Cmd.words, List.foldl_append]
  | back cmd ih => exact ih buf

theorem foldl_update_apply (p : α → ℕ) (words : List α) (buf : Buffer) (i : ℕ) :
    words.foldl (fun buf word => update buf (p word) 0) buf i =
      if ∃ word ∈ words, p word = i then 0 else buf i := by
  induction words generalizing buf with
  | nil => rw [if_neg (by simp)]; rfl
  | cons word words ih =>
    rw [List.foldl_cons, ih]
    by_cases hrest : ∃ word ∈ words, p word = i
    · rw [if_pos hrest, if_pos (by simp [hrest])]
    · by_cases hi : p word = i
      · rw [if_neg hrest, if_pos ⟨word, List.mem_cons_self, hi⟩, hi, update_self]
      · rw [if_neg hrest, update_of_ne (Ne.symm hi), if_neg]
        rintro ⟨word', hword', h⟩
        rcases List.mem_cons.mp hword' with rfl | hword'
        · exact hi h
        · exact hrest ⟨word', hword', h⟩

/-- A part of the line stands at the address of its pointer. -/
theorem at_memory (pre w r : List UInt8) : At (memory (pre ++ w ++ r)) pre.length w := by
  induction w generalizing pre with
  | nil => trivial
  | cons b w ih =>
    have hrest := ih (pre ++ [b])
    rw [List.length_append, List.append_assoc pre] at hrest
    refine ⟨?_, hrest⟩
    simp [memory]

theorem addr_append (pre s : List UInt8) : addr (pre ++ s) s = pre.length := by
  rw [addr, List.length_append, Nat.add_sub_cancel]

section

variable (h : span.InLine line)
include h

theorem Span.InLine.addr_eq : addr line span.eq = addr line span.q + span.text.length := by
  have hlen := h.suffix.length_le
  have hsum : span.q.length = span.text.length + span.eq.length := by
    rw [← List.length_append, ← h.split]
  simp only [addr]
  omega

/-- No word ends inside another one. -/
theorem Span.InLine.addr_le {span' : Span} (h' : span'.InLine line)
    (hlow : addr line span.q ≤ addr line span'.eq) :
    addr line span.q + span.text.length ≤ addr line span'.eq := by
  by_contra hlt
  have hlen := h.suffix.length_le
  have heq : span'.eq <:+ line := (h'.split ▸ List.suffix_append ..).trans h'.suffix
  have hlen' := heq.length_le
  have hsum : span.q.length = span.text.length + span.eq.length := by
    rw [← List.length_append, ← h.split]
  have hrest : span.eq <:+ span.q := ⟨span.text, h.split.symm⟩
  simp only [addr] at hlow hlt
  -- the pointer stands inside the word, so that the byte there belongs to the word
  obtain ⟨u, hu⟩ : span'.eq <:+ span.q := List.suffix_of_suffix_length_le heq h.suffix (by omega)
  obtain ⟨v, hv⟩ : span.eq <:+ span'.eq := List.suffix_of_suffix_length_le hrest ⟨u, hu⟩ (by omega)
  have htext : span.text = u ++ v := by
    rw [← hv, ← List.append_assoc, h.split] at hu
    exact (List.append_cancel_right hu).symm
  have hne : v ≠ [] := by
    rintro rfl
    have := congrArg List.length hv
    rw [List.nil_append] at this
    omega
  obtain ⟨b, v, rfl⟩ := List.exists_cons_of_ne_nil hne
  refine h'.maximal b (hv ▸ rfl) (h.isWord.2 b ?_)
  rw [htext]
  exact List.mem_append_right _ List.mem_cons_self

/-- The scanner recognises the word where its pointer stands. -/
theorem Span.InLine.gettoken_eq : gettoken span.q = (.word, span, skip span.eq) := by
  have htoken : token span.q = (.word, span.eq) := by
    rw [h.split]
    exact token_word h.isWord h.maximal
  have hskip : skip span.q = span.q := by
    obtain ⟨b, w, hw⟩ := List.exists_cons_of_ne_nil h.isWord.1
    rw [h.split, hw, List.cons_append]
    refine skip_cons_of_not_mem (wordByte_iff.mp (h.isWord.2 b ?_)).1
    rw [hw]
    exact List.mem_cons_self
  simp only [gettoken, hskip, htoken]

end

/-- After `nulterminate`, the string at every word of the command is the word that was marked. -/
theorem string_nulterminate (h0 : 0 ∉ line) {cmd : Cmd Span}
    (hall : ∀ word ∈ cmd.words, word.InLine line) (hspan : span ∈ cmd.words) :
    string (nulterminate line cmd (memory line)) (line.length + 1) (addr line span.q) =
      span.text := by
  have h := hall span hspan
  obtain ⟨pre, hpre⟩ := h.suffix
  have haddr : addr line span.q = pre.length := by rw [← hpre, addr_append]
  have hsplit : line = pre ++ span.text ++ span.eq := by rw [List.append_assoc, ← h.split, hpre]
  have hend : addr line span.eq = pre.length + span.text.length := by
    rw [hsplit, addr_append, List.length_append]
  have hword : At (nulterminate line cmd (memory line)) pre.length span.text := by
    refine At.congr (hsplit ▸ at_memory pre span.text span.eq) fun i hi hi' => ?_
    rw [nulterminate_eq_foldl, foldl_update_apply, if_neg]
    rintro ⟨span', hspan', rfl⟩
    have := h.addr_le (hall span' hspan') (haddr ▸ hi)
    omega
  have hzero : At (nulterminate line cmd (memory line)) (pre.length + span.text.length) [0] := by
    refine ⟨?_, trivial⟩
    rw [nulterminate_eq_foldl, foldl_update_apply, if_pos ⟨span, hspan, hend⟩]
  rw [haddr]
  refine string_eq (at_append.mpr ⟨hword, hzero⟩) (fun hmem => h0 ?_) ?_
  · rw [hsplit]
    exact List.mem_append_left _ (List.mem_append_right _ hmem)
  · have := congrArg List.length hsplit
    rw [List.length_append, List.length_append] at this
    omega

theorem strings_eq (h0 : 0 ∉ line) {cmd : Cmd Span} (hall : ∀ word ∈ cmd.words, word.InLine line) :
    strings line cmd (nulterminate line cmd (memory line)) = cmd.map Span.text :=
  Cmd.map_congr fun _ hspan => string_nulterminate h0 hall hspan

/-! ## parsecmd -/

variable {ts : List Token} {tree : Tree}

/-- `parsecmd` ends; the command that it returns is derived from the tokens of the line, and the
pointers in it mark words of the line. -/
theorem parsecmd_sound (hts : Lexes line ts) :
    Ends (fun _ => True) (fun r => Derives .line ts (r.1.map Span.text) ∧
      (∀ word ∈ r.1.words, word.InLine line) ∧ r.2 = nulterminate line r.1 (memory line))
      (parsecmd line) := by
  have hparse := parse_sound line (4 * line.length + 4) .line line ts ⟨List.suffix_rfl, hts⟩
    (Nat.le_refl _)
  rw [parsecmd]
  refine hparse.bind ?_
  rintro ⟨cmd, s⟩ ⟨xs, ys, rfl, hder, hall, hreads, -⟩
  obtain ⟨s', hpeek, hreads, -⟩ := peek_eq hreads [] (List.nil_subset _)
  dsimp only
  rw [hpeek]
  dsimp only
  split_ifs with hs
  · exact .throw trivial
  · have hs : s' = [] := not_not.mp hs
    subst hs
    have hys : ys = [] := lexes_unique hreads.lexes .nil
    rw [hys, List.append_nil]
    exact .pure ⟨hder, hall, rfl⟩

theorem parse_derives (h0 : 0 ∉ line) (hts : Lexes line ts) :
    Ends (fun _ => True) (fun tree => Derives .line ts tree) (parse line) := by
  refine (parsecmd_sound hts).bind ?_
  rintro ⟨cmd, buf⟩ ⟨hder, hall, hbuf⟩
  dsimp only at hbuf
  subst hbuf
  refine .pure ?_
  rw [strings_eq h0 hall]
  exact hder

/-- If the tokens of the line can be derived, `parsecmd` returns the command. -/
theorem parse_of_derives (h0 : 0 ∉ line) (hts : Lexes line ts) (h : Derives .line ts tree) :
    parse line = pure tree := by
  have hreads : Reads line line (ts ++ []) := ⟨List.suffix_rfl, by rwa [List.append_nil]⟩
  have hfuel : 4 * line.length + depth .line ≤ 4 * line.length + 4 := Nat.le_refl _
  obtain ⟨cmd, s, hline, rfl, hend, -⟩ := parse_complete h hreads (.inl rfl) hfuel
  obtain ⟨xs, ys, -, -, hall, -⟩ := (parse_sound line _ .line line _ hreads hfuel).of_eq_pure hline
  have hline : parseline (4 * line.length + 4) line = pure (cmd, s) := hline
  have hskip : skip s = [] := skip_eq_nil hend.lexes
  simp only [parse, parsecmd, hline, pure_bind, peek, hskip, ne_eq, not_true_eq_false, if_false,
    strings_eq h0 hall]

/-- For every line `parsecmd` ends: with the command that the one derivation of its tokens
determines, or with a panic if there is none. A command that is printed and parsed comes back. -/
theorem parse_correct :
    (∀ line : List UInt8, 0 ∉ line → ∃ ts, Lexes line ts ∧ (∀ ts', Lexes line ts' → ts' = ts) ∧
      (∀ tree, parse line = pure tree ↔ Derives .line ts tree) ∧
      ((¬ ∃ tree, Derives .line ts tree) → ∃ p, parse line = throw p)) ∧
    (∀ (tree : Tree) (ts : List Token), Derives .line ts tree →
      (∀ w ∈ tree.words, IsWord w ∧ 0 ∉ w) → parse (spaced tree.print) = pure tree) := by
  refine ⟨fun line h0 => ?_, fun tree ts htree hwords => ?_⟩
  · obtain ⟨ts, hts⟩ := exists_lexes line
    have hends := parse_derives h0 hts
    refine ⟨ts, hts, fun ts' hts' => lexes_unique hts' hts, fun tree => ⟨?_, ?_⟩, fun hnone => ?_⟩
    · exact hends.of_eq_pure
    · exact parse_of_derives h0 hts
    · rcases hends with ⟨p, hp, -⟩ | ⟨tree, -, hder⟩
      · exact ⟨p, hp⟩
      · exact absurd ⟨tree, hder⟩ hnone
  · have hproper := proper_print fun w hw => (hwords w hw).1
    have hzero := zero_not_mem_spaced_print fun w hw => (hwords w hw).2
    exact parse_of_derives hzero (lexes_spaced hproper) (derives_print htree.bounded)

/-- The line `a&`, and the command that it stands for. -/
theorem parse_correct_background :
    (∃ ts, Lexes [97, 38] ts ∧ ∀ tree, parse [97, 38] = pure tree ↔ Derives .line ts tree) ∧
    parse (spaced (Cmd.back (.exec [[97]])).print) = pure (.back (.exec [[97]])) := by
  refine ⟨?_, ?_⟩
  · obtain ⟨ts, hts, -, hiff, -⟩ := parse_correct.1 [97, 38] (by decide)
    exact ⟨ts, hts, hiff⟩
  · have hsimple : Derives .exec [.word [97]] (.exec [[97]]) :=
      .simple .nil (.cons .nil .nil) (by decide)
    refine parse_correct.2 _ _ (.line 1 (.exec hsimple)) fun w hw => ?_
    rw [List.mem_singleton.mp hw]
    exact ⟨⟨by decide +kernel, by decide +kernel⟩, by decide +kernel⟩

-- the line `(a`
example : parse [40, 97] = throw .missingClosing := by rfl

-- the line `a>>b|c;d`
example : parse [97, 62, 62, 98, 124, 99, 59, 100] =
    pure (.list (.pipe (.redir (.exec [[97]]) [98] oWronlyCreate 1) (.exec [[99]]))
      (.exec [[100]])) := by
  rfl

/-- In the memory that `parsecmd` leaves, the string at the pointer of every word is the token it
was read from; zero bytes are written behind the words and nowhere else. -/
theorem nulterminate_harmless (h0 : 0 ∉ line) {cmd : Cmd Span} {buf : Buffer}
    (h : parsecmd line = pure (cmd, buf)) :
    (∀ word ∈ cmd.words, (∃ s s', s <:+ line ∧ gettoken s = (.word, word, s')) ∧
      string buf (line.length + 1) (addr line word.q) = word.text) ∧
    (∀ ts, Lexes line ts → Derives .line ts (cmd.map Span.text)) ∧
    (∀ i, buf i = if ∃ word ∈ cmd.words, addr line word.eq = i then 0 else memory line i) ∧
    ∀ word ∈ cmd.words, ∀ word' ∈ cmd.words,
      ¬ (addr line word.q ≤ addr line word'.eq ∧ addr line word'.eq < addr line word.eq) := by
  obtain ⟨ts, hts⟩ := exists_lexes line
  obtain ⟨hder, hall, hbuf⟩ := (parsecmd_sound hts).of_eq_pure h
  dsimp only at hder hall hbuf
  subst hbuf
  refine ⟨fun word hword => ⟨⟨word.q, skip word.eq, ?_, ?_⟩, ?_⟩, fun ts' hts' => ?_, fun i => ?_,
    fun word hword word' hword' hin => ?_⟩
  · exact (hall word hword).suffix
  · exact (hall word hword).gettoken_eq
  · exact string_nulterminate h0 hall hword
  · rw [lexes_unique hts' hts]
    exact hder
  · rw [nulterminate_eq_foldl, foldl_update_apply]
  · have hle := (hall word hword).addr_le (hall word' hword') hin.1
    have hend := (hall word hword).addr_eq
    omega

/-- The line `a>b`: its two words are next to the operator, and the first zero byte replaces it. -/
theorem nulterminate_harmless_redirection :
    ∃ cmd buf, parsecmd [97, greater, 98] = pure (cmd, buf) ∧
      cmd.words.map Span.text = [[97], [98]] ∧ buf 1 = 0 ∧
      ∀ word ∈ cmd.words, string buf 4 (addr [97, greater, 98] word.q) = word.text := by
  have h0 : 0 ∉ [97, greater, 98] := by decide +kernel
  exact ⟨_, _, rfl, rfl, rfl, fun word hword => ((nulterminate_harmless h0 rfl).1 word hword).2⟩

end Shell
