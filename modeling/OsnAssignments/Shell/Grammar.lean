import Mathlib.Logic.Function.Iterate
import OsnAssignments.Shell.Tokens

/-!
# The grammar of the shell

`Derives` is the grammar

* `line ::= pipe {'&'} [';' line]`
* `pipe ::= exec ['|' pipe]`
* `exec ::= '(' line ')' redirs | redirs {word redirs}`
* `redirs ::= {('<' | '>' | '>>') word}`

with fewer than `MAXARGS` words in a simple command, together with the command that every derivation
determines. `Cmd.print` writes a command as tokens again, with parentheses where the grammar needs
them.
-/

namespace Shell

/-- A command with its words. -/
abbrev Tree := Cmd (List UInt8)

/-- The mode and the file descriptor of a redirection, by its operator. -/
def Token.redir : Token → Option (ℕ × ℕ)
  | .symbol c => if c = less then some (oRdonly, 0)
    else if c = greater then some (oWronlyCreate, 1) else none
  | .append => some (oWronlyCreate, 1)
  | .word _ => none

/-- `redirs ::= {('<' | '>' | '>>') word}` -/
inductive Redirs : List Token → List (Redir (List UInt8)) → Prop
  | nil : Redirs [] []
  | cons {op : Token} {mode fd : ℕ} {w : List UInt8} {xs : List Token}
    {rs : List (Redir (List UInt8))} (hop : op.redir = some (mode, fd)) (h : Redirs xs rs) :
    Redirs (op :: .word w :: xs) (⟨w, mode, fd⟩ :: rs)

/-- `{word redirs}` -/
inductive Args : List Token → List (List UInt8) → List (Redir (List UInt8)) → Prop
  | nil : Args [] [] []
  | cons {w : List UInt8} {ws : List (List UInt8)} {xs ys : List Token}
    {rs rs' : List (Redir (List UInt8))} (h : Redirs xs rs) (h' : Args ys ws rs') :
    Args (.word w :: (xs ++ ys)) (w :: ws) (rs ++ rs')

/-- The three nonterminals that call each other. -/
inductive Nonterminal
  | line
  | pipe
  | exec
  deriving DecidableEq, Repr

/-- The tokens derive from the nonterminal, and the derivation determines the command. -/
inductive Derives : Nonterminal → List Token → Tree → Prop
  | line {xs : List Token} {c : Tree} (n : ℕ) (h : Derives .pipe xs c) :
    Derives .line (xs ++ .replicate n (.symbol ampersand)) (Cmd.back^[n] c)
  | list {xs ys : List Token} {c d : Tree} (n : ℕ) (h : Derives .pipe xs c)
    (h' : Derives .line ys d) :
    Derives .line (xs ++ .replicate n (.symbol ampersand) ++ .symbol semicolon :: ys)
      (.list (Cmd.back^[n] c) d)
  | exec {xs : List Token} {c : Tree} (h : Derives .exec xs c) : Derives .pipe xs c
  | pipe {xs ys : List Token} {c d : Tree} (h : Derives .exec xs c) (h' : Derives .pipe ys d) :
    Derives .pipe (xs ++ .symbol bar :: ys) (.pipe c d)
  | block {xs ys : List Token} {c : Tree} {rs : List (Redir (List UInt8))}
    (h : Derives .line xs c) (hrs : Redirs ys rs) :
    Derives .exec (.symbol opening :: xs ++ .symbol closing :: ys) (c.redirs rs)
  | simple {xs ys : List Token} {ws : List (List UInt8)} {rs rs' : List (Redir (List UInt8))}
    (hrs : Redirs xs rs) (hargs : Args ys ws rs') (hlen : ws.length < maxArgs) :
    Derives .exec (xs ++ ys) ((Cmd.exec ws).redirs (rs ++ rs'))

/-- The words of the command. -/
def Cmd.words {α : Type} : Cmd α → List α
  | .exec argv => argv
  | .redir cmd file _ _ => cmd.words ++ [file]
  | .pipe left right => left.words ++ right.words
  | .list left right => left.words ++ right.words
  | .back cmd => cmd.words

variable {xs ys ts : List Token} {ws : List (List UInt8)} {w : List UInt8} {c d : Tree}
  {rs rs' : List (Redir (List UInt8))} {N : Nonterminal}
variable {t : Token}

/-! ## Redirections -/

theorem Redirs.append (h : Redirs xs rs) (h' : Redirs ys rs') : Redirs (xs ++ ys) (rs ++ rs') := by
  induction h with
  | nil => exact h'
  | cons hop _ ih => exact .cons hop ih

/-- Redirections at the end belong to the last word. -/
theorem Args.append_redirs (h : Args xs ws rs) (hws : ws ≠ []) (h' : Redirs ys rs') :
    Args (xs ++ ys) ws (rs ++ rs') := by
  induction h with
  | nil => exact absurd rfl hws
  | @cons w ws xs zs rs₁ rs₂ hrs hargs ih =>
    rw [List.cons_append, List.append_assoc, List.append_assoc]
    cases hargs with
    | nil =>
      have := Args.cons (w := w) (hrs.append h') .nil
      rwa [List.append_nil, List.append_nil] at this
    | cons => exact .cons hrs (ih (List.cons_ne_nil _ _))

theorem redirs_append : c.redirs (rs ++ rs') = (c.redirs rs).redirs rs' :=
  List.foldl_append

/-- One more redirection behind an `exec`. -/
theorem Derives.redir {op : Token} {mode fd : ℕ} (h : Derives .exec xs c)
    (hop : op.redir = some (mode, fd)) :
    Derives .exec (xs ++ [op, .word w]) (.redir c w mode fd) := by
  have hlast : Redirs [op, .word w] [⟨w, mode, fd⟩] := .cons hop .nil
  cases h with
  | @block xs ys c rs h hrs =>
    have hblock := Derives.block h (hrs.append hlast)
    rwa [redirs_append, ← List.cons_append, ← List.append_assoc] at hblock
  | @simple xs ys ws rs rs' hrs hargs hlen =>
    by_cases hws : ws = []
    · subst hws
      cases hargs
      have hsimple := Derives.simple (hrs.append hlast) .nil hlen
      rw [List.append_nil, List.append_nil, redirs_append] at hsimple
      rwa [List.append_nil, List.append_nil]
    · have hsimple := Derives.simple hrs (hargs.append_redirs hws hlast) hlen
      rwa [← List.append_assoc, ← List.append_assoc, redirs_append] at hsimple

/-! ## The commands of the language -/

/-- The command is within the limits of the language: a simple command has fewer than `MAXARGS`
words, and a redirection is one of the two kinds that the shell knows. -/
def Cmd.Bounded : Tree → Prop
  | .exec argv => argv.length < maxArgs
  | .redir cmd _ mode fd =>
    cmd.Bounded ∧ ((mode, fd) = (oRdonly, 0) ∨ (mode, fd) = (oWronlyCreate, 1))
  | .pipe left right => left.Bounded ∧ right.Bounded
  | .list left right => left.Bounded ∧ right.Bounded
  | .back cmd => cmd.Bounded

theorem bounded_redirs (hc : c.Bounded) (hrs : Redirs xs rs) : (c.redirs rs).Bounded := by
  induction hrs generalizing c with
  | nil => exact hc
  | @cons op mode fd w xs rs hop _ ih =>
    refine ih ⟨hc, ?_⟩
    cases op with
    | word => cases hop
    | append => exact .inr (Option.some.inj hop).symm
    | symbol =>
      simp only [Token.redir] at hop
      split_ifs at hop
      · exact .inl (Option.some.inj hop).symm
      · exact .inr (Option.some.inj hop).symm

/-- The redirections among the words, by themselves. -/
theorem Args.redirs (h : Args xs ws rs) : ∃ ys, Redirs ys rs := by
  induction h with
  | nil => exact ⟨[], .nil⟩
  | @cons w ws xs zs rs rs' hrs _ ih =>
    obtain ⟨ys, hys⟩ := ih
    exact ⟨xs ++ ys, hrs.append hys⟩

theorem bounded_iterate_back (n : ℕ) (hc : c.Bounded) : (Cmd.back^[n] c).Bounded := by
  induction n generalizing c with
  | zero => exact hc
  | succ n ih => exact ih (c := .back c) hc

theorem Derives.bounded (h : Derives N ts c) : c.Bounded := by
  induction h with
  | line n _ ih => exact bounded_iterate_back n ih
  | list n _ _ ih ih' => exact ⟨bounded_iterate_back n ih, ih'⟩
  | exec _ ih => exact ih
  | pipe _ _ ih ih' => exact ⟨ih, ih'⟩
  | block _ hrs ih => exact bounded_redirs ih hrs
  | @simple _ _ ws _ _ hrs hargs hlen =>
    obtain ⟨zs, hzs⟩ := hargs.redirs
    have hexec : (Cmd.exec ws).Bounded := hlen
    rw [redirs_append]
    exact bounded_redirs (bounded_redirs hexec hrs) hzs

/-! ## Printing -/

/-- How loosely the parts of the command hang together: `0` for what is an `exec` of the grammar,
`1` for a `pipe`, `2` with `&` behind it, and `3` with `;` in it. -/
def Cmd.rank : Tree → ℕ
  | .exec _ => 0
  | .redir .. => 0
  | .pipe .. => 1
  | .back _ => 2
  | .list .. => 3

/-- The operator of a redirection. -/
def operator (mode : ℕ) : Token :=
  if mode = oRdonly then .symbol less else .symbol greater

/-- The tokens in parentheses, unless the command can do without them. -/
def paren (bare : Prop) [Decidable bare] (ts : List Token) : List Token :=
  if bare then ts else .symbol opening :: ts ++ [.symbol closing]

/-- The command as tokens. -/
def Cmd.print : Tree → List Token
  | .exec argv => argv.map .word
  | .redir cmd file mode _ => paren (cmd.rank ≤ 0) cmd.print ++ [operator mode, .word file]
  | .pipe left right =>
    paren (left.rank ≤ 0) left.print ++ .symbol bar :: paren (right.rank ≤ 1) right.print
  | .back cmd => paren (cmd.rank ≤ 2) cmd.print ++ [.symbol ampersand]
  | .list left right => paren (left.rank ≤ 2) left.print ++ .symbol semicolon :: right.print

/-- The tokens derive from the grammar at the given rank. -/
def Fits : ℕ → List Token → Tree → Prop
  | 0, xs, c => Derives .exec xs c
  | 1, xs, c => Derives .pipe xs c
  | 2, xs, c => ∃ n ys d, xs = ys ++ .replicate n (.symbol ampersand) ∧ c = Cmd.back^[n] d ∧
      Derives .pipe ys d
  | _, xs, c => Derives .line xs c

theorem Fits.succ {r : ℕ} (h : Fits r xs c) : Fits (r + 1) xs c := by
  match r, h with
  | 0, h => exact Derives.exec h
  | 1, h => exact ⟨0, xs, c, (List.append_nil xs).symm, rfl, h⟩
  | 2, ⟨n, ys, d, hxs, hc, hpipe⟩ =>
    rw [hxs, hc]
    exact Derives.line n hpipe
  | _ + 3, h => exact h

theorem Fits.mono {r r' : ℕ} (h : Fits r xs c) (hr : r ≤ r') : Fits r' xs c := by
  induction hr with
  | refl => exact h
  | step _ ih => exact ih.succ

theorem rank_le_three (c : Tree) : c.rank ≤ 3 := by
  cases c <;> simp [Cmd.rank]

/-- In parentheses, every command fits everywhere. -/
theorem Fits.paren (h : Fits c.rank ts c) (r : ℕ) : Fits r (paren (c.rank ≤ r) ts) c := by
  rw [Shell.paren]
  split_ifs with hr
  · exact h.mono hr
  · have hline : Derives .line ts c := h.mono (rank_le_three c)
    have hblock : Fits 0 (.symbol opening :: ts ++ [.symbol closing]) c := .block hline .nil
    exact hblock.mono (Nat.zero_le r)

theorem args_map_word (ws : List (List UInt8)) : Args (ws.map .word) ws [] := by
  induction ws with
  | nil => exact .nil
  | cons w ws ih => exact .cons Redirs.nil ih

theorem redir_operator {mode fd : ℕ}
    (h : (mode, fd) = (oRdonly, 0) ∨ (mode, fd) = (oWronlyCreate, 1)) :
    (operator mode).redir = some (mode, fd) := by
  rcases h with h | h <;> obtain ⟨rfl, rfl⟩ := Prod.mk.inj h <;> decide

theorem fits_print (hc : c.Bounded) : Fits c.rank c.print c := by
  induction c with
  | exec argv => exact Derives.simple .nil (args_map_word argv) hc
  | redir cmd file mode fd ih => exact ((ih hc.1).paren 0).redir (redir_operator hc.2)
  | pipe left right ihl ihr => exact Derives.pipe ((ihl hc.1).paren 0) ((ihr hc.2).paren 1)
  | back cmd ih =>
    obtain ⟨n, ys, d, hys, hd, h⟩ := (ih hc).paren 2
    refine ⟨n + 1, ys, d, ?_, ?_, h⟩
    · rw [Cmd.print, hys, List.append_assoc, List.replicate_succ']
    · rw [Function.iterate_succ_apply', ← hd]
  | list left right ihl ihr =>
    obtain ⟨n, ys, d, hys, hd, h⟩ := (ihl hc.1).paren 2
    have hright : Derives .line right.print right := (ihr hc.2).mono (rank_le_three right)
    rw [Cmd.print, hys, hd]
    exact Derives.list n h hright

/-- The command derives from its print. -/
theorem derives_print (hc : c.Bounded) : Derives .line c.print c :=
  (fits_print hc).mono (rank_le_three c)

/-- The tokens as a line, with a space between any two. -/
def spaced (ts : List Token) : List UInt8 :=
  [32].intercalate (ts.map Token.text)

/-- The token can stand in a line. -/
def Token.Proper : Token → Prop
  | .word w => IsWord w
  | .symbol c => c ∈ symbols
  | .append => True

/-- The token, in front of a space or at the end of the line. -/
theorem Lexes.cons {s : Ptr} (ht : t.Proper) (hs : ∀ b ∈ s.head?, b = 32)
    (h : Lexes s ts) : Lexes (t.text ++ s) (t :: ts) := by
  cases t with
  | word =>
    refine .word ht (fun b hb => ?_) h
    rw [hs b hb]
    decide
  | symbol =>
    refine .symbol ht (fun _ hhead => ?_) h
    exact absurd (hs greater hhead) (by decide)
  | append => exact .append h

theorem lexes_spaced (hts : ∀ t ∈ ts, t.Proper) : Lexes (spaced ts) ts := by
  induction ts with
  | nil => exact .nil
  | cons t ts ih =>
    have ih := ih fun t ht => hts t (List.mem_cons_of_mem _ ht)
    have ht := hts t List.mem_cons_self
    cases ts with
    | nil => exact Lexes.nil.cons ht (by simp)
    | cons t' ts =>
      have hrest : Lexes (32 :: spaced (t' :: ts)) (t' :: ts) := .skip (by decide) ih
      exact hrest.cons ht (by simp)

/-- A token of the print is a symbol or a word of the command. -/
def Prints (c : Tree) (t : Token) : Prop :=
  (∃ b ∈ symbols, t = .symbol b) ∨ ∃ w ∈ c.words, t = .word w

theorem Prints.mono (h : Prints c t) (hsub : c.words ⊆ d.words) : Prints d t :=
  h.imp_right fun ⟨w, hw, ht⟩ => ⟨w, hsub hw, ht⟩

theorem Prints.paren {bare : Prop} [Decidable bare] (h : ∀ t ∈ ts, Prints c t)
    (ht : t ∈ paren bare ts) : Prints c t := by
  rw [Shell.paren] at ht
  split_ifs at ht
  · exact h t ht
  · simp only [List.cons_append, List.mem_cons, List.mem_append, List.not_mem_nil, or_false] at ht
    rcases ht with rfl | ht | rfl
    · exact .inl ⟨opening, by decide, rfl⟩
    · exact h t ht
    · exact .inl ⟨closing, by decide, rfl⟩

theorem prints_operator (mode : ℕ) : Prints c (operator mode) := by
  rw [operator]
  split_ifs
  · exact .inl ⟨less, by decide, rfl⟩
  · exact .inl ⟨greater, by decide, rfl⟩

theorem prints_of_mem_print (ht : t ∈ c.print) : Prints c t := by
  induction c generalizing t with
  | exec =>
    obtain ⟨w, hw, rfl⟩ := List.mem_map.mp ht
    exact .inr ⟨w, hw, rfl⟩
  | redir cmd file mode fd ih =>
    simp only [Cmd.print, List.mem_append, List.mem_cons, List.not_mem_nil, or_false] at ht
    rcases ht with ht | rfl | rfl
    · exact (Prints.paren (fun t ht => ih ht) ht).mono (List.subset_append_left ..)
    · exact prints_operator mode
    · exact .inr ⟨file, List.mem_append_right _ (List.mem_singleton_self file), rfl⟩
  | pipe left right ihl ihr =>
    rcases List.mem_append.mp ht with ht | ht
    · exact (Prints.paren (fun t ht => ihl ht) ht).mono (List.subset_append_left ..)
    · rcases List.mem_cons.mp ht with rfl | ht
      · exact .inl ⟨bar, by decide, rfl⟩
      · exact (Prints.paren (fun t ht => ihr ht) ht).mono (List.subset_append_right ..)
  | back cmd ih =>
    rcases List.mem_append.mp ht with ht | ht
    · exact Prints.paren (c := cmd) (fun t ht => ih ht) ht
    · exact .inl ⟨ampersand, by decide, List.mem_singleton.mp ht⟩
  | list left right ihl ihr =>
    rcases List.mem_append.mp ht with ht | ht
    · exact (Prints.paren (fun t ht => ihl ht) ht).mono (List.subset_append_left ..)
    · rcases List.mem_cons.mp ht with rfl | ht
      · exact .inl ⟨semicolon, by decide, rfl⟩
      · exact (ihr ht).mono (List.subset_append_right ..)

theorem proper_print (hc : ∀ w ∈ c.words, IsWord w) : ∀ t ∈ c.print, t.Proper := by
  intro t ht
  rcases prints_of_mem_print ht with ⟨b, hb, rfl⟩ | ⟨w, hw, rfl⟩
  · exact hb
  · exact hc w hw

theorem mem_spaced {b : UInt8} (h : b ∈ spaced ts) : b = 32 ∨ ∃ t ∈ ts, b ∈ t.text := by
  induction ts with
  | nil => cases h
  | cons t ts ih =>
    cases ts with
    | nil =>
      have hb : b ∈ t.text ++ [] := h
      rw [List.append_nil] at hb
      exact .inr ⟨t, List.mem_cons_self, hb⟩
    | cons t' ts =>
      have hb : b ∈ t.text ++ 32 :: spaced (t' :: ts) := h
      rcases List.mem_append.mp hb with hb | hb
      · exact .inr ⟨t, List.mem_cons_self, hb⟩
      rcases List.mem_cons.mp hb with hb | hb
      · exact .inl hb
      · exact (ih hb).imp_right fun ⟨x, hx, hbx⟩ => ⟨x, List.mem_cons_of_mem _ hx, hbx⟩

/-- A print has no zero byte, if the words have none. -/
theorem zero_not_mem_spaced_print (hc : ∀ w ∈ c.words, 0 ∉ w) : 0 ∉ spaced c.print := by
  intro h
  rcases mem_spaced h with h | ⟨t, ht, h⟩
  · cases h
  · rcases prints_of_mem_print ht with ⟨b, hb, rfl⟩ | ⟨w, hw, rfl⟩
    · exact absurd (List.mem_singleton.mp h ▸ hb) (by decide)
    · exact hc w hw h

end Shell
