import Mathlib.Algebra.Group.Nat.Defs
import OsnAssignments.Common.CString

/-!
# The parser of the shell

`sh.c`: the scanner `gettoken` and `peek`, the recursive-descent parser `parsecmd`, and
`nulterminate`, which writes a zero byte behind every word of the parsed command.

The line has no zero byte in it. A pointer into the line is the rest of the line from there on, so
the end `es` of the line is the empty rest; `addr` gives the address that such a pointer stands for.
`parseline`, `parsepipe`, `parseexec` and `parseblock` call each other, and every call takes one
unit of fuel; `none` is the outcome of a call without fuel.
-/

namespace Shell

open CString

/-! ## Tokens -/

/-- A pointer into the line: the bytes from there to the end `es`. -/
abbrev Ptr := List UInt8

/-- The characters of `" \t\r\n\v"`. -/
def whitespace : List UInt8 := [32, 9, 13, 10, 11]

/-- The character `'<'`. -/
def less : UInt8 := 60

/-- The character `'>'`. -/
def greater : UInt8 := 62

/-- The character `'|'`. -/
def bar : UInt8 := 124

/-- The character `'&'`. -/
def ampersand : UInt8 := 38

/-- The character `';'`. -/
def semicolon : UInt8 := 59

/-- The character `'('`. -/
def opening : UInt8 := 40

/-- The character `')'`. -/
def closing : UInt8 := 41

/-- The characters of `"<|>&;()"`. -/
def symbols : List UInt8 := [less, bar, greater, ampersand, semicolon, opening, closing]

/-- What `gettoken` returns. -/
inductive Code
  /-- The number `0`, at the end of the line. -/
  | eof
  /-- One of the characters `|`, `(`, `)`, `;`, `&`, `<` and `>`. -/
  | symbol (c : UInt8)
  /-- The character `+`, for `>>`. -/
  | append
  /-- The character `a`, for a word. -/
  | word
  deriving DecidableEq, Repr

/-- The pointers `q` and `eq` to the start and the end of a token. -/
structure Span where
  q : Ptr
  eq : Ptr
  deriving DecidableEq, Repr

/-- The bytes between the two pointers. -/
def Span.text (span : Span) : List UInt8 :=
  span.q.take (span.q.length - span.eq.length)

/-- `while(s < es && strchr(whitespace, *s)) s++;` -/
def skip (s : Ptr) : Ptr :=
  s.dropWhile whitespace.contains

/-- A character that belongs to a word. -/
def wordByte (c : UInt8) : Bool :=
  !whitespace.contains c && !symbols.contains c

/-- The `switch` of `gettoken`: the code of the token at `s`, and the pointer behind it. -/
def token : Ptr → Code × Ptr
  | [] => (.eof, [])
  | c :: s =>
    if c = greater then
      match s with
      | [] => (.symbol greater, [])
      | d :: s' => if d = greater then (.append, s') else (.symbol greater, d :: s')
    else if symbols.contains c then (.symbol c, s)
    else (.word, (c :: s).dropWhile wordByte)

/-- `gettoken(&s, es, &q, &eq)`: the code, the pointers `q` and `eq`, and the new value of `s`. -/
def gettoken (s : Ptr) : Code × Span × Ptr :=
  let q := skip s
  let (ret, eq) := token q
  (ret, ⟨q, eq⟩, skip eq)

/-- `peek(&s, es, toks)`: the answer and the new value of `s`. -/
def peek (s : Ptr) (toks : List UInt8) : Bool × Ptr :=
  let s := skip s
  (s.head?.any toks.contains, s)

/-! ## Commands -/

/-- `MAXARGS`. -/
def maxArgs : ℕ := 10

/-- `O_RDONLY`. -/
def oRdonly : ℕ := 0x000

/-- `O_WRONLY|O_CREATE`. -/
def oWronlyCreate : ℕ := 0x001 ||| 0x200

/-- `struct cmd` and its five kinds, with words of type `α`. -/
inductive Cmd (α : Type)
  | exec (argv : List α)
  | redir (cmd : Cmd α) (file : α) (mode fd : ℕ)
  | pipe (left right : Cmd α)
  | list (left right : Cmd α)
  | back (cmd : Cmd α)
  deriving DecidableEq, Repr

/-- The command with every word replaced. -/
def Cmd.map {α β : Type} (f : α → β) : Cmd α → Cmd β
  | .exec argv => .exec (argv.map f)
  | .redir cmd file mode fd => .redir (cmd.map f) (f file) mode fd
  | .pipe left right => .pipe (left.map f) (right.map f)
  | .list left right => .list (left.map f) (right.map f)
  | .back cmd => .back (cmd.map f)

/-- The arguments of `redircmd` behind the command. -/
structure Redir (α : Type) where
  file : α
  mode : ℕ
  fd : ℕ
  deriving DecidableEq, Repr

/-- `redircmd`, for every redirection in turn. -/
def Cmd.redirs {α : Type} (cmd : Cmd α) (rs : List (Redir α)) : Cmd α :=
  rs.foldl (fun cmd r => .redir cmd r.file r.mode r.fd) cmd

/-! ## The parser -/

/-- The calls of `panic`. -/
inductive Panic
  /-- Bytes are left at the end of `parsecmd`; they are printed before the panic. -/
  | leftovers (s : Ptr)
  | missingFile
  | parseblock
  | missingClosing
  /-- The panic of `parseexec` on a token that is not a word. -/
  | notAWord
  | tooManyArgs
  deriving DecidableEq, Repr

/-- A part of the parser: it runs out of fuel, panics, or returns. -/
abbrev Parse (α : Type) := ExceptT Panic Option α

/-- The outcome of a call without fuel. -/
def outOfFuel {α : Type} : Parse α :=
  ExceptT.mk none

/-- The `switch` of `parseredirs`. -/
def redirOf {α : Type} (tok : Code) (file : α) : List (Redir α) :=
  if tok = .symbol less then [⟨file, oRdonly, 0⟩]
  else if tok = .symbol greater then [⟨file, oWronlyCreate, 1⟩]
  else if tok = .append then [⟨file, oWronlyCreate, 1⟩]
  else []

/-- The loop of `parseredirs`, in at most `k` rounds: the redirections found. -/
def redirLoop : ℕ → Ptr → Parse (List (Redir Span) × Ptr)
  | 0, _ => outOfFuel
  | k + 1, s =>
    match peek s [less, greater] with
    | (false, s) => return ([], s)
    | (true, s) =>
      let (tok, _, s) := gettoken s
      let (tok', file, s) := gettoken s
      if tok' = .word then do
        let (rs, s) ← redirLoop k s
        return (redirOf tok file ++ rs, s)
      else throw .missingFile

/-- `parseredirs(cmd, &s, es)`, without the command. -/
def parseredirs (s : Ptr) : Parse (List (Redir Span) × Ptr) :=
  redirLoop (s.length + 1) s

/-- The loop of `parseexec`, in at most `k` rounds: the words and the redirections. -/
def argLoop : ℕ → ℕ → Ptr → Parse (List Span × List (Redir Span) × Ptr)
  | 0, _, _ => outOfFuel
  | k + 1, argc, s =>
    match peek s [bar, closing, ampersand, semicolon] with
    | (true, s) => return ([], [], s)
    | (false, s) =>
      let (tok, word, s) := gettoken s
      if tok = .eof then return ([], [], s)
      else if tok = .word then
        if argc + 1 ≥ maxArgs then throw .tooManyArgs
        else do
          let (rs, s) ← parseredirs s
          let (words, rs', s) ← argLoop k (argc + 1) s
          return (word :: words, rs ++ rs', s)
      else throw .notAWord

/-- The loop of `parseline`, in at most `k` rounds. -/
def backLoop : ℕ → Cmd Span → Ptr → Parse (Cmd Span × Ptr)
  | 0, _, _ => outOfFuel
  | k + 1, cmd, s =>
    match peek s [ampersand] with
    | (false, s) => return (cmd, s)
    | (true, s) =>
      let (_, _, s) := gettoken s
      backLoop k (.back cmd) s

mutual

/-- `parseline(&s, es)`. -/
def parseline : ℕ → Ptr → Parse (Cmd Span × Ptr)
  | 0, _ => outOfFuel
  | k + 1, s => do
    let (cmd, s) ← parsepipe k s
    let (cmd, s) ← backLoop (s.length + 1) cmd s
    match peek s [semicolon] with
    | (false, s) => return (cmd, s)
    | (true, s) =>
      let (_, _, s) := gettoken s
      let (rest, s) ← parseline k s
      return (.list cmd rest, s)

/-- `parsepipe(&s, es)`. -/
def parsepipe : ℕ → Ptr → Parse (Cmd Span × Ptr)
  | 0, _ => outOfFuel
  | k + 1, s => do
    let (cmd, s) ← parseexec k s
    match peek s [bar] with
    | (false, s) => return (cmd, s)
    | (true, s) =>
      let (_, _, s) := gettoken s
      let (rest, s) ← parsepipe k s
      return (.pipe cmd rest, s)

/-- `parseexec(&s, es)`. -/
def parseexec : ℕ → Ptr → Parse (Cmd Span × Ptr)
  | 0, _ => outOfFuel
  | k + 1, s =>
    match peek s [opening] with
    | (true, s) => parseblock k s
    | (false, s) => do
      let (rs, s) ← parseredirs s
      let (words, rs', s) ← argLoop (s.length + 1) 0 s
      -- the redirections are put around the command, whose arguments are filled in meanwhile
      return ((Cmd.exec words).redirs (rs ++ rs'), s)

/-- `parseblock(&s, es)`. -/
def parseblock : ℕ → Ptr → Parse (Cmd Span × Ptr)
  | 0, _ => outOfFuel
  | k + 1, s =>
    match peek s [opening] with
    | (false, _) => throw .parseblock
    | (true, s) => do
      let (_, _, s) := gettoken s
      let (cmd, s) ← parseline k s
      match peek s [closing] with
      | (false, _) => throw .missingClosing
      | (true, s) =>
        let (_, _, s) := gettoken s
        let (rs, s) ← parseredirs s
        return (cmd.redirs rs, s)

end

/-! ## Strings -/

/-- The address of a pointer into the line, which starts at address `0`. -/
def addr (line : List UInt8) (s : Ptr) : ℕ :=
  line.length - s.length

/-- `nulterminate(cmd)`. -/
def nulterminate (line : List UInt8) : Cmd Span → Buffer → Buffer
  | .exec argv, buf => argv.foldl (fun buf arg => Function.update buf (addr line arg.eq) 0) buf
  | .redir cmd file _ _, buf =>
    Function.update (nulterminate line cmd buf) (addr line file.eq) 0
  | .pipe left right, buf => nulterminate line right (nulterminate line left buf)
  | .list left right, buf => nulterminate line right (nulterminate line left buf)
  | .back cmd, buf => nulterminate line cmd buf

/-- The line in memory. -/
def memory (line : List UInt8) : Buffer :=
  fun i => line.getD i 0

/-- `parsecmd(s)`: the command, and the memory that its pointers lead into. -/
def parsecmd (line : List UInt8) : Parse (Cmd Span × Buffer) := do
  let (cmd, s) ← parseline (4 * line.length + 4) line
  let (_, s) := peek s []
  if s ≠ [] then throw (.leftovers s)
  else return (cmd, nulterminate line cmd (memory line))

/-- The command with the strings that its pointers lead to. -/
def strings (line : List UInt8) (cmd : Cmd Span) (buf : Buffer) : Cmd (List UInt8) :=
  cmd.map fun word => string buf (line.length + 1) (addr line word.q)

/-- The command that `parsecmd` returns for the line, as its user reads it. -/
def parse (line : List UInt8) : Parse (Cmd (List UInt8)) := do
  let (cmd, buf) ← parsecmd line
  return strings line cmd buf

end Shell
