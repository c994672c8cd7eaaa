import OsnAssignments.Common.CString

/-!
# grep

`grep.c`: the matcher `match`, `matchhere` and `matchstar`, and the function `grep`, which reads its
input into a buffer of 1024 bytes, prints the matching lines it finds there, and moves what follows
the last newline to the front of the buffer before it reads on.

The matcher works on the bytes of its strings as lists; `grep` works on the buffer itself.
-/

namespace Grep

open CString Function

/-! ## The matcher -/

/-- The character `'\n'`. -/
def newline : UInt8 := 10

/-- The character `'^'`. -/
def caret : UInt8 := 94

/-- The character `'$'`. -/
def dollar : UInt8 := 36

/-- The character `'.'`. -/
def dot : UInt8 := 46

/-- The character `'*'`. -/
def star : UInt8 := 42

/-- `matchstar(c, re, text)`, where `here` is `matchhere(re, ·)`. -/
def matchstar (here : List UInt8 → Bool) (c : UInt8) : List UInt8 → Bool
  | [] => here []
  | t :: text => here (t :: text) || (t == c || c == dot) && matchstar here c text

/-- `matchhere(re, text)`. -/
def matchhere : List UInt8 → List UInt8 → Bool
  | [], _ => true
  | [c], text =>
    if c = dollar then text.isEmpty
    else
      match text with
      | [] => false
      | t :: _ => c == dot || c == t
  | c :: d :: re, text =>
    if d = star then matchstar (matchhere re) c text
    else
      match text with
      | [] => false
      | t :: text => (c == dot || c == t) && matchhere (d :: re) text

/-- The loop of `match(re, text)`, which looks at every suffix of the text. -/
def matchLoop (re : List UInt8) : List UInt8 → Bool
  -- also at the empty one
  | [] => matchhere re []
  | t :: text => matchhere re (t :: text) || matchLoop re text

/-- `match(re, text)`. -/
def matchRe (re text : List UInt8) : Bool :=
  match re with
  | [] => matchLoop [] text
  | c :: re => if c = caret then matchhere re text else matchLoop (c :: re) text

/-! ## The buffer -/

/-- `sizeof(buf)`. -/
def bufsize : ℕ := 1024

/-- The bytes of `piece` are stored at `s`, by `read`. -/
def fill (buf : Buffer) (s : ℕ) : List UInt8 → Buffer
  | [] => buf
  | b :: piece => fill (update buf s b) (s + 1) piece

/-- `memmove(dst, src, n)`, which copies forwards. -/
def memmove (buf : Buffer) (dst src : ℕ) : ℕ → Buffer
  | 0 => buf
  | n + 1 => memmove (update buf dst (buf src)) (dst + 1) (src + 1) n

/-! ## The function grep -/

/-- What a call of `grep` keeps between two reads. -/
structure State where
  /-- The number of bytes at the start of the buffer that have not been looked at. -/
  m : ℕ
  buf : Buffer

/-- The inner loop of `grep` from the pointer `p` on, in at most `k` rounds: the pointer and the
buffer at its end, and what has been written. -/
def scan (pattern : List UInt8) : ℕ → ℕ → Buffer → ℕ × Buffer × List UInt8
  | 0, p, buf => (p, buf, [])
  | k + 1, p, buf =>
    match strchr buf newline bufsize p with
    | none => (p, buf, [])
    | some q =>
      let buf := update buf q 0
      if matchRe pattern (string buf bufsize p) then
        let buf := update buf q newline
        let (p', buf', out) := scan pattern k (q + 1) buf
        (p', buf', bytes buf p (q + 1 - p) ++ out)
      else
        -- the zero byte stays in the place of the newline
        scan pattern k (q + 1) buf

/-- How many bytes `grep` asks for. -/
def State.request (g : State) : ℕ :=
  bufsize - g.m - 1

/-- The body of the outer loop of `grep`, when `read` has returned `piece`. -/
def State.pass (pattern : List UInt8) (g : State) (piece : List UInt8) : State × List UInt8 :=
  let m := g.m + piece.length
  let buf := update (fill g.buf g.m piece) m 0
  let (p, buf, out) := scan pattern bufsize 0 buf
  let m := if p = 0 then 0 else m
  if m > 0 then ({ m := m - p, buf := memmove buf 0 p (m - p) }, out)
  else ({ m := m, buf := buf }, out)

/-- The output of `grep` from the state `g` on, when the reads return the pieces of `cut` and then
nothing. -/
def State.run (pattern : List UInt8) : State → List (List UInt8) → List UInt8
  | _, [] => []
  | g, piece :: cut =>
    let (g', out) := g.pass pattern piece
    out ++ run pattern g' cut

/-- `grep(pattern, fd)`; the buffer may hold bytes from a call for another file. -/
def grep (pattern : List UInt8) (buf : Buffer) (cut : List (List UInt8)) : List UInt8 :=
  State.run pattern ⟨0, buf⟩ cut

/-- Every read returns at least one byte and no more than asked for. -/
def State.Served (pattern : List UInt8) : State → List (List UInt8) → Prop
  | _, [] => True
  | g, piece :: cut =>
    piece ≠ [] ∧ piece.length ≤ g.request ∧ Served pattern (g.pass pattern piece).1 cut

/-- The reads of `grep` return the pieces of `cut`. -/
def Served (pattern : List UInt8) (buf : Buffer) (cut : List (List UInt8)) : Prop :=
  State.Served pattern ⟨0, buf⟩ cut

/-- What `grep` should write: the lines whose string matches, in order. -/
def matchingLines (pattern : List UInt8) (lines : List (List UInt8)) : List UInt8 :=
  (lines.filter fun l => matchRe pattern (l.takeWhile (· ≠ 0))).flatMap fun l => l ++ [newline]

end Grep
