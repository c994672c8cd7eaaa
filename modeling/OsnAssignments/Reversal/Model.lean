import OsnAssignments.Common.Loop

/-!
# Reversing a file and checking the result

`Assign1/Q1.c` writes the bytes of a file in reverse order to another file, and `Assign1/Q2.c`
checks whether one file holds the reverse of another. Both walk through a file backwards in chunks
of `buf` bytes: the chunk at the end of the file may be shorter, and after a chunk of `x` bytes
the offset goes back by `x + buf`.

An open file is its bytes with an offset, and a buffer is a memory that `malloc` has not set. A
`read` transfers the bytes asked for as far as the file has them, and a `write` all of them.

The progress that `Q1.c` displays, the names and the creation of files and the permissions that
`Q2.c` prints are not modelled. Sizes stay below `2 ^ 63`.
-/

namespace Reversal

open Loop

/-- The memory that `malloc` returns, and what follows it. -/
abbrev Buffer := ℕ → UInt8

/-- An open file. -/
structure File where
  bytes : List UInt8
  offset : ℕ

/-- The third argument of `lseek`. -/
inductive Whence
  | seekSet
  | seekCur
  | seekEnd

namespace File

/-- `open`. -/
def opened (bytes : List UInt8) : File :=
  { bytes, offset := 0 }

/-- `lseek(f, offset, whence)`, with its result. An offset before the start of the file is refused,
and the offset stays where it was. -/
def lseek (f : File) (offset : ℤ) (whence : Whence) : File × ℤ :=
  let target : ℤ :=
    match whence with
    | .seekSet => offset
    | .seekCur => f.offset + offset
    | .seekEnd => f.bytes.length + offset
  if target < 0 then (f, -1) else ({ f with offset := target.toNat }, target)

/-- The bytes that `read(f, .., n)` transfers. -/
def ahead (f : File) (n : ℤ) : List UInt8 :=
  (f.bytes.drop f.offset).take n.toNat

/-- `read(f, buf, n)`, with the buffer after it. -/
def read (f : File) (buf : Buffer) (n : ℤ) : File × Buffer :=
  -- behind the last byte that is transferred the buffer keeps what it holds
  ({ f with offset := f.offset + (f.ahead n).length }, fun i => (f.ahead n).getD i (buf i))

/-- `write(f, buf, n)`. -/
def write (f : File) (buf : Buffer) (n : ℤ) : File :=
  let data := (List.range n.toNat).map buf
  { bytes := f.bytes.takeD f.offset 0 ++ data ++ f.bytes.drop (f.offset + data.length)
    offset := f.offset + data.length }

end File

/-- The loop `for (i = x - 1; i >= 0; i--) { srev[y] = str[i]; y++; }` from `y = 0`, with `y` after
it. -/
def reverseInto (str srev : Buffer) (x : ℤ) : Buffer × ℕ :=
  (downTo (x - 1) 0).foldl
    (fun s i => (Function.update s.1 s.2 (str i.toNat), s.2 + 1)) (srev, 0)

/-- Where the last chunk of a file of `z` bytes starts: `((z - 1) / buf) * buf`. -/
def lastChunk (z : ℤ) (buf : ℕ) : ℤ :=
  (z - 1).tdiv buf * buf

/-! ## The program that reverses -/

/-- The variables of the loop in `main` of `Q1.c`. -/
structure Reverser where
  fd : File
  fd2 : File
  str : Buffer
  srev : Buffer
  x : ℤ

namespace Reverser

/-- One iteration of the loop, and whether it ends with `break`. -/
def body (buf : ℕ) (s : Reverser) : Reverser × Bool :=
  let (fd, str) := s.fd.read s.str s.x
  let (srev, y) := reverseInto str s.srev s.x
  -- behind a full chunk this byte is one past the end of `srev`
  let srev := Function.update srev y 0
  let fd2 := s.fd2.write srev s.x
  if (fd.lseek 0 .seekCur).2 - s.x - buf < 0 then
    ({ fd, fd2, str, srev, x := s.x }, true)
  else
    ({ fd := (fd.lseek (-s.x - buf) .seekCur).1, fd2, str, srev, x := buf }, false)

/-- The variables before the loop. -/
def start (buf : ℕ) (bytes : List UInt8) (str srev : Buffer) : Reverser :=
  let (fd, z) := (File.opened bytes).lseek 0 .seekEnd
  let (fd, _) := fd.lseek (-1) .seekEnd
  let (fd2, _) := (File.opened []).lseek 0 .seekSet
  let y := lastChunk z buf
  { fd := (fd.lseek y .seekSet).1, fd2, str, srev, x := z - y }

/-- `main` of `Q1.c` on an input file with these bytes: the bytes of the output file. The buffers
are what `malloc` returns. -/
def main (buf : ℕ) (bytes : List UInt8) (str srev : Buffer) (fuel : ℕ) : Option (List UInt8) :=
  (breakLoop (body buf) fuel (start buf bytes str srev)).map fun s => s.fd2.bytes

end Reverser

/-! ## The program that checks -/

/-- The variables of the loop in `main` of `Q2.c`. -/
structure Checker where
  old : File
  ne : File
  str : Buffer
  srev : Buffer
  str2 : Buffer
  x : ℤ
  /-- Whether `f` is `1`: a difference has been found. -/
  f : Bool

namespace Checker

/-- One iteration of the loop, and whether it ends with `break` or with `goto yo`. -/
def body (buf : ℕ) (s : Checker) : Checker × Bool :=
  let (old, str) := s.old.read s.str s.x
  let (ne, str2) := s.ne.read s.str2 s.x
  let (srev, _) := reverseInto str s.srev s.x
  let s' : Checker := { old, ne, str, srev, str2, x := s.x, f := s.f }
  if (upTo 0 (s.x - 1)).any fun i => srev i.toNat != str2 i.toNat then
    ({ s' with f := true }, true)
  else if (old.lseek 0 .seekCur).2 - s.x - buf < 0 then
    (s', true)
  else
    ({ s' with old := (old.lseek (-s.x - buf) .seekCur).1, x := buf }, false)

/-- What `main` of `Q2.c` prints about the contents. -/
inductive Report
  /-- Nothing: a test on the permissions has failed. -/
  | none
  /-- `Whether file contents are reversed in new file: NO`. -/
  | no
  /-- `Whether file contents are reversed in new file: YES`. -/
  | yes
  deriving DecidableEq, Repr

/-- The report after the label `yo`. -/
def report (f : Bool) : Report :=
  if f then .no else .yes

/-- The variables before the loop. -/
def start (buf : ℕ) (newBytes oldBytes : List UInt8) (str srev str2 : Buffer) : Checker :=
  let (old, z) := (File.opened oldBytes).lseek 0 .seekEnd
  let (ne, _) := (File.opened newBytes).lseek 0 .seekEnd
  let (old, _) := old.lseek (-1) .seekEnd
  let (ne, _) := ne.lseek 0 .seekSet
  let y := lastChunk z buf
  { old := (old.lseek y .seekSet).1, ne, str, srev, str2, x := z - y, f := false }

/-- The part of `main` of `Q2.c` that compares the contents of the new and of the old file. `arr0`
and `arr9` say whether the owner of the new and of the old file may read it. -/
def main (buf : ℕ) (newBytes oldBytes : List UInt8) (arr0 arr9 : Bool) (str srev str2 : Buffer)
    (fuel : ℕ) : Option Report :=
  if arr0 && arr9 then
    let (_, z) := (File.opened oldBytes).lseek 0 .seekEnd
    let (_, zo) := (File.opened newBytes).lseek 0 .seekEnd
    if z ≠ zo then some (report true)
    else
      (breakLoop (body buf) fuel (start buf newBytes oldBytes str srev str2)).map
        fun s => report s.f
  else some .none

end Checker

/-- The value that both programs give to `buf`. -/
def BUF : ℕ := 10000000

end Reversal
