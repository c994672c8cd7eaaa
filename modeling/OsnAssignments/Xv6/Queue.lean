import Mathlib.Algebra.GroupWithZero.Nat
import Mathlib.Data.Fintype.Basic
import OsnAssignments.Common.Loop

/-!
# The MLFQ ready queues

The five circular buffers of `proc.h`, kept in the arrays `face`, `back`, `sz` and `queue`, and
the operations of `proc.c` on them: `push`, `pop` and `remove`.

`queue` is `struct proc* queue[5][64]`. The compiler lays it out as one array of `5 * 64`
pointers, so `queue[i][-1]`, which `push` reads when ring `i` is empty, is `queue[i-1][63]` for
`i > 0` and the word below the array for `i = 0`.
-/

namespace Xv6

open Loop

/-- `NPROC` of `param.h`: the number of entries of the process table. -/
abbrev NPROC : ℕ := 64

/-- An entry of the process table, standing for the pointer `&ptable.proc[i]`. -/
abbrev Slot := Fin NPROC

/-- An index into the arrays of length five: `face`, `back`, `sz`, `slices` and `qnt`. -/
abbrev Level := Fin 5

/-- An index into an array of length five is in range by its type. -/
scoped instance getElemLevel {α : Type} : GetElem (Vector α 5) Level α fun _ _ => True where
  getElem v i _ := v.get i

theorem getElem_replicate_level (x : ℤ) (i : Level) : (Vector.replicate 5 x)[i] = x :=
  Vector.getElem_replicate i.isLt

theorem getElem_set_level (v : Vector ℤ 5) (a i : Level) (x : ℤ) :
    (v.set a x)[i] = if i = a then x else v[i] := by
  by_cases hi : i = a
  · subst hi
    rw [if_pos rfl]
    exact Vector.getElem_set_self i.isLt
  · have hne : a.val ≠ i.val := fun h => hi (Fin.ext h.symm)
    rw [if_neg hi]
    exact Vector.getElem_set_ne _ _ hne

scoped instance (priority := 3000) neZeroLevel : NeZero 5 :=
  ⟨by decide⟩

scoped instance (priority := 3000) neZeroSlot : NeZero 64 :=
  ⟨by decide⟩

/-- The ready queues of `proc.h`. A ring is empty when its `face` and `back` are `-1`. -/
structure Rings where
  /-- Index of the first entry of each ring. -/
  face : Vector ℤ 5
  /-- Index of the last entry of each ring. -/
  back : Vector ℤ 5
  /-- The size counters. -/
  sz : Vector ℤ 5
  /-- `queue[5][64]`, row after row; `none` is the null pointer. -/
  queue : Vector (Option Slot) (5 * NPROC)
  /-- The word in memory just below `queue`, read as a pointer into the process table. -/
  below : Option Slot
  deriving DecidableEq

namespace Rings

/-- The rings as `main` leaves them, whatever word lies below `queue`. -/
def empty (below : Option Slot) : Rings where
  face := Vector.replicate 5 (-1)
  back := Vector.replicate 5 (-1)
  sz := Vector.replicate 5 0
  queue := Vector.replicate (5 * NPROC) none
  below := below

/-- `queue[i][j]`, where `j` may be `-1`. -/
def get (r : Rings) (i : Level) (j : ℤ) : Option Slot :=
  -- only `queue[0][-1]` lies outside the array; `queue[i][-1]` is the end of row `i - 1`
  if NPROC * i + j < 0 then r.below else (r.queue[(NPROC * i + j).toNat]?).getD none

/-- `queue[i][j] = x`. -/
def put (r : Rings) (i : Level) (j : ℤ) (x : Option Slot) : Rings :=
  { r with queue := r.queue.setIfInBounds (NPROC * i + j).toNat x }

/-- The search of `push` in one ring. An empty ring has `face = back = -1`, so that the loop
looks at `queue[i][-1]`. -/
def holds (r : Rings) (i : Level) (b : Slot) : Bool :=
  if r.face[i] ≤ r.back[i] then
    (upTo r.face[i] r.back[i]).any fun j => r.get i j == some b
  else
    ((upTo r.face[i] (NPROC - 1)).any fun j => r.get i j == some b) ||
      ((upTo 0 r.back[i]).any fun j => r.get i j == some b)

/-- The test in `push` after which it prints `queue full`. -/
def full (r : Rings) (a : Level) : Bool :=
  r.face[a] == r.back[a] + 1 || (r.face[a] == 0 && r.back[a] == NPROC - 1)

/-- The part of `push` after the label `yono` that concerns the arrays. -/
def enqueue (r : Rings) (a : Level) (b : Slot) : Rings :=
  -- `back` is -1 in an empty ring, so that its first entry goes to place 0
  let back := (r.back[a] + 1) % NPROC
  { r with
    face := if r.face[a] = -1 then r.face.set a 0 else r.face
    back := r.back.set a back
    sz := r.sz.set a (r.sz[a] + 1) }.put a back (some b)

/-- `push(a, b)` on the arrays; `none` when it returns without inserting, because the search met
`b` or because the ring is full. -/
def push (r : Rings) (a : Level) (b : Slot) : Option Rings :=
  -- `goto yono`: an empty ring skips the search, even if `b` is in another ring
  if r.face[a] = -1 then some (r.enqueue a b)
  else if (List.finRange 5).any fun i => r.holds i b then none
  else if r.full a then none
  else some (r.enqueue a b)

/-- `pop(a)`: the pointer it returns and the arrays afterwards. -/
def pop (r : Rings) (a : Level) : Option Slot × Rings :=
  if r.face[a] = -1 then (none, r)
  else
    (r.get a r.face[a],
      if r.face[a] ≠ r.back[a] then
        { r with sz := r.sz.set a (r.sz[a] - 1), face := r.face.set a ((r.face[a] + 1) % NPROC) }
      else
        { r with
          sz := r.sz.set a (r.sz[a] - 1), face := r.face.set a (-1), back := r.back.set a (-1) })

/-- `face[i] = -1; back[i] = -1`, which empties ring `i`. -/
def clear (r : Rings) (i : Level) : Rings :=
  { r with face := r.face.set i (-1), back := r.back.set i (-1) }

/-- `face[i] += 1; face[i] %= NPROC`. -/
def advance (r : Rings) (i : Level) : Rings :=
  { r with face := r.face.set i ((r.face[i] + 1) % NPROC) }

/-- The loop of `remove` that moves `queue[i][lo - 1 .. m - 1]` up by one place. -/
def shift (r : Rings) (i : Level) (m lo : ℤ) : Rings :=
  (downTo m lo).foldl (fun r j => r.put i j (r.get i (j - 1))) r

/-- The loop of `remove` that moves `queue[i][0 .. m - 1]` up by one place and brings
`queue[i][NPROC - 1]` around to `queue[i][0]`. -/
def shiftAround (r : Rings) (i : Level) (m : ℤ) : Rings :=
  (downTo m 0).foldl
    (fun r j => if j = 0 then r.put i j (r.get i (NPROC - 1)) else r.put i j (r.get i (j - 1))) r

/-- `remove(i, p)`. -/
def remove (r : Rings) (i : Level) (p : Slot) : Rings :=
  let face := r.face[i]
  let back := r.back[i]
  -- a ring of one entry is emptied without a look at the entry; `sz` is not changed here or in
  -- any other branch
  if face = back then
    { r with face := r.face.set i (-1), back := r.back.set i (-1) }
  else if face ≤ back then
    match (upTo face back).find? fun j => r.get i j == some p with
    | none => r
    | some m => if m = face then r.advance i else (r.shift i m (face + 1)).advance i
  else
    match ((upTo face (NPROC - 1)).find? fun j => r.get i j == some p).or
        ((upTo 0 back).find? fun j => r.get i j == some p) with
    | none => r
    | some m =>
      if m = face then r.advance i
      else if m > face then (r.shift i m (face + 1)).advance i
      else ((r.shiftAround i m).shift i (NPROC - 1) (face + 1)).advance i

end Rings

end Xv6
