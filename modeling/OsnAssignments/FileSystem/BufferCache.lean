import OsnAssignments.Common.LinkedRing
import OsnAssignments.Common.Transition
import OsnAssignments.FileSystem.Mkfs

/-!
# The buffer cache

`bio.c`, with the disk queue of `ide.c` and the calls that `log.c` makes, for any number of threads
that use blocks of the root device.

A step of a thread is a piece of code that holds one of the spin locks, or that touches only a
buffer whose sleep lock the thread holds; between two pieces any other thread and the disk interrupt
may run. `Cache` has the buffers, the disk, and how far every thread is inside `bread`, `bwrite` or
`brelse`; `State` adds the log and `commit`.

The contents that a caller of `bwrite` or `log_write` has put into the buffer are an argument. The
disk does what it is told, without errors.
-/

namespace FileSystem.BufferCache

open LinkedRing Transition Function

/-- `NBUF`. -/
def NBUF : ℕ := MAXOPBLOCKS * 3

/-- `ROOTDEV`. -/
def ROOTDEV : ℕ := 1

/-- An element of the array `bcache.buf`. -/
abbrev Slot := Fin NBUF

variable {ι : Type} [DecidableEq ι]

/-- `struct buf`, without its links. -/
structure Buf (ι : Type) where
  dev : ℕ
  blockno : ℕ
  /-- `B_VALID`. -/
  valid : Bool
  /-- `B_DIRTY`. -/
  dirty : Bool
  /-- The thread that holds the sleep lock. -/
  lock : Option ι
  refcnt : ℕ
  data : Block

/-- How far a thread is inside a function of `bio.c`. -/
inductive Place
  | idle
  /-- In `bread(b)`, where `bget` calls `acquiresleep` for this buffer. -/
  | acquire (b : ℕ) (i : Slot)
  /-- In `bread(b)`, before the test of `B_VALID`. -/
  | test (b : ℕ) (i : Slot)
  /-- At the start of `iderw`, called from `bread(b)`, or from `bwrite`. -/
  | iderw (caller : Option ℕ) (i : Slot)
  /-- In the loop at the end of `iderw`. -/
  | wait (caller : Option ℕ) (i : Slot)
  /-- In `brelse`, behind `releasesleep`. -/
  | release (i : Slot)
  deriving DecidableEq

/-- What a step reports. -/
inductive Event
  | silent
  /-- `bget` has recycled the buffer. -/
  | recycled (i : Slot)
  /-- The contents for block `b` that are passed to `log_write`, if `logged`, or to `bwrite`. -/
  | passed (b : ℕ) (data : Block) (logged : Bool)
  /-- `bread(b)` returns a buffer with this data. -/
  | returned (b : ℕ) (data : Block)

/-- The calls of `bio.c`. -/
inductive Call
  | bread (b : ℕ)
  /-- `bwrite`, on a buffer that the caller has given the contents `data`. -/
  | bwrite (i : Slot) (data : Block)
  | brelse (i : Slot)

/-! ## Buffers and the disk -/

/-- The buffer cache, the disk, and the threads `ι`. -/
structure Cache (ι : Type) where
  buf : Slot → Buf ι
  /-- The pointers `prev` and `next` of the buffers and of `bcache.head`. -/
  links : Links Slot
  /-- The list `idequeue`. -/
  idequeue : List Slot
  havedisk1 : Bool
  /-- The blocks of the root device. -/
  disk : ℕ → Block
  place : ι → Place

namespace Cache

/-- Change one buffer. -/
def modify (i : Slot) (f : Buf ι → Buf ι) (c : Cache ι) : Cache ι :=
  { c with buf := update c.buf i (f (c.buf i)) }

/-- The thread goes to another place. -/
def goTo (p : ι) (place : Place) (c : Cache ι) : Cache ι :=
  { c with place := update c.place p place }

/-- The links that `binit` sets up. -/
def binit : Links Slot :=
  (List.finRange NBUF).foldl Links.pushFront Links.empty

/-- `bget(ROOTDEV, b)` up to the call of `acquiresleep`. -/
def bget (p : ι) (b : ℕ) (c : Cache ι) : Option (Cache ι × Event) :=
  let cached := fun i => (c.buf i).dev = ROOTDEV ∧ (c.buf i).blockno = b
  let unused := fun i => (c.buf i).refcnt = 0 ∧ (c.buf i).dirty = false
  match Links.walk c.links.next (fun i => cached i) (NBUF + 1) (c.links.next none) with
  | some i =>
    some ((c.modify i fun buf => { buf with refcnt := buf.refcnt + 1 }).goTo p (.acquire b i),
      .silent)
  | none =>
    match Links.walk c.links.prev (fun i => unused i) (NBUF + 1) (c.links.prev none) with
    | some i =>
      some ((c.modify i fun buf =>
        { buf with
          dev := ROOTDEV, blockno := b, valid := false, dirty := false, refcnt := 1 }).goTo p
            (.acquire b i), .recycled i)
    -- panic("bget: no buffers")
    | none => none

/-- `idestart(b)`; `none` is the panic "incorrect blockno". -/
def idestart (i : Slot) (c : Cache ι) : Option (Cache ι) :=
  if FSSIZE ≤ (c.buf i).blockno then none
  else if (c.buf i).dirty then
    some { c with disk := update c.disk (c.buf i).blockno (c.buf i).data }
  else some c

/-- `iderw(b)` up to its loop; `none` is a panic. -/
def iderw (p : ι) (caller : Option ℕ) (i : Slot) (c : Cache ι) : Option (Cache ι) := do
  guard ((c.buf i).lock = some p)
  guard ¬ ((c.buf i).valid ∧ (c.buf i).dirty = false)
  guard ((c.buf i).dev = 0 ∨ c.havedisk1)
  let c' := { c with idequeue := c.idequeue ++ [i] }.goTo p (.wait caller i)
  if c.idequeue = [] then c'.idestart i else some c'

/-- `ideintr`. -/
def ideintr (c : Cache ι) : Option (Cache ι) :=
  match c.idequeue with
  | [] => some c
  | i :: rest =>
    let c' := { c with idequeue := rest }.modify i fun buf =>
      { buf with
        data := if buf.dirty then buf.data else c.disk buf.blockno
        valid := true
        dirty := false }
    match rest with
    | [] => some c'
    | j :: _ => c'.idestart j

/-- The start of a call. -/
def begin (p : ι) (call : Call) (c : Cache ι) : Option (Cache ι × Event) :=
  match call with
  | .bread b => c.bget p b
  | .bwrite i data => do
    guard ((c.buf i).lock = some p)
    return ((c.modify i fun buf => { buf with data := data, dirty := true }).goTo p (.iderw none i),
      .passed (c.buf i).blockno data false)
  | .brelse i => do
    guard ((c.buf i).lock = some p)
    return ((c.modify i fun buf => { buf with lock := none }).goTo p (.release i), .silent)

/-- `log_write` on a buffer that the caller holds and has given the contents `data`; what it does to
the log is left to `State`. -/
def logWrite (p : ι) (i : Slot) (data : Block) (c : Cache ι) : Option (Cache ι × Event) := do
  guard ((c.buf i).lock = some p)
  return (c.modify i fun buf => { buf with data := data, dirty := true },
    .passed (c.buf i).blockno data true)

/-- The end of `brelse`. -/
def brelse (p : ι) (i : Slot) (c : Cache ι) : Cache ι :=
  let c := c.modify i fun buf => { buf with refcnt := buf.refcnt - 1 }
  -- no one is waiting for it
  let c := if (c.buf i).refcnt = 0 then { c with links := (c.links.unlink i).pushFront i } else c
  c.goTo p .idle

/-- Continue the call that the thread is in; `none` if it has to wait, or panics. -/
def resume (p : ι) (c : Cache ι) : Option (Cache ι × Event) :=
  match c.place p with
  | .idle => none
  | .acquire b i => do
    guard ((c.buf i).lock = none)
    return ((c.modify i fun buf => { buf with lock := some p }).goTo p (.test b i), .silent)
  | .test b i =>
    if (c.buf i).valid then some (c.goTo p .idle, .returned b (c.buf i).data)
    else some (c.goTo p (.iderw (some b) i), .silent)
  | .iderw caller i => do
    let c ← c.iderw p caller i
    return (c, .silent)
  | .wait caller i => do
    guard ((c.buf i).valid ∧ (c.buf i).dirty = false)
    return (c.goTo p .idle,
      match caller with
      | some b => .returned b (c.buf i).data
      | none => .silent)
  | .release i => some (c.brelse p i, .silent)

end Cache

/-- The buffer that the call is about. -/
def Place.slot : Place → Option Slot
  | .idle => none
  | .acquire _ i | .test _ i | .iderw _ i | .wait _ i | .release i => some i

/-! ## commit -/

/-- The two loops of `commit`: `write_log` and `install_trans`. -/
inductive Phase
  | writeLog
  | installTrans
  deriving DecidableEq

/-- How far a thread is inside `commit`: at the start of, or inside, the next call that it makes. In
a loop, `x` is the buffer of the log block and `y` that of the block itself. -/
inductive Point
  /-- At the test of the loop, and at the `bread` of the log block. -/
  | loop (phase : Phase) (tail : ℕ)
  /-- At the `bread` of the block `log.lh.block[tail]`. -/
  | home (phase : Phase) (tail : ℕ) (x : Slot)
  /-- At the `memmove` and the `bwrite`. -/
  | copy (phase : Phase) (tail : ℕ) (x y : Slot)
  /-- At the `brelse` of the buffer that was copied from. -/
  | source (phase : Phase) (tail : ℕ) (x y : Slot)
  /-- At the `brelse` of the buffer that was copied to. -/
  | target (phase : Phase) (tail : ℕ) (x y : Slot)
  /-- In `write_head`, at the `bread`; `last` tells the second call from the first. -/
  | head (last : Bool)
  /-- In `write_head`, at the `bwrite`. -/
  | encode (last : Bool) (x : Slot)
  /-- In `write_head`, at the `brelse`. -/
  | headDone (last : Bool) (x : Slot)
  deriving DecidableEq

/-- Where `commit` is when the call at this point returns, with buffer `i` if it is a `bread`;
`none` at the end of `commit`. -/
def Point.return (i : Slot) : Point → Option Point
  | .loop phase tail => some (.home phase tail i)
  | .home phase tail x => some (.copy phase tail x i)
  | .copy phase tail x y => some (.source phase tail x y)
  | .source phase tail x y => some (.target phase tail x y)
  | .target phase tail _ _ => some (.loop phase (tail + 1))
  | .head last => some (.encode last i)
  | .encode last x => some (.headDone last x)
  | .headDone false _ => some (.loop .installTrans 0)
  | .headDone true _ => none

/-- The cache, the log, and the threads inside `commit`. -/
structure State (ι : Type) where
  cache : Cache ι
  /-- `log.start`. -/
  start : ℕ
  /-- `log.size`. -/
  size : ℕ
  /-- `log.lh`. -/
  lh : LogHeader
  commit : ι → Option Point

namespace State

/-- The call that `commit` makes at this point; `none` where a loop ends. -/
def call (σ : State ι) : Point → Option Call
  | .loop _ tail => if tail < σ.lh.n then some (.bread (σ.start + tail + 1)) else none
  | .home _ tail _ => some (.bread (σ.lh.block tail))
  | .copy .writeLog _ x y => some (.bwrite x (σ.cache.buf y).data)
  | .copy .installTrans _ x y => some (.bwrite y (σ.cache.buf x).data)
  | .source .writeLog _ _ y => some (.brelse y)
  | .source .installTrans _ x _ => some (.brelse x)
  | .target .writeLog _ x _ => some (.brelse x)
  | .target .installTrans _ _ y => some (.brelse y)
  | .head _ => some (.bread σ.start)
  | .encode _ x => some (.bwrite x (σ.lh.encode (σ.cache.buf x).data))
  | .headDone _ x => some (.brelse x)

/-- The end of a loop of `commit`. -/
def endLoop (p : ι) (σ : State ι) : Phase → State ι
  | .writeLog => { σ with commit := update σ.commit p (some (.head false)) }
  | .installTrans =>
    { σ with
      lh := { σ.lh with n := 0 }
      commit := update σ.commit p (some (.head true)) }

/-- Start a call of `bio.c`. -/
def begin (p : ι) (call : Call) (σ : State ι) : Option (State ι × Event) := do
  guard (σ.cache.place p = .idle)
  let (cache, e) ← σ.cache.begin p call
  return ({ σ with cache := cache }, e)

/-- `log_write`; `none` is the panic "too big a transaction". -/
def logWrite (p : ι) (i : Slot) (data : Block) (σ : State ι) : Option (State ι × Event) := do
  guard (σ.cache.place p = .idle)
  guard ¬ (LOGSIZE ≤ σ.lh.n ∨ σ.size ≤ σ.lh.n + 1)
  let (cache, e) ← σ.cache.logWrite p i data
  return ({ σ with cache := cache, lh := σ.lh.absorb (σ.cache.buf i).blockno }, e)

/-- The next piece of `commit` that does not belong to a call. -/
def continueCommit (p : ι) (σ : State ι) : Option (State ι × Event) :=
  match σ.commit p with
  | none => none
  | some point =>
    match σ.call point, point with
    | some call, _ => σ.begin p call
    | none, .loop phase _ =>
      if σ.cache.place p = .idle then some (σ.endLoop p phase, .silent) else none
    | none, _ => none

/-- Continue the call that the thread is in. -/
def resume (p : ι) (σ : State ι) : Option (State ι × Event) := do
  let i ← (σ.cache.place p).slot
  let (cache, e) ← σ.cache.resume p
  -- the call returns to `commit`, if that is where it was made
  let commit :=
    if cache.place p = .idle then update σ.commit p ((σ.commit p).bind (Point.return i))
    else σ.commit
  return ({ σ with cache := cache, commit := commit }, e)

end State

/-- What can happen to the cache. -/
inductive Action (ι : Type)
  | call (p : ι) (call : Call)
  | logWrite (p : ι) (i : Slot) (data : Block)
  /-- The thread calls `commit`. -/
  | commit (p : ι)
  /-- The thread goes on in `commit`. -/
  | continueCommit (p : ι)
  /-- The thread goes on inside a call. -/
  | resume (p : ι)
  /-- The disk interrupt. -/
  | ideintr

namespace State

/-- Perform one step. -/
def step (σ : State ι) : Action ι → Option (State ι × Event)
  | .call p call => if σ.commit p = none then σ.begin p call else none
  | .logWrite p i data => if σ.commit p = none then σ.logWrite p i data else none
  | .commit p =>
    if σ.commit p = none ∧ σ.cache.place p = .idle then
      some ({ σ with
        commit := update σ.commit p
          (if 0 < σ.lh.n then some (.loop .writeLog 0) else none) }, .silent)
    else none
  | .continueCommit p => σ.continueCommit p
  | .resume p => σ.resume p
  | .ideintr => do
    let cache ← σ.cache.ideintr
    return ({ σ with cache := cache }, .silent)

/-- The state after `binit`, with this disk. The buffers are zero, so that none of them belongs to
the root device. -/
def Initial (disk : ℕ → Block) (σ : State ι) : Prop :=
  (∀ i, (σ.cache.buf i).dev = 0 ∧ (σ.cache.buf i).dirty = false ∧ (σ.cache.buf i).lock = none ∧
    (σ.cache.buf i).refcnt = 0) ∧
  σ.cache.links = Cache.binit ∧ σ.cache.idequeue = [] ∧ σ.cache.disk = disk ∧
  (∀ p, σ.cache.place p = .idle) ∧ ∀ p, σ.commit p = none

end State

/-- The buffer cache used by the threads `ι`, on this disk. -/
def system (ι : Type) [DecidableEq ι] (disk : ℕ → Block) : System (State ι) (Action ι × Event) :=
  ofFun (State.Initial disk) State.step

end FileSystem.BufferCache
