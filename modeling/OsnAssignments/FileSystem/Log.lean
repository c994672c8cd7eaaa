import OsnAssignments.Common.Bytes
import OsnAssignments.Common.Writes

/-!
# The log of the file system

`log.c`: a transaction collects the numbers of the blocks that its operations modify, and `commit`
copies these blocks to the log, writes the header of the log, copies them from the log to their
places and clears the header. `recover_from_log` runs at boot.

The buffer cache is modelled by the buffers that differ from the disk, those with `B_DIRTY`; any
other buffer holds what the disk holds. `bwrite` writes one block to the disk; the state lists all
blocks written since boot, in the order of the writes, so that a crash leaves the disk after some of
the first ones.
-/

namespace FileSystem

open Bytes Function

/-- `BSIZE`. -/
def BSIZE : ℕ := 512

/-- `MAXOPBLOCKS`. -/
def MAXOPBLOCKS : ℕ := 10

/-- `LOGSIZE`. -/
def LOGSIZE : ℕ := MAXOPBLOCKS * 3

/-- The data of a block: the bytes from `0` to `BSIZE - 1`. -/
abbrev Block := Mem

/-- A block number with data for that block. -/
abbrev BlockWrite := ℕ × Block

/-- `struct logheader`. -/
@[ext]
structure LogHeader where
  n : ℕ
  block : ℕ → ℕ

namespace LogHeader

/-- The blocks that the header names. -/
def blocks (lh : LogHeader) : List ℕ :=
  (List.range lh.n).map lh.block

/-- The part of `log_write` that holds `log.lock`: record block `b`, unless it is recorded. -/
def absorb (lh : LogHeader) (b : ℕ) : LogHeader :=
  let i := ((List.range lh.n).find? fun i => lh.block i = b).getD lh.n
  { n := if i = lh.n then lh.n + 1 else lh.n, block := update lh.block i b }

/-- The header as `write_head` puts it into the block `hb`: the entries from `n` on stay. -/
def encode (lh : LogHeader) (hb : Block) : Block :=
  (List.range lh.n).foldl (fun hb i => putLE hb (4 + 4 * i) (lh.block i) 4) (putLE hb 0 lh.n 4)

/-- The header that the block `hb` holds, read into `lh` by `read_head`. -/
def decode (lh : LogHeader) (hb : Block) : LogHeader :=
  let n := getLE hb 0 4
  { n, block := fun i => if i < n then getLE hb (4 + 4 * i) 4 else lh.block i }

variable {lh : LogHeader} {b : ℕ}

theorem mem_blocks : b ∈ lh.blocks ↔ ∃ i < lh.n, lh.block i = b := by
  simp [blocks]

/-- Recording a block that is recorded changes nothing. -/
theorem absorb_of_mem (h : b ∈ lh.blocks) : lh.absorb b = lh := by
  obtain ⟨i, hfind⟩ : ∃ i, (List.range lh.n).find? (fun i => lh.block i = b) = some i := by
    rw [← Option.isSome_iff_exists, List.find?_isSome]
    obtain ⟨i, hi, hb⟩ := mem_blocks.mp h
    exact ⟨i, List.mem_range.mpr hi, by simpa using hb⟩
  have hlt : i < lh.n := List.mem_range.mp (List.mem_of_find?_eq_some hfind)
  have hb : lh.block i = b := by simpa using List.find?_some hfind
  unfold absorb
  simp only [hfind, Option.getD_some, if_neg (Nat.ne_of_lt hlt)]
  rw [← hb, update_eq_self]

/-- Any other block is recorded behind the last one. -/
theorem absorb_of_notMem (h : b ∉ lh.blocks) :
    lh.absorb b = { n := lh.n + 1, block := update lh.block lh.n b } := by
  have hfind : (List.range lh.n).find? (fun i => lh.block i = b) = none := by
    rw [List.find?_eq_none]
    intro i hi
    have hlt := List.mem_range.mp hi
    simpa using fun hb => h (mem_blocks.mpr ⟨i, hlt, hb⟩)
  unfold absorb
  simp only [hfind, Option.getD_none, if_true]

theorem blocks_absorb (lh : LogHeader) (b : ℕ) :
    (lh.absorb b).blocks = if b ∈ lh.blocks then lh.blocks else lh.blocks ++ [b] := by
  by_cases h : b ∈ lh.blocks
  · rw [absorb_of_mem h, if_pos h]
  · rw [absorb_of_notMem h, if_neg h, blocks, blocks, List.range_succ, List.map_append,
      List.map_singleton]
    dsimp only
    rw [update_self]
    congr 1
    refine List.map_congr_left fun i hi => ?_
    exact update_of_ne (Nat.ne_of_lt (List.mem_range.mp hi)) _ _

theorem mem_absorb {lh : LogHeader} {b b' : ℕ} :
    b' ∈ (lh.absorb b).blocks ↔ b' ∈ lh.blocks ∨ b' = b := by
  rw [blocks_absorb]
  split_ifs with hb
  · exact (or_iff_left_of_imp fun heq => heq ▸ hb).symm
  · simp

theorem length_blocks (lh : LogHeader) : lh.blocks.length = lh.n := by
  simp [blocks]

end LogHeader

/-- The disk, the buffers and `struct log`. -/
structure Logged where
  /-- `log.start`. -/
  start : ℕ
  /-- `log.size`. -/
  size : ℕ
  disk : ℕ → Block
  /-- The data of the buffers with `B_DIRTY`. -/
  dirty : ℕ → Option Block
  /-- `log.lh`. -/
  lh : LogHeader
  /-- The blocks written to the disk since boot. -/
  issued : List BlockWrite

namespace Logged

/-- The data of the buffer that `bread` returns. -/
def bread (σ : Logged) (b : ℕ) : Block :=
  (σ.dirty b).getD (σ.disk b)

/-- `bwrite` on the buffer of block `b` with this data. -/
def bwrite (σ : Logged) (b : ℕ) (data : Block) : Logged :=
  { σ with
    disk := update σ.disk b data
    dirty := update σ.dirty b none
    issued := σ.issued ++ [(b, data)] }

/-- `install_trans`. -/
def installTrans (σ : Logged) : Logged :=
  (List.range σ.lh.n).foldl
    (fun σ tail => σ.bwrite (σ.lh.block tail) (σ.bread (σ.start + tail + 1))) σ

/-- `read_head`. -/
def readHead (σ : Logged) : Logged :=
  { σ with lh := σ.lh.decode (σ.bread σ.start) }

/-- `write_head`. -/
def writeHead (σ : Logged) : Logged :=
  σ.bwrite σ.start (σ.lh.encode (σ.bread σ.start))

/-- The assignment `log.lh.n = 0`. -/
def clear (σ : Logged) : Logged :=
  { σ with lh := { σ.lh with n := 0 } }

section

variable (σ : Logged)

@[simp] theorem clear_start : σ.clear.start = σ.start := rfl

@[simp] theorem clear_size : σ.clear.size = σ.size := rfl

@[simp] theorem clear_disk : σ.clear.disk = σ.disk := rfl

@[simp] theorem clear_dirty : σ.clear.dirty = σ.dirty := rfl

@[simp] theorem clear_issued : σ.clear.issued = σ.issued := rfl

end

/-- `recover_from_log`. -/
def recoverFromLog (σ : Logged) : Logged :=
  σ.readHead.installTrans.clear.writeHead

/-- `write_log`. -/
def writeLog (σ : Logged) : Logged :=
  (List.range σ.lh.n).foldl
    (fun σ tail => σ.bwrite (σ.start + tail + 1) (σ.bread (σ.lh.block tail))) σ

/-- `commit`. -/
def commit (σ : Logged) : Logged :=
  if 0 < σ.lh.n then
    σ.writeLog.writeHead.installTrans.clear.writeHead
  else σ

/-- `log_write` on the buffer of a block that the caller has given new data; `none` is the panic
"too big a transaction". The other panic is not possible inside a transaction. -/
def logWrite (σ : Logged) (w : BlockWrite) : Option Logged :=
  if LOGSIZE ≤ σ.lh.n ∨ σ.size ≤ σ.lh.n + 1 then none
  else some { σ with lh := σ.lh.absorb w.1, dirty := update σ.dirty w.1 (some w.2) }

/-- The operations of one transaction, given by their calls of `log_write`, and its commit. -/
def transaction (σ : Logged) (tx : List BlockWrite) : Option Logged :=
  (tx.foldlM logWrite σ).map commit

/-- The state at boot. -/
def boot (start size : ℕ) (disk : ℕ → Block) : Logged where
  start
  size
  disk
  dirty _ := none
  lh := { n := 0, block := fun _ => 0 }
  issued := []

/-- Boot with this disk, recover and perform transactions. -/
def session (start size : ℕ) (disk : ℕ → Block) (txs : List (List BlockWrite)) : Option Logged :=
  txs.foldlM transaction (boot start size disk).recoverFromLog

end Logged

/-- How many of these writes put a header into the log that is not empty. -/
def commits (start : ℕ) (ws : List BlockWrite) : ℕ :=
  ws.countP fun w => w.1 = start ∧ getLE w.2 0 4 ≠ 0

/-- Block `b` is not part of the log. -/
def IsHome (start size b : ℕ) : Prop :=
  b < start ∨ start + size ≤ b

/-- The disk `d` is left by machines that were booted with `d₀` and, after each crash, with the disk
that it had left; `committed` lists the transactions whose header was written. -/
inductive CrashHistory (start size : ℕ) (d₀ : ℕ → Block) :
    (ℕ → Block) → List (List BlockWrite) → Prop
  | new : CrashHistory start size d₀ d₀ []
  | crash {d : ℕ → Block} {committed txs : List (List BlockWrite)} {σ : Logged} (m : ℕ) :
      CrashHistory start size d₀ d committed →
      (∀ tx ∈ txs, ∀ w ∈ tx, IsHome start size w.1 ∧ w.1 < 2 ^ 32) →
      Logged.session start size d txs = some σ →
      CrashHistory start size d₀ (Writes.apply d (σ.issued.take m))
        -- a transaction without a block is not written at all
        (committed ++ (txs.filter (· ≠ [])).take (commits start (σ.issued.take m)))

end FileSystem
