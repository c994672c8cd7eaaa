import Mathlib.Data.Finset.Card
import OsnAssignments.FileSystem.Log

/-!
# Inodes and their contents

The functions of `fs.c` that read and write the content of a file: `balloc`, `bmap`, which gives
the block that holds part of a file and allocates it on demand, `readi` and `writei`.

The disk is an array of blocks, seen through the buffer cache. The bitmap and the inodes lie in
blocks of it, at the places that the superblock names, and the numbers in them are stored with the
lowest byte first. A panic is `none`; one of `log_write`, or of the driver for a block that is
written, is the state `Log.panicked`, for which `writei` returns `none`.
-/

namespace FileSystem

open Bytes Function

/-- `FSSIZE`. -/
def FSSIZE : ℕ := 1000

/-- `NDIRECT`. -/
def NDIRECT : ℕ := 12

/-- `NINDIRECT`. -/
def NINDIRECT : ℕ := 128

/-- `MAXFILE`. -/
def MAXFILE : ℕ := NDIRECT + NINDIRECT

/-- `IPB`. -/
def IPB : ℕ := 8

/-- `BPB`. -/
def BPB : ℕ := BSIZE * 8

/-- `T_DIR`. -/
def T_DIR : ℕ := 1

/-- `T_FILE`. -/
def T_FILE : ℕ := 2

/-- `T_DEV`. -/
def T_DEV : ℕ := 3

/-- `struct superblock`. -/
structure Superblock where
  size : ℕ
  nblocks : ℕ
  ninodes : ℕ
  nlog : ℕ
  logstart : ℕ
  inodestart : ℕ
  bmapstart : ℕ

/-- `IBLOCK(i, sb)`. -/
def IBLOCK (i : ℕ) (sb : Superblock) : ℕ :=
  i / IPB + sb.inodestart

/-- `BBLOCK(b, sb)`. -/
def BBLOCK (b : ℕ) (sb : Superblock) : ℕ :=
  b / BPB + sb.bmapstart

/-- `struct dinode`, and its copy in a `struct inode`. -/
@[ext]
structure Inode where
  type : ℕ
  major : ℕ
  minor : ℕ
  nlink : ℕ
  size : ℕ
  addrs : Fin (NDIRECT + 1) → ℕ

namespace Inode

/-- The `struct dinode` at address `o` of a block. -/
def decode (b : Block) (o : ℕ) : Inode where
  type := getLE b o 2
  major := getLE b (o + 2) 2
  minor := getLE b (o + 4) 2
  nlink := getLE b (o + 6) 2
  size := getLE b (o + 8) 4
  addrs i := getLE b (o + 12 + 4 * i) 4

/-- Store a `struct dinode` at address `o` of a block. -/
def encode (ip : Inode) (b : Block) (o : ℕ) : Block :=
  let b := putLE b o ip.type 2
  let b := putLE b (o + 2) ip.major 2
  let b := putLE b (o + 4) ip.minor 2
  let b := putLE b (o + 6) ip.nlink 2
  let b := putLE b (o + 8) ip.size 4
  (List.finRange (NDIRECT + 1)).foldl
    (fun b (i : Fin (NDIRECT + 1)) => putLE b (o + 12 + 4 * i) (ip.addrs i) 4) b

/-- The assignment `ip->addrs[i] = addr`. -/
def setAddr (ip : Inode) (i : Fin (NDIRECT + 1)) (addr : ℕ) : Inode :=
  { ip with addrs := update ip.addrs i addr }

end Inode

/-- The log during a transaction. -/
inductive Log
  /-- No log: for an image that `mkfs` builds. -/
  | off
  /-- The blocks in `log.lh`, which are `log.lh.n` different ones. -/
  | lh (blocks : Finset ℕ)
  | panicked
  deriving DecidableEq

/-- `log_write` for block `b`. The driver would have panicked if the disk had no such block. -/
def Log.write (sb : Superblock) (log : Log) (b : ℕ) : Log :=
  match log with
  | .off => .off
  | .panicked => .panicked
  | .lh blocks =>
    -- the tests come before the search for the block
    if FSSIZE ≤ b ∨ LOGSIZE ≤ blocks.card ∨ sb.nlog - 1 ≤ blocks.card then .panicked
    else .lh (insert b blocks)

/-- The superblock in memory, the blocks of the disk and the log. -/
@[ext]
structure Fs where
  sb : Superblock
  blocks : ℕ → Block
  log : Log

namespace Fs

/-- Give block `b` new data, and pass it to `log_write`. -/
def setBlock (σ : Fs) (b : ℕ) (data : Block) : Fs :=
  { σ with blocks := update σ.blocks b data, log := σ.log.write σ.sb b }

/-- `bread`; the driver panics if the disk has no such block. -/
def bread (σ : Fs) (b : ℕ) : Option Block :=
  if b < FSSIZE then some (σ.blocks b) else none

theorem bread_eq {σ : Fs} {b : ℕ} (h : b < FSSIZE) : σ.bread b = some (σ.blocks b) :=
  if_pos h

@[simp]
theorem setBlock_sb (σ : Fs) (b : ℕ) (data : Block) : (σ.setBlock b data).sb = σ.sb := rfl

@[simp]
theorem setBlock_self (σ : Fs) (b : ℕ) (data : Block) : (σ.setBlock b data).blocks b = data :=
  update_self ..

theorem setBlock_of_ne {σ : Fs} {b y : ℕ} (h : y ≠ b) (data : Block) :
    (σ.setBlock b data).blocks y = σ.blocks y :=
  update_of_ne h ..

/-- The inode number `i` on the disk, as `ilock` reads it. -/
def dinode (σ : Fs) (i : ℕ) : Inode :=
  Inode.decode (σ.blocks (IBLOCK i σ.sb)) (i % IPB * 64)

/-- `iupdate` for the inode number `i`. -/
def iupdate (σ : Fs) (i : ℕ) (ip : Inode) : Fs :=
  σ.setBlock (IBLOCK i σ.sb) (ip.encode (σ.blocks (IBLOCK i σ.sb)) (i % IPB * 64))

/-- Whether block `b` is marked in the bitmap. -/
def used (σ : Fs) (b : ℕ) : Bool :=
  getBit (σ.blocks (BBLOCK b σ.sb)) (b % BPB)

/-- `bzero`. -/
def bzero (σ : Fs) (b : ℕ) : Fs :=
  σ.setBlock b fun _ => 0

/-- `balloc`; its two loops visit the block numbers in order. -/
def balloc (σ : Fs) : Option (ℕ × Fs) :=
  match (List.range σ.sb.size).find? fun b => !σ.used b with
  | none => none
  | some b =>
    let bb := BBLOCK b σ.sb
    some (b, (σ.setBlock bb (setBit (σ.blocks bb) (b % BPB))).bzero b)

/-- `bmap` for an index of a direct block. -/
def bmapDirect (σ : Fs) (ip : Inode) (i : Fin (NDIRECT + 1)) : Option (ℕ × Inode × Fs) :=
  if ip.addrs i = 0 then do
    let (addr, σ) ← σ.balloc
    return (addr, ip.setAddr i addr, σ)
  else
    return (ip.addrs i, ip, σ)

/-- The rest of `bmap` for an index of an indirect block: entry `bn` of the block `ind`. -/
def bmapEntry (σ : Fs) (ind bn : ℕ) : Option (ℕ × Fs) := do
  let a ← σ.bread ind
  if getLE a (4 * bn) 4 = 0 then
    let (addr, σ) ← σ.balloc
    return (addr, σ.setBlock ind (putLE (σ.blocks ind) (4 * bn) addr 4))
  else
    return (getLE a (4 * bn) 4, σ)

/-- `bmap(ip, bn)`, with the inode and the disk after it. -/
def bmap (σ : Fs) (ip : Inode) (bn : ℕ) : Option (ℕ × Inode × Fs) :=
  if h : bn < NDIRECT then
    σ.bmapDirect ip (Fin.castSucc ⟨bn, h⟩)
  else if bn - NDIRECT < NINDIRECT then do
    -- the block of the indirect addresses is allocated like a direct block
    let (ind, ip, σ) ← σ.bmapDirect ip (Fin.last NDIRECT)
    let (addr, σ) ← σ.bmapEntry ind (bn - NDIRECT)
    return (addr, ip, σ)
  else
    none

end Fs

/-- What `readi` and `writei` return. -/
inductive IoResult (α : Type)
  /-- The result of the driver's function; the inode is a device. -/
  | device
  /-- `-1`. -/
  | error
  | ok (a : α)
  deriving DecidableEq

namespace Fs

/-- The loop of `readi`; each iteration transfers a byte at least, so `fuel = n` is enough. -/
def readLoop : ℕ → Fs → Inode → ℕ → ℕ → Option (List UInt8 × Inode × Fs)
  | 0, σ, ip, _, _ => some ([], ip, σ)
  | fuel + 1, σ, ip, off, n =>
    if n = 0 then some ([], ip, σ)
    else do
      let (b, ip, σ) ← σ.bmap ip (off / BSIZE)
      let bp ← σ.bread b
      let m := min n (BSIZE - off % BSIZE)
      let data := (List.range m).map fun k => bp (off % BSIZE + k)
      let (rest, ip, σ) ← readLoop fuel σ ip (off + m) (n - m)
      return (data ++ rest, ip, σ)

/-- `readi(ip, dst, off, n)`, with what it copies to `dst`. -/
def readi (σ : Fs) (ip : Inode) (off n : ℕ) : Option (IoResult (List UInt8) × Inode × Fs) :=
  if ip.type = T_DEV then some (.device, ip, σ)
  else if ip.size < off ∨ (off + n) % 2 ^ 32 < off then some (.error, ip, σ)
  else do
    let n := if ip.size < (off + n) % 2 ^ 32 then ip.size - off else n
    let (data, ip, σ) ← readLoop n σ ip off n
    return (.ok data, ip, σ)

/-- The loop of `writei`, with `off` after it. -/
def writeLoop : ℕ → Fs → Inode → ℕ → List UInt8 → Option (ℕ × Inode × Fs)
  | 0, σ, ip, off, _ => some (off, ip, σ)
  | fuel + 1, σ, ip, off, src =>
    if src = [] then some (off, ip, σ)
    else do
      let (b, ip, σ) ← σ.bmap ip (off / BSIZE)
      let m := min src.length (BSIZE - off % BSIZE)
      let σ := σ.setBlock b (overlay (σ.blocks b) (off % BSIZE) (src.take m))
      writeLoop fuel σ ip (off + m) (src.drop m)

/-- No call of `log_write` has panicked. -/
def checked (σ : Fs) : Option Fs :=
  if σ.log = .panicked then none else some σ

/-- `writei(ip, src, off, n)` for the inode number `i` and the `n` bytes `src`. -/
def writei (σ : Fs) (i : ℕ) (ip : Inode) (off : ℕ) (src : List UInt8) :
    Option (IoResult ℕ × Inode × Fs) :=
  if ip.type = T_DEV then some (.device, ip, σ)
  else if ip.size < off ∨ (off + src.length) % 2 ^ 32 < off then some (.error, ip, σ)
  else if MAXFILE * BSIZE < (off + src.length) % 2 ^ 32 then some (.error, ip, σ)
  else do
    let (off, ip, σ) ← writeLoop src.length σ ip off src
    if 0 < src.length ∧ ip.size < off then
      let ip := { ip with size := off }
      let σ ← (σ.iupdate i ip).checked
      return (.ok src.length, ip, σ)
    else
      let σ ← σ.checked
      return (.ok src.length, ip, σ)

end Fs

end FileSystem
