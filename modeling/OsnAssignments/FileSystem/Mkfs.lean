import OsnAssignments.FileSystem.Inode

/-!
# Building a disk image

The program `mkfs`: it writes an empty disk, gives out inodes and blocks in order, appends the
entries of the root directory and the contents of the files, and marks the blocks it has given out
in the bitmap at the end. It writes inodes and blocks with functions of its own, which share the
format with the kernel and nothing else.

An assertion or a read that fails is `none`. A read from an input file is full unless the file ends.
-/

namespace FileSystem

open Bytes

/-- `NINODES`. -/
def NINODES : ℕ := 200

/-- `ROOTINO`. -/
def ROOTINO : ℕ := 1

/-- `DIRSIZ`. -/
def DIRSIZ : ℕ := 14

namespace Mkfs

/-- `nbitmap`. -/
def nbitmap : ℕ := FSSIZE / (BSIZE * 8) + 1

/-- `ninodeblocks`. -/
def ninodeblocks : ℕ := NINODES / IPB + 1

/-- `nlog`. -/
def nlog : ℕ := LOGSIZE

/-- `nmeta`. -/
def nmeta : ℕ := 2 + nlog + ninodeblocks + nbitmap

/-- `sb`. -/
def sb : Superblock where
  size := FSSIZE
  nblocks := FSSIZE - nmeta
  ninodes := NINODES
  nlog := nlog
  logstart := 2
  inodestart := 2 + nlog
  bmapstart := 2 + nlog + ninodeblocks

/-- The sectors of the image, and the variables `freeinode` and `freeblock`. -/
structure State where
  sectors : ℕ → Block
  freeinode : ℕ
  freeblock : ℕ

namespace State

/-- `rsect`; there is nothing to read behind the last sector. -/
def rsect (m : State) (sec : ℕ) : Option Block :=
  if sec < FSSIZE then some (m.sectors sec) else none

/-- `wsect`. -/
def wsect (m : State) (sec : ℕ) (buf : Block) : State :=
  { m with sectors := Function.update m.sectors sec buf }

/-- `rinode`. -/
def rinode (m : State) (inum : ℕ) : Option Inode := do
  let buf ← m.rsect (IBLOCK inum sb)
  return Inode.decode buf (inum % IPB * 64)

/-- `winode`. -/
def winode (m : State) (inum : ℕ) (ip : Inode) : Option State := do
  let buf ← m.rsect (IBLOCK inum sb)
  return m.wsect (IBLOCK inum sb) (ip.encode buf (inum % IPB * 64))

/-- The inode that `ialloc` writes. -/
def newInode (type : ℕ) : Inode where
  type := type
  major := 0
  minor := 0
  nlink := 1
  size := 0
  addrs := fun _ => 0

/-- `ialloc`. -/
def ialloc (m : State) (type : ℕ) : Option (ℕ × State) := do
  let inum := m.freeinode
  let m ← { m with freeinode := m.freeinode + 1 }.winode inum (newInode type)
  return (inum, m)

/-- The bitmap that `balloc` writes. -/
def bitmap (used : ℕ) : Block :=
  (List.range used).foldl setBit fun _ => 0

/-- `balloc`. -/
def balloc (m : State) (used : ℕ) : Option State :=
  if used < BSIZE * 8 then some (m.wsect sb.bmapstart (bitmap used)) else none

/-- `freeblock++`. -/
def nextBlock (m : State) : State :=
  { m with freeblock := m.freeblock + 1 }

/-- In `iappend`: the block at index `i` of `din.addrs`, after giving one out if there is none. -/
def appendDirect (m : State) (din : Inode) (i : Fin (NDIRECT + 1)) : ℕ × Inode × State :=
  if din.addrs i = 0 then (m.freeblock, din.setAddr i m.freeblock, m.nextBlock)
  else (din.addrs i, din, m)

/-- In `iappend`: the block `x` that holds block `fbn` of the file. -/
def appendBlock (m : State) (din : Inode) (fbn : ℕ) : Option (ℕ × Inode × State) :=
  if h : fbn < NDIRECT then some (m.appendDirect din (Fin.castSucc ⟨fbn, h⟩))
  else do
    let (ind, din, m) := m.appendDirect din (Fin.last NDIRECT)
    let indirect ← m.rsect ind
    if getLE indirect (4 * (fbn - NDIRECT)) 4 = 0 then
      let x := m.freeblock
      return (x, din, m.nextBlock.wsect ind (putLE indirect (4 * (fbn - NDIRECT)) x 4))
    else
      return (getLE indirect (4 * (fbn - NDIRECT)) 4, din, m)

/-- The loop of `iappend`; each iteration appends a byte at least. -/
def appendLoop : ℕ → State → Inode → ℕ → List UInt8 → Option (ℕ × Inode × State)
  | 0, m, din, off, _ => some (off, din, m)
  | fuel + 1, m, din, off, p =>
    if p = [] then some (off, din, m)
    else if MAXFILE ≤ off / BSIZE then none
    else do
      let fbn := off / BSIZE
      let (x, din, m) ← m.appendBlock din fbn
      let n1 := min p.length ((fbn + 1) * BSIZE - off)
      let buf ← m.rsect x
      let m := m.wsect x (overlay buf (off - fbn * BSIZE) (p.take n1))
      appendLoop fuel m din (off + n1) (p.drop n1)

/-- `iappend`. -/
def iappend (m : State) (inum : ℕ) (p : List UInt8) : Option State := do
  let din ← m.rinode inum
  let (off, din, m) ← appendLoop p.length m din din.size p
  m.winode inum { din with size := off }

/-- The loop that reads a file into `buf` and appends it. -/
def appendFile : ℕ → State → ℕ → List UInt8 → Option State
  | 0, m, _, _ => some m
  | fuel + 1, m, inum, data =>
    if data = [] then some m
    else do
      let m ← m.iappend inum (data.take BSIZE)
      appendFile fuel m inum (data.drop BSIZE)

end State

/-- A `struct dirent`; `name` is cut off or filled up with zeros to `DIRSIZ` bytes. -/
def dirent (inum : ℕ) (name : List UInt8) : List UInt8 :=
  [UInt8.ofNat inum, UInt8.ofNat (inum / 256)] ++ name.take DIRSIZ ++
    List.replicate (DIRSIZ - name.length) 0

/-- A file on the command line: its name, which is a C string, and its content. -/
structure InputFile where
  name : List UInt8
  data : List UInt8

/-- The name under which a file is entered: without a leading underscore. -/
def InputFile.entryName (f : InputFile) : List UInt8 :=
  if f.name.head? = some 95 then f.name.tail else f.name

/-- One iteration of the loop over the command line. -/
def addFile (rootino : ℕ) (m : State) (f : InputFile) : Option State :=
  if 47 ∈ f.name then none
  else do
    let (inum, m) ← m.ialloc T_FILE
    let m ← m.iappend rootino (dirent inum f.entryName)
    m.appendFile f.data.length inum f.data

/-- The bytes of the superblock. -/
def sbBlock : Block :=
  [sb.size, sb.nblocks, sb.ninodes, sb.nlog, sb.logstart, sb.inodestart, sb.bmapstart].zipIdx.foldl
    (fun b (x : ℕ × ℕ) => putLE b (4 * x.2) x.1 4) fun _ => 0

/-- The image after the superblock is written. -/
def initial : State where
  sectors := Function.update (fun _ _ => 0) 1 sbBlock
  freeinode := 1
  freeblock := nmeta

/-- `main`, with the image that it writes. -/
def main (files : List InputFile) : Option State := do
  let (rootino, m) ← initial.ialloc T_DIR
  if rootino ≠ ROOTINO then none
  else
    let m ← m.iappend rootino (dirent rootino [46])
    let m ← m.iappend rootino (dirent rootino [46, 46])
    let m ← files.foldlM (addFile rootino) m
    let din ← m.rinode rootino
    let off := (din.size / BSIZE + 1) * BSIZE
    let m ← m.winode rootino { din with size := off }
    m.balloc m.freeblock

/-- The image as the kernel finds it. -/
def State.mount (m : State) : Fs where
  sb := sb
  blocks := m.sectors
  log := .off

end Mkfs

end FileSystem
