import Mathlib
import OsnAssignments.Common.Transition
import OsnAssignments.FileSystem.Mkfs

/-!
# Names and links

The functions of `fs.c` on inodes and directories, and the system calls of `sysfile.c` that create
and remove names: `create`, `sys_open`, `sys_mkdir`, `sys_mknod`, `sys_link`, `sys_unlink`,
`sys_chdir`, `sys_close`, and `fork` and `exit` as far as they touch files.

A directory is its list of entries, which `readi` and `writei` transfer one by one; the content of a
file is left out. The copy of an inode in memory agrees with the disk, since every change of one is
followed by `iupdate`, so that an inode is kept once, with its reference count and whether the copy
has been read. One system call runs at a time. A panic is `none`, and so is a system call that waits
for a lock which its own process holds. Blocks do not run out.
-/

namespace FileSystem

open Function

/-- `NPROC`. -/
def NPROC : ℕ := 64

/-- `NOFILE`. -/
def NOFILE : ℕ := 16

/-- `NFILE`. -/
def NFILE : ℕ := 100

/-- `NINODE`. -/
def NINODE : ℕ := 50

/-- The number of entries that fit into a directory. -/
def MAXENTRIES : ℕ := MAXFILE * BSIZE / 16

namespace Names

/-- The number of an inode; there is no inode 0. -/
abbrev Inum := Fin NINODES

instance : NeZero NINODES := ⟨by decide⟩

instance : NeZero NPROC := ⟨by decide⟩

instance : NeZero NOFILE := ⟨by decide⟩

/-- The number of the root directory. -/
def root : Inum := ⟨ROOTINO, by decide⟩

/-- The bytes of a name, at most `DIRSIZ`. -/
abbrev Name := List UInt8

/-- The name `.`. -/
def dot : Name := [46]

/-- The name `..`. -/
def dotdot : Name := [46, 46]

/-- `T_DIR`, `T_FILE` and `T_DEV`. -/
inductive FileType
  | dir
  | file
  | dev
  deriving DecidableEq, Repr

/-- `struct dirent`; it is free if `inum` is 0. -/
structure Dirent where
  inum : Inum
  name : Name
  deriving DecidableEq

/-- `struct dinode`; an inode without a type is free. -/
@[ext]
structure Node where
  type : Option FileType
  nlink : ℕ
  entries : List Dirent
  deriving DecidableEq

/-- `struct file`; without an inode if its type is `FD_NONE`. -/
structure File where
  ref : ℕ
  ip : Option Inum

/-- The fields of `struct proc` that concern files. -/
structure Proc where
  cwd : Inum
  ofile : Fin NOFILE → Option (Fin NFILE)

/-- The inodes, `icache`, `ftable` and the processes. -/
structure State where
  nodes : Inum → Node
  /-- `ref` of the entry of `icache` for an inode; `0` if it has none. -/
  ref : Inum → ℕ
  /-- `valid` of the entry of `icache` for an inode. -/
  valid : Inum → Bool
  ftable : Fin NFILE → File
  procs : Fin NPROC → Option Proc

namespace State

/-! ## Inodes -/

/-- Store an inode. -/
def setNode (σ : State) (i : Inum) (x : Node) : State :=
  { σ with nodes := update σ.nodes i x }

/-- `iget`. -/
def iget (σ : State) (i : Inum) : Option State :=
  if 0 < σ.ref i then some { σ with ref := update σ.ref i (σ.ref i + 1) }
  else if (List.finRange NINODES).countP (fun j => 0 < σ.ref j) < NINODE then
    some { σ with ref := update σ.ref i 1, valid := update σ.valid i false }
  else none

/-- `idup`. -/
def idup (σ : State) (i : Inum) : State :=
  { σ with ref := update σ.ref i (σ.ref i + 1) }

/-- `ilock`. -/
def ilock (σ : State) (i : Inum) : Option State :=
  if σ.ref i < 1 then none
  else if σ.valid i then some σ
  else if (σ.nodes i).type = none then none
  else some { σ with valid := update σ.valid i true }

/-- What `iput` does before it drops the reference: free an inode without links that nobody else
uses. -/
def reclaim (σ : State) (i : Inum) : State :=
  if σ.valid i = true ∧ (σ.nodes i).nlink = 0 ∧ σ.ref i = 1 then
    { σ.setNode i { σ.nodes i with type := none, entries := [] } with
      valid := update σ.valid i false }
  else σ

/-- `iput`, and `iunlockput`. -/
def iput (σ : State) (i : Inum) : State :=
  let σ := σ.reclaim i
  { σ with ref := update σ.ref i (σ.ref i - 1) }

/-- `ialloc`. -/
def ialloc (σ : State) (type : FileType) : Option (Inum × State) :=
  match (List.finRange NINODES).find? fun i => i ≠ 0 ∧ (σ.nodes i).type = none with
  | none => none
  | some i => do
    let σ ← (σ.setNode i ⟨some type, 0, []⟩).iget i
    return (i, σ)

/-! ## Directories -/

/-- `dirlookup`, with the index of the entry that it finds. -/
def dirlookup (σ : State) (dp : Inum) (name : Name) : Option (Option (ℕ × Inum) × State) :=
  if (σ.nodes dp).type ≠ some .dir then none
  else
    match (σ.nodes dp).entries.zipIdx.find? fun (e, _) => e.inum ≠ 0 ∧ e.name = name with
    | none => some (none, σ)
    | some (e, off) => do
      let σ ← σ.iget e.inum
      return (some (off, e.inum), σ)

/-- Write an entry at index `off` of a directory. -/
def writeEntry (σ : State) (dp : Inum) (off : ℕ) (e : Dirent) : State :=
  let x := σ.nodes dp
  σ.setNode dp { x with
    entries := if off < x.entries.length then x.entries.set off e else x.entries ++ [e] }

/-- `dirlink`; `false` if the name exists. -/
def dirlink (σ : State) (dp : Inum) (name : Name) (inum : Inum) : Option (Bool × State) := do
  let (found, σ) ← σ.dirlookup dp name
  match found with
  | some (_, ip) =>
    -- `iput` waits for the lock of `ip`, which is held if it is `dp`
    if ip = dp then none else some (false, σ.iput ip)
  | none =>
    let off := (σ.nodes dp).entries.findIdx fun e => e.inum = 0
    if off < MAXENTRIES then some (true, σ.writeEntry dp off ⟨inum, name⟩) else none

/-! ## Paths -/

/-- `skipelem`, with the element and the rest of the path. -/
def skipelem (path : List UInt8) : Option (Name × List UInt8) :=
  match path.dropWhile (· = 47) with
  | [] => none
  | s => some ((s.takeWhile (· ≠ 47)).take DIRSIZ, (s.dropWhile (· ≠ 47)).dropWhile (· = 47))

/-- The elements of a path, as `skipelem` finds them; each takes a byte at least. -/
def elements : ℕ → List UInt8 → List Name
  | 0, _ => []
  | fuel + 1, path =>
    match skipelem path with
    | none => []
    | some (name, rest) => name :: elements fuel rest

/-- The loop of `namex` over the elements of a path. -/
def namexLoop (nameiparent : Bool) : List Name → State → Inum →
    Option (Option (Inum × Name) × State)
  | [], σ, ip => if nameiparent then some (none, σ.iput ip) else some (some (ip, []), σ)
  | name :: rest, σ, ip => do
    let σ ← σ.ilock ip
    if (σ.nodes ip).type ≠ some .dir then return (none, σ.iput ip)
    else if nameiparent = true ∧ rest = [] then return (some (ip, name), σ)
    else
      let (next, σ) ← σ.dirlookup ip name
      match next with
      | none => return (none, σ.iput ip)
      | some (_, next) => namexLoop nameiparent rest (σ.iput ip) next

/-- The inode at which `namex` starts, with a reference to it. -/
def namexStart (σ : State) (cwd : Inum) (path : List UInt8) : Option (Inum × State) :=
  if path.head? = some 47 then do
    let σ ← σ.iget root
    return (root, σ)
  else
    some (cwd, σ.idup cwd)

/-- `namex` for a process with the current directory `cwd`. -/
def namex (nameiparent : Bool) (σ : State) (cwd : Inum) (path : List UInt8) :
    Option (Option (Inum × Name) × State) := do
  let (ip, σ) ← σ.namexStart cwd path
  namexLoop nameiparent (elements path.length path) σ ip

/-- `namei`. -/
def namei (σ : State) (cwd : Inum) (path : List UInt8) : Option (Option (Inum × Name) × State) :=
  namex false σ cwd path

/-- `nameiparent`. -/
def nameiparent (σ : State) (cwd : Inum) (path : List UInt8) :
    Option (Option (Inum × Name) × State) :=
  namex true σ cwd path

/-! ## System calls -/

/-- In `create`: the entries `.` and `..` of the new directory `ip`. -/
def linkDots (σ : State) (dp ip : Inum) : Option State := do
  let σ := σ.setNode dp { σ.nodes dp with nlink := (σ.nodes dp).nlink + 1 }
  let (ok, σ) ← σ.dirlink ip dot ip
  if ok = false then none
  else
    let (ok, σ) ← σ.dirlink ip dotdot dp
    if ok = false then none else some σ

/-- The second half of `create`: a new inode is entered in `dp`. -/
def createNew (σ : State) (dp : Inum) (name : Name) (type : FileType) : Option (Inum × State) := do
  let (ip, σ) ← σ.ialloc type
  let σ ← σ.ilock ip
  let σ := σ.setNode ip { σ.nodes ip with nlink := 1 }
  let σ ← (if type = .dir then σ.linkDots dp ip else some σ)
  let (ok, σ) ← σ.dirlink dp name ip
  if ok = false then none else some (ip, σ.iput dp)

/-- `create`; the inode that it returns is locked. -/
def create (σ : State) (cwd : Inum) (path : List UInt8) (type : FileType) :
    Option (Option Inum × State) := do
  let (parent, σ) ← σ.nameiparent cwd path
  match parent with
  | none => return (none, σ)
  | some (dp, name) =>
    let σ ← σ.ilock dp
    let (found, σ) ← σ.dirlookup dp name
    match found with
    | some (_, ip) =>
      let σ ← (σ.iput dp).ilock ip
      if type = .file ∧ (σ.nodes ip).type = some .file then return (some ip, σ)
      else return (none, σ.iput ip)
    | none =>
      let (ip, σ) ← σ.createNew dp name type
      return (some ip, σ)

/-- `sys_mkdir` and `sys_mknod`. -/
def sysMake (σ : State) (cwd : Inum) (path : List UInt8) (type : FileType) : Option State := do
  let (made, σ) ← σ.create cwd path type
  match made with
  | none => return σ
  | some ip => return σ.iput ip

/-- Replace a process. -/
def setProc (σ : State) (p : Fin NPROC) (x : Option Proc) : State :=
  { σ with procs := update σ.procs p x }

/-- `filealloc`. -/
def filealloc (σ : State) : Option (Fin NFILE) :=
  (List.finRange NFILE).find? fun f => (σ.ftable f).ref = 0

/-- `fdalloc`. -/
def fdalloc (x : Proc) : Option (Fin NOFILE) :=
  (List.finRange NOFILE).find? fun fd => x.ofile fd = none

/-- The end of `sys_open`: a descriptor for the inode `ip`. -/
def openFile (σ : State) (p : Fin NPROC) (x : Proc) (ip : Inum) : State :=
  match σ.filealloc with
  | none => σ.iput ip
  | some f =>
    match fdalloc x with
    | none => σ.iput ip
    | some fd =>
      { σ with ftable := update σ.ftable f ⟨1, some ip⟩ }.setProc p
        (some { x with ofile := update x.ofile fd (some f) })

/-- `sys_open`; `creates` is `omode & O_CREATE`, and `reads` is `omode == O_RDONLY`. -/
def sysOpen (σ : State) (p : Fin NPROC) (x : Proc) (path : List UInt8) (creates reads : Bool) :
    Option State :=
  if creates then do
    let (made, σ) ← σ.create x.cwd path .file
    match made with
    | none => return σ
    | some ip => return σ.openFile p x ip
  else do
    let (found, σ) ← σ.namei x.cwd path
    match found with
    | none => return σ
    | some (ip, _) =>
      let σ ← σ.ilock ip
      if (σ.nodes ip).type = some .dir ∧ reads = false then return σ.iput ip
      else return σ.openFile p x ip

/-- `sys_link` from the label `bad` on. -/
def linkBad (σ : State) (ip : Inum) : Option State := do
  let σ ← σ.ilock ip
  return (σ.setNode ip { σ.nodes ip with nlink := (σ.nodes ip).nlink - 1 }).iput ip

/-- `sys_link`. -/
def sysLink (σ : State) (cwd : Inum) (old new : List UInt8) : Option State := do
  let (found, σ) ← σ.namei cwd old
  match found with
  | none => return σ
  | some (ip, _) =>
    let σ ← σ.ilock ip
    if (σ.nodes ip).type = some .dir then return σ.iput ip
    else
      let σ := σ.setNode ip { σ.nodes ip with nlink := (σ.nodes ip).nlink + 1 }
      let (parent, σ) ← σ.nameiparent cwd new
      match parent with
      | none => σ.linkBad ip
      | some (dp, name) =>
        let σ ← σ.ilock dp
        let (ok, σ) ← σ.dirlink dp name ip
        if ok = false then (σ.iput dp).linkBad ip else return (σ.iput dp).iput ip

/-- `isdirempty`. -/
def isdirempty (x : Node) : Bool :=
  (x.entries.drop 2).all fun e => e.inum = 0

/-- The part of `sys_unlink` that removes the entry at index `off`, for the inode `ip`, from the
directory `dp`. -/
def unlinkEntry (σ : State) (dp ip : Inum) (off : ℕ) : State :=
  let σ := σ.writeEntry dp off ⟨0, []⟩
  let σ := if (σ.nodes ip).type = some .dir then
      σ.setNode dp { σ.nodes dp with nlink := (σ.nodes dp).nlink - 1 }
    else σ
  let σ := σ.iput dp
  (σ.setNode ip { σ.nodes ip with nlink := (σ.nodes ip).nlink - 1 }).iput ip

/-- `sys_unlink`. -/
def sysUnlink (σ : State) (cwd : Inum) (path : List UInt8) : Option State := do
  let (parent, σ) ← σ.nameiparent cwd path
  match parent with
  | none => return σ
  | some (dp, name) =>
    let σ ← σ.ilock dp
    if name = dot ∨ name = dotdot then return σ.iput dp
    else
      let (found, σ) ← σ.dirlookup dp name
      match found with
      | none => return σ.iput dp
      | some (off, ip) =>
        if ip = dp then none
        else
          let σ ← σ.ilock ip
          if (σ.nodes ip).nlink < 1 then none
          else if (σ.nodes ip).type = some .dir ∧ isdirempty (σ.nodes ip) = false then
            return (σ.iput ip).iput dp
          else return σ.unlinkEntry dp ip off

/-- `sys_chdir`. -/
def sysChdir (σ : State) (p : Fin NPROC) (x : Proc) (path : List UInt8) : Option State := do
  let (found, σ) ← σ.namei x.cwd path
  match found with
  | none => return σ
  | some (ip, _) =>
    let σ ← σ.ilock ip
    if (σ.nodes ip).type ≠ some .dir then return σ.iput ip
    else
      let σ := σ.iput x.cwd
      return σ.setProc p (some { x with cwd := ip })

/-- `fileclose`. -/
def fileclose (σ : State) (f : Fin NFILE) : Option State :=
  if (σ.ftable f).ref < 1 then none
  else if 1 < (σ.ftable f).ref then
    some { σ with
      ftable := update σ.ftable f { σ.ftable f with ref := (σ.ftable f).ref - 1 } }
  else
    let ip := (σ.ftable f).ip
    let σ := { σ with ftable := update σ.ftable f ⟨0, none⟩ }
    match ip with
    | none => some σ
    | some ip => some (σ.iput ip)

/-- `sys_close`. -/
def sysClose (σ : State) (p : Fin NPROC) (x : Proc) (fd : Fin NOFILE) : Option State :=
  match x.ofile fd with
  | none => some σ
  | some f => (σ.setProc p (some { x with ofile := update x.ofile fd none })).fileclose f

/-- `filedup`, for a descriptor that is in use. -/
def filedup (ftable : Fin NFILE → File) : Option (Fin NFILE) → Fin NFILE → File
  | none => ftable
  | some f => update ftable f { ftable f with ref := (ftable f).ref + 1 }

/-- `fork`: the child `q` shares the open files and the current directory. -/
def fork (σ : State) (x : Proc) (q : Fin NPROC) : State :=
  let ftable := (List.finRange NOFILE).foldl (fun ftable fd => filedup ftable (x.ofile fd)) σ.ftable
  ({ σ with ftable }.setProc q (some x)).idup x.cwd

/-- One iteration of the loop of `exit` that closes the open files. -/
def exitClose (p : Fin NPROC) (σ : State) (fd : Fin NOFILE) : Option State :=
  match σ.procs p with
  | none => none
  | some x => σ.sysClose p x fd

/-- `exit`, without the first process. -/
def exit (σ : State) (p : Fin NPROC) (x : Proc) : Option State := do
  let σ ← (List.finRange NOFILE).foldlM (exitClose p) σ
  let σ := σ.iput x.cwd
  return σ.setProc p none

end State

/-- A system call. -/
inductive Action
  | mkdir (path : List UInt8)
  | mknod (path : List UInt8)
  /-- `open`, with whether it may create the file and whether it only reads. -/
  | openPath (path : List UInt8) (creates reads : Bool)
  | link (old new : List UInt8)
  | unlink (path : List UInt8)
  | chdir (path : List UInt8)
  | close (fd : Fin NOFILE)
  /-- `fork`, for which `allocproc` finds the slot `child`. -/
  | fork (child : Fin NPROC)
  | exit

namespace State

/-- `syscall` for the process `p`, whose files are those of `x`. -/
def syscall (σ : State) (p : Fin NPROC) (x : Proc) : Action → Option State
  | .mkdir path => σ.sysMake x.cwd path .dir
  | .mknod path => σ.sysMake x.cwd path .dev
  | .openPath path creates reads => σ.sysOpen p x path creates reads
  | .link old new => σ.sysLink x.cwd old new
  | .unlink path => σ.sysUnlink x.cwd path
  | .chdir path => σ.sysChdir p x path
  | .close fd => σ.sysClose p x fd
  | .fork child => if σ.procs child = none then some (σ.fork x child) else none
  | .exit => if p = 0 then none else σ.exit p x

/-- Perform a system call of a process. -/
def step (σ : State) (l : Fin NPROC × Action) : Option (State × Unit) := do
  let x ← σ.procs l.1
  let σ ← σ.syscall l.1 x l.2
  return (σ, ())

/-- The root directory of the image for files with the given names, with the zeros that fill its
last block. -/
def rootEntries (names : List Name) : List Dirent :=
  [⟨root, dot⟩, ⟨root, dotdot⟩] ++
    names.zipIdx.map (fun (name, k) => ⟨Fin.ofNat NINODES (2 + k), name⟩) ++
    List.replicate (32 - (2 + names.length) % 32) ⟨0, []⟩

/-- The image that `mkfs` writes for files with the given names, and the first process. -/
def boot (names : List Name) : State where
  nodes i :=
    if i = root then ⟨some .dir, 1, rootEntries names⟩
    else if 2 ≤ i.val ∧ i.val < 2 + names.length then ⟨some .file, 1, []⟩
    else ⟨none, 0, []⟩
  ref i := if i = root then 1 else 0
  valid _ := false
  ftable _ := ⟨0, none⟩
  procs p := if p = 0 then some ⟨root, fun _ => none⟩ else none

end State

/-- The system, from any image that `mkfs` writes. -/
def system : Transition.System State ((Fin NPROC × Action) × Unit) :=
  Transition.ofFun (fun σ => ∃ names : List Name, 1 + names.length ≤ NINODES - 1 ∧ σ = .boot names)
    State.step

end Names

end FileSystem
