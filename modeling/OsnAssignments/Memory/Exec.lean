import Mathlib
import OsnAssignments.Memory.VirtualMemory

/-!
# `exec`

The function of `exec.c`, on the bytes of the executable and the strings of `argv`, with every
iteration of `copyout`. The inode and the log are left out: the executable is given by its bytes, if
`namei` finds it.

If `uva2ka` reads through a null pointer, what it reads is not part of the model, and `exec` ends
there (`Ret.null`).
-/

namespace Memory

/-- `MAXARG`. -/
def MAXARG : ℕ := 32

/-- `ELF_MAGIC`. -/
def ELF_MAGIC : ℕ := 0x464C457F

/-- `ELF_PROG_LOAD`. -/
def ELF_PROG_LOAD : ℕ := 1

/-- `sizeof(struct elfhdr)`. -/
def ELFHDR : ℕ := 52

/-- `sizeof(struct proghdr)`. -/
def PROGHDR : ℕ := 32

/-- A field of `w` bytes at offset `o` of a structure. -/
def field (bytes : List UInt8) (o w : ℕ) : ℕ := Bytes.getLE (fun i => bytes.getD i 0) o w

/-- The fields of `struct elfhdr` that `exec` reads. -/
structure Elfhdr where
  magic : ℕ
  entry : ℕ
  phoff : ℕ
  phnum : ℕ

/-- The bytes of a `struct elfhdr`. -/
def Elfhdr.of (bytes : List UInt8) : Elfhdr :=
  ⟨field bytes 0 4, field bytes 24 4, field bytes 28 4, field bytes 44 2⟩

/-- The fields of `struct proghdr` that `exec` reads. -/
structure Proghdr where
  type : ℕ
  off : ℕ
  vaddr : ℕ
  filesz : ℕ
  memsz : ℕ

/-- The bytes of a `struct proghdr`. -/
def Proghdr.of (bytes : List UInt8) : Proghdr :=
  ⟨field bytes 0 4, field bytes 4 4, field bytes 8 4, field bytes 16 4, field bytes 20 4⟩

/-! ## Loading -/

/-- In `exec`: load a program segment into an image of size `sz`. The error is `goto bad`. -/
def loadSegment (L : Layout) (file : List UInt8) (σ : Space) (sz : ℕ) (ph : Proghdr) :
    Option (Except Space (Space × ℕ)) := do
  let (sz, σ) ← σ.allocuvm L sz ((ph.vaddr + ph.memsz) % 2 ^ 32)
  if sz = 0 then return .error σ
  else if ph.vaddr % PGSIZE ≠ 0 then return .error σ
  else
    let (ok, σ) ← σ.loaduvm ph.vaddr file ph.off ph.filesz
    if ok then return .ok (σ, sz) else return .error σ

/-- The loop of `exec` over the `n` program headers that are left, at `off`. -/
def loadLoop (L : Layout) (file : List UInt8) :
    ℕ → ℕ → Space → ℕ → Option (Except Space (Space × ℕ))
  | 0, _, σ, sz => some (.ok (σ, sz))
  | n + 1, off, σ, sz =>
    match readi file off PROGHDR with
    | none => some (.error σ)
    | some bytes =>
      let ph := Proghdr.of bytes
      if bytes.length ≠ PROGHDR then some (.error σ)
      else if ph.type ≠ ELF_PROG_LOAD then loadLoop L file n ((off + PROGHDR) % 2 ^ 32) σ sz
      else if ph.memsz < ph.filesz then some (.error σ)
      else if (ph.vaddr + ph.memsz) % 2 ^ 32 < ph.vaddr then some (.error σ)
      else do
        match ← loadSegment L file σ sz ph with
        | .error σ => return .error σ
        | .ok (σ, sz) => loadLoop L file n ((off + PROGHDR) % 2 ^ 32) σ sz

/-- In `exec`: two more pages, the first of them inaccessible and the second for the stack. -/
def allocStack (L : Layout) (σ : Space) (sz : ℕ) : Option (Except Space (Space × ℕ)) := do
  let sz := PGROUNDUP sz
  let (sz, σ) ← σ.allocuvm L sz ((sz + 2 * PGSIZE) % 2 ^ 32)
  if sz = 0 then return .error σ
  else
    let σ ← σ.clearpteu ((sz + (2 ^ 32 - 2 * PGSIZE)) % 2 ^ 32)
    return .ok (σ, sz)

/-- `exec` up to the stack of the new image: the image with `sz`, or -1. -/
def load (L : Layout) (kmem : Kmem) (file : List UInt8) :
    Option (Except Kmem (Space × ℕ × Elfhdr)) :=
  match readi file 0 ELFHDR with
  | none => some (.error kmem)
  | some bytes =>
    let elf := Elfhdr.of bytes
    if bytes.length ≠ ELFHDR ∨ elf.magic ≠ ELF_MAGIC then some (.error kmem)
    else do
      match ← setupkvm L kmem with
      | .error kmem => return .error kmem
      | .ok σ =>
        match ← loadLoop L file elf.phnum elf.phoff σ 0 with
        | .error σ => return .error (← σ.freevm L)
        | .ok (σ, sz) =>
          match ← allocStack L σ sz with
          | .error σ => return .error (← σ.freevm L)
          | .ok (σ, sz) => return .ok (σ, sz, elf)

/-! ## Arguments -/

/-- `(sp - (len + 1)) & ~3`. -/
def push (sp len : ℕ) : ℕ := (sp + (2 ^ 32 - (len + 1))) % 2 ^ 32 / 4 * 4

/-- What pushing the arguments leads to: how it ends, the memory, the iterations of `copyout`, the
stack pointer and the addresses of the arguments. -/
structure Pushed where
  result : Copied
  space : Space
  accesses : List Access
  sp : ℕ
  ustack : List ℕ

/-- The loop of `exec` over `argv`; the first `argc` arguments have been pushed. -/
def pushArgs : List (List UInt8) → ℕ → Space → ℕ → Pushed
  | [], _, σ, sp => ⟨.done, σ, [], sp, []⟩
  | arg :: argv, argc, σ, sp =>
    if MAXARG ≤ argc then ⟨.failed, σ, [], sp, []⟩
    else
      let sp := push sp arg.length
      match copyout (arg.length + 1) σ sp (arg ++ [0]) with
      | (.done, σ, accesses) =>
        let rest := pushArgs argv (argc + 1) σ sp
        { rest with accesses := accesses ++ rest.accesses, ustack := sp :: rest.ustack }
      | (result, σ, accesses) => ⟨result, σ, accesses, sp, []⟩

/-- The four bytes of a `uint`. -/
def word (n : ℕ) : List UInt8 :=
  [UInt8.ofNat n, UInt8.ofNat (n / 256), UInt8.ofNat (n / 65536), UInt8.ofNat (n / 16777216)]

/-! ## `exec` -/

/-- The fields of `struct proc` that `exec` changes. -/
structure Task where
  pgdir : ℕ
  pdes : ℕ → Option PageTable
  sz : ℕ
  eip : ℕ
  esp : ℕ
  name : List UInt8

/-- The page directory of a task. -/
def Task.space (task : Task) (kmem : Kmem) : Space := ⟨kmem, task.pgdir, task.pdes⟩

/-- How `exec` ends. -/
inductive Ret
  /-- It returns 0. -/
  | ok
  /-- It returns -1. -/
  | error
  /-- `uva2ka` reads through a null pointer. -/
  | null
  deriving DecidableEq

/-- What `exec` leads to. -/
structure Executed where
  ret : Ret
  task : Task
  kmem : Kmem
  accesses : List Access

/-- The part of a path after its last slash, as `safestrcpy` copies it to `name`. -/
def progname (path : List UInt8) : List UInt8 :=
  ((path.reverse.takeWhile (· ≠ 47)).reverse).take 15

/-- `exec` once all of `argv` has been pushed: `ustack` is copied, and the new image is committed
to. -/
def commit (L : Layout) (task : Task) (path : List UInt8) (argc sz entry : ℕ) (p : Pushed) :
    Option Executed :=
  let ustack := [0xffffffff, argc, (p.sp + (2 ^ 32 - (argc + 1) * 4)) % 2 ^ 32] ++ p.ustack ++ [0]
  let sp := (p.sp + (2 ^ 32 - (3 + argc + 1) * 4)) % 2 ^ 32
  match copyout ((3 + argc + 1) * 4) p.space sp (ustack.flatMap word) with
  | (.null, σ, accesses) => some ⟨.null, task, σ.kmem, p.accesses ++ accesses⟩
  | (.failed, σ, accesses) => do
    let kmem ← σ.freevm L
    return ⟨.error, task, kmem, p.accesses ++ accesses⟩
  | (.done, σ, accesses) => do
    let kmem ← (task.space σ.kmem).freevm L
    return ⟨.ok, ⟨σ.pgdir, σ.pdes, sz, entry, sp, progname path⟩, kmem, p.accesses ++ accesses⟩

/-- `exec(path, argv)` of a task, where `file` is what `path` names. -/
def exec (L : Layout) (kmem : Kmem) (task : Task) (path : List UInt8) (file : Option (List UInt8))
    (argv : List (List UInt8)) : Option Executed :=
  match file with
  | none => some ⟨.error, task, kmem, []⟩
  | some file => do
    match ← load L kmem file with
    | .error kmem => return ⟨.error, task, kmem, []⟩
    | .ok (σ, sz, elf) =>
      let p := pushArgs argv 0 σ sz
      match p.result with
      | .null => return ⟨.null, task, p.space.kmem, p.accesses⟩
      | .failed =>
        let kmem ← p.space.freevm L
        return ⟨.error, task, kmem, p.accesses⟩
      | .done => commit L task path argv.length sz elf.entry p

end Memory
