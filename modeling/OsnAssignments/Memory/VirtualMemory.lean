import Mathlib
import OsnAssignments.Common.Bytes

/-!
# Pages and page tables

The page allocator of `kalloc.c` and the functions of `vm.c` on page tables. Addresses are `uint`,
numbers below `2 ^ 32` whose sums wrap. A page of physical memory is given by its number, the
physical address divided by `PGSIZE`.

A page directory is kept as the tables that its entries lead to, and a table as its entries; the
memory of pages that serve as tables is not kept a second time. An entry that is not present is
`none`; the code never leaves bits in one. The bytes of all other pages are kept.

Other processors take pages from the allocator at any time, so that any call of `kalloc` may find
the free list empty; `fails` says which calls do. A panic is `none`, and so is a loop that has gone
on for more iterations than there are pages.
-/

namespace Memory

open Function

/-- `PGSIZE`. -/
def PGSIZE : ℕ := 4096

/-- `KERNBASE`. -/
def KERNBASE : ℕ := 0x80000000

/-- `EXTMEM`. -/
def EXTMEM : ℕ := 0x100000

/-- `PHYSTOP`. -/
def PHYSTOP : ℕ := 0xE000000

/-- `DEVSPACE`. -/
def DEVSPACE : ℕ := 0xFE000000

/-- `NPDENTRIES`. -/
def NPDENTRIES : ℕ := 1024

/-- The number of pages of the address space. -/
def NPAGES : ℕ := 2 ^ 20

/-- `PDX(va)`. -/
def PDX (va : ℕ) : ℕ := va / 2 ^ 22 % 1024

/-- `PTX(va)`. -/
def PTX (va : ℕ) : ℕ := va / 2 ^ 12 % 1024

/-- `PGADDR(d, 0, 0)`. -/
def PGADDR (d : ℕ) : ℕ := d * 2 ^ 22 % 2 ^ 32

/-- `PGROUNDUP(sz)`. -/
def PGROUNDUP (sz : ℕ) : ℕ := (sz + PGSIZE - 1) % 2 ^ 32 / PGSIZE * PGSIZE

/-- `PGROUNDDOWN(a)`. -/
def PGROUNDDOWN (a : ℕ) : ℕ := a / PGSIZE * PGSIZE

/-- Where the linker puts the data of the kernel and the end of the kernel, as physical addresses:
`V2P(data)` and `V2P(end)`. -/
structure Layout where
  data : ℕ
  kend : ℕ
  data_aligned : data % PGSIZE = 0
  extmem_lt : EXTMEM < data
  data_le : data ≤ kend
  kend_lt : kend < PHYSTOP

/-! ## `kalloc.c` -/

/-- `kmem`, and the bytes of all pages. -/
structure Kmem where
  freelist : List ℕ
  /-- Which calls of `kalloc` find no page. -/
  fails : ℕ → Bool
  /-- The number of calls of `kalloc` so far. -/
  calls : ℕ
  mem : ℕ → Bytes.Mem

namespace Kmem

/-- `kalloc`. -/
def kalloc (k : Kmem) : Option ℕ × Kmem :=
  if k.fails k.calls then (none, { k with calls := k.calls + 1 })
  else
    match k.freelist with
    | [] => (none, { k with calls := k.calls + 1 })
    | f :: rest => (some f, { k with freelist := rest, calls := k.calls + 1 })

/-- `memset(P2V(pa), c, PGSIZE)` for the page `f`. -/
def memset (k : Kmem) (f : ℕ) (c : UInt8) : Kmem :=
  { k with mem := update k.mem f fun _ => c }

/-- `kfree` for the page `f`. -/
def kfree (L : Layout) (k : Kmem) (f : ℕ) : Option Kmem :=
  if f * PGSIZE < L.kend ∨ PHYSTOP ≤ f * PGSIZE then none
  else
    let k := k.memset f 1
    some { k with freelist := f :: k.freelist }

end Kmem

/-! ## `vm.c` -/

/-- A page table entry that is present: the page and the bits `PTE_W` and `PTE_U`. -/
structure Pte where
  page : ℕ
  w : Bool
  u : Bool
  deriving DecidableEq

/-- A page table: the page that holds it and its entries. -/
structure PageTable where
  page : ℕ
  ptes : ℕ → Option Pte

/-- A page directory, which is in the page `pgdir`, and the memory. -/
structure Space where
  kmem : Kmem
  pgdir : ℕ
  pdes : ℕ → Option PageTable

namespace Space

/-- The entry for `va`, if its table exists and it is present. -/
def pte (σ : Space) (va : ℕ) : Option Pte := (σ.pdes (PDX va)).bind fun t => t.ptes (PTX va)

/-- Store the entry for `va`, whose table exists. -/
def setPte (σ : Space) (va : ℕ) (x : Option Pte) : Space :=
  { σ with
    pdes := update σ.pdes (PDX va) ((σ.pdes (PDX va)).map fun t =>
      { t with ptes := update t.ptes (PTX va) x }) }

/-- `walkpgdir`, with whether it returns an entry; this is the one that `pte` and `setPte` use. -/
def walkpgdir (σ : Space) (va : ℕ) (alloc : Bool) : Bool × Space :=
  match σ.pdes (PDX va) with
  | some _ => (true, σ)
  | none =>
    if alloc then
      match σ.kmem.kalloc with
      | (none, kmem) => (false, { σ with kmem })
      | (some pgtab, kmem) =>
        (true, { σ with
          kmem
          pdes := update σ.pdes (PDX va) (some ⟨pgtab, fun _ => none⟩) })
    else (false, σ)

/-- The loop of `mappages`; `w` and `u` are the bits of `perm`. -/
def mappagesLoop (last : ℕ) (w u : Bool) : ℕ → Space → ℕ → ℕ → Option (Bool × Space)
  | 0, _, _, _ => none
  | fuel + 1, σ, a, pa =>
    let (found, σ) := σ.walkpgdir a true
    if found = false then some (false, σ)
    else if (σ.pte a).isSome then none
    else
      let σ := σ.setPte a (some ⟨pa / PGSIZE, w, u⟩)
      if a = last then some (true, σ)
      else mappagesLoop last w u fuel σ ((a + PGSIZE) % 2 ^ 32) ((pa + PGSIZE) % 2 ^ 32)

/-- `mappages`; `false` if it returns -1. -/
def mappages (σ : Space) (va size pa : ℕ) (w u : Bool) : Option (Bool × Space) :=
  mappagesLoop (PGROUNDDOWN ((va + size + (2 ^ 32 - 1)) % 2 ^ 32)) w u NPAGES σ
    (PGROUNDDOWN va) pa

/-- The loop of `deallocuvm`. -/
def deallocuvmLoop (L : Layout) (oldsz : ℕ) : ℕ → Space → ℕ → Option Space
  | 0, _, _ => none
  | fuel + 1, σ, a =>
    if a < oldsz then
      let (found, σ) := σ.walkpgdir a false
      if found = false then
        -- the increment of the loop takes back the `- PGSIZE`
        deallocuvmLoop L oldsz fuel σ
          ((PGADDR (PDX a + 1) + (2 ^ 32 - PGSIZE) + PGSIZE) % 2 ^ 32)
      else
        match σ.pte a with
        | none => deallocuvmLoop L oldsz fuel σ ((a + PGSIZE) % 2 ^ 32)
        | some x =>
          if x.page = 0 then none
          else do
            let kmem ← σ.kmem.kfree L x.page
            deallocuvmLoop L oldsz fuel ({ σ with kmem }.setPte a none) ((a + PGSIZE) % 2 ^ 32)
    else some σ

/-- `deallocuvm`. -/
def deallocuvm (L : Layout) (σ : Space) (oldsz newsz : ℕ) : Option (ℕ × Space) :=
  if oldsz ≤ newsz then some (oldsz, σ)
  else do
    let σ ← deallocuvmLoop L oldsz NPAGES σ (PGROUNDUP newsz)
    return (newsz, σ)

/-- The loop of `allocuvm`. -/
def allocuvmLoop (L : Layout) (oldsz newsz : ℕ) : ℕ → Space → ℕ → Option (ℕ × Space)
  | 0, _, _ => none
  | fuel + 1, σ, a =>
    if a < newsz then
      match σ.kmem.kalloc with
      | (none, kmem) => do
        let (_, σ) ← deallocuvm L { σ with kmem } newsz oldsz
        return (0, σ)
      | (some mem, kmem) => do
        let σ := { σ with kmem := kmem.memset mem 0 }
        let (ok, σ) ← mappages σ a PGSIZE (mem * PGSIZE) true true
        if ok then allocuvmLoop L oldsz newsz fuel σ ((a + PGSIZE) % 2 ^ 32)
        else
          let (_, σ) ← deallocuvm L σ newsz oldsz
          let kmem ← σ.kmem.kfree L mem
          return (0, { σ with kmem })
    else some (newsz, σ)

/-- `allocuvm`. -/
def allocuvm (L : Layout) (σ : Space) (oldsz newsz : ℕ) : Option (ℕ × Space) :=
  if KERNBASE ≤ newsz then some (0, σ)
  else if newsz < oldsz then some (oldsz, σ)
  else allocuvmLoop L oldsz newsz NPAGES σ (PGROUNDUP oldsz)

/-- The loop of `freevm`, over the first `n` entries of the page directory. -/
def freeTables (L : Layout) (σ : Space) : ℕ → Option Kmem
  | 0 => some σ.kmem
  | n + 1 => do
    let kmem ← freeTables L σ n
    match σ.pdes n with
    | some pgtab => kmem.kfree L pgtab.page
    | none => return kmem

/-- `freevm`. -/
def freevm (L : Layout) (σ : Space) : Option Kmem := do
  let (_, σ) ← deallocuvm L σ KERNBASE 0
  let kmem ← freeTables L σ NPDENTRIES
  kmem.kfree L σ.pgdir

end Space

/-- `struct kmap`; `w` is the bit of `perm`. -/
structure Kmap where
  virt : ℕ
  physStart : ℕ
  physEnd : ℕ
  w : Bool

/-- The table `kmap`. -/
def kmap (L : Layout) : List Kmap :=
  [⟨KERNBASE, 0, EXTMEM, true⟩,
    ⟨KERNBASE + EXTMEM, EXTMEM, L.data, false⟩,
    ⟨KERNBASE + L.data, L.data, PHYSTOP, true⟩,
    ⟨DEVSPACE, DEVSPACE, 0, true⟩]

/-- The loop of `setupkvm` over `kmap`; the error is a return of 0. -/
def setupkvmLoop (L : Layout) : List Kmap → Space → Option (Except Kmem Space)
  | [], σ => some (.ok σ)
  | k :: rest, σ => do
    let size := (k.physEnd + (2 ^ 32 - k.physStart)) % 2 ^ 32
    let (ok, σ) ← σ.mappages k.virt size k.physStart k.w false
    if ok then setupkvmLoop L rest σ
    else
      let kmem ← σ.freevm L
      return .error kmem

/-- `setupkvm`. -/
def setupkvm (L : Layout) (kmem : Kmem) : Option (Except Kmem Space) :=
  match kmem.kalloc with
  | (none, kmem) => some (.error kmem)
  | (some pgdir, kmem) =>
    if DEVSPACE < KERNBASE + PHYSTOP then none
    else setupkvmLoop L (kmap L) ⟨kmem, pgdir, fun _ => none⟩

/-- `readi` from the bytes of a file, with what it copies; `none` if it returns -1. -/
def readi (file : List UInt8) (off n : ℕ) : Option (List UInt8) :=
  if file.length < off ∨ (off + n) % 2 ^ 32 < off then none else some ((file.drop off).take n)

namespace Space

/-- Write bytes to a page. -/
def write (σ : Space) (f off : ℕ) (bytes : List UInt8) : Space :=
  { σ with kmem := { σ.kmem with
      mem := update σ.kmem.mem f (Bytes.overlay (σ.kmem.mem f) off bytes) } }

/-- The loop of `loaduvm`. -/
def loaduvmLoop (addr : ℕ) (file : List UInt8) (offset sz : ℕ) :
    ℕ → Space → ℕ → Option (Bool × Space)
  | 0, _, _ => none
  | fuel + 1, σ, i =>
    if i < sz then
      let (found, σ) := σ.walkpgdir ((addr + i) % 2 ^ 32) false
      if found = false then none
      else
        let pa := ((σ.pte ((addr + i) % 2 ^ 32)).map Pte.page).getD 0
        let n := if sz - i < PGSIZE then sz - i else PGSIZE
        match readi file ((offset + i) % 2 ^ 32) n with
        | none => some (false, σ)
        | some bytes =>
          let σ := σ.write pa 0 bytes
          if bytes.length ≠ n then some (false, σ)
          else loaduvmLoop addr file offset sz fuel σ ((i + PGSIZE) % 2 ^ 32)
    else some (true, σ)

/-- `loaduvm`; `false` if it returns -1. -/
def loaduvm (σ : Space) (addr : ℕ) (file : List UInt8) (offset sz : ℕ) : Option (Bool × Space) :=
  if addr % PGSIZE ≠ 0 then none else loaduvmLoop addr file offset sz NPAGES σ 0

/-- `clearpteu`. -/
def clearpteu (σ : Space) (uva : ℕ) : Option Space :=
  let (found, σ) := σ.walkpgdir uva false
  if found = false then none
  else some (σ.setPte uva ((σ.pte uva).map fun x => { x with u := false }))

/-- What `uva2ka` finds for an address: no entry (`walkpgdir` returns 0), or the entry. -/
def lookup (σ : Space) (uva : ℕ) : Option (Option Pte) :=
  (σ.pdes (PDX uva)).map fun t => t.ptes (PTX uva)

end Space

/-- What `uva2ka` does. -/
inductive Uva2ka
  /-- It reads through the null pointer that `walkpgdir` has returned. -/
  | null
  /-- It returns 0. -/
  | zero
  /-- It returns the address of a page. -/
  | page (f : ℕ)

/-- `uva2ka`. -/
def uva2ka (σ : Space) (uva : ℕ) : Uva2ka :=
  match σ.lookup uva with
  | none => .null
  | some none => .zero
  | some (some x) => if x.u = false then .zero else .page x.page

/-- How `copyout` ends. -/
inductive Copied
  /-- It returns 0. -/
  | done
  /-- It returns -1. -/
  | failed
  /-- `uva2ka` reads through a null pointer. -/
  | null
  deriving DecidableEq

/-- An iteration of `copyout`: the address that it looks up and what it finds there, and the bytes
that it writes, with their offset in the page. -/
structure Access where
  va : ℕ
  entry : Option (Option Pte)
  off : ℕ
  bytes : List UInt8

/-- `copyout` from the bytes `buf`, with its iterations; each takes a byte at least. -/
def copyout : ℕ → Space → ℕ → List UInt8 → Copied × Space × List Access
  | 0, σ, _, _ => (.done, σ, [])
  | fuel + 1, σ, va, buf =>
    if buf = [] then (.done, σ, [])
    else
      let va0 := PGROUNDDOWN va
      match uva2ka σ va0 with
      | .null => (.null, σ, [⟨va0, σ.lookup va0, 0, []⟩])
      | .zero => (.failed, σ, [⟨va0, σ.lookup va0, 0, []⟩])
      | .page pa0 =>
        let n := min (PGSIZE - (va - va0)) buf.length
        let access : Access := ⟨va0, σ.lookup va0, va - va0, buf.take n⟩
        let (result, σ, accesses) :=
          copyout fuel (σ.write pa0 (va - va0) (buf.take n)) ((va0 + PGSIZE) % 2 ^ 32) (buf.drop n)
        (result, σ, access :: accesses)

/-! ## `growproc` -/

/-- The memory of a process: `sz` and `pgdir` of `struct proc`. -/
structure Proc where
  sz : ℕ
  space : Space

/-- A signed number as `uint`. -/
def uint (n : ℤ) : ℕ := (n % 2 ^ 32).toNat

/-- `growproc(n)`, where `false` is -1. -/
def growproc (L : Layout) (p : Proc) (n : ℤ) : Option (Bool × Proc) :=
  if 0 < n then do
    let (sz, space) ← p.space.allocuvm L p.sz ((p.sz + uint n) % 2 ^ 32)
    if sz = 0 then return (false, { p with space }) else return (true, ⟨sz, space⟩)
  else if n < 0 then do
    let (sz, space) ← p.space.deallocuvm L p.sz ((p.sz + uint n) % 2 ^ 32)
    if sz = 0 then return (false, { p with space }) else return (true, ⟨sz, space⟩)
  else some (true, p)

end Memory
