import Mathlib
import OsnAssignments.FileSystem.Inode

/-!
# Files as byte arrays

An inode has `NDIRECT` direct addresses, the address of a block of addresses, and the addresses in
that block; each of them is a `Slot`. On a disk on which no two slots hold the same block and every
block in a slot is a data block that is marked in the bitmap (`Good`), allocating a block for one
slot changes no other slot and no content (`Good.alloc`), and writing a block changes the content of
the one file that owns it.
-/

namespace FileSystem

open Bytes Function

/-! ## Slots -/

/-- A place for a block address in an inode. -/
inductive Slot
  | direct (j : Fin NDIRECT)
  | indirect
  | entry (j : Fin NINDIRECT)
  deriving DecidableEq, Fintype

/-- The address in a slot; `0` if there is none. -/
def slotAddr (blocks : ℕ → Block) (ip : Inode) : Slot → ℕ
  | .direct j => ip.addrs j.castSucc
  | .indirect => ip.addrs (Fin.last NDIRECT)
  | .entry j =>
    if ip.addrs (Fin.last NDIRECT) = 0 then 0
    else getLE (blocks (ip.addrs (Fin.last NDIRECT))) (4 * j) 4

/-- The slot for block `bn` of a file. -/
def slotOf (bn : ℕ) (h : bn < MAXFILE) : Slot :=
  if h' : bn < NDIRECT then .direct ⟨bn, h'⟩
  else .entry ⟨bn - NDIRECT, by unfold MAXFILE at h; omega⟩

/-- The address of block `bn` of a file; `0` if there is none. -/
def addrOf (blocks : ℕ → Block) (ip : Inode) (bn : ℕ) : ℕ :=
  if h : bn < MAXFILE then slotAddr blocks ip (slotOf bn h) else 0

/-- Byte `p` of a file. -/
def byteAt (blocks : ℕ → Block) (ip : Inode) (p : ℕ) : UInt8 :=
  blocks (addrOf blocks ip (p / BSIZE)) (p % BSIZE)

/-- The content of a file. -/
def content (blocks : ℕ → Block) (ip : Inode) : List UInt8 :=
  (List.range ip.size).map (byteAt blocks ip)

/-- Every block below the size of the file has an address. -/
def Mapped (blocks : ℕ → Block) (ip : Inode) : Prop :=
  ∀ bn, bn * BSIZE < ip.size → addrOf blocks ip bn ≠ 0

/-! ## Consistent disks -/

/-- `i` is the number of an inode. -/
def IsInode (sb : Superblock) (i : ℕ) : Prop :=
  0 < i ∧ i < sb.ninodes

instance (sb : Superblock) (i : ℕ) : Decidable (IsInode sb i) :=
  inferInstanceAs (Decidable (0 < i ∧ i < sb.ninodes))

/-- The blocks below the size of each file are mapped, and all mapped blocks are distinct and marked
in the bitmap. -/
structure Consistent (σ : Fs) : Prop where
  mapped : ∀ i, IsInode σ.sb i → Mapped σ.blocks (σ.dinode i)
  distinct : ∀ i s i' s', IsInode σ.sb i → IsInode σ.sb i' →
    slotAddr σ.blocks (σ.dinode i) s ≠ 0 →
    slotAddr σ.blocks (σ.dinode i) s = slotAddr σ.blocks (σ.dinode i') s' → i = i' ∧ s = s'
  used : ∀ i s, IsInode σ.sb i → slotAddr σ.blocks (σ.dinode i) s ≠ 0 →
    σ.used (slotAddr σ.blocks (σ.dinode i) s) = true

/-- The number of blocks in front of the data blocks. -/
def Superblock.nmeta (sb : Superblock) : ℕ :=
  sb.bmapstart + sb.size / BPB + 1

theorem Superblock.bmapstart_lt_nmeta (sb : Superblock) : sb.bmapstart < sb.nmeta :=
  Nat.lt_succ_of_le (Nat.le_add_right _ _)

/-- `b` is a data block. -/
def IsData (sb : Superblock) (b : ℕ) : Prop :=
  sb.nmeta ≤ b ∧ b < sb.size

/-- The layout that the kernel relies on: the inodes come before the bitmap, and this before the
data blocks; all blocks are on the disk, those before the data blocks are marked in the bitmap, and
mapped blocks are data blocks. -/
structure LaidOut (σ : Fs) : Prop where
  inodes_lt : ∀ i, IsInode σ.sb i → IBLOCK i σ.sb < σ.sb.bmapstart
  fits : σ.sb.nmeta ≤ σ.sb.size ∧ σ.sb.size ≤ FSSIZE
  marked : ∀ b < σ.sb.nmeta, σ.used b = true
  data : ∀ i s, IsInode σ.sb i → slotAddr σ.blocks (σ.dinode i) s ≠ 0 →
    IsData σ.sb (slotAddr σ.blocks (σ.dinode i) s)

/-- A disk whose inodes are those of the table `t`, as far as the ownership of blocks goes. -/
structure Good (t : ℕ → Inode) (σ : Fs) : Prop where
  inodes_lt : ∀ i, IsInode σ.sb i → IBLOCK i σ.sb < σ.sb.bmapstart
  fits : σ.sb.nmeta ≤ σ.sb.size ∧ σ.sb.size ≤ FSSIZE
  marked : ∀ b < σ.sb.nmeta, σ.used b = true
  data : ∀ i s, IsInode σ.sb i → slotAddr σ.blocks (t i) s ≠ 0 →
    IsData σ.sb (slotAddr σ.blocks (t i) s)
  distinct : ∀ i s i' s', IsInode σ.sb i → IsInode σ.sb i' → slotAddr σ.blocks (t i) s ≠ 0 →
    slotAddr σ.blocks (t i) s = slotAddr σ.blocks (t i') s' → i = i' ∧ s = s'
  used : ∀ i s, IsInode σ.sb i → slotAddr σ.blocks (t i) s ≠ 0 →
    σ.used (slotAddr σ.blocks (t i) s) = true

theorem Consistent.good {σ : Fs} (h : Consistent σ) (h' : LaidOut σ) : Good σ.dinode σ :=
  ⟨h'.inodes_lt, h'.fits, h'.marked, h'.data, h.distinct, h.used⟩

theorem Good.size_lt {t : ℕ → Inode} {σ : Fs} (h : Good t σ) : σ.sb.size < 2 ^ 32 :=
  Nat.lt_of_le_of_lt h.fits.2 (by decide)

/-- The free blocks. -/
def Fs.freeBlocks (σ : Fs) : Finset ℕ :=
  (Finset.range σ.sb.size).filter fun b => σ.used b = false

/-! ## Allocating a block -/

section Alloc

variable {t : ℕ → Inode} {σ σ' : Fs} {i x y : ℕ} {ip ip' : Inode} {s : Slot}

theorem BBLOCK_lt {sb : Superblock} (h : y < sb.size) : BBLOCK y sb < sb.nmeta := by
  have hdiv : y / BPB ≤ sb.size / BPB := Nat.div_le_div_right (Nat.le_of_lt h)
  unfold BBLOCK Superblock.nmeta
  omega

/-- The disk is so small that the bitmap is one block. -/
theorem Good.BBLOCK_eq (h : Good t σ) (hy : y < σ.sb.size) : BBLOCK y σ.sb = σ.sb.bmapstart := by
  have hsize := h.fits.2
  unfold FSSIZE at hsize
  unfold BBLOCK BPB BSIZE
  omega

/-- Every address is that of a block on the disk. -/
theorem Good.slotAddr_lt (h : Good t σ) (hi : IsInode σ.sb i) (s : Slot) :
    slotAddr σ.blocks (t i) s < FSSIZE := by
  by_cases hzero : slotAddr σ.blocks (t i) s = 0
  · rw [hzero]
    decide
  · exact Nat.lt_of_lt_of_le (h.data i s hi hzero).2 h.fits.2

/-- `x` was a free data block; it is zeroed and marked, and nothing else changes in the data blocks
and the inodes. -/
structure Allocates (σ : Fs) (x : ℕ) (σ' : Fs) : Prop where
  sb_eq : σ'.sb = σ.sb
  isData : IsData σ.sb x
  free : σ.used x = false
  zeroed : σ'.blocks x = fun _ => 0
  data_eq : ∀ y, IsData σ.sb y → y ≠ x → σ'.blocks y = σ.blocks y
  inodes_eq : ∀ y < σ.sb.bmapstart, σ'.blocks y = σ.blocks y
  used_eq : ∀ y < σ.sb.size, σ'.used y = (decide (x = y) || σ.used y)
  log_eq : σ'.log = (σ.log.write σ.sb σ.sb.bmapstart).write σ.sb x

/-- `balloc` allocates, if there is a free block. -/
theorem Good.balloc (h : Good t σ) (hfree : σ.freeBlocks.Nonempty) :
    ∃ x σ', σ.balloc = some (x, σ') ∧ Allocates σ x σ' := by
  obtain ⟨x, hfind⟩ : ∃ x, (List.range σ.sb.size).find? (fun b => !σ.used b) = some x := by
    rw [← Option.isSome_iff_exists, List.find?_isSome]
    obtain ⟨b, hb⟩ := hfree
    obtain ⟨hlt, hunused⟩ := Finset.mem_filter.mp hb
    exact ⟨b, List.mem_range.mpr (Finset.mem_range.mp hlt), by simp [hunused]⟩
  have hlt : x < σ.sb.size := List.mem_range.mp (List.mem_of_find?_eq_some hfind)
  have hunused : σ.used x = false := by simpa using List.find?_some hfind
  have hdata : σ.sb.nmeta ≤ x := by
    by_contra hmeta
    rw [h.marked x (by omega)] at hunused
    cases hunused
  have hbb : BBLOCK x σ.sb < σ.sb.nmeta := BBLOCK_lt hlt
  have hbmap : σ.sb.bmapstart ≤ BBLOCK x σ.sb := Nat.le_add_left _ _
  have hballoc : σ.balloc = some (x, (σ.setBlock (BBLOCK x σ.sb)
      (setBit (σ.blocks (BBLOCK x σ.sb)) (x % BPB))).bzero x) := by
    rw [Fs.balloc, hfind]
  refine ⟨x, _, hballoc, rfl, ⟨hdata, hlt⟩, hunused, Fs.setBlock_self .., ?_, ?_, ?_,
    by rw [← h.BBLOCK_eq hlt]; rfl⟩
  · intro y hy hne
    have hy' : y ≠ BBLOCK x σ.sb := by
      have := hy.1
      omega
    rw [Fs.bzero, Fs.setBlock_of_ne hne, Fs.setBlock_of_ne hy']
  · intro y hy
    have hne : y ≠ x := by
      have := σ.sb.bmapstart_lt_nmeta
      omega
    have hy' : y ≠ BBLOCK x σ.sb := by omega
    rw [Fs.bzero, Fs.setBlock_of_ne hne, Fs.setBlock_of_ne hy']
  · intro y hy
    have hne : BBLOCK y σ.sb ≠ x := by
      have := BBLOCK_lt hy
      omega
    unfold Fs.used
    simp only [Fs.bzero, Fs.setBlock_sb, Fs.setBlock_of_ne hne]
    by_cases hsame : BBLOCK y σ.sb = BBLOCK x σ.sb
    · have hbits : decide (x % BPB = y % BPB) = decide (x = y) := by
        refine decide_eq_decide.mpr ⟨fun hmod => ?_, fun heq => by rw [heq]⟩
        have hdiv : y / BPB = x / BPB := by
          unfold BBLOCK at hsame
          omega
        rw [← Nat.div_add_mod x BPB, ← Nat.div_add_mod y BPB, hdiv, hmod]
      rw [hsame, Fs.setBlock_self, getBit_setBit, hbits]
    · have hxy : x ≠ y := fun heq => hsame (by rw [heq])
      rw [Fs.setBlock_of_ne hsame]
      simp [hxy]

/-- The number of slots in `T` that have no address. -/
def missing (blocks : ℕ → Block) (ip : Inode) (T : Finset Slot) : ℕ :=
  (T.filter fun s => slotAddr blocks ip s = 0).card

/-- The blocks that the slots in `T` lack are free, and `r` more. -/
def Enough (σ : Fs) (ip : Inode) (T : Finset Slot) (r : ℕ) : Prop :=
  missing σ.blocks ip T + r ≤ σ.freeBlocks.card

/-- From `σ` to `σ'`, `log_write` was called for the bitmap and for blocks in the slots `T`. -/
def Logs (T : Finset Slot) (σ σ' : Fs) (ip' : Inode) : Prop :=
  ∃ bs : List ℕ, σ'.log = bs.foldl (Log.write σ.sb) σ.log ∧
    ∀ b ∈ bs, b = σ.sb.bmapstart ∨ ∃ s ∈ T, slotAddr σ'.blocks ip' s = b ∧ b ≠ 0

/-- From the disk `σ` with `ip` as inode number `i`, blocks have been allocated for slots of this
inode in `T`; there are still enough for all of them. -/
structure Extends (t : ℕ → Inode) (i : ℕ) (T : Finset Slot) (r : ℕ) (σ : Fs) (ip : Inode)
    (σ' : Fs) (ip' : Inode) : Prop where
  sb_eq : σ'.sb = σ.sb
  good : Good (update t i ip') σ'
  enough : Enough σ' ip' T r
  inode_eq : ip' = { ip with addrs := ip'.addrs }
  keeps : ∀ s, slotAddr σ.blocks ip s ≠ 0 → slotAddr σ'.blocks ip' s = slotAddr σ.blocks ip s
  outside : ∀ s ∉ T, slotAddr σ'.blocks ip' s = slotAddr σ.blocks ip s
  fresh : ∀ s ≠ .indirect, slotAddr σ.blocks ip s = 0 → slotAddr σ'.blocks ip' s ≠ 0 →
    σ'.blocks (slotAddr σ'.blocks ip' s) = fun _ => 0
  /-- Only the block of indirect addresses of this inode may have changed. -/
  frame : ∀ y, IsData σ.sb y → σ.used y = true → y ≠ slotAddr σ.blocks ip .indirect →
    σ'.blocks y = σ.blocks y ∧ σ'.used y = true ∧ y ≠ slotAddr σ'.blocks ip' .indirect
  inodes_eq : ∀ y < σ.sb.bmapstart, σ'.blocks y = σ.blocks y
  logs : Logs T σ σ' ip'

variable {T : Finset Slot} {r : ℕ}
variable {b bn j : ℕ} {blocks : ℕ → Block} {σ₁ : Fs}

theorem Extends.refl (h : Good (update t i ip) σ)
    (henough : Enough σ ip T r) : Extends t i T r σ ip σ ip :=
  ⟨rfl, h, henough, rfl, fun _ _ => rfl, fun _ _ => rfl, fun _ _ hzero hne => absurd hzero hne,
    fun _ _ hused hne => ⟨rfl, hused, hne⟩, fun _ _ => rfl, [], rfl, by simp⟩

/-- The calls of two parts, one after the other. -/
theorem Logs.trans {σ'' : Fs} {ip'' : Inode} (h : Logs T σ σ' ip') (h' : Logs T σ' σ'' ip'')
    (hsb : σ'.sb = σ.sb) (hkeeps : ∀ s, slotAddr σ'.blocks ip' s ≠ 0 →
      slotAddr σ''.blocks ip'' s = slotAddr σ'.blocks ip' s) : Logs T σ σ'' ip'' := by
  obtain ⟨bs, hlog, hbs⟩ := h
  obtain ⟨bs', hlog', hbs'⟩ := h'
  rw [hsb] at hlog' hbs'
  refine ⟨bs ++ bs', by rw [hlog', hlog, List.foldl_append], fun b hb => ?_⟩
  rcases List.mem_append.mp hb with hb | hb
  · -- a block stays in its slot
    refine (hbs b hb).imp_right ?_
    rintro ⟨s, hs, rfl, hne⟩
    exact ⟨s, hs, hkeeps s hne, hne⟩
  · exact hbs' b hb

theorem Extends.trans {σ'' : Fs} {ip'' : Inode} (hi : IsInode σ.sb i)
    (h : Extends t i T r σ ip σ' ip') (h' : Extends t i T r σ' ip' σ'' ip'') :
    Extends t i T r σ ip σ'' ip'' where
  sb_eq := h'.sb_eq.trans h.sb_eq
  good := h'.good
  enough := h'.enough
  inode_eq := by rw [h'.inode_eq, h.inode_eq]
  keeps s hs := by
    have hmid := h.keeps s hs
    rw [h'.keeps s (by rwa [hmid]), hmid]
  outside s hs := by rw [h'.outside s hs, h.outside s hs]
  fresh s hs hzero hne := by
    by_cases hmid : slotAddr σ'.blocks ip' s = 0
    · exact h'.fresh s hs hmid hne
    · -- the first part allocated the block, and the second part left it alone
      have hdata := h.good.data i s (by rwa [h.sb_eq])
      have hused := h.good.used i s (by rwa [h.sb_eq])
      have hown := h.good.distinct i s i .indirect (by rwa [h.sb_eq]) (by rwa [h.sb_eq])
      rw [update_self] at hdata hused hown
      rw [h'.keeps s hmid, ← h.fresh s hs hzero hmid]
      exact (h'.frame _ (hdata hmid) (hused hmid) fun heq => hs (hown hmid heq).2).1
  frame y hy hused hne := by
    obtain ⟨hblock, hused', hne'⟩ := h.frame y hy hused hne
    obtain ⟨hblock', hused'', hne''⟩ := h'.frame y (by rwa [h.sb_eq]) hused' hne'
    exact ⟨hblock'.trans hblock, hused'', hne''⟩
  inodes_eq y hy := by rw [h'.inodes_eq y (by rwa [h.sb_eq]), h.inodes_eq y hy]
  logs := h.logs.trans h'.logs h.sb_eq h'.keeps

/-- The slots of an inode depend on its addresses and on its block of indirect addresses. -/
theorem slotAddr_congr {blocks' : ℕ → Block} (haddrs : ip'.addrs = ip.addrs)
    (h : slotAddr blocks ip .indirect ≠ 0 →
      blocks' (slotAddr blocks ip .indirect) = blocks (slotAddr blocks ip .indirect)) (s : Slot) :
    slotAddr blocks' ip' s = slotAddr blocks ip s := by
  cases s with
  | direct | indirect => exact congrFun haddrs _
  | entry =>
    rw [slotAddr, slotAddr, haddrs]
    split_ifs with hzero
    · rfl
    · exact congrArg (getLE · _ 4) (h hzero)

/-- A good disk stays one while the slots of all inodes and the bitmap do not change. -/
theorem Good.of_slots {t' : ℕ → Inode} (h : Good t σ) (hsb : σ'.sb = σ.sb)
    (hslot : ∀ i, IsInode σ.sb i → ∀ s, slotAddr σ'.blocks (t' i) s = slotAddr σ.blocks (t i) s)
    (hused : ∀ b, b < σ.sb.nmeta ∨ b < σ.sb.size → σ'.used b = σ.used b) : Good t' σ' := by
  refine ⟨?_, ?_, fun b hb => ?_, fun i s hi hne => ?_, fun i s i' s' hi hi' hne heq => ?_,
    fun i s hi hne => ?_⟩ <;> rw [hsb] at *
  · exact h.inodes_lt
  · exact h.fits
  · rw [hused b (.inl hb), h.marked b hb]
  · rw [hslot i hi] at hne ⊢
    exact h.data i s hi hne
  · rw [hslot i hi] at hne heq
    rw [hslot i' hi'] at heq
    exact h.distinct i s i' s' hi hi' hne heq
  · rw [hslot i hi] at hne ⊢
    rw [hused _ (.inr (h.data i s hi hne).2), h.used i s hi hne]

/-- The slots of another inode do not change while a block of this one changes that is not a block
of indirect addresses of the other one. -/
theorem Good.slotAddr_of_ne (h : Good (update t i ip) σ) (hi : IsInode σ.sb i)
    {blocks' : ℕ → Block} (hframe : ∀ y, IsData σ.sb y → σ.used y = true →
      y ≠ slotAddr σ.blocks ip .indirect → blocks' y = σ.blocks y)
    (hj : IsInode σ.sb j) (hne : j ≠ i) (s : Slot) :
    slotAddr blocks' (t j) s = slotAddr σ.blocks (t j) s := by
  rw [← update_of_ne hne ip t]
  -- the other inode has a block of indirect addresses of its own
  refine slotAddr_congr rfl (fun hmapped => hframe _ (h.data j _ hj hmapped)
    (h.used j _ hj hmapped) fun heq => hne (h.distinct j _ i .indirect hj hi hmapped ?_).1) s
  rw [heq, update_self]

theorem Allocates.ne_zero (halloc : Allocates σ x σ') : x ≠ 0 := by
  have := σ.sb.bmapstart_lt_nmeta
  have := halloc.isData.1
  omega

section

variable (halloc : Allocates σ x σ₁) (hsb : σ'.sb = σ.sb)
variable (hused : ∀ y < σ.sb.size, σ'.used y = (decide (x = y) || σ.used y))
include halloc hsb hused

/-- A good disk stays one when a free block is put into one slot. -/
theorem Good.insert {t' : ℕ → Inode} (h : Good t σ)
    (haddr : ∀ j s', IsInode σ.sb j → slotAddr σ'.blocks (t' j) s' =
      if j = i ∧ s' = s then x else slotAddr σ.blocks (t j) s') : Good t' σ' := by
  have hx : x < σ.sb.size := halloc.isData.2
  have hmeta : σ.sb.nmeta ≤ x := halloc.isData.1
  have hfresh : ∀ j s', IsInode σ.sb j → slotAddr σ.blocks (t j) s' ≠ 0 →
      slotAddr σ.blocks (t j) s' ≠ x := by
    intro j s' hj hne heq
    have htrue := h.used j s' hj hne
    rw [heq, halloc.free] at htrue
    cases htrue
  refine ⟨?_, ?_, fun b hb => ?_, fun j s' hj hne => ?_, fun j s' j' s'' hj hj' hne heq => ?_,
    fun j s' hj hne => ?_⟩ <;> rw [hsb] at *
  · exact h.inodes_lt
  · exact h.fits
  · rw [hused b (by omega), h.marked b hb, Bool.or_true]
  · rw [haddr j s' hj] at hne ⊢
    split_ifs at hne ⊢
    · exact halloc.isData
    · exact h.data j s' hj hne
  · rw [haddr j s' hj] at hne heq
    rw [haddr j' s'' hj'] at heq
    split_ifs at hne heq with hcase hcase'
    · exact ⟨hcase.1.trans hcase'.1.symm, hcase.2.trans hcase'.2.symm⟩
    · exact absurd heq.symm (hfresh j' s'' hj' (heq ▸ halloc.ne_zero))
    · exact absurd heq (hfresh j s' hj hne)
    · exact h.distinct j s' j' s'' hj hj' hne heq
  · rw [haddr j s' hj] at hne ⊢
    split_ifs at hne ⊢
    · rw [hused x hx]
      simp
    · have hdata := h.data j s' hj hne
      rw [hused _ hdata.2, h.used j s' hj hne, Bool.or_true]

/-- A block that was missing has been taken from the free ones. -/
theorem Enough.insert (henough : Enough σ ip T r) (hs : s ∈ T)
    (hzero : slotAddr σ.blocks ip s = 0) (hslot : slotAddr σ'.blocks ip' s = x)
    (hothers : ∀ s' ≠ s, slotAddr σ'.blocks ip' s' = slotAddr σ.blocks ip s') :
    Enough σ' ip' T r := by
  have hfree : σ'.freeBlocks = σ.freeBlocks.erase x := by
    ext y
    rw [Fs.freeBlocks, Fs.freeBlocks, Finset.mem_filter, Finset.mem_erase, Finset.mem_filter,
      hsb, Finset.mem_range]
    constructor
    · rintro ⟨hy, hunused⟩
      rw [hused y hy] at hunused
      obtain ⟨hxy, hunused⟩ : x ≠ y ∧ σ.used y = false := by simpa using hunused
      exact ⟨hxy.symm, hy, hunused⟩
    · rintro ⟨hxy, hy, hunused⟩
      exact ⟨hy, by rw [hused y hy]; simp [hxy.symm, hunused]⟩
  have hmem : x ∈ σ.freeBlocks :=
    Finset.mem_filter.mpr ⟨Finset.mem_range.mpr halloc.isData.2, halloc.free⟩
  have hslots : (T.filter fun s => slotAddr σ'.blocks ip' s = 0) =
      (T.filter fun s => slotAddr σ.blocks ip s = 0).erase s := by
    ext s'
    rw [Finset.mem_erase, Finset.mem_filter, Finset.mem_filter]
    by_cases hss : s' = s
    · subst hss
      simp [hslot, halloc.ne_zero]
    · simp [hss, hothers s' hss]
  have hmem' : s ∈ T.filter fun s => slotAddr σ.blocks ip s = 0 :=
    Finset.mem_filter.mpr ⟨hs, hzero⟩
  unfold Enough missing at henough ⊢
  have hpos := Finset.card_pos.mpr ⟨s, hmem'⟩
  rw [hfree, hslots, Finset.card_erase_of_mem hmem, Finset.card_erase_of_mem hmem']
  omega

end

/-- Allocating a block for one slot changes no other slot. -/
theorem Good.alloc (h : Good (update t i ip) σ) (hi : IsInode σ.sb i)
    (halloc : Allocates σ x σ₁) (hsb : σ'.sb = σ.sb)
    (hused : ∀ y < σ.sb.size, σ'.used y = σ₁.used y)
    (hs : s ∈ T) (hzero : slotAddr σ.blocks ip s = 0) (hslot : slotAddr σ'.blocks ip' s = x)
    (hzeroed : s ≠ .indirect → σ'.blocks x = fun _ => 0)
    (hothers : ∀ s' ≠ s, slotAddr σ'.blocks ip' s' = slotAddr σ.blocks ip s')
    (hframe : ∀ y, IsData σ.sb y → σ.used y = true → y ≠ slotAddr σ.blocks ip .indirect →
      σ'.blocks y = σ.blocks y) (hinodes : ∀ y < σ.sb.bmapstart, σ'.blocks y = σ.blocks y)
    (hinode : ip' = { ip with addrs := ip'.addrs }) (hlogs : Logs T σ σ' ip')
    (henough : Enough σ ip T r) : Extends t i T r σ ip σ' ip' := by
  have hused' : ∀ y < σ.sb.size, σ'.used y = (decide (x = y) || σ.used y) := fun y hy =>
    (hused y hy).trans (halloc.used_eq y hy)
  refine ⟨hsb, h.insert (i := i) (s := s) halloc hsb hused' fun j s' hj => ?_,
    henough.insert halloc hsb hused' hs hzero hslot hothers, hinode, fun s' hne => ?_,
    fun s' hs' => ?_, fun s' hs' hzero' hne => ?_, fun y hy hused hne => ?_, hinodes, hlogs⟩
  · by_cases hji : j = i
    · subst hji
      rw [update_self, update_self]
      by_cases hss : s' = s
      · rw [if_pos ⟨rfl, hss⟩, hss, hslot]
      · rw [if_neg fun hand => hss hand.2, hothers s' hss]
    · rw [if_neg fun hand => hji hand.1, update_of_ne hji, update_of_ne hji,
        h.slotAddr_of_ne hi hframe hj hji]
  · by_cases hss : s' = s
    · exact absurd (hss ▸ hzero) hne
    · exact hothers s' hss
  · exact hothers s' fun heq => hs' (heq ▸ hs)
  · by_cases hss : s' = s
    · rw [hss, hslot]
      exact hzeroed (hss ▸ hs')
    · rw [hothers s' hss] at hne
      exact absurd hzero' hne
  · refine ⟨hframe y hy hused hne, by rw [hused' y hy.2, hused, Bool.or_true], ?_⟩
    by_cases hss : Slot.indirect = s
    · rw [hss, hslot]
      rintro rfl
      rw [halloc.free] at hused
      cases hused
    · rwa [hothers _ hss]

/-! ## `bmap` -/

theorem slotAddr_setAddr_castSucc (blocks : ℕ → Block) (ip : Inode) (j : Fin NDIRECT) (x : ℕ)
    (s : Slot) : slotAddr blocks (ip.setAddr j.castSucc x) s =
      if s = .direct j then x else slotAddr blocks ip s := by
  have hlast : Fin.last NDIRECT ≠ j.castSucc := (Fin.castSucc_lt_last j).ne'
  cases s with
  | direct k =>
    by_cases hk : k = j
    · simp [slotAddr, Inode.setAddr, hk]
    · simp [slotAddr, Inode.setAddr, hk]
  | indirect | entry => simp [slotAddr, Inode.setAddr, update_of_ne hlast]

/-- A new block of indirect addresses has no entries. -/
theorem slotAddr_setAddr_last {ip : Inode} {x : ℕ}
    (hzero : ip.addrs (Fin.last NDIRECT) = 0) (hx : blocks x = fun _ => 0) (s : Slot) :
    slotAddr blocks (ip.setAddr (Fin.last NDIRECT) x) s =
      if s = .indirect then x else slotAddr blocks ip s := by
  cases s with
  | direct | indirect => simp [slotAddr, Inode.setAddr]
  | entry => simp [slotAddr, Inode.setAddr, hzero, hx]

theorem freeBlocks_nonempty (henough : Enough σ ip T r) (hs : s ∈ T)
    (hzero : slotAddr σ.blocks ip s = 0) : σ.freeBlocks.Nonempty := by
  have hpos : 0 < missing σ.blocks ip T :=
    Finset.card_pos.mpr ⟨s, Finset.mem_filter.mpr ⟨hs, hzero⟩⟩
  unfold Enough at henough
  exact Finset.card_pos.mp (by omega)

/-- Outside the block of indirect addresses, an allocation leaves mapped blocks alone. -/
theorem Allocates.eq_of_used (halloc : Allocates σ x σ₁) (hy : IsData σ.sb y)
    (hused : σ.used y = true) : σ₁.blocks y = σ.blocks y := by
  refine halloc.data_eq y hy ?_
  rintro rfl
  rw [halloc.free] at hused
  cases hused

section

variable (h : Good (update t i ip) σ) (hi : IsInode σ.sb i)
include h hi

/-- An allocation changes no slot. -/
theorem Good.slotAddr_of_allocates (halloc : Allocates σ x σ₁) (s : Slot) :
    slotAddr σ₁.blocks ip s = slotAddr σ.blocks ip s := by
  have hdata := h.data i .indirect hi
  have hused := h.used i .indirect hi
  rw [update_self] at hdata hused
  exact slotAddr_congr rfl (fun hmapped => halloc.eq_of_used (hdata hmapped) (hused hmapped)) s

theorem Good.bmapDirect (henough : Enough σ ip T r) {k : Fin (NDIRECT + 1)}
    (hs : s ∈ T) (hslot : ∀ blocks (ip : Inode), slotAddr blocks ip s = ip.addrs k)
    (hset : ∀ blocks x, ip.addrs k = 0 → blocks x = (fun _ => 0) → ∀ s',
      slotAddr blocks (ip.setAddr k x) s' = if s' = s then x else slotAddr blocks ip s') :
    ∃ addr ip' σ', σ.bmapDirect ip k = some (addr, ip', σ') ∧ Extends t i T r σ ip σ' ip' ∧
      slotAddr σ'.blocks ip' s = addr ∧ addr ≠ 0 := by
  by_cases hzero : ip.addrs k = 0
  · have hzero' : slotAddr σ.blocks ip s = 0 := (hslot _ _).trans hzero
    obtain ⟨x, σ₁, hballoc, halloc⟩ := h.balloc (freeBlocks_nonempty henough hs hzero')
    have haddr := hset σ₁.blocks x hzero halloc.zeroed
    have hself : slotAddr σ₁.blocks (ip.setAddr k x) s = x := by rw [haddr s, if_pos rfl]
    refine ⟨x, ip.setAddr k x, σ₁, ?_, ?_, hself, halloc.ne_zero⟩
    · rw [Fs.bmapDirect, if_pos hzero, hballoc]
      rfl
    · refine h.alloc hi halloc halloc.sb_eq (fun _ _ => rfl) hs hzero'
        hself (fun _ => halloc.zeroed) (fun s' hs' => ?_)
        (fun y hy hused _ => halloc.eq_of_used hy hused) halloc.inodes_eq rfl
        ⟨[σ.sb.bmapstart, x], halloc.log_eq, fun b hb => ?_⟩ henough
      · rw [haddr s', if_neg hs', h.slotAddr_of_allocates hi halloc]
      · rcases List.mem_pair.mp hb with rfl | rfl
        · exact .inl rfl
        · exact .inr ⟨s, hs, hself, halloc.ne_zero⟩
  · refine ⟨ip.addrs k, ip, σ, ?_, .refl h henough, hslot _ _, hzero⟩
    rw [Fs.bmapDirect, if_neg hzero]
    rfl

theorem Good.bmapEntry (henough : Enough σ ip T r) {k : Fin NINDIRECT}
    (hs : .entry k ∈ T) (hT : .indirect ∈ T) {ind : ℕ}
    (hind : slotAddr σ.blocks ip .indirect = ind) (hind0 : ind ≠ 0) :
    ∃ addr σ', σ.bmapEntry ind k = some (addr, σ') ∧ Extends t i T r σ ip σ' ip ∧
      slotAddr σ'.blocks ip (.entry k) = addr ∧ addr ≠ 0 := by
  have hlast : ip.addrs (Fin.last NDIRECT) = ind := hind
  have hentry (blocks : ℕ → Block) (k : Fin NINDIRECT) :
      slotAddr blocks ip (.entry k) = getLE (blocks ind) (4 * k) 4 := by
    rw [slotAddr, hlast, if_neg hind0]
  have hdata : IsData σ.sb ind := by
    have := h.data i .indirect hi (by rwa [update_self, hind])
    rwa [update_self, hind] at this
  have hused : σ.used ind = true := by
    have := h.used i .indirect hi (by rwa [update_self, hind])
    rwa [update_self, hind] at this
  rw [Fs.bmapEntry, Fs.bread_eq (Nat.lt_of_lt_of_le hdata.2 h.fits.2), Option.bind_eq_bind,
    Option.bind_some]
  by_cases hzero : getLE (σ.blocks ind) (4 * k) 4 = 0
  · have hzero' : slotAddr σ.blocks ip (.entry k) = 0 := (hentry _ _).trans hzero
    obtain ⟨x, σ₁, hballoc, halloc⟩ := h.balloc (freeBlocks_nonempty henough hs hzero')
    have hx : x < 256 ^ 4 := Nat.lt_trans halloc.isData.2 h.size_lt
    have hbmap := σ.sb.bmapstart_lt_nmeta
    have hmeta := hdata.1
    have hself : slotAddr (σ₁.setBlock ind (putLE (σ₁.blocks ind) (4 * k) x 4)).blocks ip
        (.entry k) = x := by
      rw [hentry, Fs.setBlock_self, getLE_putLE_of_lt hx]
    refine ⟨x, σ₁.setBlock ind (putLE (σ₁.blocks ind) (4 * k) x 4), ?_, ?_, hself,
      halloc.ne_zero⟩
    · rw [if_pos hzero, hballoc]
      rfl
    · refine h.alloc hi halloc halloc.sb_eq (fun y hy => ?_) hs hzero' hself (fun _ => ?_)
        (fun s' hs' => ?_) (fun y hy hused' hne => ?_) (fun y hy => ?_) rfl
        ⟨[σ.sb.bmapstart, x, ind], ?_, fun b hb => ?_⟩ henough
      · have hlt : BBLOCK y σ.sb < σ.sb.nmeta := BBLOCK_lt hy
        unfold Fs.used
        rw [Fs.setBlock_sb, halloc.sb_eq, Fs.setBlock_of_ne (by omega)]
      · have hne : x ≠ ind := by
          rintro rfl
          rw [halloc.free] at hused
          cases hused
        rw [Fs.setBlock_of_ne hne, halloc.zeroed]
      · cases s' with
        | direct => rfl
        | indirect => rfl
        | entry k' =>
          have hkk : (k' : ℕ) ≠ k := fun heq => hs' (by rw [Fin.ext heq])
          rw [hentry, hentry, Fs.setBlock_self, getLE_putLE_of_disjoint (by omega),
            halloc.eq_of_used hdata hused]
      · rw [Fs.setBlock_of_ne (hind ▸ hne), halloc.eq_of_used hy hused']
      · rw [Fs.setBlock_of_ne (by omega), halloc.inodes_eq y hy]
      · show σ₁.log.write σ₁.sb ind = _
        rw [halloc.sb_eq, halloc.log_eq]
        rfl
      · rcases List.mem_cons.mp hb with rfl | hb
        · exact .inl rfl
        rcases List.mem_pair.mp hb with rfl | rfl
        · exact .inr ⟨_, hs, hself, halloc.ne_zero⟩
        · exact .inr ⟨.indirect, hT, hind, hind0⟩
  · refine ⟨_, σ, ?_, .refl h henough, hentry _ _, hzero⟩
    rw [if_neg hzero]
    rfl

/-- `bmap` returns the address of a block of the file, and allocates this block and the block of
indirect addresses if they are missing. -/
theorem Good.bmap (henough : Enough σ ip T r) (hbn : bn < MAXFILE)
    (hs : slotOf bn hbn ∈ T) (hind : NDIRECT ≤ bn → .indirect ∈ T) :
    ∃ addr ip' σ', σ.bmap ip bn = some (addr, ip', σ') ∧ Extends t i T r σ ip σ' ip' ∧
      addrOf σ'.blocks ip' bn = addr ∧ addr ≠ 0 := by
  by_cases hdirect : bn < NDIRECT
  · have hslot : slotOf bn hbn = .direct ⟨bn, hdirect⟩ := dif_pos hdirect
    rw [hslot] at hs
    obtain ⟨addr, ip', σ', hmap, hext, haddr, hne⟩ := h.bmapDirect hi henough hs
      (fun _ _ => rfl) fun blocks x _ _ => slotAddr_setAddr_castSucc blocks ip _ x
    refine ⟨addr, ip', σ', ?_, hext, ?_, hne⟩
    · rw [Fs.bmap, dif_pos hdirect, hmap]
    · rw [addrOf, dif_pos hbn, hslot, haddr]
  · have hentry : bn - NDIRECT < NINDIRECT := by
      unfold MAXFILE at hbn
      omega
    have hslot : slotOf bn hbn = .entry ⟨bn - NDIRECT, hentry⟩ := dif_neg hdirect
    rw [hslot] at hs
    have hT := hind (Nat.le_of_not_lt hdirect)
    obtain ⟨ind, ip₁, σ₁, hmap₁, hext₁, hind₁, hne₁⟩ := h.bmapDirect hi henough hT (fun _ _ => rfl)
      fun blocks x hzero hx => slotAddr_setAddr_last hzero hx
    obtain ⟨addr, σ', hmap, hext, haddr, hne⟩ := hext₁.good.bmapEntry (by rwa [hext₁.sb_eq])
      hext₁.enough hs hT hind₁ hne₁
    refine ⟨addr, ip₁, σ', ?_, hext₁.trans hi hext, ?_, hne⟩
    · rw [Fs.bmap, dif_neg hdirect, if_pos hentry, hmap₁]
      simp only [Option.bind_eq_bind, Option.bind_some]
      rw [hmap]
      rfl
    · rw [addrOf, dif_pos hbn, hslot, haddr]

end

/-! ## Contents -/

theorem slotOf_ne_indirect (h : bn < MAXFILE) : slotOf bn h ≠ .indirect := by
  unfold slotOf
  split_ifs <;> simp

theorem slotOf_injective {bn' : ℕ} {h : bn < MAXFILE} {h' : bn' < MAXFILE}
    (heq : slotOf bn h = slotOf bn' h') : bn = bn' := by
  unfold slotOf at heq
  split_ifs at heq
  · simpa using heq
  · have := Fin.ext_iff.mp (Slot.entry.inj heq)
    dsimp only at this
    omega

theorem lt_MAXFILE_of_addrOf (h : addrOf blocks ip bn ≠ 0) : bn < MAXFILE := by
  by_contra hge
  exact h (dif_neg hge)

theorem addrOf_eq (h : bn < MAXFILE) : addrOf blocks ip bn = slotAddr blocks ip (slotOf bn h) :=
  dif_pos h

/-- What is known of the block that holds a part of a file. -/
theorem Good.isData_addrOf (h : Good t σ) (hi : IsInode σ.sb i)
    (hne : addrOf σ.blocks (t i) bn ≠ 0) :
    IsData σ.sb (addrOf σ.blocks (t i) bn) ∧ σ.used (addrOf σ.blocks (t i) bn) = true ∧
      ∀ j, IsInode σ.sb j →
        addrOf σ.blocks (t i) bn ≠ slotAddr σ.blocks (t j) .indirect := by
  have hbn := lt_MAXFILE_of_addrOf hne
  rw [addrOf_eq hbn] at hne ⊢
  refine ⟨h.data i _ hi hne, h.used i _ hi hne, fun j hj heq => ?_⟩
  exact slotOf_ne_indirect hbn (h.distinct i _ j _ hi hj hne heq).2

/-- Parts of files that are not the same part lie in different blocks. -/
theorem Good.addrOf_ne (h : Good t σ) (hi : IsInode σ.sb i) {bn' : ℕ} (hj : IsInode σ.sb j)
    (hne : addrOf σ.blocks (t i) bn ≠ 0) (hdiff : i ≠ j ∨ bn ≠ bn') :
    addrOf σ.blocks (t i) bn ≠ addrOf σ.blocks (t j) bn' := by
  intro heq
  have hbn := lt_MAXFILE_of_addrOf hne
  have hbn' := lt_MAXFILE_of_addrOf (heq ▸ hne)
  rw [addrOf_eq hbn] at hne heq
  rw [addrOf_eq hbn'] at heq
  obtain ⟨hij, hslot⟩ := h.distinct i _ j _ hi hj hne heq
  exact hdiff.elim (fun hdiff => hdiff hij) fun hdiff => hdiff (slotOf_injective hslot)

/-- From `σ` to `σ'` the bytes `src` are written at `off` to the inode number `i`. -/
structure Wrote (t : ℕ → Inode) (i : ℕ) (T : Finset Slot) (r off : ℕ) (src : List UInt8) (σ : Fs)
    (ip : Inode) (σ' : Fs) (ip' : Inode) : Prop where
  sb_eq : σ'.sb = σ.sb
  good : Good (update t i ip') σ'
  enough : Enough σ' ip' T r
  inode_eq : ip' = { ip with addrs := ip'.addrs }
  inodes_eq : ∀ y < σ.sb.bmapstart, σ'.blocks y = σ.blocks y
  keeps : ∀ s, slotAddr σ.blocks ip s ≠ 0 → slotAddr σ'.blocks ip' s = slotAddr σ.blocks ip s
  mapped_new : ∀ p, off ≤ p → p < off + src.length → addrOf σ'.blocks ip' (p / BSIZE) ≠ 0
  written : ∀ k (hk : k < src.length), byteAt σ'.blocks ip' (off + k) = src[k]
  kept : ∀ p, p < off ∨ off + src.length ≤ p → addrOf σ.blocks ip (p / BSIZE) ≠ 0 →
    byteAt σ'.blocks ip' p = byteAt σ.blocks ip p
  fresh : ∀ p, p < off ∨ off + src.length ≤ p → addrOf σ.blocks ip (p / BSIZE) = 0 →
    addrOf σ'.blocks ip' (p / BSIZE) ≠ 0 → byteAt σ'.blocks ip' p = 0
  outside : ∀ s ∉ T, slotAddr σ'.blocks ip' s = slotAddr σ.blocks ip s
  slot_eq : ∀ j, IsInode σ.sb j → j ≠ i → ∀ s,
    slotAddr σ'.blocks (t j) s = slotAddr σ.blocks (t j) s
  byte_eq : ∀ j, IsInode σ.sb j → j ≠ i → ∀ p, addrOf σ.blocks (t j) (p / BSIZE) ≠ 0 →
    byteAt σ'.blocks (t j) p = byteAt σ.blocks (t j) p
  logs : Logs T σ σ' ip'

theorem Wrote.mapped {off : ℕ} {src : List UInt8} (h : Wrote t i T r off src σ ip σ' ip') (bn : ℕ)
    (hne : addrOf σ.blocks ip bn ≠ 0) : addrOf σ'.blocks ip' bn ≠ 0 := by
  have hbn := lt_MAXFILE_of_addrOf hne
  rw [addrOf_eq hbn] at hne ⊢
  rwa [h.keeps _ hne]

theorem addrOf_congr {blocks' : ℕ → Block}
    (h : ∀ s, slotAddr blocks' ip' s = slotAddr blocks ip s) (bn : ℕ) :
    addrOf blocks' ip' bn = addrOf blocks ip bn := by
  unfold addrOf
  split_ifs
  · exact h _
  · rfl

/-- Allocating blocks writes nothing. -/
theorem Extends.wrote (hext : Extends t i T r σ ip σ' ip') (h : Good (update t i ip) σ)
    (hi : IsInode σ.sb i) (off : ℕ) : Wrote t i T r off [] σ ip σ' ip' := by
  have haddr : ∀ bn, addrOf σ.blocks ip bn ≠ 0 →
      addrOf σ'.blocks ip' bn = addrOf σ.blocks ip bn := by
    intro bn hne
    have hbn := lt_MAXFILE_of_addrOf hne
    rw [addrOf_eq hbn] at hne
    rw [addrOf_eq hbn, addrOf_eq hbn, hext.keeps _ hne]
  have hslot : ∀ j, IsInode σ.sb j → j ≠ i → ∀ s,
      slotAddr σ'.blocks (t j) s = slotAddr σ.blocks (t j) s := fun j hj hji =>
    h.slotAddr_of_ne hi (fun y hy hused hne => (hext.frame y hy hused hne).1) hj hji
  refine ⟨hext.sb_eq, hext.good, hext.enough, hext.inode_eq, hext.inodes_eq,
    hext.keeps, fun p hp hp' => ?_, fun k hk => ?_, fun p _ hne => ?_,
    fun p _ hzero hne => ?_, hext.outside, hslot, fun j hj hji p hne => ?_, hext.logs⟩
  · simp only [List.length_nil] at hp'
    omega
  · simp at hk
  · have hne' : addrOf σ.blocks (update t i ip i) (p / BSIZE) ≠ 0 := by
      rwa [update_self]
    have hblock := h.isData_addrOf hi hne'
    rw [update_self] at hblock
    obtain ⟨hdata, hused, hind⟩ := hblock
    have hown := hind i hi
    rw [update_self] at hown
    rw [byteAt, byteAt, haddr _ hne, (hext.frame _ hdata hused hown).1]
  · have hbn := lt_MAXFILE_of_addrOf hne
    rw [addrOf_eq hbn] at hzero hne
    rw [byteAt, addrOf_eq hbn, hext.fresh _ (slotOf_ne_indirect hbn) hzero hne]
  · have hne' : addrOf σ.blocks (update t i ip j) (p / BSIZE) ≠ 0 := by
      rwa [update_of_ne hji]
    have hblock := h.isData_addrOf hj hne'
    rw [update_of_ne hji] at hblock
    obtain ⟨hdata, hused, hind⟩ := hblock
    have hown := hind i hi
    rw [update_self] at hown
    rw [byteAt, byteAt, addrOf_congr (hslot j hj hji), (hext.frame _ hdata hused hown).1]

/-- Two writes, one behind the other. -/
theorem Wrote.trans {off : ℕ} {src src' : List UInt8} {σ'' : Fs} {ip'' : Inode}
    (h : Wrote t i T r off src σ ip σ' ip')
    (h' : Wrote t i T r (off + src.length) src' σ' ip' σ'' ip'') :
    Wrote t i T r off (src ++ src') σ ip σ'' ip'' where
  sb_eq := h'.sb_eq.trans h.sb_eq
  good := h'.good
  enough := h'.enough
  inode_eq := by rw [h'.inode_eq, h.inode_eq]
  inodes_eq y hy := by rw [h'.inodes_eq y (by rwa [h.sb_eq]), h.inodes_eq y hy]
  keeps s hs := by
    have hmid := h.keeps s hs
    rw [h'.keeps s (by rwa [hmid]), hmid]
  mapped_new p hp hp' := by
    rw [List.length_append] at hp'
    by_cases hfirst : p < off + src.length
    · exact h'.mapped _ (h.mapped_new p hp hfirst)
    · exact h'.mapped_new p (by omega) (by omega)
  written k hk := by
    by_cases hfirst : k < src.length
    · rw [List.getElem_append_left hfirst,
        h'.kept _ (.inl (by omega)) (h.mapped_new _ (by omega) (by omega)), h.written k hfirst]
    · rw [List.length_append] at hk
      rw [List.getElem_append_right (by omega), ← h'.written (k - src.length) (by omega)]
      congr 1
      omega
  kept p hp hne := by
    rw [List.length_append] at hp
    rw [h'.kept p (by omega) (h.mapped _ hne), h.kept p (by omega) hne]
  fresh p hp hzero hne := by
    rw [List.length_append] at hp
    by_cases hmid : addrOf σ'.blocks ip' (p / BSIZE) = 0
    · exact h'.fresh p (by omega) hmid hne
    · rw [h'.kept p (by omega) hmid, h.fresh p (by omega) hzero hmid]
  outside s hs := by rw [h'.outside s hs, h.outside s hs]
  slot_eq j hj hji s := by rw [h'.slot_eq j (by rwa [h.sb_eq]) hji s, h.slot_eq j hj hji s]
  byte_eq j hj hji p hne := by
    have hne' : addrOf σ'.blocks (t j) (p / BSIZE) ≠ 0 := by
      rwa [addrOf_congr (h.slot_eq j hj hji)]
    rw [h'.byte_eq j (by rwa [h.sb_eq]) hji p hne', h.byte_eq j hj hji p hne]
  logs := h.logs.trans h'.logs h.sb_eq h'.keeps

/-- Writing to the block of one file changes no slot. -/
theorem Good.slotAddr_setBlock (h : Good t σ) (hi : IsInode σ.sb i)
    (hb : addrOf σ.blocks (t i) bn = b) (hb0 : b ≠ 0) (data : Block)
    (hj : IsInode σ.sb j) (s : Slot) :
    slotAddr (σ.setBlock b data).blocks (t j) s = slotAddr σ.blocks (t j) s :=
  slotAddr_congr rfl (fun _ => Fs.setBlock_of_ne (fun heq =>
    (h.isData_addrOf hi (hb.trans_ne hb0)).2.2 j hj (hb.trans heq.symm)) data) s

theorem Good.used_setBlock (h : Good t σ) (hi : IsInode σ.sb i)
    (hb : addrOf σ.blocks (t i) bn = b) (hb0 : b ≠ 0) (data : Block) (hy : y < σ.sb.size) :
    (σ.setBlock b data).used y = σ.used y := by
  have hmeta := (h.isData_addrOf hi (hb.trans_ne hb0)).1.1
  have hlt := BBLOCK_lt hy
  unfold Fs.used
  rw [Fs.setBlock_sb, Fs.setBlock_of_ne (by omega)]

/-- Copying bytes into the block of one file changes the content of that file. -/
theorem Good.wrote (h : Good (update t i ip) σ) (hi : IsInode σ.sb i)
    (henough : Enough σ ip T r) {o : ℕ}
    (hb : addrOf σ.blocks ip bn = b) (hb0 : b ≠ 0) (hT : ∀ hbn, slotOf bn hbn ∈ T)
    {data : List UInt8} (hle : o + data.length ≤ BSIZE) :
    Wrote t i T r (bn * BSIZE + o) data σ ip (σ.setBlock b (overlay (σ.blocks b) o data)) ip := by
  have hb' : addrOf σ.blocks (update t i ip i) bn = b := by
    rwa [update_self]
  have hslot : ∀ j, IsInode σ.sb j → ∀ s,
      slotAddr (σ.setBlock b (overlay (σ.blocks b) o data)).blocks (update t i ip j) s =
        slotAddr σ.blocks (update t i ip j) s := fun j hj =>
    h.slotAddr_setBlock hi hb' hb0 _ hj
  have hslot' := hslot i hi
  simp only [update_self] at hslot'
  have hother : ∀ j, IsInode σ.sb j → j ≠ i → ∀ s,
      slotAddr (σ.setBlock b (overlay (σ.blocks b) o data)).blocks (t j) s =
        slotAddr σ.blocks (t j) s := by
    intro j hj hji s
    have := hslot j hj s
    rwa [update_of_ne hji] at this
  have hused : ∀ y < σ.sb.size,
      (σ.setBlock b (overlay (σ.blocks b) o data)).used y = σ.used y := fun y =>
    h.used_setBlock hi hb' hb0 _
  have hdata : IsData σ.sb b := hb' ▸ (h.isData_addrOf hi (hb'.trans_ne hb0)).1
  have hmeta := hdata.1
  have hsize := hdata.2
  have hbmap := σ.sb.bmapstart_lt_nmeta
  have hin : ∀ p, bn * BSIZE + o ≤ p → p < bn * BSIZE + o + data.length →
      p / BSIZE = bn ∧ p % BSIZE = p - bn * BSIZE := by
    intro p hp hp'
    unfold BSIZE at *
    omega
  refine ⟨rfl, h.of_slots rfl hslot fun y hy => hused y (by omega), ?_, rfl, ?_,
    fun s _ => hslot' s, ?_, ?_, ?_, ?_, fun s _ => hslot' s, hother, ?_, [b], rfl,
    fun b' hb' => .inr ?_⟩
  · have hfree : (σ.setBlock b (overlay (σ.blocks b) o data)).freeBlocks = σ.freeBlocks :=
      Finset.filter_congr fun y hy => by rw [hused y (Finset.mem_range.mp hy)]
    unfold Enough missing at henough ⊢
    simp only [hfree, hslot']
    exact henough
  · intro y hy
    rw [Fs.setBlock_of_ne (by omega)]
  · intro p hp hp'
    rw [(hin p hp hp').1, addrOf_congr hslot', hb]
    exact hb0
  · intro k hk
    obtain ⟨hdiv, hmod⟩ := hin (bn * BSIZE + o + k) (by omega) (by omega)
    rw [byteAt, hdiv, addrOf_congr hslot', hb, Fs.setBlock_self, hmod,
      ← overlay_of_mem (m := σ.blocks b) (o := o) hk]
    congr 1
    omega
  · intro p hp hne
    rw [byteAt, byteAt, addrOf_congr hslot']
    by_cases hdiv : p / BSIZE = bn
    · rw [hdiv, hb, Fs.setBlock_self, overlay_of_notMem]
      unfold BSIZE at *
      omega
    · have hne' : addrOf σ.blocks (update t i ip i) (p / BSIZE) ≠ 0 := by
        rwa [update_self]
      have hdiff := h.addrOf_ne hi hi hne' (.inr hdiv)
      rw [update_self, hb] at hdiff
      rw [Fs.setBlock_of_ne hdiff]
  · intro p _ hzero hne
    rw [addrOf_congr hslot'] at hne
    exact absurd hzero hne
  · intro j hj hji p hne
    have hne' : addrOf σ.blocks (update t i ip j) (p / BSIZE) ≠ 0 := by
      rwa [update_of_ne hji]
    have hdiff := h.addrOf_ne hj hi hne' (Or.inl hji : j ≠ i ∨ p / BSIZE ≠ bn)
    rw [update_of_ne hji, update_self, hb] at hdiff
    rw [byteAt, byteAt, addrOf_congr (hother j hj hji), Fs.setBlock_of_ne hdiff]
  · obtain rfl := List.mem_singleton.mp hb'
    have hbn := lt_MAXFILE_of_addrOf (hb.trans_ne hb0)
    exact ⟨slotOf bn hbn, hT hbn, by rw [hslot', ← addrOf_eq hbn, hb], hb0⟩

end Alloc

end FileSystem
