import Mathlib
import OsnAssignments.FileSystem.Mkfs
import OsnAssignments.FileSystem.ReadWrite

/-!
# Appending to a file of the image

While `mkfs` runs, the bitmap of its image is still empty. If it were to stop at some point and
write the bitmap, the kernel would find a disk on which `balloc` returns the next block that `mkfs`
gives out (`balloc_image`). On this disk `iappend` does what `writei` does at the end of the file
(`Building.iappend`), so that all that is known of `writei` carries over.
-/

namespace FileSystem.Mkfs

open Bytes Function

variable {r : ℕ} {src : List UInt8}

/-- The image that `mkfs` would leave if it wrote the bitmap now. -/
def State.image (m : State) : Fs where
  sb := sb
  blocks := update m.sectors sb.bmapstart (State.bitmap m.freeblock)
  log := .off

/-- The sectors that have not been given out are data sectors and zero. -/
structure Building (m : State) : Prop where
  nmeta_le : nmeta ≤ m.freeblock
  le_FSSIZE : m.freeblock ≤ FSSIZE
  zero : ∀ y, m.freeblock ≤ y → m.sectors y = fun _ => 0

section Image

variable {m : State}
variable {sec x : ℕ} {t : ℕ → Inode} {din din' : Inode}

@[simp]
theorem image_sb (m : State) : m.image.sb = sb := rfl

theorem image_blocks (m : State) :
    m.image.blocks = update m.sectors sb.bmapstart (State.bitmap m.freeblock) := rfl

theorem image_bmapstart (m : State) : m.image.blocks sb.bmapstart = State.bitmap m.freeblock := by
  rw [image_blocks, update_self]

theorem image_of_ne (h : sec ≠ sb.bmapstart) (m : State) : m.image.blocks sec = m.sectors sec := by
  rw [image_blocks, update_of_ne h]

theorem nmeta_sb : sb.nmeta = nmeta := rfl

theorem bmapstart_lt_nmeta : sb.bmapstart < nmeta := by decide

theorem BBLOCK_sb {b : ℕ} (h : b < FSSIZE) : BBLOCK b sb = sb.bmapstart := by
  have hdiv : b / BPB = 0 := by
    unfold FSSIZE at h
    unfold BPB BSIZE
    omega
  rw [BBLOCK, hdiv, Nat.zero_add]

theorem bitmap_succ (n : ℕ) : State.bitmap (n + 1) = setBit (State.bitmap n) n := by
  rw [State.bitmap, List.range_succ, List.foldl_append]
  rfl

theorem getBit_bitmap (n j : ℕ) : getBit (State.bitmap n) j = decide (j < n) := by
  induction n with
  | zero => simp [State.bitmap, getBit]
  | succ n ih =>
    rw [bitmap_succ, getBit_setBit, ih, ← Bool.decide_or]
    exact decide_eq_decide.mpr (by omega)

theorem used_image (m : State) {b : ℕ} (h : b < FSSIZE) :
    m.image.used b = decide (b < m.freeblock) := by
  have hmod : b % BPB = b := Nat.mod_eq_of_lt (by
    unfold FSSIZE at h
    unfold BPB BSIZE
    omega)
  unfold Fs.used
  rw [hmod, image_sb, BBLOCK_sb h, image_bmapstart, getBit_bitmap]

theorem card_freeBlocks_image (m : State) : m.image.freeBlocks.card = FSSIZE - m.freeblock := by
  have heq : m.image.freeBlocks = Finset.Ico m.freeblock FSSIZE := by
    ext b
    show b ∈ (Finset.range FSSIZE).filter _ ↔ _
    rw [Finset.mem_filter, Finset.mem_range, Finset.mem_Ico]
    constructor
    · rintro ⟨hlt, hused⟩
      rw [used_image m hlt] at hused
      exact ⟨Nat.le_of_not_lt (of_decide_eq_false hused), hlt⟩
    · rintro ⟨hle, hlt⟩
      refine ⟨hlt, ?_⟩
      rw [used_image m hlt]
      exact decide_eq_false (Nat.not_lt.mpr hle)
  rw [heq, Nat.card_Ico]

theorem wsect_image (h : sec ≠ sb.bmapstart) (m : State) (buf : Block) :
    (m.wsect sec buf).image = m.image.setBlock sec buf := by
  refine Fs.ext rfl ?_ rfl
  show update (update m.sectors sec buf) sb.bmapstart _ = _
  rw [update_comm h]
  rfl

theorem rsect_image (h : sec ≠ sb.bmapstart) (hlt : sec < FSSIZE) (m : State) :
    m.rsect sec = some (m.image.blocks sec) := by
  rw [State.rsect, if_pos hlt, image_of_ne h]

theorem Building.nextBlock (h : Building m) (hlt : m.freeblock < FSSIZE) :
    Building m.nextBlock where
  nmeta_le := Nat.le_succ_of_le h.nmeta_le
  le_FSSIZE := hlt
  zero y hy := h.zero y (Nat.le_of_succ_le hy)

/-- On the image, the kernel's `balloc` gives out the next block of `mkfs`. -/
theorem balloc_image (h : Building m) {σ : Fs} (hballoc : m.image.balloc = some (x, σ)) :
    x = m.freeblock ∧ σ = m.nextBlock.image ∧ Building m.nextBlock := by
  unfold Fs.balloc at hballoc
  split at hballoc
  · cases hballoc
  · next b hfind =>
    obtain ⟨rfl, rfl⟩ : b = x ∧ _ = σ := by simpa using hballoc
    -- the first block that is not marked is `freeblock`
    obtain ⟨hfree, hmem, hbefore⟩ := List.find?_range_eq_some.mp hfind
    have hlt : b < FSSIZE := List.mem_range.mp hmem
    have hge : m.freeblock ≤ b := by
      rw [used_image m hlt] at hfree
      simpa using hfree
    have hle : b ≤ m.freeblock := by
      by_contra hgt
      have hused := hbefore m.freeblock (by omega)
      rw [used_image m (by omega)] at hused
      simp at hused
    obtain rfl : b = m.freeblock := Nat.le_antisymm hle hge
    refine ⟨rfl, ?_, h.nextBlock hlt⟩
    have hne : m.freeblock ≠ sb.bmapstart := by
      have := bmapstart_lt_nmeta
      have := h.nmeta_le
      omega
    have hmod : m.freeblock % BPB = m.freeblock := Nat.mod_eq_of_lt (by
      unfold FSSIZE at hlt
      unfold BPB BSIZE
      omega)
    refine Fs.ext rfl (funext fun y => ?_) rfl
    rw [Fs.bzero, BBLOCK_sb hlt, hmod, image_bmapstart]
    by_cases hy : y = m.freeblock
    · rw [hy, Fs.setBlock_self, image_of_ne hne]
      exact (h.zero _ (Nat.le_refl _)).symm
    · rw [Fs.setBlock_of_ne hy]
      by_cases hy' : y = sb.bmapstart
      · rw [hy', Fs.setBlock_self, image_bmapstart, ← bitmap_succ]
        rfl
      · rw [Fs.setBlock_of_ne hy', image_of_ne hy', image_of_ne hy']
        rfl

/-! ## `iappend` -/

/-- `m'` continues `m`: it is being built, and no inode has been given out. -/
structure Continues (m m' : State) : Prop where
  building : Building m'
  freeinode_eq : m'.freeinode = m.freeinode

theorem Continues.refl (h : Building m) : Continues m m := ⟨h, rfl⟩

theorem Continues.trans {m' m'' : State} (h : Continues m m') (h' : Continues m' m'') :
    Continues m m'' :=
  ⟨h'.building, h'.freeinode_eq.trans h.freeinode_eq⟩

/-- The blocks of files have been given out. -/
theorem lt_of_slotAddr (h : Good t m.image) {i : ℕ} (hi : IsInode sb i) {s : Slot}
    (hne : slotAddr m.image.blocks (t i) s ≠ 0) :
    nmeta ≤ slotAddr m.image.blocks (t i) s ∧ slotAddr m.image.blocks (t i) s < m.freeblock := by
  have hdata := h.data i s hi hne
  have hused := h.used i s hi hne
  rw [used_image m hdata.2] at hused
  rw [IsData, image_sb, nmeta_sb] at hdata
  exact ⟨hdata.1, of_decide_eq_true hused⟩

section

variable (h : Building m)
include h

theorem Building.wsect (hlt : sec < m.freeblock) (buf : Block) : Building (m.wsect sec buf) where
  nmeta_le := h.nmeta_le
  le_FSSIZE := h.le_FSSIZE
  zero y hy := by
    have hlt' : sec < y := Nat.lt_of_lt_of_le hlt hy
    show update m.sectors sec buf y = _
    rw [update_of_ne (by omega), h.zero y hy]

/-- A block that has been given out can be read and written. -/
theorem Building.access (hge : nmeta ≤ sec) (hlt : sec < m.freeblock) :
    m.rsect sec = some (m.image.blocks sec) ∧
      ∀ buf, (m.wsect sec buf).image = m.image.setBlock sec buf ∧
        Continues m (m.wsect sec buf) := by
  have hne : sec ≠ sb.bmapstart := by
    have := bmapstart_lt_nmeta
    omega
  have hlt' : sec < FSSIZE := Nat.lt_of_lt_of_le hlt h.le_FSSIZE
  exact ⟨rsect_image hne hlt' m, fun buf => ⟨wsect_image hne m buf, h.wsect hlt buf, rfl⟩⟩

theorem appendDirect_image {k : Fin (NDIRECT + 1)}
    {σ : Fs} (hmap : m.image.bmapDirect din k = some (x, din', σ)) :
    ∃ m', m.appendDirect din k = (x, din', m') ∧ m'.image = σ ∧ Continues m m' := by
  unfold Fs.bmapDirect at hmap
  unfold State.appendDirect
  split_ifs at hmap ⊢ with hzero
  · obtain ⟨⟨x', σ'⟩, hballoc, hret⟩ := Option.bind_eq_some_iff.mp hmap
    obtain ⟨rfl, rfl, hnext⟩ := balloc_image h hballoc
    obtain ⟨rfl, rfl, rfl⟩ : m.freeblock = x ∧ din.setAddr k m.freeblock = din' ∧
      m.nextBlock.image = σ := by simpa using hret
    exact ⟨m.nextBlock, rfl, rfl, hnext, rfl⟩
  · obtain ⟨rfl, rfl, rfl⟩ : din.addrs k = x ∧ din = din' ∧ m.image = σ := by simpa using hmap
    exact ⟨m, rfl, rfl, .refl h⟩

/-- The block of indirect addresses has been given out. -/
theorem lt_of_appendDirect_last {i ind : ℕ} {m' : State}
    (hgood : Good (update t i din) m.image) (hi : IsInode sb i)
    (heq : m.appendDirect din (Fin.last NDIRECT) = (ind, din', m')) :
    nmeta ≤ ind ∧ ind < m'.freeblock := by
  unfold State.appendDirect at heq
  split_ifs at heq with hzero
  · obtain ⟨rfl, -, rfl⟩ : m.freeblock = ind ∧ _ = din' ∧ m.nextBlock = m' := by simpa using heq
    exact ⟨h.nmeta_le, Nat.lt_succ_self _⟩
  · obtain ⟨rfl, -, rfl⟩ : _ = ind ∧ din = din' ∧ m = m' := by simpa using heq
    have hbounds := lt_of_slotAddr (s := .indirect) hgood hi
    rw [update_self] at hbounds
    exact hbounds hzero

/-- `mkfs` finds the same block of a file as `bmap`, and gives out the same blocks. -/
theorem appendBlock_image {i fbn : ℕ} {σ : Fs}
    (hgood : Good (update t i din) m.image) (hi : IsInode sb i)
    (hmap : m.image.bmap din fbn = some (x, din', σ)) :
    ∃ m', m.appendBlock din fbn = some (x, din', m') ∧ m'.image = σ ∧ Continues m m' := by
  unfold Fs.bmap at hmap
  unfold State.appendBlock
  split_ifs at hmap ⊢ with hdirect hentry
  · obtain ⟨m', heq, himage, hcont⟩ := appendDirect_image h hmap
    exact ⟨m', by rw [heq], himage, hcont⟩
  · obtain ⟨⟨ind, din₁, σ₁⟩, hmap₁, hrest⟩ := Option.bind_eq_some_iff.mp hmap
    obtain ⟨⟨addr, σ₂⟩, hmap₂, hret⟩ := Option.bind_eq_some_iff.mp hrest
    obtain ⟨rfl, rfl, rfl⟩ : addr = x ∧ din₁ = din' ∧ σ₂ = σ := by simpa using hret
    obtain ⟨m₁, heq₁, rfl, hcont₁⟩ := appendDirect_image h hmap₁
    obtain ⟨hge, hlt⟩ := lt_of_appendDirect_last h hgood hi heq₁
    obtain ⟨hread, hwrite⟩ := hcont₁.building.access hge hlt
    rw [heq₁]
    simp only [hread, Option.bind_eq_bind, Option.bind_some]
    rw [Fs.bmapEntry, Fs.bread_eq (Nat.lt_of_lt_of_le hlt hcont₁.building.le_FSSIZE),
      Option.bind_eq_bind, Option.bind_some] at hmap₂
    split_ifs at hmap₂ ⊢ with hzero
    · obtain ⟨⟨x', σ'⟩, hballoc, hret₂⟩ := Option.bind_eq_some_iff.mp hmap₂
      obtain ⟨rfl, rfl, hnext⟩ := balloc_image hcont₁.building hballoc
      have hne : ind ≠ sb.bmapstart := by
        have := bmapstart_lt_nmeta
        omega
      have hsame : m₁.nextBlock.image.blocks ind = m₁.image.blocks ind := by
        rw [image_of_ne hne, image_of_ne hne]
        rfl
      have hwrite' := (hnext.access hge (Nat.lt_succ_of_lt hlt)).2
        (putLE (m₁.image.blocks ind) (4 * (fbn - NDIRECT)) m₁.freeblock 4)
      dsimp only at hret₂
      rw [hsame] at hret₂
      obtain ⟨rfl, rfl⟩ : m₁.freeblock = addr ∧ _ = σ₂ := by simpa using hret₂
      exact ⟨_, rfl, hwrite'.1, hwrite'.2.building, hcont₁.freeinode_eq⟩
    · obtain ⟨rfl, rfl⟩ : _ = addr ∧ m₁.image = σ₂ := by simpa using hmap₂
      exact ⟨m₁, rfl, rfl, hcont₁⟩

/-- The loop of `iappend` does what the loop of `writei` does. -/
theorem appendLoop_image {i start len : ℕ}
    (hgood : Good (update t i din) m.image) (hi : IsInode sb i)
    (henough : Enough m.image din (touched start len) r) (hlen : start + len ≤ MAXFILE * BSIZE)
    {fuel off : ℕ} {p : List UInt8} (hfuel : p.length ≤ fuel) (hstart : start ≤ off)
    (hend : off + p.length = start + len) {off' : ℕ} {σ : Fs}
    (hloop : Fs.writeLoop fuel m.image din off p = some (off', din', σ)) :
    ∃ m', State.appendLoop fuel m din off p = some (off', din', m') ∧ m'.image = σ ∧
      Continues m m' := by
  induction fuel generalizing m din off p with
  | zero =>
    obtain ⟨rfl, rfl, rfl⟩ : off = off' ∧ din = din' ∧ m.image = σ := by
      simpa [Fs.writeLoop] using hloop
    exact ⟨m, rfl, rfl, .refl h⟩
  | succ fuel ih =>
    rw [Fs.writeLoop] at hloop
    rw [State.appendLoop]
    split_ifs at hloop ⊢ with hp hmax
    · obtain ⟨rfl, rfl, rfl⟩ : off = off' ∧ din = din' ∧ m.image = σ := by simpa using hloop
      exact ⟨m, rfl, rfl, .refl h⟩
    · have hpos : 0 < p.length := List.length_pos_iff.mpr hp
      unfold BSIZE at *
      omega
    · have hpos : 0 < p.length := List.length_pos_iff.mpr hp
      have hmod : off % BSIZE < BSIZE := Nat.mod_lt off (by decide)
      generalize hm : min p.length (BSIZE - off % BSIZE) = n at hloop
      obtain ⟨x, din₁, σ₁, hmap, haddr, hne, hgood₁, hwrote⟩ :=
        hgood.writeStep hi henough hlen hpos hstart hend hm.symm
      obtain ⟨m₁, happend, rfl, hcont⟩ := appendBlock_image h hgood hi hmap
      -- the block of the file has been given out
      have hbounds : nmeta ≤ x ∧ x < m₁.freeblock := by
        have hfbn := lt_MAXFILE_of_addrOf (haddr.trans_ne hne)
        have := lt_of_slotAddr (s := slotOf _ hfbn) hgood₁ hi
        rw [update_self, ← addrOf_eq, haddr] at this
        exact this hne
      obtain ⟨hread, hwrite⟩ := hcont.building.access hbounds.1 hbounds.2
      obtain ⟨himage, hcont'⟩ := hwrite (overlay (m₁.image.blocks x) (off % BSIZE) (p.take n))
      have hn : min p.length ((off / BSIZE + 1) * BSIZE - off) = n := by
        rw [← hm]
        unfold BSIZE
        congr 1
        omega
      have hoff : off - off / BSIZE * BSIZE = off % BSIZE := by
        unfold BSIZE
        omega
      rw [hmap, Option.bind_eq_bind, Option.bind_some] at hloop
      dsimp only at hloop
      rw [← himage] at hloop hwrote
      obtain ⟨m', hloop', himage', hcont''⟩ := ih hcont'.building hwrote.good hwrote.enough
        (show (p.drop n).length ≤ fuel by rw [List.length_drop]; omega)
        (show start ≤ off + n by omega) (by rw [List.length_drop]; omega) hloop
      refine ⟨m', ?_, himage', (hcont.trans hcont').trans hcont''⟩
      simp only [happend, hread, hn, hoff, Option.bind_eq_bind, Option.bind_some]
      exact hloop'

end

theorem IBLOCK_lt {i : ℕ} (hi : IsInode sb i) : IBLOCK i sb < sb.bmapstart := by
  have hlt : i < 200 := hi.2
  show i / 8 + 32 < 58
  omega

theorem rinode_image {i : ℕ} (hi : IsInode sb i) (m : State) :
    m.rinode i = some (m.image.dinode i) := by
  have hlt := IBLOCK_lt hi
  have hlt' : IBLOCK i sb < FSSIZE := Nat.lt_trans hlt (by decide)
  rw [State.rinode, rsect_image (Nat.ne_of_lt hlt) hlt' m]
  rfl

theorem Building.winode (h : Building m) {i : ℕ} (hi : IsInode sb i) (ip : Inode) :
    ∃ m', m.winode i ip = some m' ∧ m'.image = m.image.iupdate i ip ∧ Continues m m' ∧
      m'.freeblock = m.freeblock := by
  have hlt := IBLOCK_lt hi
  have hlt' : IBLOCK i sb < FSSIZE := Nat.lt_trans hlt (by decide)
  have hfree : IBLOCK i sb < m.freeblock :=
    Nat.lt_trans hlt (Nat.lt_of_lt_of_le bmapstart_lt_nmeta h.nmeta_le)
  refine ⟨m.wsect (IBLOCK i sb) (ip.encode (m.image.blocks (IBLOCK i sb)) (i % IPB * 64)), ?_,
    wsect_image (Nat.ne_of_lt hlt) m _, ⟨h.wsect hfree _, rfl⟩, rfl⟩
  rw [State.winode, rsect_image (Nat.ne_of_lt hlt) hlt' m]
  rfl

end Image

/-- From `σ` to `σ'`, the bytes `src` have been appended to the inode number `i`. -/
structure Appended (i : ℕ) (src : List UInt8) (σ σ' : Fs) : Prop where
  sb_eq : σ'.sb = σ.sb
  consistent : Consistent σ'
  laidOut : LaidOut σ'
  content_eq : content σ'.blocks (σ'.dinode i) = content σ.blocks (σ.dinode i) ++ src
  type_eq : (σ'.dinode i).type = (σ.dinode i).type
  content_of_ne : ∀ j, IsInode σ.sb j → j ≠ i →
    content σ'.blocks (σ'.dinode j) = content σ.blocks (σ.dinode j)
  inode_of_ne : ∀ j, IsInode σ.sb j → j ≠ i → σ'.dinode j = σ.dinode j
  tight : ∀ j, IsInode σ.sb j → Tight σ.blocks (σ.dinode j) → Tight σ'.blocks (σ'.dinode j)

namespace Appended

variable {i : ℕ} {σ σ' σ'' : Fs}

theorem refl (h : Consistent σ) (h' : LaidOut σ) : Appended i [] σ σ where
  sb_eq := rfl
  consistent := h
  laidOut := h'
  content_eq := by rw [List.append_nil]
  type_eq := rfl
  content_of_ne _ _ _ := rfl
  inode_of_ne _ _ _ := rfl
  tight _ _ h := h

theorem trans {src' : List UInt8} (h : Appended i src σ σ') (h' : Appended i src' σ' σ'') :
    Appended i (src ++ src') σ σ'' where
  sb_eq := h'.sb_eq.trans h.sb_eq
  consistent := h'.consistent
  laidOut := h'.laidOut
  content_eq := by rw [h'.content_eq, h.content_eq, List.append_assoc]
  type_eq := h'.type_eq.trans h.type_eq
  content_of_ne j hj hji := by
    rw [h'.content_of_ne j (by rwa [h.sb_eq]) hji, h.content_of_ne j hj hji]
  inode_of_ne j hj hji := by
    rw [h'.inode_of_ne j (by rwa [h.sb_eq]) hji, h.inode_of_ne j hj hji]
  tight j hj htight := h'.tight j (by rwa [h.sb_eq]) (h.tight j hj htight)

theorem size_eq (h : Appended i src σ σ') :
    (σ'.dinode i).size = (σ.dinode i).size + src.length := by
  have := congrArg List.length h.content_eq
  rwa [length_content, List.length_append, length_content] at this

end Appended

/-- What `writei` writes at the end of a file is appended. -/
theorem appended_of_written {i : ℕ} {σ σ' : Fs}
    (h : Written i r (σ.dinode i).size src σ σ') : Appended i src σ σ' where
  sb_eq := h.sb_eq
  consistent := h.consistent
  laidOut := h.laidOut
  content_eq := by
    rw [h.content_eq, List.take_of_length_le (by simp), List.drop_eq_nil_of_le (by simp),
      List.append_nil]
  type_eq := by rw [h.inode_eq]
  content_of_ne := h.content_of_ne
  inode_of_ne := h.inode_of_ne
  tight := h.tight

/-- `iappend` appends, and leaves `r` sectors, if it needs no more than the others. -/
theorem Building.iappend {m : State} (h : Building m) (hcons : Consistent m.image)
    (hlay : LaidOut m.image) {i : ℕ} (hi : IsInode sb i)
    (hdev : (m.image.dinode i).type ≠ T_DEV) {p : List UInt8} (hpos : 0 < p.length)
    (hlen : (m.image.dinode i).size + p.length ≤ MAXFILE * BSIZE)
    (henough : Enough m.image (m.image.dinode i) (touched (m.image.dinode i).size p.length) r) :
    ∃ m', m.iappend i p = some m' ∧ Appended i p m.image m'.image ∧ Continues m m' ∧
      r ≤ FSSIZE - m'.freeblock := by
  have hgood : Good (update m.image.dinode i (m.image.dinode i)) m.image := by
    rw [update_eq_self]
    exact hcons.good hlay
  obtain ⟨σ', hwrite, hwritten⟩ := hcons.writei hlay hi hdev (Nat.le_refl _) hlen henough
    trivial
  obtain ⟨din, σ₁, hloop, hwrote, -⟩ := hgood.writeLoop hi henough hlen (Nat.le_refl p.length)
    (Nat.le_refl _) rfl
  obtain ⟨m₁, hloop', rfl, hcont⟩ := appendLoop_image h hgood hi henough hlen
    (Nat.le_refl p.length) (Nat.le_refl _) rfl hloop
  have hsize : din.size = (m.image.dinode i).size := by rw [hwrote.inode_eq]
  -- the file has grown, so that `writei` stores the inode, too
  rw [Fs.writei_eq hdev (Nat.le_refl _) hlen hloop (fun _ h => by cases h),
    if_pos ⟨hpos, by omega⟩] at hwrite
  obtain ⟨-, rfl⟩ : _ ∧ m₁.image.iupdate i _ = σ' := by simpa using hwrite
  obtain ⟨m', hwinode, himage, hcont', -⟩ := hcont.building.winode hi
    { din with size := (m.image.dinode i).size + p.length }
  refine ⟨m', ?_, ?_, hcont.trans hcont', ?_⟩
  · rw [State.iappend, rinode_image hi]
    simp only [Option.bind_eq_bind, Option.bind_some, hloop']
    exact hwinode
  · rw [himage]
    exact appended_of_written hwritten
  · have hfree := hwritten.free
    rwa [← himage, card_freeBlocks_image] at hfree

end FileSystem.Mkfs
