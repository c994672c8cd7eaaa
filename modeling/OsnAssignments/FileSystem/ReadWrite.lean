import Mathlib
import OsnAssignments.FileSystem.Content

/-!
# Reading and writing files

`readi` returns a slice of the content of a file, and `writei` replaces a slice of it and extends it
at its end. Both split the transfer at the boundaries of blocks. The loop of `writei` is followed
through the relation `Wrote`, one block at a time; then `iupdate` stores the inode, which lies next
to other inodes in a block of its own kind.
-/

namespace FileSystem

open Bytes Function

variable {bn n off p : ℕ} {src : List UInt8}

/-! ## Inodes on the disk -/

namespace Inode

variable {b : Block} {o : ℕ}

/-- The numbers of an inode fit into their fields. -/
structure Fits (ip : Inode) : Prop where
  type : ip.type < 2 ^ 16
  major : ip.major < 2 ^ 16
  minor : ip.minor < 2 ^ 16
  nlink : ip.nlink < 2 ^ 16
  size : ip.size < 2 ^ 32
  addrs : ∀ k, ip.addrs k < 2 ^ 32

theorem decode_fits (b : Block) (o : ℕ) : (decode b o).Fits where
  type := getLE_lt b o 2
  major := getLE_lt b (o + 2) 2
  minor := getLE_lt b (o + 4) 2
  nlink := getLE_lt b (o + 6) 2
  size := getLE_lt b (o + 8) 4
  addrs k := getLE_lt b (o + 12 + 4 * k) 4

theorem lt_of_addr (k : Fin (NDIRECT + 1)) : (k : ℕ) ≤ 12 :=
  Nat.le_of_lt_succ k.isLt

/-- An inode takes 64 bytes. -/
theorem encode_of_notMem {ip : Inode} {k : ℕ} (h : k < o ∨ o + 64 ≤ k) : ip.encode b o k = b k := by
  unfold encode
  rw [foldl_putLE_of_notMem, putLE_of_notMem, putLE_of_notMem, putLE_of_notMem, putLE_of_notMem,
    putLE_of_notMem]
  any_goals omega
  intro j _
  have := lt_of_addr j
  omega

/-- A field in front of the addresses does not change when these are stored. -/
theorem getLE_foldl_addrs {ip : Inode} {w : ℕ} (h : p + w ≤ o + 12) :
    getLE ((List.finRange (NDIRECT + 1)).foldl
      (fun b (i : Fin (NDIRECT + 1)) => putLE b (o + 12 + 4 * i) (ip.addrs i) 4) b) p w =
      getLE b p w := by
  refine getLE_congr fun k _ hk => foldl_putLE_of_notMem (fun j _ => ?_) b
  omega

/-- An inode is read back as it was stored. -/
theorem decode_encode {ip : Inode} (h : ip.Fits) (b : Block) (o : ℕ) :
    decode (ip.encode b o) o = ip := by
  ext k
  · show getLE (ip.encode b o) o 2 = ip.type
    unfold encode
    rw [getLE_foldl_addrs (by omega)]
    iterate 4 rw [getLE_putLE_of_disjoint (by omega)]
    exact getLE_putLE_of_lt h.type
  · show getLE (ip.encode b o) (o + 2) 2 = ip.major
    unfold encode
    rw [getLE_foldl_addrs (by omega)]
    iterate 3 rw [getLE_putLE_of_disjoint (by omega)]
    exact getLE_putLE_of_lt h.major
  · show getLE (ip.encode b o) (o + 4) 2 = ip.minor
    unfold encode
    rw [getLE_foldl_addrs (by omega)]
    iterate 2 rw [getLE_putLE_of_disjoint (by omega)]
    exact getLE_putLE_of_lt h.minor
  · show getLE (ip.encode b o) (o + 6) 2 = ip.nlink
    unfold encode
    rw [getLE_foldl_addrs (by omega), getLE_putLE_of_disjoint (by omega)]
    exact getLE_putLE_of_lt h.nlink
  · show getLE (ip.encode b o) (o + 8) 4 = ip.size
    unfold encode
    rw [getLE_foldl_addrs (by omega)]
    exact getLE_putLE_of_lt h.size
  · show getLE (ip.encode b o) (o + 12 + 4 * k) 4 = ip.addrs k
    unfold encode
    refine getLE_foldl_putLE (List.nodup_finRange _) (fun i j hne => ?_) (List.mem_finRange k)
      (h.addrs k) _
    have := Fin.val_ne_of_ne hne
    omega

/-- An inode stored elsewhere does not change one. -/
theorem decode_encode_of_ne {ip : Inode} {o' : ℕ} (h : o + 64 ≤ o' ∨ o' + 64 ≤ o) :
    decode (ip.encode b o') o = decode b o := by
  have hfield : ∀ p w, o ≤ p → p + w ≤ o + 64 →
      getLE (ip.encode b o') p w = getLE b p w := fun p w hp hw =>
    getLE_congr fun k _ _ => encode_of_notMem (by omega)
  unfold decode
  rw [hfield o 2 (by omega) (by omega), hfield (o + 2) 2 (by omega) (by omega),
    hfield (o + 4) 2 (by omega) (by omega), hfield (o + 6) 2 (by omega) (by omega),
    hfield (o + 8) 4 (by omega) (by omega)]
  congr 1
  funext k
  have := lt_of_addr k
  exact hfield (o + 12 + 4 * k) 4 (by omega) (by omega)

end Inode

namespace Fs

theorem dinode_iupdate_self {σ : Fs} {i : ℕ} {ip : Inode} (h : ip.Fits) :
    (σ.iupdate i ip).dinode i = ip := by
  unfold dinode iupdate
  rw [setBlock_sb, setBlock_self, Inode.decode_encode h]

/-- `iupdate` changes no other inode. -/
theorem dinode_iupdate_of_ne {σ : Fs} {i j : ℕ} (ip : Inode) (h : j ≠ i) :
    (σ.iupdate i ip).dinode j = σ.dinode j := by
  unfold dinode iupdate
  rw [setBlock_sb]
  by_cases hsame : IBLOCK j σ.sb = IBLOCK i σ.sb
  · rw [hsame, setBlock_self, Inode.decode_encode_of_ne]
    unfold IBLOCK at hsame
    unfold IPB at *
    omega
  · rw [setBlock_of_ne hsame]

theorem iupdate_of_ne {σ : Fs} {i y : ℕ} {ip : Inode} (h : y ≠ IBLOCK i σ.sb) :
    (σ.iupdate i ip).blocks y = σ.blocks y :=
  setBlock_of_ne h _

/-- `bmap` allocates nothing for a block that has an address. -/
theorem bmap_eq {σ : Fs} {ip : Inode} (hind : ip.addrs (Fin.last NDIRECT) < FSSIZE)
    (h : addrOf σ.blocks ip bn ≠ 0) : σ.bmap ip bn = some (addrOf σ.blocks ip bn, ip, σ) := by
  have hbn := lt_MAXFILE_of_addrOf h
  rw [addrOf_eq hbn] at h ⊢
  by_cases hdirect : bn < NDIRECT
  · have hslot : slotOf bn hbn = .direct ⟨bn, hdirect⟩ := dif_pos hdirect
    rw [hslot, slotAddr] at h ⊢
    rw [bmap, dif_pos hdirect, bmapDirect, if_neg h]
    rfl
  · have hentry : bn - NDIRECT < NINDIRECT := by
      unfold MAXFILE at hbn
      omega
    have hslot : slotOf bn hbn = .entry ⟨bn - NDIRECT, hentry⟩ := dif_neg hdirect
    rw [hslot, slotAddr] at h ⊢
    -- an entry has an address only if there is a block of indirect addresses
    have hne : ip.addrs (Fin.last NDIRECT) ≠ 0 := fun hzero => h (if_pos hzero)
    rw [if_neg hne] at h ⊢
    rw [bmap, dif_neg hdirect, if_pos hentry, bmapDirect, if_neg hne]
    simp only [Option.pure_def, Option.bind_eq_bind, Option.bind_some]
    rw [bmapEntry, bread_eq hind, Option.bind_eq_bind, Option.bind_some, if_neg h]
    rfl

/-! ## The loops -/

theorem div_add_BSIZE (off k : ℕ) (h : off % BSIZE + k < BSIZE) :
    (off + k) / BSIZE = off / BSIZE ∧ (off + k) % BSIZE = off % BSIZE + k := by
  unfold BSIZE at *
  omega

/-- The loop of `readi` returns the bytes of the file and allocates nothing. -/
theorem readLoop_eq {σ : Fs} {ip : Inode} {fuel : ℕ} (hfuel : n ≤ fuel)
    (hdisk : ∀ s, slotAddr σ.blocks ip s < FSSIZE)
    (h : ∀ p, off ≤ p → p < off + n → addrOf σ.blocks ip (p / BSIZE) ≠ 0) :
    readLoop fuel σ ip off n =
      some ((List.range n).map fun k => byteAt σ.blocks ip (off + k), ip, σ) := by
  induction fuel generalizing off n with
  | zero =>
    obtain rfl : n = 0 := by omega
    rfl
  | succ fuel ih =>
    rw [readLoop]
    split_ifs with hn
    · rw [hn]
      rfl
    · have hpos : off % BSIZE < BSIZE := Nat.mod_lt off (by decide)
      have hne := h off (Nat.le_refl off) (by omega)
      obtain ⟨rest, hrest⟩ : ∃ rest, n = min n (BSIZE - off % BSIZE) + rest :=
        ⟨n - min n (BSIZE - off % BSIZE), by omega⟩
      generalize hm : min n (BSIZE - off % BSIZE) = m at hrest
      have hsub : n - m = rest := by omega
      have hlt : addrOf σ.blocks ip (off / BSIZE) < FSSIZE := by
        rw [addrOf_eq (lt_MAXFILE_of_addrOf hne)]
        exact hdisk _
      rw [bmap_eq (hdisk .indirect) hne, Option.bind_eq_bind, Option.bind_some]
      dsimp only
      rw [bread_eq hlt, Option.bind_eq_bind, Option.bind_some]
      rw [hsub, ih (by omega) fun p hp hp' => h p (by omega) (by omega)]
      -- the bytes of this block, then those of the others
      have hdata : ∀ k ∈ List.range m,
          σ.blocks (addrOf σ.blocks ip (off / BSIZE)) (off % BSIZE + k) =
            byteAt σ.blocks ip (off + k) := by
        intro k hk
        have hk' := List.mem_range.mp hk
        obtain ⟨hdiv, hmod⟩ := div_add_BSIZE off k (by omega)
        rw [byteAt, hdiv, hmod]
      rw [List.map_congr_left hdata, hrest, List.range_add, List.map_append, List.map_map]
      simp only [Option.bind_eq_bind, Option.bind_some, Option.pure_def, comp_def,
        Nat.add_assoc]

end Fs

/-- The blocks of a file in which the `n` bytes at `off` lie. -/
def blocksOf (off n : ℕ) : Finset ℕ :=
  (Finset.Ico off (off + n)).image (· / BSIZE)

/-- Whether a slot is needed for the `n` bytes at `off`. -/
def touches (off n : ℕ) : Slot → Bool
  | .direct j => (j : ℕ) ∈ blocksOf off n
  | .indirect => ∃ bn ∈ blocksOf off n, NDIRECT ≤ bn
  | .entry j => NDIRECT + (j : ℕ) ∈ blocksOf off n

/-- The slots that are needed for the `n` bytes at `off`. -/
def touched (off n : ℕ) : Finset Slot :=
  Finset.univ.filter fun s => touches off n s

theorem mem_blocksOf (h : off ≤ p) (h' : p < off + n) : p / BSIZE ∈ blocksOf off n :=
  Finset.mem_image.mpr ⟨p, Finset.mem_Ico.mpr ⟨h, h'⟩, rfl⟩

theorem slotOf_mem_touched (hbn : bn < MAXFILE) :
    slotOf bn hbn ∈ touched off n ↔ bn ∈ blocksOf off n := by
  rw [touched, Finset.mem_filter, and_iff_right (Finset.mem_univ _)]
  by_cases hdirect : bn < NDIRECT
  · rw [slotOf, dif_pos hdirect]
    exact decide_eq_true_iff
  · rw [slotOf, dif_neg hdirect]
    simp only [touches, decide_eq_true_eq, Nat.add_sub_cancel' (Nat.le_of_not_lt hdirect)]

theorem indirect_mem_touched (h : bn ∈ blocksOf off n) (hbn : NDIRECT ≤ bn) :
    .indirect ∈ touched off n :=
  Finset.mem_filter.mpr ⟨Finset.mem_univ _, decide_eq_true ⟨bn, h, hbn⟩⟩

section Loop

variable {t : ℕ → Inode} {σ : Fs} {i r : ℕ} {ip : Inode} {start len : ℕ}

/-- One iteration of the loop of `writei`, with `m` bytes that lie in one block. -/
theorem Good.writeStep (h : Good (update t i ip) σ) (hi : IsInode σ.sb i)
    (henough : Enough σ ip (touched start len) r) (hlen : start + len ≤ MAXFILE * BSIZE)
    {m : ℕ} (hpos : 0 < src.length) (hstart : start ≤ off)
    (hend : off + src.length = start + len) (hm : m = min src.length (BSIZE - off % BSIZE)) :
    ∃ addr ip' σ', σ.bmap ip (off / BSIZE) = some (addr, ip', σ') ∧
      addrOf σ'.blocks ip' (off / BSIZE) = addr ∧ addr ≠ 0 ∧
      Good (update t i ip') σ' ∧
      Wrote t i (touched start len) r off (src.take m) σ ip
        (σ'.setBlock addr (overlay (σ'.blocks addr) (off % BSIZE) (src.take m))) ip' := by
  have hmod : off % BSIZE < BSIZE := Nat.mod_lt off (by decide)
  have hbn : off / BSIZE < MAXFILE := by
    unfold BSIZE at *
    omega
  have hblock : off / BSIZE ∈ blocksOf start len := mem_blocksOf hstart (by omega)
  obtain ⟨addr, ip', σ', hmap, hext, haddr, hne⟩ := h.bmap hi henough hbn
    ((slotOf_mem_touched hbn).mpr hblock) (indirect_mem_touched hblock)
  refine ⟨addr, ip', σ', hmap, haddr, hne, hext.good, ?_⟩
  have htake : (src.take m).length = m := List.length_take_of_le (by omega)
  have hwrote := hext.good.wrote (by rwa [hext.sb_eq]) hext.enough haddr hne
    (fun hbn => (slotOf_mem_touched hbn).mpr hblock)
    (show off % BSIZE + (src.take m).length ≤ BSIZE by omega)
  rw [Nat.div_add_mod' off BSIZE] at hwrote
  have hboth := (hext.wrote h hi off).trans hwrote
  rwa [List.nil_append] at hboth

/-- The loop of `writei` writes its bytes; if they replace others, the inode stays as it is. -/
theorem Good.writeLoop (h : Good (update t i ip) σ) (hi : IsInode σ.sb i)
    (henough : Enough σ ip (touched start len) r) (hlen : start + len ≤ MAXFILE * BSIZE) {fuel : ℕ}
    (hfuel : src.length ≤ fuel) (hstart : start ≤ off) (hend : off + src.length = start + len) :
    ∃ ip' σ', Fs.writeLoop fuel σ ip off src = some (off + src.length, ip', σ') ∧
      Wrote t i (touched start len) r off src σ ip σ' ip' ∧
      ((∀ p, off ≤ p → p < off + src.length → addrOf σ.blocks ip (p / BSIZE) ≠ 0) → ip' = ip) := by
  induction fuel generalizing σ ip off src with
  | zero =>
    obtain rfl : src = [] := List.length_eq_zero_iff.mp (Nat.le_zero.mp hfuel)
    exact ⟨ip, σ, rfl, (Extends.refl h henough).wrote h hi off, fun _ => rfl⟩
  | succ fuel ih =>
    rw [Fs.writeLoop]
    split_ifs with hsrc
    · subst hsrc
      exact ⟨ip, σ, rfl, (Extends.refl h henough).wrote h hi off, fun _ => rfl⟩
    · have hpos : 0 < src.length := List.length_pos_iff.mpr hsrc
      have hmod : off % BSIZE < BSIZE := Nat.mod_lt off (by decide)
      -- the part of the data that goes to this block
      generalize hm : min src.length (BSIZE - off % BSIZE) = m
      obtain ⟨addr, ip₁, σ₁, hmap, -, -, -, hwrote₁⟩ :=
        h.writeStep hi henough hlen hpos hstart hend hm.symm
      have htake : (src.take m).length = m := List.length_take_of_le (by omega)
      have hdrop : (src.drop m).length = src.length - m := List.length_drop
      obtain ⟨ip', σ', hloop, hwrote, hsame⟩ := ih hwrote₁.good
        (by rwa [hwrote₁.sb_eq]) hwrote₁.enough
        (show (src.drop m).length ≤ fuel by omega) (show start ≤ off + m by omega) (by omega)
      have hall : Wrote t i (touched start len) r off (src.take m ++ src.drop m) σ ip σ' ip' := by
        refine hwrote₁.trans ?_
        rw [htake]
        exact hwrote
      rw [List.take_append_drop] at hall
      refine ⟨ip', σ', ?_, hall, ?_⟩
      · rw [hmap, Option.bind_eq_bind, Option.bind_some]
        dsimp only
        rw [hloop, hdrop]
        congr 2
        omega
      · intro hmapped
        have hdisk := h.slotAddr_lt hi .indirect
        rw [update_self] at hdisk
        have hkeep := Fs.bmap_eq hdisk (hmapped off (Nat.le_refl off) (by omega))
        rw [hmap] at hkeep
        obtain ⟨-, rfl, rfl⟩ : addr = _ ∧ ip₁ = ip ∧ σ₁ = σ := by simpa using hkeep
        refine hsame fun p hp hp' => hwrote₁.mapped _ (hmapped p (by omega) (by omega))

end Loop

/-! ## Files as byte arrays -/

section Content

variable {blocks blocks' : ℕ → Block} {ip ip' : Inode}

@[simp]
theorem length_content : (content blocks ip).length = ip.size := by
  simp [content]

theorem getElem_content (h : p < (content blocks ip).length) :
    (content blocks ip)[p] = byteAt blocks ip p := by
  simp [content]

theorem Mapped.addrOf_ne (h : Mapped blocks ip) (hp : p < ip.size) :
    addrOf blocks ip (p / BSIZE) ≠ 0 :=
  h _ (Nat.lt_of_le_of_lt (Nat.div_mul_le_self p BSIZE) hp)

theorem content_congr (hsize : ip'.size = ip.size)
    (h : ∀ p < ip.size, byteAt blocks' ip' p = byteAt blocks ip p) :
    content blocks' ip' = content blocks ip := by
  unfold content
  rw [hsize]
  exact List.map_congr_left fun p hp => h p (List.mem_range.mp hp)

/-- A slice of a content, as `readi` returns it. -/
theorem take_drop_content (h : off + n ≤ ip.size) : ((content blocks ip).drop off).take n =
      (List.range n).map fun k => byteAt blocks ip (off + k) := by
  refine List.ext_getElem (by simp; omega) fun k hk hk' => ?_
  rw [List.getElem_take, List.getElem_drop, getElem_content, List.getElem_map, List.getElem_range]

/-- The content of a file in which the bytes at `off` have been replaced. -/
theorem content_splice (hoff : off ≤ ip.size) (hsize : ip'.size = max ip.size (off + src.length))
    (hkept : ∀ p < ip.size, p < off ∨ off + src.length ≤ p →
      byteAt blocks' ip' p = byteAt blocks ip p)
    (hwritten : ∀ k (hk : k < src.length), byteAt blocks' ip' (off + k) = src[k]) :
    content blocks' ip' = (content blocks ip).take off ++ src ++
      (content blocks ip).drop (off + src.length) := by
  have htake : ((content blocks ip).take off).length = off :=
    List.length_take_of_le (by rwa [length_content])
  have hlen : ((content blocks ip).take off ++ src).length = off + src.length := by
    rw [List.length_append, htake]
  refine List.ext_getElem ?_ fun p hp hp' => ?_
  · rw [List.length_append, hlen, List.length_drop, length_content, length_content, hsize]
    omega
  · rw [getElem_content]
    rw [length_content, hsize] at hp
    by_cases hfront : p < off
    · rw [List.getElem_append_left (by omega), List.getElem_append_left (by omega),
        List.getElem_take, getElem_content, hkept p (by omega) (.inl hfront)]
    · by_cases hmid : p < off + src.length
      · rw [List.getElem_append_left (by omega), List.getElem_append_right (by omega),
          ← hwritten _ (by omega)]
        congr 1
        omega
      · rw [List.getElem_append_right (by omega), List.getElem_drop, getElem_content,
          hkept p (by omega) (.inr (by omega))]
        congr 1
        omega

end Content

section Update

variable {t t' : ℕ → Inode} {σ σ' : Fs}

variable (h : Good t σ)
include h

/-- The slots depend on the addresses in the inodes and on the data blocks. -/
theorem Good.slotAddr_congr (hblocks : ∀ y, IsData σ.sb y → σ'.blocks y = σ.blocks y)
    {i : ℕ} (hi : IsInode σ.sb i) (haddrs : (t' i).addrs = (t i).addrs) (s : Slot) :
    slotAddr σ'.blocks (t' i) s = slotAddr σ.blocks (t i) s :=
  FileSystem.slotAddr_congr haddrs (fun hne => hblocks _ (h.data i .indirect hi hne)) s

theorem Good.addrs_lt {i : ℕ} (hi : IsInode σ.sb i) (k : Fin (NDIRECT + 1)) :
    (t i).addrs k < 2 ^ 32 := by
  obtain ⟨s, hs⟩ : ∃ s, slotAddr σ.blocks (t i) s = (t i).addrs k := by
    induction k using Fin.lastCases with
    | last => exact ⟨.indirect, rfl⟩
    | cast j => exact ⟨.direct j, rfl⟩
  rw [← hs]
  by_cases hzero : slotAddr σ.blocks (t i) s = 0
  · rw [hzero]
    decide
  · exact Nat.lt_trans (h.data i s hi hzero).2 h.size_lt

theorem Good.byteAt_congr (hblocks : ∀ y, IsData σ.sb y → σ'.blocks y = σ.blocks y)
    {i : ℕ} (hi : IsInode σ.sb i) (haddrs : (t' i).addrs = (t i).addrs)
    (hne : addrOf σ.blocks (t i) (p / BSIZE) ≠ 0) :
    byteAt σ'.blocks (t' i) p = byteAt σ.blocks (t i) p := by
  rw [byteAt, byteAt, addrOf_congr (h.slotAddr_congr hblocks hi haddrs),
    hblocks _ (h.isData_addrOf hi hne).1]

/-- A good disk stays one while blocks in front of the bitmap change. -/
theorem Good.congr (hsb : σ'.sb = σ.sb)
    (hblocks : ∀ y, σ.sb.bmapstart ≤ y → σ'.blocks y = σ.blocks y)
    (haddrs : ∀ i, IsInode σ.sb i → (t' i).addrs = (t i).addrs) : Good t' σ' := by
  refine h.of_slots hsb (fun i hi => h.slotAddr_congr (fun y hy => hblocks y ?_) hi (haddrs i hi))
    fun b _ => ?_
  · exact Nat.le_trans (Nat.le_of_lt σ.sb.bmapstart_lt_nmeta) hy.1
  · unfold Fs.used
    rw [hsb, hblocks (BBLOCK b σ.sb) (Nat.le_add_left _ _)]

end Update

theorem slotOf_notMem_touched (h : off + n ≤ bn * BSIZE) (hbn : bn < MAXFILE) :
    slotOf bn hbn ∉ touched off n := by
  rw [slotOf_mem_touched]
  intro hmem
  obtain ⟨p, hp, rfl⟩ := Finset.mem_image.mp hmem
  have := (Finset.mem_Ico.mp hp).2
  have := Nat.div_mul_le_self p BSIZE
  omega

/-- A file has no blocks behind its end, and the rest of its last block is zero. -/
structure Tight (blocks : ℕ → Block) (ip : Inode) : Prop where
  unmapped : ∀ bn, ip.size ≤ bn * BSIZE → addrOf blocks ip bn = 0
  zero : ∀ p, ip.size ≤ p → addrOf blocks ip (p / BSIZE) ≠ 0 → byteAt blocks ip p = 0

/-- From `σ` to `σ'`, `writei` has written the bytes `src` at `off` to the inode number `i`; there
are `r` free blocks at least. -/
structure Written (i r off : ℕ) (src : List UInt8) (σ σ' : Fs) : Prop where
  sb_eq : σ'.sb = σ.sb
  consistent : Consistent σ'
  laidOut : LaidOut σ'
  content_eq : content σ'.blocks (σ'.dinode i) = (content σ.blocks (σ.dinode i)).take off ++ src ++
    (content σ.blocks (σ.dinode i)).drop (off + src.length)
  content_of_ne : ∀ j, IsInode σ.sb j → j ≠ i →
    content σ'.blocks (σ'.dinode j) = content σ.blocks (σ.dinode j)
  inode_eq : σ'.dinode i = { σ.dinode i with
    size := max (σ.dinode i).size (off + src.length), addrs := (σ'.dinode i).addrs }
  inode_of_ne : ∀ j, IsInode σ.sb j → j ≠ i → σ'.dinode j = σ.dinode j
  free : r ≤ σ'.freeBlocks.card
  tight : ∀ j, IsInode σ.sb j → Tight σ.blocks (σ.dinode j) → Tight σ'.blocks (σ'.dinode j)

/-- What `writei` leaves behind: after the bytes are written and the inode with its new size is
stored, the disk is consistent again, and the contents are as they should be. -/
theorem Wrote.finish {σ σ₁ σ' : Fs} {i r : ℕ} {ip₁ ip' : Inode}
    (h : Wrote σ.dinode i (touched off src.length) r off src σ (σ.dinode i) σ₁ ip₁)
    (hcons : Consistent σ) (hi : IsInode σ.sb i) (hoff : off ≤ (σ.dinode i).size)
    (hsb : σ'.sb = σ₁.sb) (hblocks : ∀ y, σ₁.sb.bmapstart ≤ y → σ'.blocks y = σ₁.blocks y)
    (hself : σ'.dinode i = ip') (hother : ∀ j, IsInode σ.sb j → j ≠ i → σ'.dinode j = σ₁.dinode j)
    (hinode' : ip' = { ip₁ with size := max (σ.dinode i).size (off + src.length) }) :
    Written i r off src σ σ' := by
  have haddrs : ip'.addrs = ip₁.addrs := by rw [hinode']
  have hsize : ip'.size = max (σ.dinode i).size (off + src.length) := by rw [hinode']
  have hsb' : σ'.sb = σ.sb := hsb.trans h.sb_eq
  have hdata : ∀ y, IsData σ₁.sb y → σ'.blocks y = σ₁.blocks y := fun y hy =>
    hblocks y (Nat.le_trans (Nat.le_of_lt σ₁.sb.bmapstart_lt_nmeta) hy.1)
  have hinode : ∀ j, IsInode σ₁.sb j → j ≠ i → σ'.dinode j = σ.dinode j := by
    intro j hj hji
    rw [h.sb_eq] at hj
    rw [hother j hj hji]
    unfold Fs.dinode
    rw [h.sb_eq, h.inodes_eq _ ?_]
    have := h.good.inodes_lt j (by rwa [h.sb_eq])
    rwa [h.sb_eq] at this
  have haddrs' : ∀ j, IsInode σ₁.sb j →
      (σ'.dinode j).addrs = (update σ.dinode i ip₁ j).addrs := by
    intro j hj
    by_cases hji : j = i
    · rw [hji, update_self, hself, haddrs]
    · rw [update_of_ne hji, hinode j hj hji]
  have hgood : Good σ'.dinode σ' := h.good.congr hsb hblocks haddrs'
  have hi₁ : IsInode σ₁.sb i := by rwa [h.sb_eq]
  have hslot : ∀ j, IsInode σ₁.sb j → ∀ bn, addrOf σ'.blocks (σ'.dinode j) bn =
      addrOf σ₁.blocks (update σ.dinode i ip₁ j) bn := fun j hj =>
    addrOf_congr (h.good.slotAddr_congr hdata hj (haddrs' j hj))
  have hbyte : ∀ j, IsInode σ₁.sb j → ∀ p,
      addrOf σ₁.blocks (update σ.dinode i ip₁ j) (p / BSIZE) ≠ 0 →
      byteAt σ'.blocks (σ'.dinode j) p = byteAt σ₁.blocks (update σ.dinode i ip₁ j) p :=
    fun j hj p => h.good.byteAt_congr hdata hj (haddrs' j hj)
  have hmapped : Mapped σ.blocks (σ.dinode i) := hcons.mapped i hi
  have hbyte_i : ∀ p, addrOf σ₁.blocks ip₁ (p / BSIZE) ≠ 0 →
      byteAt σ'.blocks (σ'.dinode i) p = byteAt σ₁.blocks ip₁ p := by
    intro p hne
    have := hbyte i hi₁ p
    rw [update_self] at this
    exact this hne
  refine ⟨hsb', ⟨fun j hj => ?_, hgood.distinct, hgood.used⟩,
    ⟨hgood.inodes_lt, hgood.fits, hgood.marked, hgood.data⟩, ?_, fun j hj hji => ?_, ?_,
    fun j hj hji => hinode j (by rwa [h.sb_eq]) hji, ?_, fun j hj htight => ?_⟩
  · rw [hsb'] at hj
    have hj₁ : IsInode σ₁.sb j := by rwa [h.sb_eq]
    intro bn hbn
    rw [hslot j hj₁]
    by_cases hji : j = i
    · subst hji
      rw [update_self]
      rw [hself, hsize] at hbn
      by_cases hold : bn * BSIZE < (σ.dinode j).size
      · exact h.mapped bn (hmapped bn hold)
      · have := h.mapped_new (bn * BSIZE) (by omega) (by omega)
        rwa [Nat.mul_div_cancel bn (by decide)] at this
    · rw [update_of_ne hji, addrOf_congr (h.slot_eq j hj hji)]
      rw [hinode j hj₁ hji] at hbn
      exact hcons.mapped j hj bn hbn
  · rw [hself] at hbyte_i ⊢
    refine content_splice hoff hsize (fun p hp hout => ?_) fun k hk => ?_
    · have hne := hmapped.addrOf_ne hp
      rw [hbyte_i p (h.mapped _ hne), h.kept p hout hne]
    · rw [hbyte_i _ (h.mapped_new _ (by omega) (by omega)), h.written k hk]
  · have hj₁ : IsInode σ₁.sb j := by rwa [h.sb_eq]
    refine content_congr (by rw [hinode j hj₁ hji]) fun p hp => ?_
    have hne := (hcons.mapped j hj).addrOf_ne hp
    have := hbyte j hj₁ p
    rw [update_of_ne hji, addrOf_congr (h.slot_eq j hj hji)] at this
    rw [this hne, h.byte_eq j hj hji p hne]
  · rw [hself, hinode', h.inode_eq]
  · have hfree : σ'.freeBlocks = σ₁.freeBlocks := by
      unfold Fs.freeBlocks Fs.used
      rw [hsb]
      refine Finset.filter_congr fun b _ => ?_
      rw [hblocks (BBLOCK b σ₁.sb) (Nat.le_add_left _ _)]
    rw [hfree]
    exact Nat.le_trans (Nat.le_add_left _ _) h.enough
  · have hj₁ : IsInode σ₁.sb j := by rwa [h.sb_eq]
    have haddr := hslot j hj₁
    have hbyte_j := hbyte j hj₁
    by_cases hji : j = i
    · subst hji
      simp only [update_self] at haddr hbyte_j
      refine ⟨fun bn hbn => ?_, fun p hp hne => ?_⟩
      · rw [hself, hsize] at hbn
        rw [haddr]
        by_cases hlt : bn < MAXFILE
        · rw [addrOf_eq hlt, h.outside _ (slotOf_notMem_touched (by omega) hlt), ← addrOf_eq hlt]
          exact htight.unmapped bn (by omega)
        · exact dif_neg hlt
      · rw [hself, hsize] at hp
        rw [haddr] at hne
        rw [hbyte_j p hne]
        by_cases hold : addrOf σ.blocks (σ.dinode j) (p / BSIZE) = 0
        · exact h.fresh p (.inr (by omega)) hold hne
        · rw [h.kept p (.inr (by omega)) hold]
          exact htight.zero p (by omega) hold
    · rw [update_of_ne hji] at haddr hbyte_j
      have hslots := addrOf_congr (h.slot_eq j hj hji)
      rw [hinode j hj₁ hji] at haddr hbyte_j ⊢
      refine ⟨fun bn hbn => ?_, fun p hp hne => ?_⟩
      · rw [haddr, hslots, htight.unmapped bn hbn]
      · rw [haddr, hslots] at hne
        rw [hbyte_j p (by rwa [hslots]), h.byte_eq j hj hji p hne, htight.zero p hp hne]

/-- There is room in the log for `k` more blocks, and for one more call of `log_write`. -/
def Log.Room (sb : Superblock) (log : Log) (k : ℕ) : Prop :=
  match log with
  | .off => True
  | .lh blocks => blocks.card + k < LOGSIZE ∧ blocks.card + k < sb.nlog - 1
  | .panicked => False

/-- Blocks for which there is room can be passed to `log_write` any number of times. -/
theorem Log.Room.foldl_write_ne {sb : Superblock} {log : Log} {B : Finset ℕ}
    (h : log.Room sb B.card) {bs : List ℕ} (hbs : ∀ b ∈ bs, b ∈ B ∧ b < FSSIZE) :
    bs.foldl (Log.write sb) log ≠ .panicked := by
  cases log with
  | off =>
    rw [List.foldl_fixed' fun _ => rfl]
    simp
  | panicked => exact h.elim
  | lh blocks =>
    have hcard := Finset.card_union_le blocks B
    suffices hsub : ∀ bl ⊆ blocks ∪ B, bs.foldl (Log.write sb) (.lh bl) ≠ .panicked from
      hsub blocks Finset.subset_union_left
    induction bs with
    | nil => simp
    | cons b bs ih =>
      intro bl hbl
      obtain ⟨⟨hb, hlt⟩, hrest⟩ := List.forall_mem_cons.mp hbs
      have hle := Finset.card_le_card hbl
      obtain ⟨hroom, hroom'⟩ := h
      rw [List.foldl_cons, Log.write, if_neg (by omega)]
      exact ih hrest _ (Finset.insert_subset (Finset.mem_union_right _ hb) hbl)

/-- What is written to a file and its inode goes through the log. -/
theorem Wrote.log_ne {t : ℕ → Inode} {i r : ℕ} {T : Finset Slot} {σ σ' : Fs} {ip ip' : Inode}
    (h : Wrote t i T r off src σ ip σ' ip') (hi : IsInode σ.sb i)
    (hroom : σ.log.Room σ.sb (T.card + 2)) (ip'' : Inode) :
    (σ'.iupdate i ip'').log ≠ .panicked := by
  obtain ⟨bs, hlog, hbs⟩ := h.logs
  have hgood := h.good
  have hi' : IsInode σ'.sb i := by rwa [h.sb_eq]
  have hmeta := hgood.fits.1.trans hgood.fits.2
  have hbmap := σ'.sb.bmapstart_lt_nmeta
  have hinode := hgood.inodes_lt i hi'
  rw [h.sb_eq] at hmeta hbmap hinode
  set B := insert (IBLOCK i σ.sb) (insert σ.sb.bmapstart (T.image (slotAddr σ'.blocks ip')))
  have hcard : B.card ≤ T.card + 2 :=
    (Finset.card_insert_le _ _).trans (Nat.succ_le_succ ((Finset.card_insert_le _ _).trans
      (Nat.succ_le_succ Finset.card_image_le)))
  have hB : σ.log.Room σ.sb B.card := by
    unfold Log.Room at hroom ⊢
    split at hroom <;> [trivial; omega; exact hroom]
  suffices hne : (bs ++ [IBLOCK i σ.sb]).foldl (Log.write σ.sb) σ.log ≠ .panicked by
    rwa [List.foldl_append, ← hlog, ← h.sb_eq] at hne
  refine hB.foldl_write_ne fun b hb => ?_
  rcases List.mem_append.mp hb with hb | hb
  · rcases hbs b hb with rfl | ⟨s, hs, rfl, -⟩
    · exact ⟨by simp [B], by omega⟩
    · have hlt := hgood.slotAddr_lt hi' s
      rw [update_self] at hlt
      have hmem := Finset.mem_image_of_mem (slotAddr σ'.blocks ip') hs
      exact ⟨Finset.mem_insert_of_mem (Finset.mem_insert_of_mem hmem), hlt⟩
  · obtain rfl := List.mem_singleton.mp hb
    exact ⟨Finset.mem_insert_self _ _, by omega⟩

/-- After its checks, `writei` runs the loop and stores the inode if the file has grown. -/
theorem Fs.writei_eq {σ σ₁ : Fs} {i : ℕ} {ip ip₁ : Inode}
    (hdev : ip.type ≠ T_DEV) (hoff : off ≤ ip.size) (hlen : off + src.length ≤ MAXFILE * BSIZE)
    (hloop : Fs.writeLoop src.length σ ip off src = some (off + src.length, ip₁, σ₁))
    (hlog : ∀ ip', (σ₁.iupdate i ip').log ≠ .panicked) :
    σ.writei i ip off src =
      if 0 < src.length ∧ ip₁.size < off + src.length then
        some (.ok src.length, { ip₁ with size := off + src.length },
          σ₁.iupdate i { ip₁ with size := off + src.length })
      else some (.ok src.length, ip₁, σ₁) := by
  have hmax : MAXFILE * BSIZE < 2 ^ 32 := by decide
  have hmod : (off + src.length) % 2 ^ 32 = off + src.length := Nat.mod_eq_of_lt (by omega)
  have hlog₁ : σ₁.log ≠ .panicked := by
    intro heq
    refine hlog ip₁ ?_
    rw [Fs.iupdate, Fs.setBlock, heq]
    rfl
  rw [Fs.writei, if_neg hdev, hmod, if_neg (by omega), if_neg (by omega), hloop,
    Option.bind_eq_bind, Option.bind_some]
  dsimp only
  split_ifs
  · rw [Fs.checked, if_neg (hlog _)]
    rfl
  · rw [Fs.checked, if_neg hlog₁]
    rfl

section

variable {σ : Fs} (h : Consistent σ) (h' : LaidOut σ) {i r : ℕ} (hi : IsInode σ.sb i)
variable (hdev : (σ.dinode i).type ≠ T_DEV) (hoff : off ≤ (σ.dinode i).size)
include h h' hi hdev hoff

/-- `writei` replaces and extends the content of its file. -/
theorem Consistent.writei (hlen : off + src.length ≤ MAXFILE * BSIZE)
    (henough : Enough σ (σ.dinode i) (touched off src.length) r)
    (hroom : σ.log.Room σ.sb ((touched off src.length).card + 2)) :
    ∃ σ', σ.writei i (σ.dinode i) off src = some (.ok src.length, σ'.dinode i, σ') ∧
      Written i r off src σ σ' := by
  have hgood : Good (update σ.dinode i (σ.dinode i)) σ := by
    rw [update_eq_self]
    exact h.good h'
  obtain ⟨ip₁, σ₁, hloop, hwrote, hsame⟩ := hgood.writeLoop hi henough hlen
    (Nat.le_refl src.length) (Nat.le_refl off) rfl
  have hmax : MAXFILE * BSIZE < 2 ^ 32 := by decide
  have hsize₁ : ip₁.size = (σ.dinode i).size := by rw [hwrote.inode_eq]
  rw [Fs.writei_eq hdev hoff hlen hloop (hwrote.log_ne hi hroom)]
  have hi₁ : IBLOCK i σ₁.sb < σ₁.sb.bmapstart := by
    rw [hwrote.sb_eq]
    exact h'.inodes_lt i hi
  split_ifs with hgrows
  · have hfits : Inode.Fits { ip₁ with size := off + src.length } := by
      have hold : (σ.dinode i).Fits := Inode.decode_fits _ _
      have haddrs := hwrote.good.addrs_lt (by rwa [hwrote.sb_eq] : IsInode σ₁.sb i)
      rw [update_self] at haddrs
      rw [hwrote.inode_eq]
      exact ⟨hold.type, hold.major, hold.minor, hold.nlink, Nat.lt_of_le_of_lt hlen hmax, haddrs⟩
    have hself : (σ₁.iupdate i { ip₁ with size := off + src.length }).dinode i =
        { ip₁ with size := off + src.length } := Fs.dinode_iupdate_self hfits
    refine ⟨σ₁.iupdate i { ip₁ with size := off + src.length }, by rw [hself], ?_⟩
    refine hwrote.finish h hi hoff rfl (fun y hy => Fs.iupdate_of_ne (by omega)) hself
      (fun j _ hji => Fs.dinode_iupdate_of_ne _ hji) ?_
    rw [Nat.max_eq_right (by omega)]
  · -- all bytes replace others, so that neither the inode nor its copy changes
    obtain rfl : ip₁ = σ.dinode i := by
      refine hsame fun p hp hp' => (h.mapped i hi).addrOf_ne ?_
      omega
    have hself : σ₁.dinode i = σ.dinode i := by
      unfold Fs.dinode
      rw [hwrote.sb_eq, hwrote.inodes_eq _ (h'.inodes_lt i hi)]
    refine ⟨σ₁, by rw [hself], hwrote.finish h hi hoff rfl (fun _ _ => rfl) hself
      (fun _ _ _ => rfl) ?_⟩
    rw [Nat.max_eq_left (by omega)]

/-- `readi` returns a slice of the content. -/
theorem Consistent.readi (hn : off + n < 2 ^ 32) : σ.readi (σ.dinode i) off n =
      some (.ok (((content σ.blocks (σ.dinode i)).drop off).take n), σ.dinode i, σ) := by
  have hmod : (off + n) % 2 ^ 32 = off + n := Nat.mod_eq_of_lt hn
  have hslice : ∀ m, off + m ≤ (σ.dinode i).size → Fs.readLoop m σ (σ.dinode i) off m =
      some (((content σ.blocks (σ.dinode i)).drop off).take m, σ.dinode i, σ) := by
    intro m hm
    rw [take_drop_content hm]
    exact Fs.readLoop_eq (Nat.le_refl m) ((h.good h').slotAddr_lt hi) fun p _ hp =>
      (h.mapped i hi).addrOf_ne (by omega)
  rw [Fs.readi, if_neg hdev, hmod, if_neg (by omega)]
  dsimp only
  split_ifs with hclip
  · -- clipped at the size
    rw [hslice _ (by omega), List.take_of_length_le (by simp),
      List.take_of_length_le (by simp; omega)]
    rfl
  · rw [hslice n (by omega)]
    rfl

end

/-- Files behave as byte arrays: while there are free blocks and room in the log, `writei` replaces
and extends the content of its file by its data and changes no other content, and `readi` returns a
slice of the content. -/
theorem files_are_byte_arrays {σ : Fs} (h : Consistent σ) (h' : LaidOut σ) {i off : ℕ}
    (hi : IsInode σ.sb i) (hdev : (σ.dinode i).type ≠ T_DEV) (hoff : off ≤ (σ.dinode i).size) :
    (∀ src : List UInt8, off + src.length ≤ MAXFILE * BSIZE →
      missing σ.blocks (σ.dinode i) (touched off src.length) ≤ σ.freeBlocks.card →
      σ.log.Room σ.sb ((touched off src.length).card + 2) →
      ∃ σ', σ.writei i (σ.dinode i) off src = some (.ok src.length, σ'.dinode i, σ') ∧
        content σ'.blocks (σ'.dinode i) = (content σ.blocks (σ.dinode i)).take off ++ src ++
          (content σ.blocks (σ.dinode i)).drop (off + src.length) ∧
        (∀ j, IsInode σ.sb j → j ≠ i →
          content σ'.blocks (σ'.dinode j) = content σ.blocks (σ.dinode j)) ∧
        Consistent σ' ∧ LaidOut σ') ∧
    ∀ n, off + n < 2 ^ 32 → σ.readi (σ.dinode i) off n =
      some (.ok (((content σ.blocks (σ.dinode i)).drop off).take n), σ.dinode i, σ) := by
  refine ⟨fun src hlen henough hroom => ?_, fun n hn => h.readi h' hi hdev hoff hn⟩
  obtain ⟨σ', hwrite, hwritten⟩ := h.writei h' hi hdev hoff hlen
    (show Enough σ (σ.dinode i) (touched off src.length) 0 from henough) hroom
  exact ⟨σ', hwrite, hwritten.content_eq, hwritten.content_of_ne, hwritten.consistent,
    hwritten.laidOut⟩

/-! ## A disk without files -/

section Empty

variable {σ : Fs} (h : ∀ i, IsInode σ.sb i → σ.dinode i = ⟨0, 0, 0, 0, 0, fun _ => 0⟩)
include h

theorem slotAddr_of_empty {i : ℕ} (hi : IsInode σ.sb i) (s : Slot) :
    slotAddr σ.blocks (σ.dinode i) s = 0 := by
  rw [h i hi]
  cases s with
  | direct | indirect => rfl
  | entry => simp [slotAddr]

theorem Consistent.of_empty : Consistent σ where
  mapped i hi bn hbn := by
    rw [h i hi] at hbn
    exact absurd hbn (Nat.not_lt_zero _)
  distinct i s _ _ hi _ hne _ := absurd (slotAddr_of_empty h hi s) hne
  used i s hi hne := absurd (slotAddr_of_empty h hi s) hne

end Empty

/-- A disk of a hundred blocks with an empty log, with seven inodes in block 32, which are all free,
and with the bitmap in block 33, whose first five bytes are `bits`. -/
def emptyDisk (bits : UInt8) : Fs where
  sb := ⟨100, 66, 8, 30, 2, 32, 33⟩
  blocks := update (fun _ _ => 0) 33 fun k => if k < 5 then bits else 0
  log := .lh ∅

theorem dinode_emptyDisk (bits : UInt8) {i : ℕ} (hi : IsInode (emptyDisk bits).sb i) :
    (emptyDisk bits).dinode i = ⟨0, 0, 0, 0, 0, fun _ => 0⟩ := by
  have hblock : IBLOCK i (emptyDisk bits).sb ≠ 33 := by
    have : i < 8 := hi.2
    show i / IPB + 32 ≠ 33
    unfold IPB
    omega
  have hzero : (emptyDisk bits).blocks (IBLOCK i (emptyDisk bits).sb) = fun _ => 0 := by
    simp only [emptyDisk] at hblock ⊢
    rw [update_of_ne hblock]
  unfold Fs.dinode
  rw [hzero]
  simp [Inode.decode]

theorem consistent_emptyDisk (bits : UInt8) : Consistent (emptyDisk bits) :=
  .of_empty fun _ => dinode_emptyDisk bits

theorem laidOut_emptyDisk : LaidOut (emptyDisk 255) where
  inodes_lt i hi := by
    have : i < 8 := hi.2
    show i / IPB + 32 < 33
    unfold IPB
    omega
  fits := by decide
  marked := by decide +kernel
  data i s hi hne := absurd (slotAddr_of_empty (fun _ => dinode_emptyDisk 255) hi s) hne

theorem missing_emptyDisk :
    missing (emptyDisk 255).blocks ((emptyDisk 255).dinode 1) (touched 0 1) ≤
      (emptyDisk 255).freeBlocks.card := by
  have htouched : (touched 0 1).card ≤ 1 := by decide +kernel
  have hfree : 50 ∈ (emptyDisk 255).freeBlocks := by decide +kernel
  calc missing (emptyDisk 255).blocks ((emptyDisk 255).dinode 1) (touched 0 1)
      ≤ (touched 0 1).card := Finset.card_filter_le _ _
    _ ≤ 1 := htouched
    _ ≤ (emptyDisk 255).freeBlocks.card := Finset.card_pos.mpr ⟨50, hfree⟩

theorem room_emptyDisk : (emptyDisk 255).log.Room (emptyDisk 255).sb ((touched 0 1).card + 2) := by
  show 0 + ((touched 0 1).card + 2) < LOGSIZE ∧ 0 + ((touched 0 1).card + 2) < 30 - 1
  decide +kernel

/-- A byte is written to an empty file. -/
theorem files_are_byte_arrays_one : ∃ σ' : Fs,
    (emptyDisk 255).writei 1 ((emptyDisk 255).dinode 1) 0 [65] = some (.ok 1, σ'.dinode 1, σ') ∧
      content σ'.blocks (σ'.dinode 1) = [65] ∧ Consistent σ' ∧ LaidOut σ' := by
  have hi : IsInode (emptyDisk 255).sb 1 := by decide
  have hdev : ((emptyDisk 255).dinode 1).type ≠ T_DEV := by
    rw [dinode_emptyDisk 255 hi]
    decide
  obtain ⟨σ', hwrite, hcontent, -, hcons, hlay⟩ := (files_are_byte_arrays (consistent_emptyDisk 255)
    laidOut_emptyDisk hi hdev (Nat.zero_le _)).1 [65] (by decide) missing_emptyDisk room_emptyDisk
  refine ⟨σ', hwrite, ?_, hcons, hlay⟩
  rw [hcontent, dinode_emptyDisk 255 hi]
  rfl

/-- If the bitmap does not mark the blocks in front of the data blocks, `balloc` returns block 0,
which is no address: the file grows, but its first block is not mapped. -/
theorem not_files_are_byte_arrays : Consistent (emptyDisk 0) ∧ IsInode (emptyDisk 0).sb 1 ∧
    ∃ ip' σ', (emptyDisk 0).writei 1 ((emptyDisk 0).dinode 1) 0 [65] = some (.ok 1, ip', σ') ∧
      ¬Consistent σ' := by
  have hi : IsInode (emptyDisk 0).sb 1 := by decide
  have hrun : ((emptyDisk 0).writei 1 ((emptyDisk 0).dinode 1) 0 [65]).any (fun r =>
      r.1 = .ok 1 ∧ IsInode r.2.2.sb 1 ∧ 0 < (r.2.2.dinode 1).size ∧
        addrOf r.2.2.blocks (r.2.2.dinode 1) 0 = 0) = true := by
    decide +kernel
  obtain ⟨⟨res, ip', σ'⟩, hwrite, hres⟩ := (Option.any_eq_true _ _).mp hrun
  obtain ⟨rfl, hi', hsize, haddr⟩ := of_decide_eq_true hres
  refine ⟨consistent_emptyDisk 0, hi, ip', σ', hwrite, fun hcons => ?_⟩
  exact hcons.mapped 1 hi' 0 (by rwa [Nat.zero_mul]) haddr

end FileSystem
