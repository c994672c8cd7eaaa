import Mathlib
import OsnAssignments.FileSystem.Append

/-!
# The image that `mkfs` writes

The kernel finds on the image every input file with its content. The root directory holds the
entries of all files, and `mkfs` raises its size to a multiple of the block size at the end. It
always adds a block: if the entries fill their last block, the new size covers a block that the
directory does not have.
-/

namespace FileSystem.Mkfs

open Bytes

variable {m : State} {files : List InputFile} {j n r : ℕ} {blocks : ℕ → Block}

/-! ## Counting blocks -/

/-- The number of blocks that a file of `n` bytes takes, with the block of indirect addresses. -/
def blocksFor (n : ℕ) : ℕ :=
  (touched 0 n).card

theorem touched_subset {off off' n' : ℕ} (h : blocksOf off n ⊆ blocksOf off' n') :
    touched off n ⊆ touched off' n' := by
  intro s hs
  have htouches := (Finset.mem_filter.mp hs).2
  refine Finset.mem_filter.mpr ⟨Finset.mem_univ s, ?_⟩
  cases s with
  | direct | entry => exact decide_eq_true (h (of_decide_eq_true htouches))
  | indirect =>
    obtain ⟨bn, hbn, hge⟩ : ∃ bn ∈ blocksOf off n, NDIRECT ≤ bn := of_decide_eq_true htouches
    exact decide_eq_true ⟨bn, h hbn, hge⟩

theorem blocksFor_mono {n' : ℕ} (h : n ≤ n') : blocksFor n ≤ blocksFor n' :=
  Finset.card_le_card (touched_subset
    (Finset.image_subset_image (Finset.Ico_subset_Ico_right (by omega))))

/-- All slots that are needed for the content of a file have an address. -/
theorem slotAddr_ne_of_touched {ip : Inode} (h : Mapped blocks ip) {s : Slot}
    (hs : s ∈ touched 0 ip.size) : slotAddr blocks ip s ≠ 0 := by
  have haddr : ∀ bn ∈ blocksOf 0 ip.size, addrOf blocks ip bn ≠ 0 := by
    intro bn hbn
    obtain ⟨p, hp, rfl⟩ := Finset.mem_image.mp hbn
    have hlt := (Finset.mem_Ico.mp hp).2
    exact h.addrOf_ne (by omega)
  have htouches := (Finset.mem_filter.mp hs).2
  cases s with
  | direct j =>
    have hne := haddr j (of_decide_eq_true htouches)
    rwa [addrOf_eq (lt_MAXFILE_of_addrOf hne), slotOf, dif_pos j.isLt] at hne
  | indirect =>
    obtain ⟨bn, hbn, hge⟩ : ∃ bn ∈ blocksOf 0 ip.size, NDIRECT ≤ bn := of_decide_eq_true htouches
    have hne := haddr bn hbn
    rw [addrOf_eq (lt_MAXFILE_of_addrOf hne), slotOf, dif_neg (Nat.not_lt.mpr hge)] at hne
    exact fun hzero => hne (if_pos hzero)
  | entry j =>
    have hne := haddr (NDIRECT + j) (of_decide_eq_true htouches)
    rw [addrOf_eq (lt_MAXFILE_of_addrOf hne), slotOf, dif_neg (by omega)] at hne
    simpa using hne

/-- The blocks that are missing for a file to grow. -/
theorem missing_le {ip : Inode} (h : Mapped blocks ip) (n : ℕ) :
    missing blocks ip (touched ip.size n) ≤ blocksFor (ip.size + n) - blocksFor ip.size := by
  have hsub : touched 0 ip.size ⊆ touched 0 (ip.size + n) :=
    touched_subset (Finset.image_subset_image (Finset.Ico_subset_Ico_right (by omega)))
  have hsub' : touched ip.size n ⊆ touched 0 (ip.size + n) :=
    touched_subset (Finset.image_subset_image (Finset.Ico_subset_Ico (by omega) (by omega)))
  unfold blocksFor missing
  rw [← Finset.card_sdiff_of_subset hsub]
  refine Finset.card_le_card fun s hs => ?_
  obtain ⟨hmem, hzero⟩ := Finset.mem_filter.mp hs
  exact Finset.mem_sdiff.mpr ⟨hsub' hmem, fun hold => slotAddr_ne_of_touched h hold hzero⟩

/-! ## Storing an inode with the same addresses -/

/-- From `σ` to `σ'`, `ip` is stored as inode number `i`; it has the addresses of the old one. -/
structure Stored (i : ℕ) (ip : Inode) (σ σ' : Fs) : Prop where
  sb_eq : σ'.sb = σ.sb
  good : Good σ'.dinode σ'
  dinode_self : σ'.dinode i = ip
  dinode_of_ne : ∀ j, IsInode σ.sb j → j ≠ i → σ'.dinode j = σ.dinode j
  addrOf_eq : ∀ j, IsInode σ.sb j → ∀ bn,
    addrOf σ'.blocks (σ'.dinode j) bn = addrOf σ.blocks (σ.dinode j) bn
  byteAt_eq : ∀ j, IsInode σ.sb j → ∀ p, addrOf σ.blocks (σ.dinode j) (p / BSIZE) ≠ 0 →
    byteAt σ'.blocks (σ'.dinode j) p = byteAt σ.blocks (σ.dinode j) p

theorem stored_iupdate {σ : Fs} (h : Consistent σ) (h' : LaidOut σ) {i : ℕ} (hi : IsInode σ.sb i)
    {ip : Inode} (hfits : ip.Fits) (haddrs : ip.addrs = (σ.dinode i).addrs) :
    Stored i ip σ (σ.iupdate i ip) := by
  have hgood := h.good h'
  have hself : (σ.iupdate i ip).dinode i = ip := Fs.dinode_iupdate_self hfits
  have haddrs' : ∀ j, IsInode σ.sb j →
      ((σ.iupdate i ip).dinode j).addrs = (σ.dinode j).addrs := by
    intro j _
    by_cases hji : j = i
    · rw [hji, hself, haddrs]
    · rw [Fs.dinode_iupdate_of_ne ip hji]
  have hblocks : ∀ y, σ.sb.bmapstart ≤ y → (σ.iupdate i ip).blocks y = σ.blocks y := by
    intro y hy
    have hlt := h'.inodes_lt i hi
    exact Fs.iupdate_of_ne (by omega)
  have hdata : ∀ y, IsData σ.sb y → (σ.iupdate i ip).blocks y = σ.blocks y := fun y hy =>
    hblocks y (Nat.le_trans (Nat.le_of_lt σ.sb.bmapstart_lt_nmeta) hy.1)
  exact ⟨rfl, hgood.congr rfl hblocks haddrs', hself,
    fun j _ hji => Fs.dinode_iupdate_of_ne ip hji,
    fun j hj => addrOf_congr (hgood.slotAddr_congr hdata hj (haddrs' j hj)),
    fun j hj p => hgood.byteAt_congr hdata hj (haddrs' j hj)⟩

namespace Stored

variable {i : ℕ} {ip : Inode} {σ σ' : Fs}

variable (h : Stored i ip σ σ')
include h

theorem content_of_ne (hcons : Consistent σ) (hj : IsInode σ.sb j)
    (hji : j ≠ i) : content σ'.blocks (σ'.dinode j) = content σ.blocks (σ.dinode j) := by
  refine content_congr (by rw [h.dinode_of_ne j hj hji]) fun p hp => ?_
  exact h.byteAt_eq j hj p ((hcons.mapped j hj).addrOf_ne hp)

theorem tight_of_ne (hj : IsInode σ.sb j) (hji : j ≠ i)
    (htight : Tight σ.blocks (σ.dinode j)) : Tight σ'.blocks (σ'.dinode j) := by
  have hsize : (σ'.dinode j).size = (σ.dinode j).size := by rw [h.dinode_of_ne j hj hji]
  refine ⟨fun bn hbn => ?_, fun p hp hne => ?_⟩
  · rw [h.addrOf_eq j hj]
    exact htight.unmapped bn (by omega)
  · rw [h.addrOf_eq j hj] at hne
    rw [h.byteAt_eq j hj p hne]
    exact htight.zero p (by omega) hne

theorem consistent (hcons : Consistent σ) (hi : IsInode σ.sb i)
    (hmapped : ∀ bn, bn * BSIZE < ip.size → addrOf σ.blocks (σ.dinode i) bn ≠ 0) :
    Consistent σ' := by
  refine ⟨fun j hj bn hbn => ?_, h.good.distinct, h.good.used⟩
  rw [h.sb_eq] at hj
  rw [h.addrOf_eq j hj]
  by_cases hji : j = i
  · subst hji
    rw [h.dinode_self] at hbn
    exact hmapped bn hbn
  · rw [h.dinode_of_ne j hj hji] at hbn
    exact hcons.mapped j hj bn hbn

theorem laidOut : LaidOut σ' :=
  ⟨h.good.inodes_lt, h.good.fits, h.good.marked, h.good.data⟩

end Stored

/-! ## Entries of the root directory -/

@[simp]
theorem length_dirent (inum : ℕ) (name : List UInt8) : (dirent inum name).length = 16 := by
  simp [dirent, DIRSIZ]
  omega

/-- What `mkfs` appends to the root directory: `.`, `..` and an entry for each file. -/
def rootData (files : List InputFile) : List UInt8 :=
  dirent ROOTINO [46] ++ dirent ROOTINO [46, 46] ++
    files.zipIdx.flatMap fun (f, k) => dirent (2 + k) f.entryName

theorem rootData_append (files : List InputFile) (f : InputFile) :
    rootData (files ++ [f]) = rootData files ++ dirent (2 + files.length) f.entryName := by
  simp [rootData, List.zipIdx_append]

@[simp]
theorem length_rootData (files : List InputFile) :
    (rootData files).length = 16 * (2 + files.length) := by
  induction files using List.reverseRecOn with
  | nil => simp [rootData]
  | append_singleton files f ih =>
    rw [rootData_append, List.length_append, ih, length_dirent, List.length_append,
      List.length_singleton]
    omega

/-! ## Building the image -/

/-- The image after some files have been added. -/
structure Built (files : List InputFile) (m : State) : Prop where
  building : Building m
  consistent : Consistent m.image
  laidOut : LaidOut m.image
  freeinode_eq : m.freeinode = 2 + files.length
  root_type : (m.image.dinode ROOTINO).type = T_DIR
  root_content : content m.image.blocks (m.image.dinode ROOTINO) = rootData files
  file_type : ∀ k < files.length, (m.image.dinode (2 + k)).type = T_FILE
  file_content : ∀ k (hk : k < files.length),
    content m.image.blocks (m.image.dinode (2 + k)) = files[k].data
  unused : ∀ j, m.freeinode ≤ j → IsInode sb j → (m.image.dinode j).addrs = fun _ => 0
  tight : ∀ j, IsInode sb j → Tight m.image.blocks (m.image.dinode j)

theorem Built.root_size (h : Built files m) :
    (m.image.dinode ROOTINO).size = (rootData files).length := by
  rw [← h.root_content, length_content]

theorem isInode_root : IsInode sb ROOTINO := by decide

theorem addrOf_of_addrs_eq_zero {ip : Inode} (h : ip.addrs = fun _ => 0)
    (bn : ℕ) : addrOf blocks ip bn = 0 := by
  unfold addrOf
  split_ifs with hbn
  · cases slotOf bn hbn with
    | direct | indirect | entry => simp [slotAddr, h]
  · rfl

/-- Appending with `iappend`, where the blocks that are left are counted. -/
theorem Building.iappend_of_le (h : Building m) (hcons : Consistent m.image)
    (hlay : LaidOut m.image) {i : ℕ} (hi : IsInode sb i)
    (hdev : (m.image.dinode i).type ≠ T_DEV) {p : List UInt8} (hpos : 0 < p.length)
    (hlen : (m.image.dinode i).size + p.length ≤ MAXFILE * BSIZE) (hfree :
      blocksFor ((m.image.dinode i).size + p.length) - blocksFor (m.image.dinode i).size + r ≤
      FSSIZE - m.freeblock) :
    ∃ m', m.iappend i p = some m' ∧ Appended i p m.image m'.image ∧ Continues m m' ∧
      r ≤ FSSIZE - m'.freeblock := by
  refine h.iappend hcons hlay hi hdev hpos hlen ?_
  have hmissing := missing_le (hcons.mapped i hi) p.length
  unfold Enough
  rw [card_freeBlocks_image]
  omega

/-- The loop that copies a file appends it. -/
theorem Building.appendFile (h : Building m) (hcons : Consistent m.image)
    (hlay : LaidOut m.image) {i : ℕ} (hi : IsInode sb i)
    (hdev : (m.image.dinode i).type ≠ T_DEV) {fuel : ℕ} {data : List UInt8}
    (hfuel : data.length ≤ fuel) (hlen : (m.image.dinode i).size + data.length ≤ MAXFILE * BSIZE)
    (hfree : blocksFor ((m.image.dinode i).size + data.length) -
      blocksFor (m.image.dinode i).size + r ≤ FSSIZE - m.freeblock) :
    ∃ m', State.appendFile fuel m i data = some m' ∧ Appended i data m.image m'.image ∧
      Continues m m' ∧ r ≤ FSSIZE - m'.freeblock := by
  induction fuel generalizing m data with
  | zero =>
    obtain rfl : data = [] := List.length_eq_zero_iff.mp (Nat.le_zero.mp hfuel)
    exact ⟨m, rfl, .refl hcons hlay, .refl h, by omega⟩
  | succ fuel ih =>
    rw [State.appendFile]
    split_ifs with hdata
    · subst hdata
      exact ⟨m, rfl, .refl hcons hlay, .refl h, by omega⟩
    · have hpos : 0 < data.length := List.length_pos_iff.mpr hdata
      have hchunk : (data.take BSIZE).length = min BSIZE data.length := List.length_take
      have hrest : (data.drop BSIZE).length = data.length - BSIZE := List.length_drop
      have hBSIZE : 0 < BSIZE := by decide
      have hsplit : (data.take BSIZE).length + (data.drop BSIZE).length = data.length := by omega
      have hmono : blocksFor (m.image.dinode i).size ≤
          blocksFor ((m.image.dinode i).size + (data.take BSIZE).length) :=
        blocksFor_mono (Nat.le_add_right _ _)
      have hmono' : blocksFor ((m.image.dinode i).size + (data.take BSIZE).length) ≤
          blocksFor ((m.image.dinode i).size + data.length) := blocksFor_mono (by omega)
      -- first this chunk, with a reserve for the others
      obtain ⟨m₁, hchunk', happ, hcont, hfree₁⟩ := h.iappend_of_le hcons hlay hi hdev
        (show 0 < (data.take BSIZE).length by omega) (by omega)
        (r := blocksFor ((m.image.dinode i).size + data.length) -
          blocksFor ((m.image.dinode i).size + (data.take BSIZE).length) + r) (by omega)
      have hsize := happ.size_eq
      obtain ⟨m', hloop, happ', hcont', hfree'⟩ := ih hcont.building happ.consistent happ.laidOut
        (by rwa [happ.type_eq]) (show (data.drop BSIZE).length ≤ fuel by omega)
        (by omega) (by rwa [hsize, Nat.add_assoc, hsplit])
      refine ⟨m', ?_, ?_, hcont.trans hcont', hfree'⟩
      · rw [hchunk', Option.bind_eq_bind, Option.bind_some, hloop]
      · have := happ.trans happ'
        rwa [List.take_append_drop] at this

theorem newInode_fits {type : ℕ} (h : type < 2 ^ 16) : (State.newInode type).Fits where
  type := h
  major := Nat.two_pow_pos 16
  minor := Nat.two_pow_pos 16
  nlink := Nat.one_lt_two_pow (by decide)
  size := Nat.two_pow_pos 32
  addrs _ := Nat.two_pow_pos 32

/-- `ialloc` stores an empty inode in an unused place. -/
theorem Building.ialloc (h : Building m) (hcons : Consistent m.image)
    (hlay : LaidOut m.image) (hi : IsInode sb m.freeinode)
    (hunused : (m.image.dinode m.freeinode).addrs = fun _ => 0) {type : ℕ} (htype : type < 2 ^ 16) :
    ∃ m', m.ialloc type = some (m.freeinode, m') ∧ Building m' ∧
      m'.freeinode = m.freeinode + 1 ∧ m'.freeblock = m.freeblock ∧
      Stored m.freeinode (State.newInode type) m.image m'.image ∧
      Consistent m'.image ∧ Tight m'.image.blocks (m'.image.dinode m.freeinode) := by
  have h₁ : Building { m with freeinode := m.freeinode + 1 } := ⟨h.nmeta_le, h.le_FSSIZE, h.zero⟩
  obtain ⟨m', hwinode, himage, hcont, hfree⟩ := h₁.winode hi (State.newInode type)
  have hstored : Stored m.freeinode (State.newInode type) m.image m'.image := by
    rw [himage]
    exact stored_iupdate hcons hlay hi (newInode_fits htype) hunused.symm
  have hzero : ∀ bn, addrOf m'.image.blocks (m'.image.dinode m.freeinode) bn = 0 := by
    intro bn
    rw [hstored.addrOf_eq _ hi, addrOf_of_addrs_eq_zero hunused]
  refine ⟨m', ?_, hcont.building, hcont.freeinode_eq, hfree, hstored, ?_, ?_⟩
  · rw [State.ialloc, hwinode]
    rfl
  · refine hstored.consistent hcons hi fun bn hbn => ?_
    exact absurd hbn (Nat.not_lt_zero _)
  · exact ⟨fun bn _ => hzero bn, fun p _ hne => absurd (hzero _) hne⟩

theorem root_fits (h : 2 + n < NINODES) : 16 * (2 + n) + 16 ≤ MAXFILE * BSIZE := by
  unfold NINODES at h
  unfold MAXFILE NDIRECT NINDIRECT BSIZE
  omega

/-- One iteration of the loop over the command line adds a file. -/
theorem Built.addFile (h : Built files m) {f : InputFile}
    (hname : 47 ∉ f.name) (hinode : 2 + files.length < NINODES)
    (hlen : f.data.length ≤ MAXFILE * BSIZE)
    (hfree : blocksFor (16 * (2 + (files.length + 1))) - blocksFor (16 * (2 + files.length)) +
      (blocksFor f.data.length + r) ≤ FSSIZE - m.freeblock) :
    ∃ m', addFile ROOTINO m f = some m' ∧ Built (files ++ [f]) m' ∧ r ≤ FSSIZE - m'.freeblock := by
  have hi : IsInode sb m.freeinode := ⟨by rw [h.freeinode_eq]; omega, by rwa [h.freeinode_eq]⟩
  have hroot : ROOTINO ≠ m.freeinode := by
    rw [h.freeinode_eq, ROOTINO]
    omega
  have hother : ∀ k < files.length, 2 + k ≠ m.freeinode ∧ 2 + k ≠ ROOTINO ∧ IsInode sb (2 + k) := by
    intro k hk
    rw [h.freeinode_eq]
    exact ⟨by omega, by unfold ROOTINO; omega, by omega, show 2 + k < NINODES by omega⟩
  -- the inode of the file
  obtain ⟨m₁, hialloc, hb₁, hnext, hfree₁, hstored, hcons₁, htight₁⟩ :=
    h.building.ialloc h.consistent h.laidOut hi (h.unused _ (Nat.le_refl _) hi)
      (show T_FILE < 2 ^ 16 by decide)
  have hroot₁ : m₁.image.dinode ROOTINO = m.image.dinode ROOTINO :=
    hstored.dinode_of_ne _ isInode_root hroot
  have hrootsize : (m₁.image.dinode ROOTINO).size = 16 * (2 + files.length) := by
    rw [hroot₁, h.root_size, length_rootData]
  -- its entry in the root directory
  obtain ⟨m₂, hentry, happ₂, hcont₂, hfree₂⟩ :=
    hb₁.iappend_of_le hcons₁ hstored.laidOut isInode_root (r := blocksFor f.data.length + r)
      (p := dirent m.freeinode f.entryName)
    (by rw [hroot₁, h.root_type]; decide) (by rw [length_dirent]; decide)
    (by rw [length_dirent, hrootsize]; exact root_fits hinode)
    (by rw [length_dirent, hrootsize, hfree₁]; exact hfree)
  have hself₂ : m₂.image.dinode m.freeinode = State.newInode T_FILE := by
    rw [happ₂.inode_of_ne _ hi hroot.symm, hstored.dinode_self]
  have hsize₂ : (m₂.image.dinode m.freeinode).size = 0 := by
    rw [hself₂]
    rfl
  -- its content
  obtain ⟨m₃, hfile, happ₃, hcont₃, hfree₃⟩ := hcont₂.building.appendFile happ₂.consistent
    happ₂.laidOut hi (by rw [hself₂]; decide) (Nat.le_refl f.data.length) (by omega)
    (r := r) (by rw [hsize₂, Nat.zero_add]; omega)
  refine ⟨m₃, ?_, ?_, hfree₃⟩
  · rw [Mkfs.addFile, if_neg hname, hialloc]
    simp only [Option.bind_eq_bind, Option.bind_some]
    rw [hentry, Option.bind_some, hfile]
  · -- inodes other than these two are as before
    have hinode : ∀ j, IsInode sb j → j ≠ m.freeinode → j ≠ ROOTINO →
        m₃.image.dinode j = m.image.dinode j := by
      intro j hj hji hjr
      rw [happ₃.inode_of_ne j hj hji, happ₂.inode_of_ne j hj hjr, hstored.dinode_of_ne j hj hji]
    have hempty : content m₂.image.blocks (m₂.image.dinode m.freeinode) = [] :=
      List.length_eq_zero_iff.mp (by rw [length_content, hsize₂])
    have hfreeinode : m₃.freeinode = m.freeinode + 1 := by
      rw [hcont₃.freeinode_eq, hcont₂.freeinode_eq, hnext]
    refine ⟨hcont₃.building, happ₃.consistent, happ₃.laidOut, ?_, ?_, ?_, fun k hk => ?_,
      fun k hk => ?_, fun j hge hj => ?_, fun j hj => ?_⟩
    · rw [hfreeinode, h.freeinode_eq, List.length_append, List.length_singleton, Nat.add_assoc]
    · rw [happ₃.inode_of_ne _ isInode_root hroot, happ₂.type_eq, hroot₁, h.root_type]
    · rw [happ₃.content_of_ne _ isInode_root hroot, happ₂.content_eq,
        hstored.content_of_ne h.consistent isInode_root hroot, h.root_content, rootData_append,
        h.freeinode_eq]
    · rw [List.length_append, List.length_singleton] at hk
      by_cases hold : k < files.length
      · obtain ⟨hki, hkr, hkn⟩ := hother k hold
        rw [hinode _ hkn hki hkr, h.file_type k hold]
      · obtain rfl : k = files.length := by omega
        rw [← h.freeinode_eq, happ₃.type_eq, hself₂]
        rfl
    · rw [List.length_append, List.length_singleton] at hk
      by_cases hold : k < files.length
      · obtain ⟨hki, hkr, hkn⟩ := hother k hold
        rw [happ₃.content_of_ne _ hkn hki, happ₂.content_of_ne _ hkn hkr,
          hstored.content_of_ne h.consistent hkn hki, h.file_content k hold,
          List.getElem_append_left hold]
      · obtain rfl : k = files.length := by omega
        rw [← h.freeinode_eq, happ₃.content_eq, hempty, List.nil_append,
          List.getElem_append_right (Nat.le_refl _)]
        simp
    · have hji : j ≠ m.freeinode := by omega
      have hjr : j ≠ ROOTINO := by
        have := h.freeinode_eq
        unfold ROOTINO
        omega
      rw [hinode j hj hji hjr]
      exact h.unused j (by omega) hj
    · refine happ₃.tight j hj (happ₂.tight j hj ?_)
      by_cases hji : j = m.freeinode
      · rw [hji]
        exact htight₁
      · exact hstored.tight_of_ne hj hji (h.tight j hj)

/-- The loop over the command line. -/
theorem Built.foldlM {rest : List InputFile} (h : Built files m)
    (hnames : ∀ f ∈ rest, 47 ∉ f.name) (hinodes : 2 + files.length + rest.length ≤ NINODES)
    (hsizes : ∀ f ∈ rest, f.data.length ≤ MAXFILE * BSIZE)
    (hfree : blocksFor (16 * (2 + (files.length + rest.length))) -
      blocksFor (16 * (2 + files.length)) + (rest.map fun f => blocksFor f.data.length).sum ≤
        FSSIZE - m.freeblock) :
    ∃ m', rest.foldlM (Mkfs.addFile ROOTINO) m = some m' ∧ Built (files ++ rest) m' := by
  induction rest generalizing files m with
  | nil => exact ⟨m, rfl, by rwa [List.append_nil]⟩
  | cons f rest ih =>
    rw [List.length_cons] at hinodes hfree
    rw [List.map_cons, List.sum_cons] at hfree
    have hmono : blocksFor (16 * (2 + files.length)) ≤ blocksFor (16 * (2 + (files.length + 1))) :=
      blocksFor_mono (by omega)
    have hmono' : blocksFor (16 * (2 + (files.length + 1))) ≤
        blocksFor (16 * (2 + (files.length + (rest.length + 1)))) := blocksFor_mono (by omega)
    have hlength : (files ++ [f]).length = files.length + 1 := by simp
    obtain ⟨m₁, hadd, hbuilt, hfree₁⟩ := h.addFile (hnames f List.mem_cons_self) (by omega)
      (hsizes f List.mem_cons_self)
      (r := blocksFor (16 * (2 + (files.length + (rest.length + 1)))) -
        blocksFor (16 * (2 + (files.length + 1))) +
        (rest.map fun f => blocksFor f.data.length).sum) (by omega)
    obtain ⟨m', hrest, hbuilt'⟩ := ih hbuilt (fun g hg => hnames g (List.mem_cons_of_mem f hg))
      (by omega) (fun g hg => hsizes g (List.mem_cons_of_mem f hg))
      (by rwa [hlength, Nat.add_assoc, Nat.add_comm 1 rest.length])
    refine ⟨m', ?_, ?_⟩
    · rw [List.foldlM_cons, hadd]
      exact hrest
    · rwa [List.append_assoc, List.singleton_append] at hbuilt'

/-- The input files fit on the disk. -/
structure Fits (files : List InputFile) : Prop where
  names : ∀ f ∈ files, 47 ∉ f.name
  inodes : 1 + files.length ≤ NINODES - 1
  sizes : ∀ f ∈ files, f.data.length ≤ MAXFILE * BSIZE
  blocks : nmeta + blocksFor (16 * (2 + files.length)) +
    (files.map fun f => blocksFor f.data.length).sum ≤ FSSIZE

theorem sectors_initial {y : ℕ} (h : y ≠ 1) : initial.sectors y = fun _ => 0 := by
  show Function.update (fun _ _ => 0) 1 sbBlock y = _
  rw [Function.update_of_ne h]

theorem building_initial : Building initial where
  nmeta_le := Nat.le_refl _
  le_FSSIZE := by decide
  zero y hy := by
    have hne : y ≠ 1 := by
      rintro rfl
      exact absurd hy (by decide)
    exact sectors_initial hne

theorem dinode_initial (hj : IsInode sb j) :
    initial.image.dinode j = ⟨0, 0, 0, 0, 0, fun _ => 0⟩ := by
  have hge : 32 ≤ IBLOCK j sb := Nat.le_add_left _ _
  have hne : IBLOCK j sb ≠ 1 := by omega
  have hzero : initial.image.blocks (IBLOCK j sb) = fun _ => 0 := by
    rw [image_of_ne (Nat.ne_of_lt (IBLOCK_lt hj)), sectors_initial hne]
  unfold Fs.dinode
  rw [image_sb, hzero]
  simp [Inode.decode]

theorem consistent_initial : Consistent initial.image :=
  .of_empty fun _ => dinode_initial

theorem laidOut_initial : LaidOut initial.image where
  inodes_lt _ hj := IBLOCK_lt hj
  fits := by decide
  marked b hb := by
    have hlt : b < nmeta := hb
    rw [used_image _ (Nat.lt_trans hlt (by decide))]
    exact decide_eq_true hlt
  data j s hj hne := absurd (slotAddr_of_empty (fun _ => dinode_initial) hj s) hne

/-- The root directory with its first two entries. -/
theorem exists_root (hfree : nmeta + blocksFor 32 + r ≤ FSSIZE) :
    ∃ m₀ m₁ m, initial.ialloc T_DIR = some (ROOTINO, m₀) ∧
      m₀.iappend ROOTINO (dirent ROOTINO [46]) = some m₁ ∧
      m₁.iappend ROOTINO (dirent ROOTINO [46, 46]) = some m ∧ Built [] m ∧
      r ≤ FSSIZE - m.freeblock := by
  have hunused : ∀ j, IsInode sb j → (initial.image.dinode j).addrs = fun _ => 0 := by
    intro j hj
    rw [dinode_initial hj]
  obtain ⟨m₀, hialloc, hb₀, hnext, hfree₀, hstored, hcons₀, htight₀⟩ :=
    building_initial.ialloc consistent_initial laidOut_initial isInode_root
      (hunused _ isInode_root) (show T_DIR < 2 ^ 16 by decide)
  have hself : m₀.image.dinode ROOTINO = State.newInode T_DIR := hstored.dinode_self
  have hsize₀ : (m₀.image.dinode ROOTINO).size = 0 := by
    rw [hself]
    rfl
  have hmono : blocksFor 16 ≤ blocksFor 32 := blocksFor_mono (by decide)
  have hfree₀' : m₀.freeblock = nmeta := hfree₀
  obtain ⟨m₁, hentry₁, happ₁, hcont₁, hfree₁⟩ :=
    hb₀.iappend_of_le hcons₀ hstored.laidOut isInode_root (r := blocksFor 32 - blocksFor 16 + r)
      (p := dirent ROOTINO [46])
    (by rw [hself]; decide) (by rw [length_dirent]; decide)
    (by rw [length_dirent, hsize₀]; decide)
    (by rw [length_dirent, hsize₀, hfree₀', Nat.zero_add]; omega)
  have hsize₁ : (m₁.image.dinode ROOTINO).size = 16 := by
    rw [happ₁.size_eq, hsize₀, length_dirent]
  obtain ⟨m, hentry, happ, hcont, hfree'⟩ := hcont₁.building.iappend_of_le happ₁.consistent
    happ₁.laidOut isInode_root (r := r) (p := dirent ROOTINO [46, 46])
    (by rw [happ₁.type_eq, hself]; decide) (by rw [length_dirent]; decide)
    (by rw [length_dirent, hsize₁]; decide)
    (by rw [length_dirent, hsize₁]; exact hfree₁)
  have hinode : ∀ j, IsInode sb j → j ≠ ROOTINO → m.image.dinode j = initial.image.dinode j := by
    intro j hj hjr
    rw [happ.inode_of_ne j hj hjr, happ₁.inode_of_ne j hj hjr, hstored.dinode_of_ne j hj hjr]
  refine ⟨m₀, m₁, m, hialloc, hentry₁, hentry, ⟨hcont.building, happ.consistent, happ.laidOut, ?_,
    ?_, ?_, fun k hk => ?_, fun k hk => ?_, fun j hge hj => ?_, fun j hj => ?_⟩, hfree'⟩
  · rw [hcont.freeinode_eq, hcont₁.freeinode_eq, hnext]
    rfl
  · rw [happ.type_eq, happ₁.type_eq, hself]
    rfl
  · have hempty : content m₀.image.blocks (m₀.image.dinode ROOTINO) = [] :=
      List.length_eq_zero_iff.mp (by rw [length_content, hsize₀])
    rw [happ.content_eq, happ₁.content_eq, hempty]
    simp [rootData]
  · exact absurd hk (Nat.not_lt_zero k)
  · exact absurd hk (Nat.not_lt_zero k)
  · have hfreeinode : m.freeinode = 2 := by
      rw [hcont.freeinode_eq, hcont₁.freeinode_eq, hnext]
      rfl
    rw [hinode j hj (by unfold ROOTINO; omega)]
    exact hunused j hj
  · refine happ.tight j hj (happ₁.tight j hj ?_)
    by_cases hjr : j = ROOTINO
    · rw [hjr]
      exact htight₀
    · refine hstored.tight_of_ne hj hjr ⟨fun bn _ => ?_, fun p _ hne => ?_⟩
      · exact addrOf_of_addrs_eq_zero (hunused j hj) bn
      · exact absurd (addrOf_of_addrs_eq_zero (hunused j hj) _) hne

/-- The size that `mkfs` gives to a root directory of `n` bytes. -/
def roundUp (n : ℕ) : ℕ :=
  (n / BSIZE + 1) * BSIZE

/-- `mkfs` writes the image with all files, and changes the size of the root directory in it. -/
theorem main_eq (h : Fits files) :
    ∃ m m', main files = some m' ∧ Built files m ∧
      Stored ROOTINO { m.image.dinode ROOTINO with size := roundUp (rootData files).length } m.image
        m'.mount := by
  have hblocks := h.blocks
  have hinodes := h.inodes
  have hmono : blocksFor 32 ≤ blocksFor (16 * (2 + files.length)) := blocksFor_mono (by omega)
  obtain ⟨m₀, m₁, m₂, hialloc, hentry₁, hentry₂, hbuilt₀, hfree⟩ :=
    exists_root (r := blocksFor (16 * (2 + files.length)) - blocksFor 32 +
      (files.map fun f => blocksFor f.data.length).sum) (by omega)
  obtain ⟨m, hfiles, hbuilt⟩ := hbuilt₀.foldlM h.names
    (show 2 + 0 + files.length ≤ NINODES by unfold NINODES at *; omega) h.sizes
    (by rw [List.length_nil, Nat.zero_add]; exact hfree)
  rw [List.nil_append] at hbuilt
  have hsize := hbuilt.root_size
  obtain ⟨m₃, hwinode, himage, hcont, hfreeblock⟩ := hbuilt.building.winode isInode_root
    { m.image.dinode ROOTINO with size := roundUp (rootData files).length }
  have hlt : m₃.freeblock < BSIZE * 8 :=
    Nat.lt_of_le_of_lt hcont.building.le_FSSIZE (by decide)
  refine ⟨m, m₃.wsect sb.bmapstart (State.bitmap m₃.freeblock), ?_, hbuilt, ?_⟩
  · rw [main, hialloc]
    simp only [Option.bind_eq_bind, Option.bind_some, ne_eq, not_true_eq_false, if_false, hentry₁,
      hentry₂, hfiles, rinode_image isInode_root, hsize]
    rw [← roundUp, hwinode, Option.bind_some, State.balloc, if_pos hlt]
  · show Stored ROOTINO _ m.image m₃.image
    rw [himage]
    refine stored_iupdate hbuilt.consistent hbuilt.laidOut isInode_root ?_ rfl
    have hold : (m.image.dinode ROOTINO).Fits := Inode.decode_fits _ _
    refine ⟨hold.type, hold.major, hold.minor, hold.nlink, ?_, hold.addrs⟩
    show roundUp (rootData files).length < 2 ^ 32
    rw [length_rootData]
    unfold roundUp BSIZE NINODES at *
    omega

/-! ## What the kernel finds -/

/-- The kernel finds what it expects: the disk is consistent, and `readi` returns the bytes of every
file and, for the root directory, its entries and then zeros, without allocating a block. -/
structure Expected (files : List InputFile) (σ : Fs) : Prop where
  consistent : Consistent σ
  file : ∀ k (hk : k < files.length) off n, off ≤ files[k].data.length → off + n < 2 ^ 32 →
    σ.readi (σ.dinode (2 + k)) off n =
      some (.ok ((files[k].data.drop off).take n), σ.dinode (2 + k), σ)
  root : ∃ z, ∀ off n, off ≤ (rootData files).length + 16 * z → off + n < 2 ^ 32 →
    σ.readi (σ.dinode ROOTINO) off n =
      some (.ok (((rootData files ++ List.replicate (16 * z) 0).drop off).take n),
        σ.dinode ROOTINO, σ)

/-- The content of the root directory after its size has been rounded up within its last block. -/
theorem root_content (h : Built files m) {σ : Fs} (hstored : Stored ROOTINO
      { m.image.dinode ROOTINO with size := roundUp (rootData files).length } m.image σ)
    (hmapped : ∀ p < roundUp (rootData files).length,
      addrOf m.image.blocks (m.image.dinode ROOTINO) (p / BSIZE) ≠ 0) :
    content σ.blocks (σ.dinode ROOTINO) = rootData files ++
      List.replicate (roundUp (rootData files).length - (rootData files).length) 0 := by
  have hle : (rootData files).length ≤ roundUp (rootData files).length := by
    unfold roundUp BSIZE
    omega
  have hsize : (σ.dinode ROOTINO).size = roundUp (rootData files).length := by
    rw [hstored.dinode_self]
  have hsize' := h.root_size
  refine List.ext_getElem ?_ fun p hp hp' => ?_
  · rw [length_content, hsize, List.length_append, List.length_replicate]
    omega
  · rw [length_content, hsize] at hp
    rw [getElem_content, hstored.byteAt_eq _ isInode_root p (hmapped p hp)]
    by_cases hentry : p < (rootData files).length
    · rw [List.getElem_append_left hentry]
      simp only [← h.root_content]
      rw [getElem_content]
    · rw [List.getElem_append_right (by omega), List.getElem_replicate]
      exact (h.tight _ isInode_root).zero p (by omega) (hmapped p hp)

/-- The kernel finds what it expects unless the new size reaches into another block. -/
theorem expected_iff (hbuilt : Built files m) (hinodes : 1 + files.length ≤ NINODES - 1) {σ : Fs}
    (hstored : Stored ROOTINO
      { m.image.dinode ROOTINO with size := roundUp (rootData files).length } m.image σ) :
    Expected files σ ↔ (2 + files.length) % (BSIZE / 16) ≠ 0 := by
  have hlength : (rootData files).length = 16 * (2 + files.length) := length_rootData files
  have hsize := hbuilt.root_size
  refine ⟨fun hexp hfull => ?_, fun hpart => ?_⟩
  · -- the block behind the entries is below the new size, but the directory does not have it
    have hbn : (rootData files).length / BSIZE * BSIZE = (rootData files).length := by
      rw [hlength]
      unfold BSIZE at *
      omega
    have hroot : IsInode σ.sb ROOTINO := by
      rw [hstored.sb_eq]
      exact isInode_root
    refine hexp.consistent.mapped ROOTINO hroot ((rootData files).length / BSIZE) ?_ ?_
    · rw [hstored.dinode_self]
      show _ < roundUp (rootData files).length
      unfold roundUp BSIZE
      omega
    · rw [hstored.addrOf_eq _ isInode_root]
      exact (hbuilt.tight _ isInode_root).unmapped _ (by omega)
  · have hmapped : ∀ bn, bn * BSIZE < roundUp (rootData files).length →
        addrOf m.image.blocks (m.image.dinode ROOTINO) bn ≠ 0 := by
      intro bn hbn
      refine hbuilt.consistent.mapped _ isInode_root bn ?_
      rw [hsize, hlength]
      rw [hlength] at hbn
      unfold roundUp at hbn
      unfold BSIZE at *
      omega
    have hcons : Consistent σ :=
      hstored.consistent hbuilt.consistent isInode_root hmapped
    refine ⟨hcons, fun k hk off n hoff hn => ?_, ?_⟩
    · have hk' : IsInode m.image.sb (2 + k) := by
        refine ⟨by omega, ?_⟩
        show 2 + k < NINODES
        unfold NINODES at *
        omega
      have hne : 2 + k ≠ ROOTINO := by
        unfold ROOTINO
        omega
      have hcontent : content σ.blocks (σ.dinode (2 + k)) = files[k].data := by
        rw [hstored.content_of_ne hbuilt.consistent hk' hne, hbuilt.file_content k hk]
      have htype : (σ.dinode (2 + k)).type ≠ T_DEV := by
        rw [hstored.dinode_of_ne _ hk' hne, hbuilt.file_type k hk]
        decide
      rw [← hcontent, length_content] at hoff
      rw [hcons.readi hstored.laidOut (by rwa [hstored.sb_eq]) htype hoff hn, hcontent]
    · have hcontent := root_content hbuilt hstored fun p hp =>
        hmapped _ (Nat.lt_of_le_of_lt (Nat.div_mul_le_self p BSIZE) hp)
      have hzeros : roundUp (rootData files).length - (rootData files).length =
          16 * (32 - (2 + files.length) % 32) := by
        rw [hlength]
        unfold roundUp BSIZE
        omega
      rw [hzeros] at hcontent
      have htype : (σ.dinode ROOTINO).type ≠ T_DEV := by
        rw [hstored.dinode_self]
        show (m.image.dinode ROOTINO).type ≠ T_DEV
        rw [hbuilt.root_type]
        decide
      refine ⟨32 - (2 + files.length) % 32, fun off n hoff hn => ?_⟩
      rw [← hcontent]
      refine hcons.readi hstored.laidOut (by rw [hstored.sb_eq]; exact isInode_root) htype ?_ hn
      have := congrArg List.length hcontent
      rw [length_content, List.length_append, List.length_replicate] at this
      omega

/-- The image is what the kernel expects if and only if the entries of the root directory do not
fill their last block. -/
theorem image_expected_iff {files : List InputFile} (h : Fits files) :
    ∃ m, main files = some m ∧
      (Expected files m.mount ↔ (2 + files.length) % (BSIZE / 16) ≠ 0) := by
  obtain ⟨m, m', hmain, hbuilt, hstored⟩ := main_eq h
  exact ⟨m', hmain, expected_iff hbuilt h.inodes hstored⟩

theorem blocksFor_le (n : ℕ) : blocksFor n ≤ 141 :=
  Finset.card_le_univ (touched 0 n)

/-- Two small files fit on the disk. -/
theorem fits_two : Fits [⟨[97], [1, 2, 3]⟩, ⟨[95, 98], []⟩] where
  names := by decide
  inodes := by decide
  sizes := by decide
  blocks := by
    have hnmeta : nmeta = 59 := by decide
    have hroot := blocksFor_le (16 * (2 + (0 + 1 + 1)))
    have hfirst := blocksFor_le (0 + 1 + 1 + 1)
    have hsecond := blocksFor_le 0
    simp only [List.length_cons, List.length_nil, List.map_cons, List.map_nil, List.sum_cons,
      List.sum_nil, FSSIZE]
    omega

/-- The image with two files is what the kernel expects. -/
theorem image_expected_two : ∃ m, main [⟨[97], [1, 2, 3]⟩, ⟨[95, 98], []⟩] = some m ∧
    Expected [⟨[97], [1, 2, 3]⟩, ⟨[95, 98], []⟩] m.mount := by
  obtain ⟨m, hmain, hiff⟩ := image_expected_iff fits_two
  exact ⟨m, hmain, hiff.mpr (by decide)⟩

/-- Thirty empty files, whose entries fill a block together with `.` and `..`. -/
def thirtyFiles : List InputFile :=
  (List.range 30).map fun k => ⟨[UInt8.ofNat (97 + k)], []⟩

theorem fits_thirtyFiles : Fits thirtyFiles where
  names := by decide
  inodes := by decide
  sizes := by decide
  blocks := by
    have hnmeta : nmeta = 59 := by decide
    have hroot := blocksFor_le (16 * (2 + thirtyFiles.length))
    have hempty : blocksFor 0 = 0 := by decide +kernel
    have hsum : (thirtyFiles.map fun f => blocksFor f.data.length).sum = 0 := by
      rw [List.sum_eq_zero_iff]
      simp [thirtyFiles, hempty]
    rw [hsum, FSSIZE]
    omega

/-- With thirty files, the root directory has a block that is not mapped. -/
theorem not_image_expected : ∃ m, main thirtyFiles = some m ∧ ¬Expected thirtyFiles m.mount := by
  obtain ⟨m, m', hmain, hbuilt, hstored⟩ := main_eq fits_thirtyFiles
  refine ⟨m', hmain, fun hexp => ?_⟩
  exact (expected_iff hbuilt fits_thirtyFiles.inodes hstored).mp hexp (by decide)

end FileSystem.Mkfs
