import Mathlib
import OsnAssignments.Memory.Exec
import OsnAssignments.Memory.KernelSpace

/-!
# The image that `exec` loads

Whatever the bytes of the executable are, `exec` either fails and gives back all pages that it took,
or has an image (`Image`) whose user pages are mapped from address 0 up to `sz`, all with `PTE_U`
but the page below the stack, and whose kernel part is that of `setupkvm`.
-/

namespace Memory

open Pool Function

variable {L : Layout} {T : Set ℕ} {held : List ℕ} {k : Kmem} {σ σ' σ'' : Space}
  {v f sz newsz : ℕ}

/-! ## Writing to pages -/

/-- From `σ` to `σ'`, only bytes of pages in `T` were written. -/
structure Wrote (T : Set ℕ) (σ σ' : Space) : Prop where
  pgdir : σ'.pgdir = σ.pgdir
  pdes : σ'.pdes = σ.pdes
  freelist : σ'.kmem.freelist = σ.kmem.freelist
  fails : σ'.kmem.fails = σ.kmem.fails
  mem : ∀ f ∉ T, σ'.kmem.mem f = σ.kmem.mem f

theorem Wrote.refl (T : Set ℕ) (σ : Space) : Wrote T σ σ := ⟨rfl, rfl, rfl, rfl, fun _ _ => rfl⟩

theorem Wrote.trans (h : Wrote T σ σ') (h' : Wrote T σ' σ'') : Wrote T σ σ'' where
  pgdir := h'.pgdir.trans h.pgdir
  pdes := h'.pdes.trans h.pdes
  freelist := h'.freelist.trans h.freelist
  fails := h'.fails.trans h.fails
  mem f hf := (h'.mem f hf).trans (h.mem f hf)

theorem Wrote.write (σ : Space) (hf : f ∈ T) (off : ℕ) (bytes : List UInt8) :
    Wrote T σ (σ.write f off bytes) where
  pgdir := rfl
  pdes := rfl
  freelist := rfl
  fails := rfl
  mem g hg := update_of_ne (by rintro rfl; exact hg hf) ..

theorem Wrote.page (h : Wrote T σ σ') : σ'.page = σ.page := by
  ext1 v
  rw [Space.page, Space.page, h.pdes]

theorem Wrote.sound (h : Wrote T σ σ') (hσ : Sound L T held σ) : Sound L T held σ' := by
  have hslot : σ'.slot = σ.slot := by
    ext1 s
    cases s with
    | dir => exact congrArg some h.pgdir
    | table => rw [slot_table, slot_table, h.pdes]
    | user => rw [slot_user, slot_user, h.page]
  refine ⟨?_, hσ.valid⟩
  rw [hslot, h.freelist]
  exact hσ.parts

/-! ## `loaduvm` -/

/-- `loaduvm` into pages that are mapped writes to these only. -/
theorem loaduvmLoop_spec (file : List UInt8) (off : ℕ) {a n : ℕ} (hsize : a * 4096 + n ≤ KERNBASE)
    (hpages : ∀ v, a ≤ v → v < a + pages n → ∃ x, σ.page v = some x) (h : Sound L T held σ)
    (fuel i : ℕ) (hfuel : pages n - i < fuel) :
    ∃ ok σ', Space.loaduvmLoop (a * 4096) file off n fuel σ (i * 4096) = some (ok, σ') ∧
      Wrote T σ σ' := by
  induction fuel generalizing σ i with
  | zero => omega
  | succ fuel ih =>
    rw [Space.loaduvmLoop]
    by_cases hi : i < pages n
    · have hv : a + i < UPAGES := by
        unfold pages at hi
        unfold KERNBASE at hsize
        unfold UPAGES
        omega
      have hva : (a * 4096 + i * 4096) % 2 ^ 32 = (a + i) * 4096 := by
        unfold UPAGES at hv
        omega
      have hnp : a + i < NPAGES := hv.trans (by decide)
      obtain ⟨x, hx⟩ := hpages (a + i) (Nat.le_add_right a i) (by omega)
      have hfound : (σ.pdes ((a + i) / 1024)).isSome := by
        by_contra hnone
        rw [page_eq_none_of_table (Option.not_isSome_iff_eq_none.mp hnone)] at hx
        cases hx
      have hT : x.page ∈ T := h.parts.mem_of_slot (slot_of_page hv hx)
      have hnext := next_page (succ_lt_npages ((Nat.le_add_left i a).trans_lt hv))
      rw [if_pos (mul_lt_iff.mpr hi), hva, walkpgdir_false, pdx_mul hnp, hfound, hnext]
      simp only [pte_mul σ hnp, hx, Bool.true_eq_false, if_false, Option.map_some,
        Option.getD_some]
      cases readi file ((off + i * 4096) % 2 ^ 32)
          (if n - i * 4096 < PGSIZE then n - i * 4096 else PGSIZE) with
      | none => exact ⟨false, σ, rfl, .refl T σ⟩
      | some bytes =>
        have hwrote := Wrote.write σ hT 0 bytes
        by_cases hlen : bytes.length = if n - i * 4096 < PGSIZE then n - i * 4096 else PGSIZE
        · obtain ⟨ok, τ, hrun, hw⟩ := ih (σ := σ.write x.page 0 bytes)
            (by rw [hwrote.page]; exact hpages) (hwrote.sound h) (i + 1) (by omega)
          refine ⟨ok, τ, ?_, hwrote.trans hw⟩
          simp only [hlen, ne_eq, not_true_eq_false, if_false]
          exact hrun
        · refine ⟨false, _, ?_, hwrote⟩
          simp only [ne_eq, hlen, not_false_eq_true, if_true]
    · rw [if_neg fun hlt => hi (mul_lt_iff.mp hlt)]
      exact ⟨true, σ, rfl, .refl T σ⟩

/-! ## The loop over the program headers -/

/-- An image while it is loaded: user pages are mapped from 0 up to `sz`, with `PTE_U`. -/
structure Loaded (L : Layout) (T : Set ℕ) (k : Kmem) (σ : Space) (sz : ℕ) : Prop where
  sound : Sound L T [] σ
  kernel : Kernel σ
  compact : Compact σ (pages sz)
  user : ∀ v < pages sz, ∃ x, σ.page v = some x ∧ x.u = true
  size : sz ≤ KERNBASE
  mem : ∀ f ∉ T, σ.kmem.mem f = k.mem f
  fails : σ.kmem.fails = k.fails

/-- An image that is given up. -/
structure Discarded (L : Layout) (T : Set ℕ) (k : Kmem) (σ : Space) : Prop where
  sound : Sound L T [] σ
  table : ∀ d, 1024 ≤ d → σ.pdes d = none
  mem : ∀ f ∉ T, σ.kmem.mem f = k.mem f

theorem Loaded.discarded (h : Loaded L T k σ sz) : Discarded L T k σ :=
  ⟨h.sound, h.compact.table, h.mem⟩

theorem Discarded.freevm (h : Discarded L T k σ) :
    ∃ k', σ.freevm L = some k' ∧ Released T k k' := by
  obtain ⟨k', heq, hparts, hmem⟩ := freevm_spec h.sound h.table
  exact ⟨k', heq, hparts, fun f hf => (hmem f hf).trans (h.mem f hf)⟩

theorem Kernel.of_pdes (h : Kernel σ) (hpdes : ∀ d, 512 ≤ d → σ'.pdes d = σ.pdes d) :
    Kernel σ' := by
  have hpage : ∀ v, UPAGES ≤ v → σ'.page v = σ.page v := by
    intro v hv
    unfold UPAGES at hv
    rw [Space.page, Space.page, hpdes _ (by omega)]
  refine ⟨fun d hd hd' => ?_, fun v hv hv' => ?_, fun v hv hv' => ?_⟩
  · rw [hpdes d (by omega), h.gap d hd hd']
  · rw [hpage v hv]
    exact h.memory v hv hv'
  · rw [hpage v (Nat.le_trans (by decide) hv)]
    exact h.devices v hv hv'

section

variable (h : Loaded L T k σ sz)
include h

theorem Loaded.wrote (hw : Wrote T σ σ') : Loaded L T k σ' sz where
  sound := hw.sound h.sound
  kernel := h.kernel.of_pdes fun d _ => congrFun hw.pdes d
  compact := ⟨hw.pdes ▸ h.compact.table, hw.page ▸ h.compact.user⟩
  user := hw.page ▸ h.user
  size := h.size
  mem f hf := (hw.mem f hf).trans (h.mem f hf)
  fails := hw.fails.trans h.fails

/-- `allocuvm` extends the image, or it is given up. -/
theorem Loaded.allocuvm (newsz : ℕ) : ∃ r σ', σ.allocuvm L sz newsz = some (r, σ') ∧
      ((r = 0 ∧ Discarded L T k σ' ∧ (KERNBASE ≤ newsz ∨ newsz = 0 ∨ Scarce T [] k (pages newsz))) ∨
        (r ≠ 0 ∧ Loaded L T k σ' r ∧ newsz ≤ r ∧ r = max sz newsz ∧ newsz < KERNBASE)) := by
  by_cases hbase : KERNBASE ≤ newsz
  · refine ⟨0, σ, if_pos hbase, .inl ⟨rfl, h.discarded, .inl hbase⟩⟩
  · by_cases hlt : newsz < sz
    · refine ⟨sz, σ, ?_, .inr ⟨by omega, h, hlt.le, (max_eq_left hlt.le).symm,
        Nat.lt_of_not_le hbase⟩⟩
      rw [Space.allocuvm, if_neg hbase, if_pos hlt]
    · have hle : sz ≤ newsz := Nat.le_of_not_lt hlt
      have hupages : pages newsz ≤ UPAGES := pages_le (Nat.le_of_not_le hbase)
      have hpages : pages sz ≤ pages newsz := by
        unfold pages
        omega
      obtain ⟨r, σ', heq, hsound, ⟨rfl, hgrown⟩ | ⟨rfl, hrestored, hscarce⟩⟩ :=
        allocuvm_spec (Nat.lt_of_not_le hbase) hle
          (fun u hu hu' => h.compact.user u hu (by omega)) h.sound
      · have hmem : ∀ f ∉ T, σ'.kmem.mem f = k.mem f := fun f hf =>
          (hgrown.mem f fun hfree => hf (h.sound.parts.mem_of_free hfree)).trans (h.mem f hf)
        have hcompact : Compact σ' (pages r) := hgrown.compact (Nat.le_refl _)
          ⟨h.compact.table, fun v hv hv' => h.compact.user v (hpages.trans hv) hv'⟩
        by_cases hzero : r = 0
        · exact ⟨r, σ', heq, .inl ⟨hzero, ⟨hsound, hcompact.table, hmem⟩, .inr (.inl hzero)⟩⟩
        · refine ⟨r, σ', heq, .inr ⟨hzero, ⟨hsound, h.kernel.of_pdes hgrown.kernel, hcompact,
            fun v hv => ?_, Nat.le_of_not_le hbase, hmem, hgrown.fails.trans h.fails⟩,
            Nat.le_refl r, (max_eq_right hle).symm, Nat.lt_of_not_le hbase⟩⟩
          by_cases hold : v < pages sz
          · rw [hgrown.old v (.inl hold)]
            exact h.user v hold
          · obtain ⟨f, -, hpage, -⟩ := hgrown.new v (Nat.le_of_not_lt hold) hv
            exact ⟨_, hpage, rfl⟩
      · refine ⟨0, σ', heq, .inl ⟨rfl, ⟨hsound, fun d hd => ?_, fun f hf => ?_⟩, ?_⟩⟩
        · have htable := hrestored.kernel d (by omega)
          rw [h.compact.table d hd, Option.map_none, Option.map_eq_none_iff] at htable
          exact htable
        · rw [hrestored.mem f fun hfree => hf (h.sound.parts.mem_of_free hfree), h.mem f hf]
        · have := hscarce
            ⟨h.compact.table, fun v hv hv' => h.compact.user v (hpages.trans hv) hv'⟩
          rw [Scarce, h.fails] at this
          exact .inr (.inr this)

theorem Loaded.loaduvm (file : List UInt8) (off : ℕ) {vaddr n : ℕ}
    (haligned : vaddr % PGSIZE = 0) (hle : vaddr + n ≤ sz) :
    ∃ ok σ', σ.loaduvm vaddr file off n = some (ok, σ') ∧ Loaded L T k σ' sz := by
  have hsize := h.size
  obtain ⟨a, rfl⟩ : ∃ a, vaddr = a * 4096 := ⟨vaddr / 4096, by unfold PGSIZE at haligned; omega⟩
  have hpages : ∀ v, a ≤ v → v < a + pages n → ∃ x, σ.page v = some x := by
    intro v _ hv
    obtain ⟨x, hx, -⟩ := h.user v (by unfold pages at *; omega)
    exact ⟨x, hx⟩
  have hfuel : pages n - 0 < NPAGES := by
    unfold KERNBASE at hsize
    unfold pages NPAGES
    omega
  obtain ⟨ok, σ', heq, hwrote⟩ :=
    loaduvmLoop_spec file off (hle.trans hsize) hpages h.sound NPAGES 0 hfuel
  refine ⟨ok, σ', ?_, h.wrote hwrote⟩
  rw [Space.loaduvm, if_neg (not_not.mpr haligned)]
  exact heq

end

theorem field_lt (bytes : List UInt8) (o : ℕ) : field bytes o 4 < 2 ^ 32 := Bytes.getLE_lt _ o 4

/-- A segment extends the image, or the image is given up. -/
theorem Loaded.loadSegment (h : Loaded L T k σ sz) (file : List UInt8) {ph : Proghdr}
    (hsum : (ph.vaddr + ph.memsz) % 2 ^ 32 = ph.vaddr + ph.memsz) (hmemsz : ph.filesz ≤ ph.memsz) :
    (∃ σ', Memory.loadSegment L file σ sz ph = some (.error σ') ∧ Discarded L T k σ') ∨
      ∃ σ' sz', Memory.loadSegment L file σ sz ph = some (.ok (σ', sz')) ∧
        Loaded L T k σ' sz' := by
  unfold Memory.loadSegment
  rw [hsum]
  obtain ⟨r, σ', heq, ⟨rfl, hdisc, -⟩ | ⟨hr, hloaded, hle, -, -⟩⟩ :=
    h.allocuvm (ph.vaddr + ph.memsz)
  · rw [heq]
    exact .inl ⟨σ', rfl, hdisc⟩
  · rw [heq]
    simp only [Option.bind_eq_bind, Option.bind_some]
    rw [if_neg hr]
    by_cases haligned : ph.vaddr % PGSIZE = 0
    · obtain ⟨ok, σ'', hload, hloaded'⟩ := hloaded.loaduvm file ph.off haligned
        ((Nat.add_le_add_left hmemsz _).trans hle)
      rw [if_neg (not_not.mpr haligned), hload]
      cases ok with
      | false => exact .inl ⟨σ'', rfl, hloaded'.discarded⟩
      | true => exact .inr ⟨σ'', r, rfl, hloaded'⟩
    · rw [if_pos haligned]
      exact .inl ⟨σ', rfl, hloaded.discarded⟩

/-- The loop over the program headers extends the image, or gives it up. -/
theorem Loaded.loadLoop (h : Loaded L T k σ sz) (file : List UInt8) (n off : ℕ) :
    (∃ σ', Memory.loadLoop L file n off σ sz = some (.error σ') ∧ Discarded L T k σ') ∨
      ∃ σ' sz', Memory.loadLoop L file n off σ sz = some (.ok (σ', sz')) ∧
        Loaded L T k σ' sz' := by
  induction n generalizing σ sz off with
  | zero => exact .inr ⟨σ, sz, rfl, h⟩
  | succ n ih =>
    rw [Memory.loadLoop]
    cases readi file off PROGHDR with
    | none => exact .inl ⟨σ, rfl, h.discarded⟩
    | some bytes =>
      simp only
      split_ifs with hlen htype hmemsz hwrap
      · exact .inl ⟨σ, rfl, h.discarded⟩
      · exact ih h _
      · exact .inl ⟨σ, rfl, h.discarded⟩
      · exact .inl ⟨σ, rfl, h.discarded⟩
      · have hmem : (Proghdr.of bytes).memsz < 2 ^ 32 := field_lt bytes 20
        obtain ⟨σ', heq, hdisc⟩ | ⟨σ', sz', heq, hloaded⟩ :=
          h.loadSegment file (by omega) (Nat.le_of_not_lt hmemsz)
        · rw [heq]
          exact .inl ⟨σ', rfl, hdisc⟩
        · rw [heq]
          exact ih hloaded _

/-! ## The stack -/

/-- The image of `exec`: the user pages up to `sz` are mapped with `PTE_U`, but for the page below
the stack. -/
structure Image (L : Layout) (T : Set ℕ) (k : Kmem) (σ : Space) (sz : ℕ) : Prop where
  sound : Sound L T [] σ
  kernel : Kernel σ
  table : ∀ d, 1024 ≤ d → σ.pdes d = none
  user : ∀ v < pages sz, ∃ x, σ.page v = some x ∧ (x.u = true ↔ v + 2 ≠ pages sz)
  aligned : sz = pages sz * 4096
  two_le : 2 ≤ pages sz
  size : sz < KERNBASE
  mem : ∀ f ∉ T, σ.kmem.mem f = k.mem f

/-- Clearing `PTE_U` of the page below the stack. -/
theorem Loaded.clearpteu (h : Loaded L T k σ sz) (hsz : sz = pages sz * 4096)
    (htwo : 2 ≤ pages sz) (hlt : sz < KERNBASE) :
    ∃ σ', σ.clearpteu ((sz + (2 ^ 32 - 2 * PGSIZE)) % 2 ^ 32) = some σ' ∧ Image L T k σ' sz := by
  have hpages := pages_le h.size
  have hv : pages sz - 2 < UPAGES := by omega
  have hnp : pages sz - 2 < NPAGES := hv.trans (by decide)
  have huva : (sz + (2 ^ 32 - 2 * PGSIZE)) % 2 ^ 32 = (pages sz - 2) * 4096 := by
    rw [wrap_sub (by unfold PGSIZE; omega) (hlt.trans (by decide))]
    unfold PGSIZE
    omega
  obtain ⟨x, hx, -⟩ := h.user (pages sz - 2) (by omega)
  have htable : (σ.pdes ((pages sz - 2) / 1024)).isSome := by
    by_contra hnone
    rw [page_eq_none_of_table (Option.not_isSome_iff_eq_none.mp hnone)] at hx
    cases hx
  have hset : ∀ u, (σ.setPage (pages sz - 2) (some { x with u := false })).page u =
      if u = pages sz - 2 then some { x with u := false } else σ.page u := page_setPage htable
  refine ⟨σ.setPage (pages sz - 2) (some { x with u := false }), ?_, ?_⟩
  · unfold Space.clearpteu
    rw [huva, walkpgdir_false, pdx_mul hnp, htable]
    simp only [pte_mul σ hnp, setPte_mul σ hnp, hx, Option.map_some, Bool.true_eq_false, if_false]
  · refine ⟨⟨?_, h.sound.valid⟩, h.kernel.of_pdes fun d hd => ?_, fun d hd => ?_, fun u hu => ?_,
      hsz, htwo, hlt, h.mem⟩
    · have hslot : (σ.setPage (pages sz - 2) (some { x with u := false })).slot = σ.slot := by
        rw [slot_setPage hv htable]
        have : σ.slot (.user (pages sz - 2)) = some x.page := slot_of_page hv hx
        exact (congrArg _ this.symm).trans (update_eq_self _ _)
      rw [hslot]
      exact h.sound.parts
    · unfold UPAGES at hv
      rw [pdes_setPage, update_of_ne (by omega)]
    · unfold UPAGES at hv
      rw [pdes_setPage, update_of_ne (by omega), h.compact.table d hd]
    · rw [hset]
      by_cases hstack : u = pages sz - 2
      · rw [if_pos hstack]
        exact ⟨_, rfl, by simp; omega⟩
      · obtain ⟨y, hy, hu'⟩ := h.user u hu
        rw [if_neg hstack]
        exact ⟨y, hy, by simp [hu']; omega⟩

theorem pages_pgroundup (h : sz ≤ KERNBASE) : pages (PGROUNDUP sz) = pages sz := by
  rw [pgroundup_eq h]
  generalize pages sz = n
  unfold pages
  omega

theorem Loaded.pgroundup (h : Loaded L T k σ sz) : Loaded L T k σ (PGROUNDUP sz) where
  sound := h.sound
  kernel := h.kernel
  compact := by
    rw [pages_pgroundup h.size]
    exact h.compact
  user := by
    rw [pages_pgroundup h.size]
    exact h.user
  size := by
    have hsize := h.size
    rw [pgroundup_eq hsize]
    unfold KERNBASE at *
    unfold pages
    omega
  mem := h.mem
  fails := h.fails

/-- The stack is added to the image, or the image is given up. -/
theorem Loaded.allocStack (h : Loaded L T k σ sz) :
    (∃ σ', Memory.allocStack L σ sz = some (.error σ') ∧ Discarded L T k σ' ∧
        (KERNBASE ≤ PGROUNDUP sz + 8192 ∨ Scarce T [] k (pages sz + 2))) ∨
      ∃ σ', Memory.allocStack L σ sz = some (.ok (σ', PGROUNDUP sz + 8192)) ∧
        Image L T k σ' (PGROUNDUP sz + 8192) := by
  have hsum : (PGROUNDUP sz + 2 * PGSIZE) % 2 ^ 32 = PGROUNDUP sz + 8192 := by
    have hsize := h.pgroundup.size
    unfold KERNBASE at hsize
    unfold PGSIZE
    omega
  have hpages : pages (PGROUNDUP sz + 8192) = pages sz + 2 := by
    rw [pgroundup_eq h.size]
    generalize pages sz = n
    unfold pages
    omega
  unfold Memory.allocStack
  simp only [hsum]
  obtain ⟨r, σ', heq, ⟨rfl, hdisc, hscarce⟩ | ⟨hr, hloaded, -, hmax, hlt⟩⟩ :=
    h.pgroundup.allocuvm (PGROUNDUP sz + 8192)
  · rw [heq]
    refine .inl ⟨σ', rfl, hdisc, ?_⟩
    rw [hpages] at hscarce
    exact hscarce.imp_right fun hscarce => hscarce.resolve_left (by omega)
  · rw [max_eq_right (Nat.le_add_right _ _)] at hmax
    subst hmax
    have haligned : PGROUNDUP sz + 8192 = pages (PGROUNDUP sz + 8192) * 4096 := by
      rw [hpages, pgroundup_eq h.size]
      omega
    obtain ⟨σ'', hclear, himage⟩ := hloaded.clearpteu haligned (by omega) hlt
    refine .inr ⟨σ'', ?_, himage⟩
    rw [heq]
    simp only [Option.bind_eq_bind, Option.bind_some]
    rw [if_neg hr, hclear]
    rfl

/-! ## Loading -/

/-- `exec` either gives back all pages that it took, or has an image with a stack. -/
theorem load_spec (L : Layout) (k : Kmem) (file : List UInt8) (hnodup : k.freelist.Nodup)
    (hvalid : ∀ f ∈ k.freelist, L.kend ≤ f * PGSIZE ∧ f * PGSIZE < PHYSTOP) :
    (∃ k', load L k file = some (.error k') ∧ Released {f | f ∈ k.freelist} k k') ∨
      ∃ σ sz elf, load L k file = some (.ok (σ, sz, elf)) ∧
        Image L {f | f ∈ k.freelist} k σ sz := by
  have hsame : Released {f | f ∈ k.freelist} k k := by
    refine ⟨⟨hnodup, fun hs => ?_, fun hs => ?_, by simp⟩, fun _ _ => rfl⟩
    · cases hs
    · cases hs
  unfold load
  cases readi file 0 ELFHDR with
  | none => exact .inl ⟨k, rfl, hsame⟩
  | some bytes =>
    simp only
    split_ifs with hbad
    · exact .inl ⟨k, rfl, hsame⟩
    · obtain ⟨k', heq, hreleased, -⟩ | ⟨σ, heq, hsound, hkernel, hcompact, hmem, hfails⟩ :=
        setupkvm_spec L k hnodup hvalid
      · rw [heq]
        exact .inl ⟨k', rfl, hreleased⟩
      · have hloaded : Loaded L {f | f ∈ k.freelist} k σ 0 :=
          ⟨hsound, hkernel, hcompact, fun v hv => absurd hv (Nat.not_lt_zero v), Nat.zero_le _,
            fun f _ => congrFun hmem f, hfails⟩
        rw [heq]
        obtain ⟨σ', hrun, hdisc⟩ | ⟨σ', sz, hrun, hloaded'⟩ :=
          hloaded.loadLoop file (Elfhdr.of bytes).phnum (Elfhdr.of bytes).phoff
        · obtain ⟨k', hfree, hreleased⟩ := hdisc.freevm
          refine .inl ⟨k', ?_, hreleased⟩
          simp [hrun, hfree]
        · obtain ⟨σ'', hstack, hdisc, -⟩ | ⟨σ'', hstack, himage⟩ := hloaded'.allocStack
          · obtain ⟨k', hfree, hreleased⟩ := hdisc.freevm
            refine .inl ⟨k', ?_, hreleased⟩
            simp [hrun, hstack, hfree]
          · exact .inr ⟨σ'', _, Elfhdr.of bytes, by simp [hrun, hstack], himage⟩

end Memory
