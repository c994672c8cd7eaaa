import Mathlib
import OsnAssignments.Memory.PageTables

/-!
# `freevm` and `setupkvm`

`freevm` gives back all pages of a page directory. `setupkvm` maps the kernel: every page from
`KERNBASE` up to the end of physical memory and every page of the devices is mapped, without
`PTE_U`, and between them there are no page tables at all (`Kernel`).
-/

namespace Memory

open Pool Function

variable {L : Layout} {T : Set ℕ} {held : List ℕ} {σ σ' σ'' : Space} {v u d f lo hi : ℕ}

/-! ## `freevm` -/

/-- The slots of a page directory without its first `n` tables. -/
def Space.slotFrom (σ : Space) (n : ℕ) : Slot → Option ℕ
  | .table d => if d < n then none else σ.slot (.table d)
  | s => σ.slot s

theorem slotFrom_zero (σ : Space) : σ.slotFrom 0 = σ.slot := by
  ext1 s
  cases s <;> rfl

theorem slotFrom_succ (σ : Space) (n : ℕ) :
    σ.slotFrom (n + 1) = update (σ.slotFrom n) (.table n) none := by
  ext1 s
  cases s with
  | dir | user => exact (update_of_ne (by simp) ..).symm
  | table d =>
    by_cases hd : d = n
    · rw [hd, update_self]
      exact if_pos (Nat.lt_succ_self n)
    · rw [update_of_ne (by simpa using hd)]
      by_cases hlt : d < n
      · rw [Space.slotFrom, Space.slotFrom, if_pos hlt, if_pos (by omega)]
      · rw [Space.slotFrom, Space.slotFrom, if_neg hlt, if_neg (by omega)]

/-- The loop of `freevm` frees the tables one by one. -/
theorem freeTables_spec (h : Sound L T held σ) (n : ℕ) :
    ∃ k, σ.freeTables L n = some k ∧ Parts T (σ.slotFrom n) held k.freelist ∧
      ∀ f ∉ T, k.mem f = σ.kmem.mem f := by
  induction n with
  | zero =>
    refine ⟨σ.kmem, rfl, ?_, fun _ _ => rfl⟩
    rw [slotFrom_zero]
    exact h.parts
  | succ n ih =>
    obtain ⟨k, hk, hparts, hmem⟩ := ih
    rw [Space.freeTables, hk, slotFrom_succ]
    simp only [Option.bind_eq_bind, Option.bind_some]
    cases ht : σ.pdes n with
    | none =>
      refine ⟨k, rfl, ?_, hmem⟩
      have hnone : σ.slotFrom n (.table n) = none := by
        rw [Space.slotFrom, if_neg (Nat.lt_irrefl n), slot_table, ht]
        rfl
      rwa [← hnone, update_eq_self]
    | some t =>
      have hslot : σ.slotFrom n (.table n) = some t.page := by
        rw [Space.slotFrom, if_neg (Nat.lt_irrefl n), slot_table, ht]
        rfl
      have hT : t.page ∈ T := hparts.mem_of_slot hslot
      refine ⟨k.release t.page, ?_, hparts.release hslot, fun f hf => ?_⟩
      · exact kfree_eq (h.valid _ hT)
      · rw [← hmem f hf]
        exact update_of_ne (by rintro rfl; exact hf hT) ..

/-- `freevm` gives back all pages. -/
theorem freevm_spec (h : Sound L T held σ) (hsmall : ∀ d, 1024 ≤ d → σ.pdes d = none) :
    ∃ k, σ.freevm L = some k ∧ Parts T (fun _ : Slot => none) held k.freelist ∧
      ∀ f ∉ T, k.mem f = σ.kmem.mem f := by
  obtain ⟨τ, hdealloc, hsound, hfreed⟩ :=
    deallocuvm_spec (Nat.le_refl KERNBASE) (by decide : 0 < KERNBASE) h
  obtain ⟨k, hk, hparts, hmem⟩ := freeTables_spec hsound NPDENTRIES
  have hdir : τ.slotFrom NPDENTRIES .dir = some τ.pgdir := rfl
  have hT : τ.pgdir ∈ T := hparts.mem_of_slot hdir
  refine ⟨k.release τ.pgdir, ?_, ?_, fun f hf => ?_⟩
  · rw [Space.freevm, hdealloc]
    simp only [Option.bind_eq_bind, Option.bind_some, hk]
    exact kfree_eq (h.valid _ hT)
  · -- nothing is left in a slot
    have hnone : update (τ.slotFrom NPDENTRIES) .dir none = fun _ => none := by
      ext1 s
      cases s with
      | dir => exact update_self ..
      | table d =>
        rw [update_of_ne (by simp), Space.slotFrom]
        split_ifs with hd
        · rfl
        · rw [slot_table, hfreed.table, hsmall d (Nat.le_of_not_lt hd)]
          rfl
      | user v =>
        rw [update_of_ne (by simp)]
        show τ.slot (.user v) = none
        rw [slot_user, hfreed.page]
        split_ifs with hv hrange
        · rfl
        · exact absurd ⟨Nat.zero_le v, hv⟩ hrange
        · rfl
    rw [← hnone]
    exact hparts.release hdir
  · have hpage : ∀ v x, pages 0 ≤ v → v < pages KERNBASE → σ.page v = some x → x.page ≠ f := by
      rintro v x - hv hx rfl
      exact hf (h.parts.mem_of_slot (slot_of_page (hv.trans_le (pages_le (Nat.le_refl _))) hx))
    rw [← hfreed.mem f hpage, ← hmem f hf]
    exact update_of_ne (by rintro rfl; exact hf hT) ..

/-! ## Mapping the kernel -/

/-- From `σ` to `σ'`, the page numbers from `lo` up to `v` were mapped without `PTE_U`, on the way
to `hi`. -/
structure KernelMapped (σ : Space) (lo v hi : ℕ) (σ' : Space) : Prop where
  other : ∀ d, (∀ u, lo ≤ u → u < hi → u / 1024 ≠ d) → σ'.pdes d = σ.pdes d
  old : ∀ u, u < lo ∨ v ≤ u → σ'.page u = σ.page u
  new : ∀ u, lo ≤ u → u < v → ∃ x, σ'.page u = some x ∧ x.u = false
  mem : σ'.kmem.mem = σ.kmem.mem
  fails : σ'.kmem.fails = σ.kmem.fails

theorem KernelMapped.refl (σ : Space) (lo hi : ℕ) : KernelMapped σ lo lo hi σ where
  other _ _ := rfl
  old _ _ := rfl
  new u hlo hhi := by omega
  mem := rfl
  fails := rfl

section

variable (h : KernelMapped σ lo v hi σ')
include h

theorem KernelMapped.walked (hlo : lo ≤ v) (hhi : v < hi)
    (hw : Walked σ' (v / 1024) σ'') : KernelMapped σ lo v hi σ'' where
  other d hd := by rw [hw.other d (hd v hlo hhi).symm, h.other d hd]
  old u hu := by rw [hw.page, h.old u hu]
  new := by
    rw [hw.page]
    exact h.new
  mem := hw.mem.trans h.mem
  fails := hw.fails.trans h.fails

theorem KernelMapped.map (hlo : lo ≤ v) (hhi : v < hi)
    (htable : (σ'.pdes (v / 1024)).isSome) {x : Pte} (hx : x.u = false) :
    KernelMapped σ lo (v + 1) hi (σ'.setPage v (some x)) where
  other d hd := by
    rw [pdes_setPage, update_of_ne (hd v hlo hhi).symm, h.other d hd]
  old u hu := by rw [page_setPage htable, if_neg (by omega), h.old u (by omega)]
  new u hlo hhi := by
    rw [page_setPage htable]
    by_cases huv : u = v
    · rw [if_pos huv]
      exact ⟨x, rfl, hx⟩
    · rw [if_neg huv]
      exact h.new u hlo (by omega)
  mem := h.mem
  fails := h.fails

theorem KernelMapped.compact {n : ℕ} (hlo : UPAGES ≤ lo)
    (hhi : hi ≤ NPAGES) (hc : Compact σ n) : Compact σ' n where
  table d hd := by
    rw [h.other d fun u _ hu => ?_, hc.table d hd]
    unfold NPAGES at hhi
    omega
  user u hu hu' := by rw [h.old u (by omega), hc.user u hu hu']

end

/-- The loop of `mappages` maps all pages, or there is no page for a table. -/
theorem mappagesLoop_spec {σ₀ : Space} {w : Bool} (hlo : UPAGES ≤ lo) (hhi : hi ≤ NPAGES)
    (hnone : ∀ u, lo ≤ u → u < hi → σ₀.page u = none) (fuel : ℕ) (hfuel : hi - v ≤ fuel)
    (hv : lo ≤ v) (hlt : v < hi) (h : Sound L T held σ) (hmapped : KernelMapped σ₀ lo v hi σ)
    (pa : ℕ) :
    ∃ ok σ', Space.mappagesLoop ((hi - 1) * 4096) w false fuel σ (v * 4096) pa = some (ok, σ') ∧
      Sound L T held σ' ∧ (∃ m, KernelMapped σ₀ lo m hi σ') ∧
      (ok = true → KernelMapped σ₀ lo hi hi σ') ∧
      (ok = false → ∀ n, Compact σ₀ n → Scarce T held σ₀.kmem n) := by
  induction fuel generalizing σ v pa with
  | zero => omega
  | succ fuel ih =>
    have hpages : v < NPAGES := hlt.trans_le hhi
    obtain ⟨found, τ, hwalk, hsound, hwalked, htable, hempty⟩ := walkpgdir_spec h hpages
    have hmapped' := hmapped.walked hv hlt hwalked
    rw [Space.mappagesLoop, hwalk]
    cases found with
    | false =>
      refine ⟨false, τ, rfl, hsound, ⟨v, hmapped'⟩, fun hok => absurd hok (by simp),
        fun _ n hc => ?_⟩
      have hscarce := h.scarce (hmapped.compact hlo hhi hc) (hempty rfl)
      rwa [Scarce, hmapped.fails] at hscarce
    | true =>
      have hpage : τ.pte (v * 4096) = none := by
        rw [pte_mul τ hpages, hmapped'.old v (.inr (Nat.le_refl v)), hnone v hv hlt]
      have hset : Sound L T held (τ.setPage v (some ⟨pa / PGSIZE, w, false⟩)) := by
        refine ⟨?_, h.valid⟩
        rw [slot_setPage_of_le (hlo.trans hv) (htable rfl)]
        exact hsound.parts
      have hmap := hmapped'.map (x := ⟨pa / PGSIZE, w, false⟩) hv hlt (htable rfl) rfl
      simp only [hpage, Option.isSome_none, Bool.true_eq_false, Bool.false_eq_true, if_false,
        setPte_mul τ hpages]
      by_cases hlast : v = hi - 1
      · rw [if_pos (by rw [hlast])]
        obtain rfl : v + 1 = hi := by omega
        exact ⟨true, _, rfl, hset, ⟨v + 1, hmap⟩, fun _ => hmap, fun hok => absurd hok (by simp)⟩
      · rw [if_neg (by omega), next_page (by omega)]
        exact ih (by omega) (by omega) (by omega) hset hmap _

/-- A difference of numbers below `m`, modulo `m`. -/
theorem wrap_sub {a b m : ℕ} (hb : b ≤ a) (ha : a < m) : (a + (m - b)) % m = a - b := by
  rw [show a + (m - b) = a - b + m by omega, Nat.add_mod_right, Nat.mod_eq_of_lt (by omega)]

theorem wrap_pred {a m : ℕ} (ha : 1 ≤ a) (hm : a ≤ m) : (a + (m - 1)) % m = a - 1 := by
  rw [show a + (m - 1) = a - 1 + m by omega, Nat.add_mod_right, Nat.mod_eq_of_lt (by omega)]

theorem last_of_range (hlt : lo < hi) (hhi : hi ≤ NPAGES) :
    PGROUNDDOWN ((lo * 4096 + (hi - lo) * 4096 + (2 ^ 32 - 1)) % 2 ^ 32) = (hi - 1) * 4096 := by
  have hend : lo * 4096 + (hi - lo) * 4096 = hi * 4096 := by omega
  have hwrap : (hi * 4096 + (2 ^ 32 - 1)) % 2 ^ 32 = hi * 4096 - 1 := by
    refine wrap_pred (by omega) ?_
    unfold NPAGES at hhi
    omega
  have hdiv : (hi * 4096 - 1) / 4096 = hi - 1 := by
    clear hwrap
    omega
  unfold PGROUNDDOWN PGSIZE
  rw [hend, hwrap, hdiv]

/-- `mappages` for pages of the kernel. -/
theorem mappages_kernel {w : Bool} (hlo : UPAGES ≤ lo) (hlt : lo < hi) (hhi : hi ≤ NPAGES)
    (hnone : ∀ u, lo ≤ u → u < hi → σ.page u = none) (h : Sound L T held σ) (pa : ℕ) :
    ∃ ok σ', σ.mappages (lo * 4096) ((hi - lo) * 4096) pa w false = some (ok, σ') ∧
      Sound L T held σ' ∧ (∃ m, KernelMapped σ lo m hi σ') ∧
      (ok = true → KernelMapped σ lo hi hi σ') ∧
      (ok = false → ∀ n, Compact σ n → Scarce T held σ.kmem n) := by
  unfold Space.mappages
  rw [last_of_range hlt hhi, pgrounddown_mul]
  exact mappagesLoop_spec hlo hhi hnone NPAGES (by omega) (Nat.le_refl lo) hlt h (.refl σ lo hi) pa

/-- An entry of `kmap` is for the page numbers from `lo` up to `hi`. -/
structure Region (k : Kmap) (lo hi : ℕ) : Prop where
  virt : k.virt = lo * 4096
  size : (k.physEnd + (2 ^ 32 - k.physStart)) % 2 ^ 32 = (hi - lo) * 4096
  base : UPAGES ≤ lo
  lt : lo < hi
  le : hi ≤ NPAGES

/-- From `σ` to `σ'`, the ranges of page numbers were mapped without `PTE_U`. -/
structure RangesMapped (σ : Space) (rs : List (ℕ × ℕ)) (σ' : Space) : Prop where
  other : ∀ d, (∀ r ∈ rs, ∀ u, r.1 ≤ u → u < r.2 → u / 1024 ≠ d) → σ'.pdes d = σ.pdes d
  old : ∀ u, (∀ r ∈ rs, u < r.1 ∨ r.2 ≤ u) → σ'.page u = σ.page u
  new : ∀ r ∈ rs, ∀ u, r.1 ≤ u → u < r.2 → ∃ x, σ'.page u = some x ∧ x.u = false
  mem : σ'.kmem.mem = σ.kmem.mem
  fails : σ'.kmem.fails = σ.kmem.fails

/-- All pages are free again, and no others were touched. -/
structure Released (T : Set ℕ) (k k' : Kmem) : Prop where
  parts : Parts T (fun _ : Slot => none) [] k'.freelist
  mem : ∀ f ∉ T, k'.mem f = k.mem f

theorem setupkvmLoop_spec {ks : List Kmap} {rs : List (ℕ × ℕ)} {n : ℕ}
    (hregions : List.Forall₂ (fun k r => Region k r.1 r.2) ks rs)
    (hsorted : rs.Pairwise fun r r' => r.2 ≤ r'.1)
    (hnone : ∀ r ∈ rs, ∀ u, r.1 ≤ u → u < r.2 → σ.page u = none) (hc : Compact σ n)
    (h : Sound L T [] σ) :
    (∃ k, setupkvmLoop L ks σ = some (.error k) ∧ Released T σ.kmem k ∧ Scarce T [] σ.kmem n) ∨
      ∃ σ', setupkvmLoop L ks σ = some (.ok σ') ∧ Sound L T [] σ' ∧ RangesMapped σ rs σ' := by
  induction hregions generalizing σ with
  | nil =>
    refine .inr ⟨σ, rfl, h, fun _ _ => rfl, fun _ _ => rfl, fun r hr => ?_, rfl, rfl⟩
    cases hr
  | @cons k r ks rs hregion hregions ih =>
    obtain ⟨hfirst, hsorted⟩ := List.pairwise_cons.mp hsorted
    obtain ⟨ok, τ, hmap, hsound, ⟨m, hpartial⟩, hall, hscarce⟩ :=
      mappages_kernel hregion.base hregion.lt hregion.le (hnone r List.mem_cons_self) h k.physStart
        (w := k.w)
    rw [setupkvmLoop, hregion.size, hregion.virt, hmap]
    have hcompact : Compact τ n := hpartial.compact hregion.base hregion.le hc
    cases ok with
    | false =>
      obtain ⟨k', hfree, hparts, hmem⟩ := freevm_spec hsound hcompact.table
      refine .inl ⟨k', ?_, ⟨hparts, fun f hf => ?_⟩, hscarce rfl n hc⟩
      · simp [hfree]
      · rw [hmem f hf, hpartial.mem]
    | true =>
      have hmapped := hall rfl
      have hrest : ∀ r' ∈ rs, ∀ u, r'.1 ≤ u → u < r'.2 → τ.page u = none := by
        intro r' hr' u hu hu'
        have := hfirst r' hr'
        rw [hmapped.old u (.inr (this.trans hu)), hnone r' (List.mem_cons_of_mem _ hr') u hu hu']
      obtain ⟨k', hrun, hreleased, hscarce'⟩ | ⟨σ', hrun, hsound', hranges⟩ :=
        ih hsorted hrest hcompact hsound
      · refine .inl ⟨k', hrun, ⟨hreleased.parts, fun f hf => ?_⟩, ?_⟩
        · rw [hreleased.mem f hf, hmapped.mem]
        · rwa [Scarce, hmapped.fails] at hscarce'
      · refine .inr ⟨σ', hrun, hsound', fun d hd => ?_, fun u hu => ?_, fun r' hr' u hu hu' => ?_,
          hranges.mem.trans hmapped.mem, hranges.fails.trans hmapped.fails⟩
        · rw [hranges.other d fun r' hr' => hd r' (List.mem_cons_of_mem _ hr'),
            hmapped.other d (hd r List.mem_cons_self)]
        · rw [hranges.old u fun r' hr' => hu r' (List.mem_cons_of_mem _ hr'),
            hmapped.old u (hu r List.mem_cons_self)]
        · rcases List.mem_cons.mp hr' with rfl | hr'
          · rw [hranges.old u fun r'' hr'' => .inl (hu'.trans_le (hfirst r'' hr''))]
            exact hmapped.new u hu hu'
          · exact hranges.new r' hr' u hu hu'

/-! ## `setupkvm` -/

/-- The page numbers that `kmap` maps. -/
def kmapRanges (L : Layout) : List (ℕ × ℕ) :=
  [(0x80000, 0x80100), (0x80100, 0x80000 + L.data / 4096), (0x80000 + L.data / 4096, 0x8E000),
    (0xFE000, 0x100000)]

theorem kmap_regions (L : Layout) :
    List.Forall₂ (fun k r => Region k r.1 r.2) (kmap L) (kmapRanges L) := by
  have haligned := L.data_aligned
  have hlow := L.extmem_lt
  have hhigh := L.data_le.trans_lt L.kend_lt
  unfold PGSIZE at haligned
  unfold EXTMEM at hlow
  unfold PHYSTOP at hhigh
  refine .cons ⟨by decide, by decide, by decide, by decide, by decide⟩
    (.cons ⟨?_, ?_, ?_, ?_, ?_⟩ (.cons ⟨?_, ?_, ?_, ?_, ?_⟩
      (.cons ⟨by decide, by decide, by decide, by decide, by decide⟩ .nil)))
  · show KERNBASE + EXTMEM = 0x80100 * 4096
    decide
  · show (L.data + (2 ^ 32 - EXTMEM)) % 2 ^ 32 = _
    rw [wrap_sub (by unfold EXTMEM; omega) (by omega)]
    unfold EXTMEM
    omega
  · show UPAGES ≤ 0x80100
    decide
  · show 0x80100 < 0x80000 + L.data / 4096
    omega
  · show 0x80000 + L.data / 4096 ≤ 2 ^ 20
    omega
  · show 0x80000000 + L.data = (0x80000 + L.data / 4096) * 4096
    omega
  · show (PHYSTOP + (2 ^ 32 - L.data)) % 2 ^ 32 = (0x8E000 - (0x80000 + L.data / 4096)) * 4096
    rw [wrap_sub (by unfold PHYSTOP; omega) (by decide)]
    unfold PHYSTOP
    omega
  · show 2 ^ 19 ≤ 0x80000 + L.data / 4096
    omega
  · show 0x80000 + L.data / 4096 < 0x8E000
    omega
  · show 0x8E000 ≤ NPAGES
    decide

theorem kmapRanges_sorted (L : Layout) : (kmapRanges L).Pairwise fun r r' => r.2 ≤ r'.1 := by
  have hlow := L.extmem_lt
  have hhigh := L.data_le.trans_lt L.kend_lt
  unfold EXTMEM at hlow
  unfold PHYSTOP at hhigh
  simp only [kmapRanges, List.pairwise_cons, List.mem_cons, List.not_mem_nil, or_false,
    forall_eq_or_imp, forall_eq]
  refine ⟨?_, ?_, ?_, ?_⟩ <;> simp <;> omega

/-- The mappings of the kernel: all of physical memory and the devices, without `PTE_U`, and no
tables in between. -/
structure Kernel (σ : Space) : Prop where
  gap : ∀ d, 568 ≤ d → d < 1016 → σ.pdes d = none
  memory : ∀ v, UPAGES ≤ v → v < 0x8E000 → ∃ x, σ.page v = some x ∧ x.u = false
  devices : ∀ v, 0xFE000 ≤ v → v < NPAGES → ∃ x, σ.page v = some x ∧ x.u = false

theorem kernel_of_ranges (h : RangesMapped σ (kmapRanges L) σ') (hnone : ∀ d, σ.pdes d = none) :
    Kernel σ' ∧ Compact σ' 0 := by
  have hlow := L.extmem_lt
  have hhigh := L.data_le.trans_lt L.kend_lt
  unfold EXTMEM at hlow
  unfold PHYSTOP at hhigh
  have hmem : ∀ {P : ℕ × ℕ → Prop}, (∀ r ∈ kmapRanges L, P r) ↔
      P (0x80000, 0x80100) ∧ P (0x80100, 0x80000 + L.data / 4096) ∧
        P (0x80000 + L.data / 4096, 0x8E000) ∧ P (0xFE000, 0x100000) := by
    intro P
    simp [kmapRanges]
  have hpages := hmem.mp h.new
  refine ⟨⟨fun d hd hd' => ?_, fun v hv hv' => ?_, fun v hv hv' => ?_⟩, fun d hd => ?_,
    fun v _ hv => ?_⟩
  · rw [h.other d, hnone]
    refine hmem.mpr ⟨?_, ?_, ?_, ?_⟩ <;> intro u hu hu' <;> simp only at hu hu' <;> omega
  · unfold UPAGES at hv
    by_cases hfirst : v < 0x80100
    · exact hpages.1 v hv hfirst
    · by_cases hsecond : v < 0x80000 + L.data / 4096
      · exact hpages.2.1 v (Nat.le_of_not_lt hfirst) hsecond
      · exact hpages.2.2.1 v (Nat.le_of_not_lt hsecond) hv'
  · exact hpages.2.2.2 v hv hv'
  · rw [h.other d, hnone]
    refine hmem.mpr ⟨?_, ?_, ?_, ?_⟩ <;> intro u hu hu' <;> simp only at hu hu' <;> omega
  · rw [h.old v, page_eq_none_of_table (hnone _)]
    unfold UPAGES at hv
    refine hmem.mpr ⟨?_, ?_, ?_, ?_⟩ <;> simp only <;> omega

/-- A page directory without entries owns its own page. -/
theorem slot_empty {k : Kmem} {s : Slot} {g : ℕ} :
    Space.slot ⟨k, f, fun _ => none⟩ s = some g ↔ s = .dir ∧ f = g := by
  cases s with
  | dir | table => simp [Space.slot]
  | user => simp [slot_user, Space.page]

theorem sound_empty {k : Kmem} {rest : List ℕ} {calls : ℕ} (hnodup : k.freelist.Nodup)
    (hvalid : ∀ f ∈ k.freelist, L.kend ≤ f * PGSIZE ∧ f * PGSIZE < PHYSTOP)
    (hfree : k.freelist = f :: rest) : Sound L {f | f ∈ k.freelist} []
      ⟨{ k with freelist := rest, calls := calls }, f, fun _ => none⟩ := by
  rw [hfree, List.nodup_cons] at hnodup
  refine ⟨⟨hnodup.2, fun hs hs' => ?_, fun hs hmem => ?_, ?_⟩, hvalid⟩
  · rw [(slot_empty.mp hs).1, (slot_empty.mp hs').1]
  · rw [← (slot_empty.mp hs).2] at hmem
    exact hnodup.1 hmem
  · intro g
    simp only [slot_empty]
    show g ∈ k.freelist ↔ g ∈ rest ∨ _
    rw [hfree, List.mem_cons]
    constructor
    · rintro (rfl | hg)
      · exact .inr ⟨.dir, rfl, rfl⟩
      · exact .inl hg
    · rintro (hg | ⟨s, -, rfl⟩)
      · exact .inr hg
      · exact .inl rfl

/-- `setupkvm` returns a page directory with the mappings of the kernel, or 0 with all pages free
again. -/
theorem setupkvm_spec (L : Layout) (k : Kmem) (hnodup : k.freelist.Nodup)
    (hvalid : ∀ f ∈ k.freelist, L.kend ≤ f * PGSIZE ∧ f * PGSIZE < PHYSTOP) :
    (∃ k', setupkvm L k = some (.error k') ∧ Released {f | f ∈ k.freelist} k k' ∧
        Scarce {f | f ∈ k.freelist} [] k 0) ∨
      ∃ σ, setupkvm L k = some (.ok σ) ∧ Sound L {f | f ∈ k.freelist} [] σ ∧ Kernel σ ∧
        Compact σ 0 ∧ σ.kmem.mem = k.mem ∧ σ.kmem.fails = k.fails := by
  unfold setupkvm
  obtain ⟨hempty, hfail⟩ | ⟨f, rest, hfree, htake⟩ := kalloc_cases k
  · rw [hfail]
    refine .inl ⟨_, rfl, ⟨⟨hnodup, fun hs => ?_, fun hs => ?_, ?_⟩, fun _ _ => rfl⟩, ?_⟩
    · cases hs
    · cases hs
    · simp
    · refine hempty.imp_right fun hnil S hS => ?_
      have : S = ∅ := Finset.eq_empty_of_forall_notMem fun f hf => by
        have := hS hf
        simp [hnil] at this
      simp [this]
  · rw [htake]
    simp only
    rw [if_neg (by decide)]
    have hnone : ∀ v, Space.page ⟨{ k with freelist := rest, calls := k.calls + 1 }, f,
        fun _ => none⟩ v = none := fun v => page_eq_none_of_table rfl
    obtain ⟨k', hrun, hreleased, hscarce⟩ | ⟨σ, hrun, hsound, hranges⟩ :=
      setupkvmLoop_spec (kmap_regions L) (kmapRanges_sorted L) (fun _ _ u _ _ => hnone u)
        ⟨fun _ _ => rfl, fun v _ _ => hnone v⟩ (sound_empty hnodup hvalid hfree)
    · exact .inl ⟨k', hrun, ⟨hreleased.parts, hreleased.mem⟩, hscarce⟩
    · obtain ⟨hkernel, hcompact⟩ := kernel_of_ranges hranges fun _ => rfl
      exact .inr ⟨σ, hrun, hsound, hkernel, hcompact, hranges.mem, hranges.fails⟩

end Memory
