import Mathlib
import OsnAssignments.Common.Pool
import OsnAssignments.Memory.VirtualMemory

/-!
# Page tables and the pages they own

The entries of a page directory by page number (`Space.page`), and the invariant `Sound`: of a fixed
set of pages, each is free, held, the page directory, one of its tables, or mapped at one user
address, and in one of these places only. What `deallocuvm` and `allocuvm` do is stated over page
numbers (`Freed`, `Grown`), for every pattern of failures of `kalloc`.
-/

namespace Memory

open Pool Function

variable {n newsz oldsz sz : ℕ} {rest : List ℕ}

/-- The number of pages that `sz` bytes take. -/
def pages (sz : ℕ) : ℕ := (sz + 4095) / 4096

/-- The number of user pages. -/
def UPAGES : ℕ := 2 ^ 19

theorem pgroundup_eq (h : sz ≤ KERNBASE) : PGROUNDUP sz = pages sz * 4096 := by
  unfold KERNBASE at h
  unfold PGROUNDUP PGSIZE pages
  omega

theorem pages_le (h : sz ≤ KERNBASE) : pages sz ≤ UPAGES := by
  unfold KERNBASE at h
  unfold pages UPAGES
  omega

theorem mul_lt_iff {v : ℕ} : v * 4096 < sz ↔ v < pages sz := by
  unfold pages
  omega

/-- The address of the next page, as long as it does not wrap. -/
theorem next_page {v : ℕ} (h : v + 1 < NPAGES) : (v * 4096 + PGSIZE) % 2 ^ 32 = (v + 1) * 4096 := by
  unfold NPAGES at h
  unfold PGSIZE
  omega

theorem succ_lt_npages {v : ℕ} (h : v < UPAGES) : v + 1 < NPAGES := by
  unfold UPAGES at h
  unfold NPAGES
  omega

namespace Space

/-- The entry for page number `v`. -/
def page (σ : Space) (v : ℕ) : Option Pte := (σ.pdes (v / 1024)).bind fun t => t.ptes (v % 1024)

/-- Store the entry for page number `v`, whose table exists. -/
def setPage (σ : Space) (v : ℕ) (x : Option Pte) : Space :=
  { σ with
    pdes := update σ.pdes (v / 1024) ((σ.pdes (v / 1024)).map fun t =>
      { t with ptes := update t.ptes (v % 1024) x }) }

/-- Add an empty table for the `d`th entry of the page directory. -/
def addTable (σ : Space) (d f : ℕ) : Space :=
  { σ with pdes := update σ.pdes d (some ⟨f, fun _ => none⟩) }

end Space

variable {L : Layout} {T : Set ℕ} {held : List ℕ} {σ σ' σ'' : Space} {v u d f : ℕ}
  {x : Option Pte}

theorem pdx_mul (h : v < NPAGES) : PDX (v * 4096) = v / 1024 := by
  unfold NPAGES at h
  unfold PDX
  omega

theorem ptx_mul (v : ℕ) : PTX (v * 4096) = v % 1024 := by
  unfold PTX
  omega

theorem pte_mul (σ : Space) (h : v < NPAGES) : σ.pte (v * 4096) = σ.page v := by
  rw [Space.pte, Space.page, pdx_mul h, ptx_mul]

theorem setPte_mul (σ : Space) (h : v < NPAGES) (x : Option Pte) :
    σ.setPte (v * 4096) x = σ.setPage v x := by
  rw [Space.setPte, Space.setPage, pdx_mul h, ptx_mul]

theorem pdes_setPage (σ : Space) (v : ℕ) (x : Option Pte) :
    (σ.setPage v x).pdes = update σ.pdes (v / 1024) ((σ.pdes (v / 1024)).map fun t =>
      { t with ptes := update t.ptes (v % 1024) x }) := rfl

theorem pdes_addTable (σ : Space) (d f : ℕ) :
    (σ.addTable d f).pdes = update σ.pdes d (some ⟨f, fun _ => none⟩) := rfl

theorem page_setPage (h : (σ.pdes (v / 1024)).isSome) (u : ℕ) :
    (σ.setPage v x).page u = if u = v then x else σ.page u := by
  obtain ⟨t, ht⟩ := Option.isSome_iff_exists.mp h
  unfold Space.page
  rw [pdes_setPage]
  by_cases hd : u / 1024 = v / 1024
  · rw [hd, update_self, ht, Option.map_some, Option.bind_some, Option.bind_some]
    by_cases hu : u % 1024 = v % 1024
    · rw [if_pos (by omega), hu]
      exact update_self ..
    · rw [if_neg (by rintro rfl; exact hu rfl)]
      exact update_of_ne hu ..
  · rw [if_neg (by rintro rfl; exact hd rfl), update_of_ne hd]

theorem table_setPage (d : ℕ) :
    ((σ.setPage v x).pdes d).map PageTable.page = (σ.pdes d).map PageTable.page := by
  rw [pdes_setPage]
  by_cases hd : d = v / 1024
  · rw [hd, update_self, Option.map_map]
    rfl
  · rw [update_of_ne hd]

theorem page_addTable (h : σ.pdes d = none) : (σ.addTable d f).page = σ.page := by
  ext1 u
  unfold Space.page
  rw [pdes_addTable]
  by_cases hd : u / 1024 = d
  · rw [hd, update_self, h]
    rfl
  · rw [update_of_ne hd]

/-! ## Ownership -/

/-- Where a page directory keeps pages. -/
inductive Slot
  | dir
  | table (d : ℕ)
  | user (v : ℕ)
  deriving DecidableEq

/-- The page in a slot; the kernel's mappings own no pages. -/
def Space.slot (σ : Space) : Slot → Option ℕ
  | .dir => some σ.pgdir
  | .table d => (σ.pdes d).map PageTable.page
  | .user v => if v < UPAGES then (σ.page v).map Pte.page else none

/-- The pages of `T` are in one place each, and all can be freed. -/
structure Sound (L : Layout) (T : Set ℕ) (held : List ℕ) (σ : Space) : Prop where
  parts : Parts T σ.slot held σ.kmem.freelist
  valid : ∀ f ∈ T, L.kend ≤ f * PGSIZE ∧ f * PGSIZE < PHYSTOP

theorem slot_table (σ : Space) (d : ℕ) : σ.slot (.table d) = (σ.pdes d).map PageTable.page := rfl

theorem slot_user (σ : Space) (v : ℕ) :
    σ.slot (.user v) = if v < UPAGES then (σ.page v).map Pte.page else none := rfl

theorem slot_setPage (hv : v < UPAGES) (h : (σ.pdes (v / 1024)).isSome) :
    (σ.setPage v x).slot = update σ.slot (.user v) (x.map Pte.page) := by
  ext1 s
  cases s with
  | dir => exact (update_of_ne (by simp) ..).symm
  | table d =>
    rw [update_of_ne (by simp)]
    exact table_setPage d
  | user u =>
    rw [slot_user, page_setPage h]
    by_cases hu : u = v
    · rw [hu, update_self, if_pos hv, if_pos rfl]
    · rw [update_of_ne (by simpa using hu), if_neg hu, slot_user]

/-- The entries of the kernel are not slots. -/
theorem slot_setPage_of_le (hv : UPAGES ≤ v) (h : (σ.pdes (v / 1024)).isSome) :
    (σ.setPage v x).slot = σ.slot := by
  ext1 s
  cases s with
  | dir => rfl
  | table d => exact table_setPage d
  | user u =>
    rw [slot_user, slot_user, page_setPage h]
    by_cases hu : u < UPAGES
    · rw [if_neg (by omega : u ≠ v)]
    · rw [if_neg hu, if_neg hu]

theorem slot_addTable (h : σ.pdes d = none) :
    (σ.addTable d f).slot = update σ.slot (.table d) (some f) := by
  ext1 s
  cases s with
  | dir => exact (update_of_ne (by simp) ..).symm
  | table d' =>
    rw [slot_table, pdes_addTable]
    by_cases hd : d' = d
    · rw [hd, update_self, update_self]
      rfl
    · rw [update_of_ne hd, update_of_ne (by simpa using hd), slot_table]
  | user => rw [update_of_ne (by simp), slot_user, page_addTable h, slot_user]

theorem slot_of_page (hv : v < UPAGES) {x : Pte} (h : σ.page v = some x) :
    σ.slot (.user v) = some x.page := by
  rw [slot_user, if_pos hv, h]
  rfl

/-- The page directory itself does not depend on the allocator. -/
@[simp]
theorem slot_kmem (σ : Space) (k : Kmem) : { σ with kmem := k }.slot = σ.slot := by
  funext s
  cases s <;> rfl

/-! ## `kalloc` and `kfree` -/

/-- The next call of `kalloc` finds no page. -/
def Kmem.Empty (k : Kmem) : Prop := (∃ n, k.fails n = true) ∨ k.freelist = []

theorem kalloc_cases (k : Kmem) :
    (k.Empty ∧ k.kalloc = (none, { k with calls := k.calls + 1 })) ∨
      ∃ f rest, k.freelist = f :: rest ∧
        k.kalloc = (some f, { k with freelist := rest, calls := k.calls + 1 }) := by
  unfold Kmem.kalloc
  by_cases hfails : k.fails k.calls = true
  · rw [if_pos hfails]
    exact .inl ⟨.inl ⟨_, hfails⟩, rfl⟩
  · rw [if_neg hfails]
    cases h : k.freelist with
    | nil => exact .inl ⟨.inr h, rfl⟩
    | cons f rest => exact .inr ⟨f, rest, rfl, rfl⟩

/-- What `kfree` does to a page that can be freed. -/
def Kmem.release (k : Kmem) (f : ℕ) : Kmem :=
  { k with mem := update k.mem f fun _ => 1, freelist := f :: k.freelist }

theorem kfree_eq {k : Kmem} (h : L.kend ≤ f * PGSIZE ∧ f * PGSIZE < PHYSTOP) :
    k.kfree L f = some (k.release f) := by
  unfold Kmem.kfree
  rw [if_neg (by omega)]
  rfl

/-! ## Running out of pages -/

/-- All tables are within the page directory, and all user pages below page number `n`. -/
structure Compact (σ : Space) (n : ℕ) : Prop where
  table : ∀ d, 1024 ≤ d → σ.pdes d = none
  user : ∀ v, n ≤ v → v < UPAGES → σ.page v = none

/-- Some call of `kalloc` fails by chance, or there are too few pages for `n` user pages, the page
directory, its tables, and one more. -/
def Scarce (T : Set ℕ) (held : List ℕ) (k : Kmem) (n : ℕ) : Prop :=
  (∃ j, k.fails j = true) ∨ ∀ S : Finset ℕ, (S : Set ℕ) ⊆ T → S.card ≤ n + held.length + 1026

/-- The page directory, `m` tables and `n` user pages. -/
def slots (m n : ℕ) : Finset Slot :=
  {.dir} ∪ ((Finset.range m).image .table ∪ (Finset.range n).image .user)

theorem card_slots_le (m n : ℕ) : (slots m n).card ≤ 1 + (m + n) := by
  refine (Finset.card_union_le _ _).trans (Nat.add_le_add (Finset.card_singleton _).le ?_)
  refine (Finset.card_union_le _ _).trans (Nat.add_le_add ?_ ?_)
  · exact Finset.card_image_le.trans (Finset.card_range m).le
  · exact Finset.card_image_le.trans (Finset.card_range n).le

theorem Compact.mem_slots (hc : Compact σ n) {s : Slot} (hs : σ.slot s = some f) :
    s ∈ slots 1024 n := by
  unfold slots
  rw [Finset.mem_union, Finset.mem_union, Finset.mem_singleton]
  cases s with
  | dir => exact .inl rfl
  | table d =>
    refine .inr (.inl (Finset.mem_image_of_mem _ (Finset.mem_range.mpr ?_)))
    by_contra hd
    rw [slot_table, hc.table d (Nat.le_of_not_lt hd)] at hs
    cases hs
  | user v =>
    refine .inr (.inr (Finset.mem_image_of_mem _ (Finset.mem_range.mpr ?_)))
    by_contra hv
    rw [slot_user] at hs
    split_ifs at hs with hlt
    rw [hc.user v (Nat.le_of_not_lt hv) hlt] at hs
    cases hs

/-- If the free list is empty, all pages are in slots. -/
theorem Sound.card_le (h : Sound L T held σ) (hc : Compact σ n)
    (hempty : σ.kmem.freelist = []) {S : Finset ℕ} (hS : (S : Set ℕ) ⊆ T) :
    S.card ≤ n + held.length + 1025 := by
  have hsub : S ⊆ held.toFinset ∪ (slots 1024 n).image fun s => (σ.slot s).getD 0 := by
    intro f hf
    have hf := h.parts.total.mp (hS hf)
    rw [hempty, List.append_nil] at hf
    rcases hf with hf | ⟨s, hs⟩
    · exact Finset.mem_union_left _ (List.mem_toFinset.mpr hf)
    · refine Finset.mem_union_right _ (Finset.mem_image.mpr ⟨s, hc.mem_slots hs, ?_⟩)
      rw [hs]
      rfl
  have hcard := card_slots_le 1024 n
  calc S.card ≤ (held.toFinset ∪ (slots 1024 n).image fun s => (σ.slot s).getD 0).card :=
        Finset.card_le_card hsub
    _ ≤ held.toFinset.card + ((slots 1024 n).image fun s => (σ.slot s).getD 0).card :=
        Finset.card_union_le _ _
    _ ≤ held.length + (slots 1024 n).card :=
        Nat.add_le_add (List.toFinset_card_le held) Finset.card_image_le
    _ ≤ n + held.length + 1025 := by omega

theorem Sound.scarce (h : Sound L T held σ) (hc : Compact σ n) (hempty : σ.kmem.Empty) :
    Scarce T held σ.kmem n :=
  hempty.imp_right fun hfree _ hS => (h.card_le hc hfree hS).trans (Nat.le_succ _)

/-! ## `deallocuvm` -/

theorem walkpgdir_false (σ : Space) (va : ℕ) :
    σ.walkpgdir va false = ((σ.pdes (PDX va)).isSome, σ) := by
  unfold Space.walkpgdir
  cases σ.pdes (PDX va) with
  | none => rfl
  | some => rfl

/-- The next address that `deallocuvm` looks at if there is no table. -/
theorem pgaddr_next (h : v < UPAGES) :
    (PGADDR (v / 1024 + 1) + (2 ^ 32 - PGSIZE) + PGSIZE) % 2 ^ 32 =
      (v / 1024 + 1) * 1024 * 4096 := by
  have hback : 2 ^ 32 - PGSIZE + PGSIZE = 2 ^ 32 := rfl
  unfold UPAGES at h
  rw [Nat.add_assoc, hback, Nat.add_mod_right, PGADDR, Nat.mod_mod]
  omega

theorem page_eq_none_of_table (h : σ.pdes (v / 1024) = none) : σ.page v = none := by
  rw [Space.page, h]
  rfl

/-- From `σ` to `σ'`, the pages with numbers from `lo` up to `hi` were unmapped and freed. -/
structure Freed (σ : Space) (lo hi : ℕ) (σ' : Space) : Prop where
  pgdir : σ'.pgdir = σ.pgdir
  table : ∀ d, (σ'.pdes d).map PageTable.page = (σ.pdes d).map PageTable.page
  page : ∀ v, σ'.page v = if lo ≤ v ∧ v < hi then none else σ.page v
  mem : ∀ f, (∀ v x, lo ≤ v → v < hi → σ.page v = some x → x.page ≠ f) →
    σ'.kmem.mem f = σ.kmem.mem f

section Freed

variable {lo mid hi : ℕ}

theorem Freed.refl (σ : Space) (h : hi ≤ lo) : Freed σ lo hi σ where
  pgdir := rfl
  table _ := rfl
  page v := by rw [if_neg (by omega)]
  mem _ _ := rfl

/-- Pages that are not mapped are passed over. -/
theorem Freed.skip (hnone : ∀ v, lo ≤ v → v < mid → σ.page v = none) (hmid : lo ≤ mid)
    (h : Freed σ mid hi σ') : Freed σ lo hi σ' := by
  refine { h with
    page := fun v => ?_
    mem := fun f hf => h.mem f fun v x hv hv' => hf v x (hmid.trans hv) hv' }
  rw [h.page]
  by_cases hv : lo ≤ v ∧ v < hi
  · rw [if_pos hv]
    split_ifs with hmid'
    · rfl
    · exact hnone v hv.1 (by omega)
  · rw [if_neg hv, if_neg (by omega)]

/-- The first page is unmapped and freed. -/
theorem Freed.step {x : Pte} (htable : (σ.pdes (lo / 1024)).isSome)
    (hpage : σ.page lo = some x) (hlo : lo < hi)
    (h : Freed ({ σ with kmem := σ.kmem.release x.page }.setPage lo none) (lo + 1) hi σ') :
    Freed σ lo hi σ' := by
  have hset : ∀ v, ({ σ with kmem := σ.kmem.release x.page }.setPage lo none).page v =
      if v = lo then none else σ.page v := page_setPage htable
  refine ⟨h.pgdir, fun d => (h.table d).trans (table_setPage d), fun v => ?_, fun f hf => ?_⟩
  · rw [h.page, hset]
    split_ifs <;> first | rfl | omega
  · have hne : f ≠ x.page := (hf lo x (Nat.le_refl lo) hlo hpage).symm
    rw [h.mem f fun v y hv hv' hy => ?_]
    · exact update_of_ne hne ..
    · rw [hset, if_neg (by omega)] at hy
      exact hf v y (by omega) hv' hy

end Freed

/-- The page of an entry goes back to the free list. -/
theorem Sound.free_page {x : Pte} (h : Sound L T held σ) (hv : v < UPAGES)
    (htable : (σ.pdes (v / 1024)).isSome) (hpage : σ.page v = some x) :
    Sound L T held ({ σ with kmem := σ.kmem.release x.page }.setPage v none) := by
  refine ⟨?_, h.valid⟩
  have hslot : ({ σ with kmem := σ.kmem.release x.page }.setPage v none).slot =
      update σ.slot (.user v) none := by
    have hset := slot_setPage (σ := { σ with kmem := σ.kmem.release x.page }) (x := none) hv htable
    rwa [slot_kmem] at hset
  rw [hslot]
  exact h.parts.release (slot_of_page hv hpage)

/-- The loop of `deallocuvm` ends, and frees the pages from `v` on. -/
theorem deallocuvmLoop_spec (hold : oldsz ≤ KERNBASE) (fuel : ℕ)
    (hfuel : pages oldsz - v < fuel) (h : Sound L T held σ) :
    ∃ σ', Space.deallocuvmLoop L oldsz fuel σ (v * 4096) = some σ' ∧ Sound L T held σ' ∧
      Freed σ v (pages oldsz) σ' := by
  induction fuel generalizing σ v with
  | zero => omega
  | succ fuel ih =>
    rw [Space.deallocuvmLoop]
    by_cases hv : v < pages oldsz
    · have hle : v < UPAGES := hv.trans_le (pages_le hold)
      have hpages : v < NPAGES := hle.trans (by decide)
      rw [if_pos (mul_lt_iff.mpr hv), walkpgdir_false, pdx_mul hpages]
      cases htable : σ.pdes (v / 1024) with
      | none =>
        -- the rest of the directory entry is skipped
        obtain ⟨σ', heq, hsound, hfreed⟩ := ih (v := (v / 1024 + 1) * 1024) (by omega) h
        refine ⟨σ', ?_, hsound, hfreed.skip (fun u hu hu' => ?_) (by omega)⟩
        · rw [pgaddr_next hle]
          exact heq
        · exact page_eq_none_of_table (by rwa [show u / 1024 = v / 1024 by omega])
      | some =>
        have hsome : (σ.pdes (v / 1024)).isSome := by
          rw [htable]
          rfl
        rw [next_page (succ_lt_npages hle)]
        simp only [Option.isSome_some, Bool.true_eq_false, if_false, pte_mul σ hpages]
        cases hpage : σ.page v with
        | none =>
          obtain ⟨σ', heq, hsound, hfreed⟩ := ih (v := v + 1) (by omega) h
          refine ⟨σ', heq, hsound, hfreed.skip (fun u hu hu' => ?_) (Nat.le_succ v)⟩
          rwa [show u = v by omega]
        | some x =>
          have hvalid := h.valid _ (h.parts.mem_of_slot (slot_of_page hle hpage))
          have hzero : x.page ≠ 0 := by
            intro hzero
            have := L.extmem_lt
            have := L.data_le
            unfold EXTMEM at *
            rw [hzero] at hvalid
            omega
          simp only [hzero, if_false, kfree_eq hvalid, setPte_mul _ hpages]
          obtain ⟨σ', heq, hsound, hfreed⟩ :=
            ih (v := v + 1) (by omega) (h.free_page hle hsome hpage)
          exact ⟨σ', heq, hsound, hfreed.step hsome hpage hv⟩
    · rw [if_neg fun hlt => hv (mul_lt_iff.mp hlt)]
      exact ⟨σ, rfl, h, .refl σ (Nat.le_of_not_lt hv)⟩

/-- `deallocuvm` unmaps and frees the pages behind the new size. -/
theorem deallocuvm_spec (hold : oldsz ≤ KERNBASE) (hnew : newsz < oldsz) (h : Sound L T held σ) :
    ∃ σ', σ.deallocuvm L oldsz newsz = some (newsz, σ') ∧ Sound L T held σ' ∧
      Freed σ (pages newsz) (pages oldsz) σ' := by
  have hfuel : pages oldsz - pages newsz < NPAGES :=
    (Nat.sub_le _ _).trans_lt ((pages_le hold).trans_lt (by decide))
  obtain ⟨σ', heq, hspec⟩ := deallocuvmLoop_spec hold NPAGES hfuel h
  refine ⟨σ', ?_, hspec⟩
  rw [Space.deallocuvm, if_neg (Nat.not_le_of_lt hnew),
    pgroundup_eq (hnew.le.trans hold), heq]
  rfl

/-! ## `walkpgdir` and `mappages` -/

/-- From `σ` to `σ'`, tables may have been added for the `d`th entry of the page directory. -/
structure Walked (σ : Space) (d : ℕ) (σ' : Space) : Prop where
  pgdir : σ'.pgdir = σ.pgdir
  page : σ'.page = σ.page
  table : ∀ d t, σ.pdes d = some t → σ'.pdes d = some t
  other : ∀ d' ≠ d, σ'.pdes d' = σ.pdes d'
  mem : σ'.kmem.mem = σ.kmem.mem
  free : σ'.kmem.freelist <:+ σ.kmem.freelist
  fails : σ'.kmem.fails = σ.kmem.fails

theorem Walked.calls (σ : Space) (d : ℕ) :
    Walked σ d { σ with kmem := { σ.kmem with calls := σ.kmem.calls + 1 } } where
  pgdir := rfl
  page := rfl
  table _ _ ht := ht
  other _ _ := rfl
  mem := rfl
  free := List.suffix_refl _
  fails := rfl

theorem Walked.addTable (h : σ.pdes d = none) (hfree : σ.kmem.freelist = f :: rest) :
    Walked σ d ({ σ with
      kmem := { σ.kmem with freelist := rest, calls := σ.kmem.calls + 1 } }.addTable d f) where
  pgdir := rfl
  page := page_addTable h
  table d' t ht := by
    rw [pdes_addTable, update_of_ne (by rintro rfl; rw [h] at ht; cases ht)]
    exact ht
  other d' hd' := by rw [pdes_addTable, update_of_ne hd']
  mem := rfl
  free := hfree ▸ List.suffix_cons f rest
  fails := rfl

/-- `walkpgdir` finds the table, or adds it, or finds no page for it. -/
theorem walkpgdir_spec (h : Sound L T held σ) (hv : v < NPAGES) :
    ∃ found σ', σ.walkpgdir (v * 4096) true = (found, σ') ∧ Sound L T held σ' ∧
      Walked σ (v / 1024) σ' ∧ (found = true → (σ'.pdes (v / 1024)).isSome) ∧
      (found = false → σ.kmem.Empty) := by
  unfold Space.walkpgdir
  rw [pdx_mul hv]
  cases htable : σ.pdes (v / 1024) with
  | some =>
    refine ⟨true, σ, rfl, h, ⟨rfl, rfl, fun _ _ ht => ht, fun _ _ => rfl, rfl, List.suffix_refl _,
      rfl⟩, fun _ => ?_, fun hfound => absurd hfound (by simp)⟩
    rw [htable]
    rfl
  | none =>
    rw [if_pos rfl]
    obtain ⟨hempty, hfail⟩ | ⟨f, rest, hfree, htake⟩ := kalloc_cases σ.kmem
    · rw [hfail]
      refine ⟨_, _, rfl, ⟨?_, h.valid⟩, .calls σ _, fun hfound => absurd hfound (by simp),
        fun _ => hempty⟩
      rw [slot_kmem]
      exact h.parts
    · rw [htake]
      refine ⟨_, _, rfl, ⟨?_, h.valid⟩, .addTable htable hfree, fun _ => ?_,
        fun hfound => absurd hfound (by simp)⟩
      · have hparts := h.parts
        rw [hfree] at hparts
        have hslot := slot_addTable (f := f) htable
        have hput := hparts.take.put (s := .table (v / 1024)) (by rw [slot_table, htable]; rfl)
        rwa [← hslot] at hput
      · show (update σ.pdes (v / 1024) _ (v / 1024)).isSome
        rw [update_self]
        rfl

theorem pgrounddown_mul (v : ℕ) : PGROUNDDOWN (v * 4096) = v * 4096 := by
  unfold PGROUNDDOWN PGSIZE
  omega

/-- The last page of a range of one page. -/
theorem last_page (hv : v < UPAGES) :
    PGROUNDDOWN ((v * 4096 + PGSIZE + (2 ^ 32 - 1)) % 2 ^ 32) = v * 4096 := by
  have hwrap : PGSIZE + (2 ^ 32 - 1) = 4095 + 2 ^ 32 := rfl
  rw [Nat.add_assoc, hwrap, ← Nat.add_assoc, Nat.add_mod_right, PGROUNDDOWN, PGSIZE]
  clear hwrap
  unfold UPAGES at hv
  omega

/-- `mappages` for one page that is held: it is mapped, or there is no page for the table. -/
theorem mappages_page (h : Sound L T (f :: held) σ) (hv : v < UPAGES) (hnone : σ.page v = none) :
    (∃ σ', σ.mappages (v * 4096) PGSIZE (f * PGSIZE) true true = some (false, σ') ∧
      Sound L T (f :: held) σ' ∧ Walked σ (v / 1024) σ' ∧ σ.kmem.Empty) ∨
    ∃ σ', σ.mappages (v * 4096) PGSIZE (f * PGSIZE) true true =
        some (true, σ'.setPage v (some ⟨f, true, true⟩)) ∧
      Sound L T held (σ'.setPage v (some ⟨f, true, true⟩)) ∧ Walked σ (v / 1024) σ' ∧
      (σ'.pdes (v / 1024)).isSome := by
  have hpages : v < NPAGES := hv.trans (by decide)
  have hfuel : NPAGES = (NPAGES - 1) + 1 := rfl
  obtain ⟨found, σ', hwalk, hsound, hwalked, htable, hempty⟩ := walkpgdir_spec h hpages
  unfold Space.mappages
  rw [last_page hv, pgrounddown_mul, hfuel, Space.mappagesLoop, hwalk]
  cases found with
  | false => exact .inl ⟨σ', rfl, hsound, hwalked, hempty rfl⟩
  | true =>
    refine .inr ⟨σ', ?_, ⟨?_, h.valid⟩, hwalked, htable rfl⟩
    · have hpage : σ'.pte (v * 4096) = none := by rw [pte_mul σ' hpages, hwalked.page, hnone]
      have hf : f * PGSIZE / PGSIZE = f := Nat.mul_div_cancel f (by decide)
      simp [hpage, hf, setPte_mul σ' hpages]
    · rw [slot_setPage hv (htable rfl)]
      refine hsound.parts.put ?_
      rw [slot_user, hwalked.page, hnone]
      simp

/-! ## `allocuvm` -/

/-- From `σ` to `σ'`, pages of zeros were mapped at the page numbers from `lo` up to `hi`. -/
structure Grown (σ : Space) (lo hi : ℕ) (σ' : Space) : Prop where
  pgdir : σ'.pgdir = σ.pgdir
  table : ∀ d t, σ.pdes d = some t → ∃ t', σ'.pdes d = some t' ∧ t'.page = t.page
  kernel : ∀ d, 512 ≤ d → σ'.pdes d = σ.pdes d
  old : ∀ v, v < lo ∨ hi ≤ v → σ'.page v = σ.page v
  new : ∀ v, lo ≤ v → v < hi → ∃ f ∈ σ.kmem.freelist, σ'.page v = some ⟨f, true, true⟩ ∧
    σ'.kmem.mem f = fun _ => 0
  mem : ∀ f ∉ σ.kmem.freelist, σ'.kmem.mem f = σ.kmem.mem f
  free : σ'.kmem.freelist <:+ σ.kmem.freelist
  fails : σ'.kmem.fails = σ.kmem.fails

theorem Grown.refl (σ : Space) (lo : ℕ) : Grown σ lo lo σ where
  pgdir := rfl
  table _ t ht := ⟨t, ht, rfl⟩
  kernel _ _ := rfl
  old _ _ := rfl
  new v hlo hhi := by omega
  mem _ _ := rfl
  free := List.suffix_refl _
  fails := rfl

section Grown

variable {lo hi : ℕ}

theorem Grown.walked (h : Grown σ lo hi σ') (hd : d < 512) (hw : Walked σ' d σ'') :
    Grown σ lo hi σ'' where
  pgdir := hw.pgdir.trans h.pgdir
  table d t ht := by
    obtain ⟨t', ht', hpage⟩ := h.table d t ht
    exact ⟨t', hw.table d t' ht', hpage⟩
  kernel d' hd' := by rw [hw.other d' (by omega), h.kernel d' hd']
  old v hv := by rw [hw.page, h.old v hv]
  new v hlo hhi := by
    rw [hw.page, hw.mem]
    exact h.new v hlo hhi
  mem f hf := by rw [hw.mem, h.mem f hf]
  free := hw.free.trans h.free
  fails := hw.fails.trans h.fails

/-- The tables stay where their addresses do. -/
theorem Grown.exists_table (h : Grown σ lo hi σ')
    (hsame : ∀ d, (σ''.pdes d).map PageTable.page = (σ'.pdes d).map PageTable.page) (d : ℕ)
    (t : PageTable) (ht : σ.pdes d = some t) : ∃ t', σ''.pdes d = some t' ∧ t'.page = t.page := by
  obtain ⟨t', ht', hpage⟩ := h.table d t ht
  have hd := hsame d
  rwa [ht', Option.map_some, hpage, Option.map_eq_some_iff] at hd

/-- A page is taken and filled with zeros. -/
theorem Grown.take (h : Grown σ lo hi σ') (hfree : σ'.kmem.freelist = f :: rest) (n : ℕ) :
    Grown σ lo hi { σ' with
      kmem := Kmem.memset { σ'.kmem with freelist := rest, calls := n } f 0 } := by
  have hsuffix : rest <:+ σ'.kmem.freelist := hfree ▸ List.suffix_cons f rest
  refine { h with
    new := fun v hlo hhi => ?_, mem := fun g hg => ?_, free := hsuffix.trans h.free }
  · obtain ⟨g, hg, hpage, hzero⟩ := h.new v hlo hhi
    refine ⟨g, hg, hpage, ?_⟩
    show update σ'.kmem.mem f _ g = _
    by_cases hgf : g = f
    · rw [hgf, update_self]
    · rw [update_of_ne hgf, hzero]
  · have hgf : g ≠ f := by
      rintro rfl
      exact hg (h.free.subset (hfree ▸ List.mem_cons_self))
    show update σ'.kmem.mem f _ g = _
    rw [update_of_ne hgf, h.mem g hg]

/-- The page is mapped. -/
theorem Grown.map (h : Grown σ lo v σ') (hlo : lo ≤ v) (hv : v < UPAGES)
    (htable : (σ'.pdes (v / 1024)).isSome)
    (hf : f ∈ σ.kmem.freelist) (hzero : σ'.kmem.mem f = fun _ => 0) :
    Grown σ lo (v + 1) (σ'.setPage v (some ⟨f, true, true⟩)) := by
  refine { h with
    table := h.exists_table table_setPage
    kernel := fun d hd => ?_
    old := fun u hu => by rw [page_setPage htable, if_neg (by omega), h.old u (by omega)]
    new := fun u hlo hhi => ?_ }
  · unfold UPAGES at hv
    rw [pdes_setPage, update_of_ne (by omega), h.kernel d hd]
  · rw [page_setPage htable]
    by_cases huv : u = v
    · rw [if_pos huv]
      exact ⟨f, hf, rfl, hzero⟩
    · rw [if_neg huv]
      exact h.new u hlo (by omega)

/-- From `σ` to `σ'`, the mappings are the same, and only free pages were used. -/
structure Restored (σ σ' : Space) : Prop where
  pgdir : σ'.pgdir = σ.pgdir
  table : ∀ d t, σ.pdes d = some t → ∃ t', σ'.pdes d = some t' ∧ t'.page = t.page
  kernel : ∀ d, 512 ≤ d →
    (σ'.pdes d).map PageTable.page = (σ.pdes d).map PageTable.page
  page : σ'.page = σ.page
  mem : ∀ f ∉ σ.kmem.freelist, σ'.kmem.mem f = σ.kmem.mem f

/-- Freeing what was mapped restores the mappings. -/
theorem Grown.restore (h : Grown σ lo v σ') (hfreed : Freed σ' lo hi σ'') (hv : v ≤ hi)
    (hnone : ∀ u, lo ≤ u → u < hi → σ.page u = none) : Restored σ σ'' where
  pgdir := hfreed.pgdir.trans h.pgdir
  table := h.exists_table hfreed.table
  kernel d hd := by rw [hfreed.table, h.kernel d hd]
  page := by
    ext1 u
    rw [hfreed.page]
    by_cases hu : lo ≤ u ∧ u < hi
    · rw [if_pos hu, hnone u hu.1 hu.2]
    · rw [if_neg hu, h.old u (by omega)]
  mem f hf := by
    rw [hfreed.mem f fun u x hlo hhi hx => ?_, h.mem f hf]
    -- the pages that were mapped came from the free list
    by_cases hu : u < v
    · obtain ⟨g, hg, hpage, -⟩ := h.new u hlo hu
      rw [hpage] at hx
      cases hx
      rintro rfl
      exact hf hg
    · rw [h.old u (.inr (Nat.le_of_not_lt hu)), hnone u hlo hhi] at hx
      cases hx

theorem Restored.release (h : Restored σ σ') (hf : f ∈ σ.kmem.freelist) :
    Restored σ { σ' with kmem := σ'.kmem.release f } := by
  refine { h with mem := fun g hg => ?_ }
  have hgf : g ≠ f := by
    rintro rfl
    exact hg hf
  exact (update_of_ne hgf ..).trans (h.mem g hg)

end Grown

theorem Sound.take (h : Sound L T held σ) (hfree : σ.kmem.freelist = f :: rest) (n : ℕ) :
    Sound L T (f :: held) { σ with
      kmem := Kmem.memset { σ.kmem with freelist := rest, calls := n } f 0 } := by
  have hparts := h.parts
  rw [hfree] at hparts
  exact ⟨(slot_kmem ..).symm ▸ hparts.take, h.valid⟩

theorem Sound.drop (h : Sound L T (f :: held) σ) :
    Sound L T held { σ with kmem := σ.kmem.release f } :=
  ⟨(slot_kmem ..).symm ▸ h.parts.drop, h.valid⟩

theorem Sound.calls (h : Sound L T held σ) (n : ℕ) :
    Sound L T held { σ with kmem := { σ.kmem with calls := n } } :=
  ⟨(slot_kmem ..).symm ▸ h.parts, h.valid⟩

theorem Grown.compact {lo hi : ℕ} (h : Grown σ lo hi σ') (hhi : hi ≤ n) (hc : Compact σ n) :
    Compact σ' n where
  table d hd := by rw [h.kernel d (by omega), hc.table d hd]
  user v hv hv' := by rw [h.old v (by omega), hc.user v hv hv']

/-- The loop of `allocuvm` maps all pages up to the new size, or leaves the mappings as they
were. -/
theorem allocuvmLoop_spec {σ₀ : Space} (hnew : newsz ≤ KERNBASE)
    (hold : oldsz ≤ newsz) (hnone : ∀ u, pages oldsz ≤ u → u < pages newsz → σ₀.page u = none)
    (fuel : ℕ) (hfuel : pages newsz - v < fuel) (hlo : pages oldsz ≤ v) (hhi : v ≤ pages newsz)
    (h : Sound L T held σ) (hgrown : Grown σ₀ (pages oldsz) v σ) :
    ∃ r σ', Space.allocuvmLoop L oldsz newsz fuel σ (v * 4096) = some (r, σ') ∧
      Sound L T held σ' ∧
      ((r = newsz ∧ Grown σ₀ (pages oldsz) (pages newsz) σ') ∨
        (r = 0 ∧ Restored σ₀ σ' ∧
          (Compact σ₀ (pages newsz) → Scarce T held σ₀.kmem (pages newsz)))) := by
  induction fuel generalizing σ v with
  | zero => omega
  | succ fuel ih =>
    rw [Space.allocuvmLoop]
    by_cases hv : v < pages newsz
    · have hle : v < UPAGES := hv.trans_le (pages_le hnew)
      have hlt : oldsz < newsz := by
        unfold pages at hlo hv
        omega
      rw [if_pos (mul_lt_iff.mpr hv)]
      obtain ⟨hempty, hfail⟩ | ⟨f, rest, hfree, htake⟩ := kalloc_cases σ.kmem
      · rw [hfail]
        obtain ⟨σ', hfreed, hsound, hspec⟩ := deallocuvm_spec hnew hlt (h.calls (σ.kmem.calls + 1))
        refine ⟨0, σ', ?_, hsound, .inr ⟨rfl, ?_, fun hc => ?_⟩⟩
        · simp only [hfreed]
          rfl
        · exact (hgrown.walked (by decide) (.calls σ 0)).restore hspec hhi hnone
        · have hscarce := h.scarce (hgrown.compact hhi hc) hempty
          rwa [Scarce, hgrown.fails] at hscarce
      · rw [htake]
        have hf : f ∈ σ₀.kmem.freelist := hgrown.free.subset (hfree ▸ List.mem_cons_self)
        have htaken := hgrown.take hfree (σ.kmem.calls + 1)
        have hdir : v / 1024 < 512 := by
          unfold UPAGES at hle
          omega
        have hpage : σ.page v = none := by rw [hgrown.old v (.inr (Nat.le_refl v)), hnone v hlo hv]
        obtain ⟨σ', hmap, hsound, hwalked, hempty⟩ | ⟨σ', hmap, hsound, hwalked, htable⟩ :=
          mappages_page (h.take hfree (σ.kmem.calls + 1)) hle hpage
        · obtain ⟨σ'', hdealloc, hsound', hfreed⟩ := deallocuvm_spec hnew hlt hsound
          have hvalid := hsound'.valid f (hsound'.parts.mem_of_held List.mem_cons_self)
          refine ⟨0, { σ'' with kmem := σ''.kmem.release f }, ?_, hsound'.drop,
            .inr ⟨rfl, ?_, fun hc => ?_⟩⟩
          · simp [hmap, hdealloc, kfree_eq hvalid]
          · exact ((htaken.walked hdir hwalked).restore hfreed hhi hnone).release hf
          · refine hempty.imp (fun hfails => ?_) fun hrest S hS => ?_
            · rwa [← hgrown.fails]
            · exact (h.take hfree (σ.kmem.calls + 1)).card_le (htaken.compact hhi hc) hrest hS
        · have hzero : σ'.kmem.mem f = fun _ => 0 := by
            rw [hwalked.mem]
            exact update_self ..
          obtain ⟨r, τ, hrun, hspec⟩ := ih (v := v + 1) (by omega) (by omega) hv hsound
            ((htaken.walked hdir hwalked).map hlo hle htable hf hzero)
          refine ⟨r, τ, ?_, hspec⟩
          simp only [hmap, next_page (succ_lt_npages hle)]
          exact hrun
    · rw [if_neg fun hlt => hv (mul_lt_iff.mp hlt)]
      obtain rfl : v = pages newsz := by omega
      exact ⟨newsz, σ, rfl, h, .inl ⟨rfl, hgrown⟩⟩

/-- `allocuvm` maps pages of zeros up to the new size, or leaves the mappings as they were. -/
theorem allocuvm_spec (hnew : newsz < KERNBASE) (hold : oldsz ≤ newsz)
    (hnone : ∀ u, pages oldsz ≤ u → u < pages newsz → σ.page u = none) (h : Sound L T held σ) :
    ∃ r σ', σ.allocuvm L oldsz newsz = some (r, σ') ∧ Sound L T held σ' ∧
      ((r = newsz ∧ Grown σ (pages oldsz) (pages newsz) σ') ∨
        (r = 0 ∧ Restored σ σ' ∧
          (Compact σ (pages newsz) → Scarce T held σ.kmem (pages newsz)))) := by
  have hfuel : pages newsz - pages oldsz < NPAGES :=
    (Nat.sub_le _ _).trans_lt ((pages_le hnew.le).trans_lt (by decide))
  have hhi : pages oldsz ≤ pages newsz := by
    unfold pages
    omega
  rw [Space.allocuvm, if_neg (Nat.not_le_of_lt hnew), if_neg (Nat.not_lt_of_le hold),
    pgroundup_eq (hold.trans hnew.le)]
  exact allocuvmLoop_spec hnew.le hold hnone NPAGES hfuel (Nat.le_refl _) hhi h (.refl σ _)

end Memory
