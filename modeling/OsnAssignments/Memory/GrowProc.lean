import Mathlib
import OsnAssignments.Memory.PageTables

/-!
# `growproc`

When the memory of a process grows or shrinks by `sbrk`, either it does so by exactly the given
number of bytes, or nothing changes. This holds for every pattern of failures of `kalloc` as long as
memory grows, or does not shrink to nothing or below (`growproc_atomic_iff`): the size 0 is taken
for an error after the pages have been freed, and a size below zero wraps to one above the old,
which `deallocuvm` takes for nothing to do.
-/

namespace Memory

variable {L : Layout} {T : Set ℕ} {p p' : Proc} {n : ℤ} {va : ℕ}
variable {σ : Space} {sz : ℕ}

/-- A byte of a process. -/
def read (σ : Space) (va : ℕ) : Option UInt8 :=
  (σ.pte va).map fun x => σ.kmem.mem x.page (va % PGSIZE)

/-- A page that is in use, and not as a page table of the process. -/
def UserPage (σ : Space) (f : ℕ) : Prop :=
  f ∉ σ.kmem.freelist ∧ ∀ d t, σ.pdes d = some t → t.page ≠ f

/-- The mapped user pages are exactly those below `PGROUNDUP(sz)`. -/
def MappedExactly (p : Proc) : Prop :=
  ∀ va < KERNBASE, (p.space.pte va).isSome ↔ va < PGROUNDUP p.sz

/-- A process whose user memory is what `sz` says, and whose pages are in one place each. -/
structure Process (L : Layout) (T : Set ℕ) (p : Proc) : Prop where
  sound : Sound L T [] p.space
  size : p.sz ≤ KERNBASE
  mapped : MappedExactly p

/-- The memory has grown by `n` bytes: what was there is kept, and new pages are zero. -/
structure GrownBy (p : Proc) (n : ℤ) (p' : Proc) : Prop where
  size : (p'.sz : ℤ) = p.sz + n
  mapped : MappedExactly p'
  old : ∀ va < PGROUNDUP p.sz, va < PGROUNDUP p'.sz →
    p'.space.pte va = p.space.pte va ∧ read p'.space va = read p.space va
  new : ∀ va, PGROUNDUP p.sz ≤ va → va < PGROUNDUP p'.sz → read p'.space va = some 0

/-- The size, the user mappings and the pages in use are the same. -/
structure Unchanged (p p' : Proc) : Prop where
  size : p'.sz = p.sz
  mappings : ∀ va < KERNBASE, p'.space.pte va = p.space.pte va
  userPages : ∀ f, UserPage p'.space f ↔ UserPage p.space f

/-- `growproc` returns 0 and the memory has grown by `n`, or -1 and nothing has changed. -/
def Atomic (L : Layout) (p : Proc) (n : ℤ) : Prop :=
  ∃ ok p', growproc L p n = some (ok, p') ∧ if ok then GrownBy p n p' else Unchanged p p'

/-! ## Addresses and page numbers -/

theorem pte_eq_page (h : va < 2 ^ 32) : σ.pte va = σ.page (va / 4096) := by
  have hd : PDX va = va / 4096 / 1024 := by
    unfold PDX
    omega
  have ht : PTX va = va / 4096 % 1024 := rfl
  rw [Space.pte, Space.page, hd, ht]

theorem kernbase_lt : KERNBASE < 2 ^ 32 := by decide

theorem lt_pgroundup_iff (h : sz ≤ KERNBASE) : va < PGROUNDUP sz ↔ va / 4096 < pages sz := by
  rw [pgroundup_eq h]
  omega

theorem pgroundup_le (h : sz ≤ KERNBASE) : PGROUNDUP sz ≤ KERNBASE := by
  rw [pgroundup_eq h]
  unfold KERNBASE at *
  unfold pages
  omega

theorem Process.page_isSome (h : Process L T p) {v : ℕ} (hv : v < UPAGES) :
    (p.space.page v).isSome ↔ v < pages p.sz := by
  have hva : v * 4096 < KERNBASE := by
    unfold UPAGES at hv
    unfold KERNBASE
    omega
  have hmapped := h.mapped (v * 4096) hva
  rwa [pte_mul _ (hv.trans (by decide)), lt_pgroundup_iff h.size,
    Nat.mul_div_cancel v (by decide)] at hmapped

theorem mappedExactly_of_page (hsize : p.sz ≤ KERNBASE)
    (h : ∀ v < UPAGES, (p.space.page v).isSome ↔ v < pages p.sz) : MappedExactly p := by
  intro va hva
  rw [pte_eq_page (hva.trans kernbase_lt), lt_pgroundup_iff hsize]
  refine h (va / 4096) ?_
  unfold KERNBASE at hva
  unfold UPAGES
  omega

/-! ## Growing -/

/-- Pages in use are those of other owners, the page directory and the mapped pages. -/
theorem userPage_iff (h : Sound L T [] σ) {f : ℕ} :
    UserPage σ f ↔ f ∉ T ∨ ∃ s, (∀ d, s ≠ .table d) ∧ σ.slot s = some f := by
  constructor
  · rintro ⟨hfree, htable⟩
    by_cases hT : f ∈ T
    · rcases h.parts.total.mp hT with hmem | ⟨s, hs⟩
      · exact absurd hmem hfree
      · refine .inr ⟨s, ?_, hs⟩
        rintro d rfl
        obtain ⟨t, ht, hpage⟩ := Option.map_eq_some_iff.mp hs
        exact htable d t ht hpage
    · exact .inl hT
  · rintro (hT | ⟨s, hs, hslot⟩)
    · refine ⟨fun hfree => hT (h.parts.mem_of_free hfree), fun d t ht hpage => hT ?_⟩
      refine h.parts.mem_of_slot (s := .table d) ?_
      rw [slot_table, ht, ← hpage]
      rfl
    · refine ⟨h.parts.slot_notMem hslot, fun d t ht hpage => hs d (h.parts.inj hslot ?_)⟩
      rw [slot_table, ht, ← hpage]
      rfl

theorem Restored.userPages {σ' : Space} (hr : Restored σ σ') (h : Sound L T [] σ)
    (h' : Sound L T [] σ') (f : ℕ) : UserPage σ' f ↔ UserPage σ f := by
  have hslot : ∀ s, (∀ d, s ≠ .table d) → σ'.slot s = σ.slot s := by
    intro s hs
    cases s with
    | dir => exact congrArg some hr.pgdir
    | table d => exact absurd rfl (hs d)
    | user => rw [slot_user, slot_user, hr.page]
  rw [userPage_iff h, userPage_iff h']
  refine or_congr_right (exists_congr fun s => and_congr_right fun hs => ?_)
  rw [hslot s hs]

theorem unchanged_of_restored (h : Process L T p) (hr : Restored p.space σ)
    (hσ : Sound L T [] σ) : Unchanged p { p with space := σ } where
  size := rfl
  mappings va hva := by
    rw [pte_eq_page (hva.trans kernbase_lt), pte_eq_page (hva.trans kernbase_lt)]
    exact congrFun hr.page _
  userPages := hr.userPages h.sound hσ

theorem read_congr {σ' : Space} (hpte : σ'.pte va = σ.pte va)
    (hmem : ∀ x, σ.pte va = some x → σ'.kmem.mem x.page = σ.kmem.mem x.page) :
    read σ' va = read σ va := by
  unfold read
  rw [hpte]
  cases hx : σ.pte va with
  | none => rfl
  | some x => rw [Option.map_some, Option.map_some, hmem x hx]

/-- The pages of the process are not free, so that growing keeps them. -/
theorem grownBy_of_grown (h : Process L T p) (hsz : sz < KERNBASE)
    (hn : (sz : ℤ) = p.sz + n) (hle : p.sz ≤ sz)
    (hg : Grown p.space (pages p.sz) (pages sz) σ) : GrownBy p n ⟨sz, σ⟩ := by
  have hpages : pages p.sz ≤ pages sz := by
    unfold pages
    omega
  refine ⟨hn, mappedExactly_of_page hsz.le fun v hv => ?_, fun va hva hva' => ?_,
    fun va hva hva' => ?_⟩
  · show (σ.page v).isSome ↔ v < pages sz
    by_cases hnew : pages p.sz ≤ v ∧ v < pages sz
    · obtain ⟨f, -, hpage, -⟩ := hg.new v hnew.1 hnew.2
      rw [hpage]
      exact iff_of_true rfl hnew.2
    · rw [hg.old v (by omega), h.page_isSome hv]
      omega
  · have hlt : va < KERNBASE := hva.trans_le (pgroundup_le h.size)
    have hpte : σ.pte va = p.space.pte va := by
      rw [pte_eq_page (hlt.trans kernbase_lt), pte_eq_page (hlt.trans kernbase_lt)]
      exact hg.old _ (.inl ((lt_pgroundup_iff h.size).mp hva))
    refine ⟨hpte, read_congr hpte fun x hx => hg.mem _ fun hfree => ?_⟩
    rw [pte_eq_page (hlt.trans kernbase_lt)] at hx
    refine h.sound.parts.slot_notMem (slot_of_page ?_ hx) hfree
    unfold KERNBASE at hlt
    unfold UPAGES
    omega
  · have hlt : va < KERNBASE := hva'.trans_le (pgroundup_le hsz.le)
    obtain ⟨f, -, hpage, hzero⟩ := hg.new (va / 4096)
      (Nat.le_of_not_lt fun hlt =>
        absurd ((lt_pgroundup_iff h.size).mpr hlt) (Nat.not_lt_of_le hva))
      ((lt_pgroundup_iff hsz.le).mp hva')
    show read σ va = some 0
    unfold read
    rw [pte_eq_page (hlt.trans kernbase_lt), hpage, Option.map_some, hzero]

/-! ## Shrinking -/

/-- The pages that stay are not among those that are freed. -/
theorem grownBy_of_freed (h : Process L T p) (hn : (sz : ℤ) = p.sz + n)
    (hlt : sz < p.sz) (hf : Freed p.space (pages sz) (pages p.sz) σ) : GrownBy p n ⟨sz, σ⟩ := by
  have hsz : sz ≤ KERNBASE := hlt.le.trans h.size
  have hpages : pages sz ≤ pages p.sz := by
    unfold pages
    omega
  refine ⟨hn, mappedExactly_of_page hsz fun v hv => ?_, fun va hva hva' => ?_,
    fun va hva hva' => ?_⟩
  · show (σ.page v).isSome ↔ v < pages sz
    rw [hf.page]
    by_cases hfreed : pages sz ≤ v ∧ v < pages p.sz
    · rw [if_pos hfreed]
      exact iff_of_false (by simp) (by omega)
    · rw [if_neg hfreed, h.page_isSome hv]
      omega
  · have hlt : va < KERNBASE := hva'.trans_le (pgroundup_le hsz)
    have hv : va / 4096 < pages sz := (lt_pgroundup_iff hsz).mp hva'
    have hupages : pages p.sz ≤ UPAGES := pages_le h.size
    have hpte : σ.pte va = p.space.pte va := by
      rw [pte_eq_page (hlt.trans kernbase_lt), pte_eq_page (hlt.trans kernbase_lt), hf.page,
        if_neg (by omega)]
    refine ⟨hpte, read_congr hpte fun x hx => hf.mem _ fun v y hlo hhi hy heq => ?_⟩
    rw [pte_eq_page (hlt.trans kernbase_lt)] at hx
    -- a page cannot be mapped at `va` and among those that are freed
    have hslot := slot_of_page (by omega : v < UPAGES) hy
    rw [heq] at hslot
    have hsame := h.sound.parts.inj (slot_of_page (by omega : va / 4096 < UPAGES) hx) hslot
    have : va / 4096 = v := Slot.user.inj hsame
    omega
  · have : PGROUNDUP sz ≤ PGROUNDUP p.sz := by
      rw [pgroundup_eq hsz, pgroundup_eq h.size]
      omega
    have hva'' : va < PGROUNDUP sz := hva'
    omega

/-! ## `growproc` -/

theorem uint_of_nonneg (hn : 0 ≤ n) (hlt : n < 2 ^ 31) : uint n = n.toNat := by
  unfold uint
  omega

section

variable (h : Process L T p)
include h

/-- Growing either maps all pages or restores what was there. -/
theorem growproc_of_pos (hn : 0 < n) (hlt : n < 2 ^ 31) :
    ∃ ok p', growproc L p n = some (ok, p') ∧ Process L T p' ∧
      if ok then GrownBy p n p' else Unchanged p p' := by
  have hsize := h.size
  have hsum : (p.sz + uint n) % 2 ^ 32 = p.sz + n.toNat := by
    rw [uint_of_nonneg hn.le hlt]
    unfold KERNBASE at hsize
    omega
  unfold growproc
  rw [if_pos hn, hsum]
  by_cases hbase : KERNBASE ≤ p.sz + n.toNat
  · rw [Space.allocuvm, if_pos hbase]
    exact ⟨false, p, rfl, h, ⟨rfl, fun _ _ => rfl, fun _ => Iff.rfl⟩⟩
  · have hnone : ∀ u, pages p.sz ≤ u → u < pages (p.sz + n.toNat) → p.space.page u = none := by
      intro u hu hu'
      have hupages := pages_le (Nat.le_of_not_le hbase)
      rw [← Option.not_isSome_iff_eq_none, h.page_isSome (hu'.trans_le hupages)]
      omega
    obtain ⟨r, σ, heq, hsound, ⟨rfl, hgrown⟩ | ⟨rfl, hrestored, -⟩⟩ :=
      allocuvm_spec (Nat.lt_of_not_le hbase) (Nat.le_add_right _ _) hnone h.sound
    · have hgrownBy : GrownBy p n ⟨p.sz + n.toNat, σ⟩ :=
        grownBy_of_grown h (Nat.lt_of_not_le hbase) (by omega) (Nat.le_add_right _ _) hgrown
      refine ⟨true, ⟨p.sz + n.toNat, σ⟩, ?_, ⟨hsound, Nat.le_of_not_le hbase, hgrownBy.mapped⟩,
        hgrownBy⟩
      rw [heq]
      simp only [Option.bind_eq_bind, Option.bind_some]
      rw [if_neg (by omega)]
      rfl
    · have hsame := unchanged_of_restored h hrestored hsound
      refine ⟨false, { p with space := σ }, ?_, ⟨hsound, h.size, fun va hva => ?_⟩, hsame⟩
      · rw [heq]
        rfl
      · rw [hsame.mappings va hva]
        exact h.mapped va hva

/-- What `growproc` does with a negative number of bytes, as long as the size stays positive. -/
theorem growproc_of_neg (hn : n < 0) (hsz : 0 ≤ p.sz + n) :
    ∃ σ, Freed p.space (pages (p.sz + n).toNat) (pages p.sz) σ ∧
      growproc L p n = some (if p.sz + n = 0 then (false, { p with space := σ })
        else (true, ⟨(p.sz + n).toNat, σ⟩)) := by
  have hsize := h.size
  have hsum : (p.sz + uint n) % 2 ^ 32 = (p.sz + n).toNat := by
    unfold uint
    unfold KERNBASE at hsize
    omega
  obtain ⟨σ, heq, -, hfreed⟩ :=
    deallocuvm_spec hsize (by omega : (p.sz + n).toNat < p.sz) h.sound
  refine ⟨σ, hfreed, ?_⟩
  unfold growproc
  rw [if_neg (by omega), if_pos hn, hsum, heq]
  simp only [Option.bind_eq_bind, Option.bind_some]
  by_cases hzero : p.sz + n = 0
  · rw [if_pos hzero, if_pos (by omega)]
    rfl
  · rw [if_neg hzero, if_neg (by omega)]
    rfl

/-- A size below zero wraps, so that nothing is freed and `growproc` returns the old size. -/
theorem growproc_of_wrap (hn : -2 ^ 31 ≤ n) (hsz : p.sz + n < 0) :
    growproc L p n = some (decide (p.sz ≠ 0), p) := by
  have hsize := h.size
  have hle : p.sz ≤ (p.sz + uint n) % 2 ^ 32 := by
    unfold uint
    unfold KERNBASE at hsize
    omega
  unfold growproc
  rw [if_neg (by omega), if_pos (by omega), Space.deallocuvm, if_pos hle]
  by_cases hzero : p.sz = 0
  · obtain ⟨sz, σ⟩ := p
    obtain rfl : sz = 0 := hzero
    rfl
  · simp [hzero]

/-- If the size wraps, `growproc` returns 0 without shrinking memory. -/
theorem not_atomic_of_wrap (hn : -2 ^ 31 ≤ n) (hsz : p.sz + n < 0)
    (hpos : p.sz ≠ 0) : ¬Atomic L p n := by
  rintro ⟨ok, p', hrun, hgood⟩
  rw [growproc_of_wrap h hn hsz] at hrun
  cases hrun
  rw [if_pos (by simpa using hpos)] at hgood
  have := hgood.size
  omega

/-- If the new size is 0, `growproc` returns -1 after the pages have been freed. -/
theorem not_atomic_of_zero (hn : n < 0) (hsz : p.sz + n = 0) : ¬Atomic L p n := by
  obtain ⟨σ, hfreed, heq⟩ := growproc_of_neg h hn hsz.ge
  rintro ⟨ok, p', hrun, hgood⟩
  rw [heq, if_pos hsz] at hrun
  cases hrun
  have hmapped : 0 < pages p.sz := by
    unfold pages
    omega
  have hnone : σ.page 0 = none := by rw [hfreed.page, hsz, if_pos ⟨Nat.le_refl 0, hmapped⟩]
  have hpage := hgood.mappings 0 (by decide)
  rw [pte_eq_page (by decide), pte_eq_page (by decide)] at hpage
  have hsome := (h.page_isSome (by decide)).mpr hmapped
  rw [← hpage, hnone] at hsome
  cases hsome

end

/-- `growproc` is exact and atomic unless it is to shrink memory to nothing or below. -/
theorem growproc_atomic_iff (h : Process L T p) (hlo : -2 ^ 31 ≤ n) (hhi : n < 2 ^ 31) :
    Atomic L p n ↔ 0 ≤ n ∨ 0 < p.sz + n ∨ p.sz = 0 := by
  rcases lt_trichotomy n 0 with hn | rfl | hn
  · rcases lt_trichotomy (p.sz + n) 0 with hsz | hsz | hsz
    · by_cases hzero : p.sz = 0
      · refine iff_of_true ⟨_, p, growproc_of_wrap h hlo hsz, ?_⟩ (.inr (.inr hzero))
        rw [if_neg (by simp [hzero])]
        exact ⟨rfl, fun _ _ => rfl, fun _ => Iff.rfl⟩
      · exact iff_of_false (not_atomic_of_wrap h hlo hsz hzero) (by omega)
    · exact iff_of_false (not_atomic_of_zero h hn hsz) (by omega)
    · obtain ⟨σ, hfreed, heq⟩ := growproc_of_neg h hn hsz.le
      refine iff_of_true ⟨true, ⟨(p.sz + n).toNat, σ⟩, ?_, ?_⟩ (.inr (.inl hsz))
      · rw [heq, if_neg hsz.ne']
      · exact grownBy_of_freed h (by omega) (by omega) hfreed
  · refine iff_of_true ⟨true, p, rfl, ⟨by simp, h.mapped, fun _ _ _ => ⟨rfl, rfl⟩, ?_⟩⟩
      (.inl le_rfl)
    intro va hva hva'
    omega
  · obtain ⟨ok, p', heq, -, hgood⟩ := growproc_of_pos h hn hhi
    exact iff_of_true ⟨ok, p', heq, hgood⟩ (.inl hn.le)

/-! ## A process of one page -/

/-- A layout with a page of data. -/
def smallKernel : Layout where
  data := 0x101000
  kend := 0x102000
  data_aligned := by decide
  extmem_lt := by decide
  data_le := by decide
  kend_lt := by decide

/-- A process of one page, where all calls of `kalloc` find a page as long as there is one. -/
def onePage : Proc where
  sz := 4096
  space :=
    { kmem := ⟨[303, 304], fun _ => false, 0, fun _ _ => 0⟩
      pgdir := 300
      pdes := fun d => if d = 0 then
        some ⟨301, fun i => if i = 0 then some ⟨302, true, true⟩ else none⟩ else none }

theorem page_onePage (v : ℕ) :
    onePage.space.page v = if v = 0 then some ⟨302, true, true⟩ else none := by
  unfold Space.page onePage
  by_cases hd : v / 1024 = 0
  · simp only [hd, if_true, Option.bind_some]
    by_cases hv : v = 0
    · simp [hv]
    · rw [if_neg hv, if_neg (by omega)]
  · simp only [hd, if_false]
    rw [if_neg (by rintro rfl; exact hd rfl)]
    rfl

theorem slot_onePage {s : Slot} {f : ℕ} : onePage.space.slot s = some f ↔
    (s = .dir ∧ f = 300) ∨ (s = .table 0 ∧ f = 301) ∨ (s = .user 0 ∧ f = 302) := by
  cases s with
  | dir => simp [Space.slot, onePage, eq_comm]
  | table d =>
    by_cases hd : d = 0
    · simp [Space.slot, onePage, hd, eq_comm]
    · simp [Space.slot, onePage, hd]
  | user v =>
    rw [slot_user, page_onePage]
    by_cases hv : v = 0
    · subst hv
      simp [UPAGES, eq_comm]
    · simp [hv]

theorem process_onePage : Process smallKernel {f | 300 ≤ f ∧ f ≤ 304} onePage where
  sound := by
    refine ⟨⟨by decide, ?_, ?_, ?_⟩, ?_⟩
    · intro s s' f hs hs'
      rw [slot_onePage] at hs hs'
      rcases hs with ⟨rfl, rfl⟩ | ⟨rfl, rfl⟩ | ⟨rfl, rfl⟩ <;> simpa [eq_comm] using hs'
    · intro s f hs
      rw [slot_onePage] at hs
      rcases hs with ⟨-, rfl⟩ | ⟨-, rfl⟩ | ⟨-, rfl⟩ <;> decide
    · intro f
      have hfree : f ∈ [] ++ onePage.space.kmem.freelist ↔ f = 303 ∨ f = 304 := by
        simp [onePage]
      rw [hfree]
      simp only [slot_onePage]
      constructor
      · rintro ⟨hlo, hhi⟩
        interval_cases f <;> simp
      · rintro ((rfl | rfl) | ⟨s, ⟨-, rfl⟩ | ⟨-, rfl⟩ | ⟨-, rfl⟩⟩) <;> exact ⟨by decide, by decide⟩
    · rintro f ⟨hlo, hhi⟩
      show 0x102000 ≤ f * 4096 ∧ f * 4096 < 0xE000000
      omega
  size := by decide
  mapped := by
    refine mappedExactly_of_page (by decide) fun v hv => ?_
    rw [page_onePage]
    by_cases hv : v = 0
    · subst hv
      simp [pages, onePage]
    · rw [if_neg hv]
      refine iff_of_false (by simp) ?_
      show ¬v < (4096 + 4095) / 4096
      omega

/-- Growing the process by a page is atomic. -/
theorem growproc_atomic_onePage :
    Process smallKernel {f | 300 ≤ f ∧ f ≤ 304} onePage ∧ Atomic smallKernel onePage 4096 :=
  ⟨process_onePage,
    (growproc_atomic_iff process_onePage (by decide) (by decide)).mpr (.inl (by decide))⟩

/-- Shrinking it by two pages returns 0 and changes nothing, and shrinking it by one returns -1
without the page. -/
theorem not_growproc_atomic :
    growproc smallKernel onePage (-8192) = some (true, onePage) ∧
      ¬Atomic smallKernel onePage (-8192) ∧ ¬Atomic smallKernel onePage (-4096) := by
  refine ⟨growproc_of_wrap process_onePage (by decide) (by decide), ?_, ?_⟩
  · exact not_atomic_of_wrap process_onePage (by decide) (by decide) (by decide)
  · exact not_atomic_of_zero process_onePage (by decide) (by decide)

end Memory
