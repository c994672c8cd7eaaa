import Mathlib
import OsnAssignments.Memory.GrowProc
import OsnAssignments.Memory.Loading

/-!
# The arguments of `exec`

`exec` pushes its arguments with no lower bound on the stack pointer. If they do not fit into the
page of the stack, the page below it, without `PTE_U`, stops `copyout`, and so do the pages of the
kernel if the stack pointer wraps past 0. Between the end of physical memory and the devices there
are no page tables, however: there `walkpgdir` returns 0, and `uva2ka` reads through it.
-/

namespace Memory

open Pool

variable {L : Layout} {T : Set ℕ} {k : Kmem} {σ σ' : Space} {v va sp sz : ℕ}
  {buf : List UInt8} {argv : List (List UInt8)}
variable {x : Pte} {len : ℕ}

/-- An access finds a page table entry, and writes to a page with `PTE_U` only, within the page. -/
def Access.Confined (a : Access) : Prop :=
  a.entry.isSome ∧ (a.bytes ≠ [] →
    ∃ x, a.entry = some (some x) ∧ x.u = true ∧ a.off + a.bytes.length ≤ PGSIZE)

/-- All accesses of `exec` were confined, and if it has returned -1, the task is unchanged and so
are all pages that were in use. -/
structure Confines (kmem : Kmem) (task : Task) (r : Executed) : Prop where
  null : r.ret ≠ .null
  confined : ∀ a ∈ r.accesses, a.Confined
  error : r.ret = .error → r.task = task ∧
    ∀ f ∉ kmem.freelist, f ∉ r.kmem.freelist ∧ r.kmem.mem f = kmem.mem f

/-- `exec` returns with all accesses confined. -/
def ConfinedExec (L : Layout) (kmem : Kmem) (task : Task) (path : List UInt8)
    (file : Option (List UInt8)) (argv : List (List UInt8)) : Prop :=
  ∃ r, exec L kmem task path file argv = some r ∧ Confines kmem task r

/-- No argument that is reached, those before it being in the page of the stack, is pushed to an
address between the end of physical memory and the devices. -/
def SafeArgs (sz : ℕ) : ℕ → List (List UInt8) → Prop
  | _, [] => True
  | sp, arg :: argv =>
    ¬(KERNBASE + PHYSTOP ≤ push sp arg.length ∧ push sp arg.length < DEVSPACE) ∧
      (sz - PGSIZE ≤ push sp arg.length → push sp arg.length ≤ sp →
        SafeArgs sz (push sp arg.length) argv)

/-! ## `copyout` -/

theorem lookup_mul (σ : Space) (h : v < NPAGES) :
    σ.lookup (v * 4096) = (σ.pdes (v / 1024)).map fun t => t.ptes (v % 1024) := by
  rw [Space.lookup, pdx_mul h, ptx_mul]

theorem lookup_of_page (h : v < NPAGES) (hx : σ.page v = some x) :
    σ.lookup (v * 4096) = some (some x) := by
  rw [lookup_mul σ h]
  obtain ⟨t, ht, hpte⟩ := Option.bind_eq_some_iff.mp hx
  rw [ht, Option.map_some, hpte]

theorem page_of_lookup (h : v < NPAGES) (hx : σ.lookup (v * 4096) = some (some x)) :
    σ.page v = some x := by
  rw [lookup_mul σ h] at hx
  obtain ⟨t, ht, hpte⟩ := Option.map_eq_some_iff.mp hx
  rw [Space.page, ht]
  exact hpte

theorem pgrounddown_eq (va : ℕ) : PGROUNDDOWN va = va / 4096 * 4096 := rfl

theorem page_lt (h : va < 2 ^ 32) : va / 4096 < NPAGES := by
  unfold NPAGES
  omega

/-- What an iteration of `copyout` does. -/
theorem copyout_succ (σ : Space) (va fuel : ℕ) (hbuf : buf ≠ []) :
    (σ.lookup (va / 4096 * 4096) = none ∧ copyout (fuel + 1) σ va buf =
        (.null, σ, [⟨va / 4096 * 4096, none, 0, []⟩])) ∨
      (∃ e, σ.lookup (va / 4096 * 4096) = some e ∧ (∀ x ∈ e, x.u = false) ∧
        copyout (fuel + 1) σ va buf = (.failed, σ, [⟨va / 4096 * 4096, some e, 0, []⟩])) ∨
      ∃ x, σ.lookup (va / 4096 * 4096) = some (some x) ∧ x.u = true ∧
        copyout (fuel + 1) σ va buf =
          let n := min (4096 - va % 4096) buf.length
          let r := copyout fuel (σ.write x.page (va % 4096) (buf.take n))
            ((va / 4096 * 4096 + 4096) % 2 ^ 32) (buf.drop n)
          (r.1, r.2.1, ⟨va / 4096 * 4096, some (some x), va % 4096, buf.take n⟩ :: r.2.2) := by
  have hoff : va - va / 4096 * 4096 = va % 4096 := by omega
  rw [copyout, if_neg hbuf]
  simp only [pgrounddown_eq, hoff, PGSIZE]
  unfold uva2ka
  cases hlookup : σ.lookup (va / 4096 * 4096) with
  | none => exact .inl ⟨rfl, rfl⟩
  | some e =>
    cases e with
    | none => exact .inr (.inl ⟨none, rfl, by simp, rfl⟩)
    | some x =>
      cases hu : x.u with
      | false =>
        refine .inr (.inl ⟨some x, rfl, by simpa using hu, ?_⟩)
        simp [hu]
      | true =>
        refine .inr (.inr ⟨x, rfl, hu, ?_⟩)
        simp [hu]

/-- `copyout` writes to pages of `T` only, and its accesses are confined unless one finds no
entry. -/
theorem copyout_spec (fuel : ℕ) (buf : List UInt8) (hσ : Sound L T [] σ)
    (hkernel : ∀ v, UPAGES ≤ v → v < NPAGES → ∀ x, σ.page v = some x → x.u = false)
    (hva : va < 2 ^ 32) : Wrote T σ (copyout fuel σ va buf).2.1 ∧
      ((copyout fuel σ va buf).1 ≠ .null → ∀ a ∈ (copyout fuel σ va buf).2.2, a.Confined) := by
  induction fuel generalizing σ va buf with
  | zero => exact ⟨.refl T σ, fun _ a ha => by cases ha⟩
  | succ fuel ih =>
    by_cases hbuf : buf = []
    · rw [copyout, if_pos hbuf]
      exact ⟨.refl T σ, fun _ a ha => by cases ha⟩
    · obtain ⟨-, hrun⟩ | ⟨e, -, -, hrun⟩ | ⟨x, hlookup, hu, hrun⟩ :=
        copyout_succ σ va fuel hbuf
      · rw [hrun]
        exact ⟨.refl T σ, fun hnull => absurd rfl hnull⟩
      · rw [hrun]
        refine ⟨.refl T σ, fun _ a ha => ?_⟩
        obtain rfl := List.mem_singleton.mp ha
        exact ⟨rfl, fun hbytes => absurd rfl hbytes⟩
      · have hpage := page_of_lookup (page_lt hva) hlookup
        have huser : va / 4096 < UPAGES := by
          by_contra hle
          have := hkernel _ (Nat.le_of_not_lt hle) (page_lt hva) x hpage
          rw [hu] at this
          cases this
        set n := min (4096 - va % 4096) buf.length with hn
        have hw := Wrote.write σ (hσ.parts.mem_of_slot (slot_of_page huser hpage)) (va % 4096)
          (buf.take n)
        obtain ⟨hwrote, hconfined⟩ := ih (buf.drop n) (hw.sound hσ) (by rwa [hw.page])
          (Nat.mod_lt (va / 4096 * 4096 + 4096) (by decide : 0 < 2 ^ 32))
        rw [hrun]
        refine ⟨hw.trans hwrote, fun hnull a ha => ?_⟩
        rcases List.mem_cons.mp ha with rfl | ha
        · refine ⟨rfl, fun _ => ⟨x, rfl, hu, ?_⟩⟩
          show va % 4096 + (buf.take n).length ≤ 4096
          rw [List.length_take]
          omega
        · exact hconfined hnull a ha

theorem copyout_nil (fuel : ℕ) (σ : Space) (va : ℕ) : copyout fuel σ va [] = (.done, σ, []) := by
  cases fuel with
  | zero => rfl
  | succ => rw [copyout, if_pos rfl]

/-- After an iteration, either all bytes have been copied or the next page follows. -/
theorem copyout_next (hle : va + buf.length ≤ 2 ^ 32) :
    buf.drop (min (4096 - va % 4096) buf.length) = [] ∨
      (va / 4096 * 4096 + 4096 < va + buf.length ∧
        (va / 4096 * 4096 + 4096) % 2 ^ 32 = va / 4096 * 4096 + 4096 ∧
        va / 4096 * 4096 + 4096 + (buf.drop (min (4096 - va % 4096) buf.length)).length =
          va + buf.length) := by
  rw [List.drop_eq_nil_iff, List.length_drop]
  by_cases hlt : va / 4096 * 4096 + 4096 < va + buf.length
  · exact .inr ⟨hlt, Nat.mod_eq_of_lt (hlt.trans_le hle), by omega⟩
  · exact .inl (by omega)

/-- `copyout` finds an entry for every page that is mapped. -/
theorem copyout_ne_null (fuel : ℕ) (hle : va + buf.length ≤ 2 ^ 32)
    (hpages : ∀ v, va / 4096 ≤ v → v * 4096 < va + buf.length → ∃ x, σ.page v = some x) :
    (copyout fuel σ va buf).1 ≠ .null := by
  induction fuel generalizing σ va buf with
  | zero => simp [copyout]
  | succ fuel ih =>
    by_cases hbuf : buf = []
    · rw [hbuf, copyout_nil]
      simp
    · have hpos : 0 < buf.length := List.length_pos_iff.mpr hbuf
      obtain ⟨hnone, -⟩ | ⟨e, -, -, hrun⟩ | ⟨x, -, -, hrun⟩ :=
        copyout_succ σ va fuel hbuf
      · obtain ⟨x, hx⟩ := hpages (va / 4096) (Nat.le_refl _) (by omega)
        rw [lookup_of_page (page_lt (by omega)) hx] at hnone
        cases hnone
      · rw [hrun]
        simp
      · rw [hrun]
        obtain hdone | ⟨hlt, hmod, hlen⟩ := copyout_next hle
        · simp only [hdone, copyout_nil]
          simp
        · simp only [hmod]
          exact ih (hlen.trans_le hle) fun v hv hv' => hpages v (by omega) (hv'.trans_eq hlen)

/-- `copyout` is done only if all pages have `PTE_U`. -/
theorem copyout_done (fuel : ℕ) (hle : va + buf.length ≤ 2 ^ 32) (hfuel : buf.length ≤ fuel)
    (hdone : (copyout fuel σ va buf).1 = .done) {v : ℕ} (hv : va / 4096 ≤ v)
    (hv' : v * 4096 < va + buf.length) (hbuf : buf ≠ []) : ∃ x, σ.page v = some x ∧ x.u = true := by
  induction fuel generalizing σ va buf with
  | zero => exact absurd (List.eq_nil_of_length_eq_zero (Nat.le_zero.mp hfuel)) hbuf
  | succ fuel ih =>
    have hpos : 0 < buf.length := List.length_pos_iff.mpr hbuf
    obtain ⟨-, hrun⟩ | ⟨e, -, -, hrun⟩ | ⟨x, hlookup, hu, hrun⟩ :=
      copyout_succ σ va fuel hbuf
    · rw [hrun] at hdone
      cases hdone
    · rw [hrun] at hdone
      cases hdone
    · rw [hrun] at hdone
      by_cases heq : v = va / 4096
      · exact ⟨x, heq ▸ page_of_lookup (page_lt (by omega)) hlookup, hu⟩
      · obtain hnil | ⟨hlt, hmod, hlen⟩ := copyout_next hle
        · rw [List.drop_eq_nil_iff] at hnil
          omega
        · simp only [hmod] at hdone
          have hnext := ih (hlen.trans_le hle) (by omega) hdone (by omega) (hv'.trans_eq hlen.symm)
            (List.ne_nil_of_length_pos (by omega))
          exact hnext

/-- `copyout` to a single page with `PTE_U`. -/
theorem copyout_onePage (fuel : ℕ) (hbuf : buf ≠ [])
    (hle : va % 4096 + buf.length ≤ 4096) (hva : va < 2 ^ 32) (hx : σ.page (va / 4096) = some x)
    (hu : x.u = true) : (copyout (fuel + 1) σ va buf).1 = .done := by
  have hlookup := lookup_of_page (page_lt hva) hx
  obtain ⟨hnone, -⟩ | ⟨e, he, hne, -⟩ | ⟨y, -, -, hrun⟩ :=
    copyout_succ σ va fuel hbuf
  · rw [hlookup] at hnone
    cases hnone
  · obtain rfl := Option.mem_unique hlookup he
    rw [hne x rfl] at hu
    cases hu
  · rw [hrun]
    have hnil : buf.drop (min (4096 - va % 4096) buf.length) = [] := by
      rw [List.drop_eq_nil_iff]
      omega
    simp only [hnil, copyout_nil]

/-! ## Pushing the arguments -/

theorem Image.wrote (h : Image L T k σ sz) (hw : Wrote T σ σ') : Image L T k σ' sz where
  sound := hw.sound h.sound
  kernel := h.kernel.of_pdes fun d _ => congrFun hw.pdes d
  table := hw.pdes ▸ h.table
  user := hw.page ▸ h.user
  aligned := h.aligned
  two_le := h.two_le
  size := h.size
  mem f hf := (hw.mem f hf).trans (h.mem f hf)

theorem Image.discarded (h : Image L T k σ sz) : Discarded L T k σ := ⟨h.sound, h.table, h.mem⟩

/-- No page of the kernel has `PTE_U`. -/
theorem Kernel.supervisor (h : Kernel σ) (hv : UPAGES ≤ v) (hnp : v < NPAGES)
    (hx : σ.page v = some x) : x.u = false := by
  have of_mapped : (∃ y, σ.page v = some y ∧ y.u = false) → x.u = false := by
    rintro ⟨y, hy, hu⟩
    exact Option.mem_unique hx hy ▸ hu
  by_cases hmem : v < 0x8E000
  · exact of_mapped (h.memory v hv hmem)
  · by_cases hdev : 0xFE000 ≤ v
    · exact of_mapped (h.devices v hdev hnp)
    · rw [page_eq_none_of_table (h.gap (v / 1024) (by omega) (by omega))] at hx
      cases hx

/-- The accesses of `copyout` in the new image. -/
theorem Image.copyout (h : Image L T k σ sz) (fuel : ℕ) (buf : List UInt8) (hva : va < 2 ^ 32) :
    Wrote T σ (copyout fuel σ va buf).2.1 ∧
      ((copyout fuel σ va buf).1 ≠ .null → ∀ a ∈ (copyout fuel σ va buf).2.2, a.Confined) :=
  copyout_spec fuel buf h.sound (fun _ hv hnp _ hx => h.kernel.supervisor hv hnp hx) hva

/-- An address without an entry. -/
theorem Kernel.copyout_null (h : Kernel σ) (fuel : ℕ) (hbuf : buf ≠ [])
    (hlo : KERNBASE + PHYSTOP ≤ va) (hhi : va < DEVSPACE) :
    (copyout (fuel + 1) σ va buf).1 = .null := by
  unfold KERNBASE PHYSTOP at hlo
  unfold DEVSPACE at hhi
  have hnone : σ.lookup (va / 4096 * 4096) = none := by
    rw [lookup_mul σ (page_lt (by omega)), h.gap _ (by omega) (by omega)]
    rfl
  obtain ⟨-, hrun⟩ | ⟨e, he, -⟩ | ⟨x, hx, -⟩ := copyout_succ σ va fuel hbuf
  · rw [hrun]
  · rw [hnone] at he
    cases he
  · rw [hnone] at hx
    cases hx

/-- An address of the kernel. -/
theorem Kernel.copyout_failed (h : Kernel σ) (fuel : ℕ) (hbuf : buf ≠ []) (hlo : KERNBASE ≤ va)
    (hva : va < 2 ^ 32) (hgap : ¬(KERNBASE + PHYSTOP ≤ va ∧ va < DEVSPACE)) :
    (Memory.copyout (fuel + 1) σ va buf).1 = .failed := by
  unfold KERNBASE PHYSTOP DEVSPACE at hgap
  unfold KERNBASE at hlo
  have hmapped : ∃ x, σ.page (va / 4096) = some x ∧ x.u = false := by
    by_cases hmem : va / 4096 < 0x8E000
    · exact h.memory _ (by unfold UPAGES; omega) hmem
    · exact h.devices _ (by omega) (page_lt hva)
  obtain ⟨x, hx, hu⟩ := hmapped
  have hlookup := lookup_of_page (page_lt hva) hx
  obtain ⟨hnone, -⟩ | ⟨e, -, -, hrun⟩ | ⟨y, hy, hyu, -⟩ :=
    copyout_succ σ va fuel hbuf
  · rw [hlookup] at hnone
    cases hnone
  · rw [hrun]
  · obtain rfl := Option.some.inj (Option.mem_unique hlookup hy)
    rw [hu] at hyu
    cases hyu

/-- A string that fits below the stack pointer. -/
theorem push_of_le (hlen : len + 1 ≤ sp) (hsp : sp < 2 ^ 32) :
    push sp len = (sp - (len + 1)) / 4 * 4 := by
  rw [push, wrap_sub hlen hsp]

theorem push_lt (sp len : ℕ) : push sp len < 2 ^ 32 :=
  (Nat.div_mul_le_self _ 4).trans_lt (Nat.mod_lt _ (by decide))

/-- The stack pointer wraps past 0. -/
theorem push_of_lt (hlen : sp < len + 1) (hsize : len < KERNBASE) : KERNBASE ≤ push sp len := by
  unfold KERNBASE at hsize
  have hlt : sp + (2 ^ 32 - (len + 1)) < 2 ^ 32 := by omega
  unfold push KERNBASE
  rw [Nat.mod_eq_of_lt hlt]
  omega

/-- Copying a string that is pushed from within the page of the stack: it is done in that page, it
fails below it and in the kernel, and otherwise there is no entry. -/
theorem Image.copyout_arg (h : Image L T k σ sz) {fuel : ℕ} (hlo : sz - 4096 ≤ sp)
    (hhi : sp ≤ sz) (hlen : len < KERNBASE) (hbuf : buf.length = len + 1)
    (hfuel : buf.length = fuel) : (KERNBASE + PHYSTOP ≤ push sp len ∧ push sp len < DEVSPACE ∧
        (Memory.copyout fuel σ (push sp len) buf).1 = .null) ∨
      ¬(KERNBASE + PHYSTOP ≤ push sp len ∧ push sp len < DEVSPACE) ∧
        ((sz - 4096 ≤ push sp len ∧ push sp len ≤ sp ∧
            (Memory.copyout fuel σ (push sp len) buf).1 = .done) ∨
          ¬(sz - 4096 ≤ push sp len ∧ push sp len ≤ sp) ∧
            (Memory.copyout fuel σ (push sp len) buf).1 = .failed) := by
  have hne : buf ≠ [] := List.ne_nil_of_length_pos (by omega)
  have hsz := h.size
  have hal := h.aligned
  have htwo := h.two_le
  obtain ⟨fuel, rfl⟩ : ∃ m, fuel = m + 1 := ⟨len, by omega⟩
  by_cases hfit : len + 1 ≤ sp
  · have hpush : push sp len = (sp - (len + 1)) / 4 * 4 := by
      refine push_of_le hfit (lt_of_le_of_lt hhi (hsz.trans (by decide)))
    have hgap : ¬(KERNBASE + PHYSTOP ≤ push sp len ∧ push sp len < DEVSPACE) := by
      rintro ⟨hle, -⟩
      rw [hpush] at hle
      unfold KERNBASE at hsz hle
      omega
    unfold KERNBASE at hsz
    refine .inr ⟨hgap, ?_⟩
    by_cases hstack : sz - 4096 ≤ push sp len
    · refine .inl ⟨hstack, by omega, ?_⟩
      obtain ⟨x, hx, hu⟩ := h.user (push sp len / 4096) (by omega)
      exact copyout_onePage fuel hne (by omega) (by omega) hx (hu.mpr (by omega))
    · refine .inr ⟨fun hin => hstack hin.1, ?_⟩
      have hnull : (Memory.copyout (fuel + 1) σ (push sp len) buf).1 ≠ .null := by
        refine copyout_ne_null (fuel + 1) (by omega) fun v hv hv' => ?_
        obtain ⟨x, hx, -⟩ := h.user v (by omega)
        exact ⟨x, hx⟩
      have hdone : (Memory.copyout (fuel + 1) σ (push sp len) buf).1 ≠ .done := by
        intro hdone
        -- the bytes reach from the page of the stack, or the end of the one below it, downwards
        obtain ⟨x, hx, hu⟩ := copyout_done (fuel + 1) (by omega) hfuel.le hdone
          (v := pages sz - 2) (by omega) (by omega) hne
        obtain ⟨y, hy, hyu⟩ := h.user (pages sz - 2) (by omega)
        obtain rfl := Option.mem_unique hx hy
        exact hyu.mp hu (by omega)
      cases hres : (Memory.copyout (fuel + 1) σ (push sp len) buf).1 with
      | done => exact absurd hres hdone
      | failed => rfl
      | null => exact absurd hres hnull
  · have hkern := push_of_lt (Nat.lt_of_not_le hfit) hlen
    by_cases hgap : KERNBASE + PHYSTOP ≤ push sp len ∧ push sp len < DEVSPACE
    · exact .inl ⟨hgap.1, hgap.2, h.kernel.copyout_null fuel hne hgap.1 hgap.2⟩
    · refine .inr ⟨hgap, .inr ⟨fun hin => ?_, ?_⟩⟩
      · omega
      · exact h.kernel.copyout_failed fuel hne hkern (push_lt sp len) hgap

/-- Pushing an argument. -/
theorem pushArgs_cons (arg : List UInt8) (argv : List (List UInt8)) {argc : ℕ}
    (hargc : argc < MAXARG) (σ : Space) (sp : ℕ) :
    let r := copyout (arg.length + 1) σ (push sp arg.length) (arg ++ [0])
    (r.1 = .done ∧ pushArgs (arg :: argv) argc σ sp =
        let rest := pushArgs argv (argc + 1) r.2.1 (push sp arg.length)
        { rest with
          accesses := r.2.2 ++ rest.accesses
          ustack := push sp arg.length :: rest.ustack }) ∨
      r.1 ≠ .done ∧
        pushArgs (arg :: argv) argc σ sp = ⟨r.1, r.2.1, r.2.2, push sp arg.length, []⟩ := by
  simp only [pushArgs, if_neg (Nat.not_le_of_lt hargc)]
  generalize copyout (arg.length + 1) σ (push sp arg.length) (arg ++ [0]) = r
  obtain ⟨result, σ', accesses⟩ := r
  cases result with
  | done => exact .inl ⟨rfl, rfl⟩
  | failed | null => exact .inr ⟨nofun, rfl⟩

/-- What pushing the arguments leads to. -/
structure Pushes (T : Set ℕ) (σ : Space) (sz sp : ℕ) (argv : List (List UInt8)) (p : Pushed) :
    Prop where
  wrote : Wrote T σ p.space
  null : p.result = .null ↔ ¬SafeArgs sz sp argv
  confined : p.result ≠ .null → ∀ a ∈ p.accesses, a.Confined
  stack : p.result = .done → sz - 4096 ≤ p.sp ∧ p.sp ≤ sz ∧ p.ustack.length = argv.length

theorem Image.pushArgs (h : Image L T k σ sz) (argv : List (List UInt8)) (argc : ℕ)
    (hlo : sz - 4096 ≤ sp) (hhi : sp ≤ sz)
    (hargc : argc + argv.length ≤ MAXARG) (hargs : ∀ arg ∈ argv, arg.length < KERNBASE) :
    Pushes T σ sz sp argv (pushArgs argv argc σ sp) := by
  induction argv generalizing σ sp argc with
  | nil =>
    refine ⟨.refl T σ, ⟨nofun, fun hsafe => absurd trivial hsafe⟩, fun _ a ha => ?_,
      fun _ => ⟨hlo, hhi, rfl⟩⟩
    cases ha
  | cons arg argv ih =>
    rw [List.length_cons] at hargc
    obtain ⟨hwrote, hconfined⟩ := h.copyout (arg.length + 1) (arg ++ [0]) (push_lt sp arg.length)
    have hlen : (arg ++ [0]).length = arg.length + 1 := by simp
    have hcopy := h.copyout_arg hlo hhi (hargs arg List.mem_cons_self) hlen hlen
    obtain ⟨hdone, hrun⟩ | ⟨hdone, hrun⟩ := pushArgs_cons arg argv (by omega : argc < MAXARG) σ sp
    · rw [hdone] at hcopy
      obtain ⟨-, -, hnull⟩ | ⟨hgap, ⟨hstack, hle, -⟩ | ⟨-, hfail⟩⟩ := hcopy
      · cases hnull
      · have hrest := ih (h.wrote hwrote) (argc + 1) hstack (hle.trans hhi) (by omega)
          fun a ha => hargs a (List.mem_cons_of_mem _ ha)
        rw [hrun]
        refine ⟨hwrote.trans hrest.wrote, ?_, fun hnull a ha => ?_, fun hres => ?_⟩
        · rw [SafeArgs]
          refine hrest.null.trans (not_congr ⟨fun hsafe => ?_, fun hsafe => hsafe.2 hstack hle⟩)
          exact ⟨hgap, fun _ _ => hsafe⟩
        · rcases List.mem_append.mp ha with ha | ha
          · exact hconfined (by rw [hdone]; nofun) a ha
          · exact hrest.confined hnull a ha
        · obtain ⟨hlo', hhi', hlen⟩ := hrest.stack hres
          exact ⟨hlo', hhi', congrArg (· + 1) hlen⟩
      · cases hfail
    · rw [hrun]
      refine ⟨hwrote, ?_, hconfined, fun hres => absurd hres hdone⟩
      obtain ⟨hge, hlt, hnull⟩ | ⟨hgap, ⟨-, -, hdone'⟩ | ⟨hout, hfail⟩⟩ := hcopy
      · exact ⟨fun _ hsafe => hsafe.1 ⟨hge, hlt⟩, fun _ => hnull⟩
      · exact absurd hdone' hdone
      · simp only [hfail]
        refine ⟨nofun, fun hsafe => absurd ⟨hgap, fun hstack hle => ?_⟩ hsafe⟩
        exact absurd ⟨hstack, hle⟩ hout

/-! ## `exec` -/

/-- A task that calls `exec`. -/
structure Caller (L : Layout) (kmem : Kmem) (task : Task) : Prop where
  sound : ∃ T, Sound L T [] (task.space kmem)
  table : ∀ d, 1024 ≤ d → task.pdes d = none
  size : task.sz ≤ KERNBASE

variable {kmem kmem' : Kmem} {task : Task}

/-- The caller's memory can be freed while some of the pages that were free are in use. -/
theorem Caller.freevm (h : Caller L kmem task) (hnodup : kmem'.freelist.Nodup)
    (hsub : kmem'.freelist ⊆ kmem.freelist) :
    ∃ kmem'', (task.space kmem').freevm L = some kmem'' := by
  obtain ⟨T, hsound⟩ := h.sound
  have hparts := hsound.parts.restrict hnodup hsub
  obtain ⟨kmem'', heq, -⟩ := freevm_spec (σ := task.space kmem')
    ⟨hparts, fun f hf => hsound.valid f (hsound.parts.restrict_subset hsub hf)⟩ h.table
  exact ⟨kmem'', heq⟩

theorem length_flatMap_word (ns : List ℕ) : (ns.flatMap word).length = 4 * ns.length := by
  induction ns with
  | nil => rfl
  | cons n ns ih =>
    rw [List.flatMap_cons, List.length_append, ih, List.length_cons, Nat.mul_succ, Nat.add_comm]
    rfl

/-- `exec` gives up the new image. -/
theorem Released.confines (h : Released {f | f ∈ kmem.freelist} kmem kmem') {accesses : List Access}
    (hconfined : ∀ a ∈ accesses, a.Confined) : Confines kmem task ⟨.error, task, kmem', accesses⟩ :=
  ⟨nofun, hconfined, fun _ => ⟨rfl, fun f hf =>
    ⟨fun hmem => hf (h.parts.mem_of_free hmem), h.mem f hf⟩⟩⟩

/-- `ustack` and what `exec` puts before and after it take up less than a page. -/
theorem Image.copyout_ustack (h : Image L T k σ sz) {n : ℕ} (hlo : sz - 4096 ≤ sp) (hhi : sp ≤ sz)
    (hn : n ≤ 4096) (hbuf : buf.length = n) :
    (Memory.copyout n σ ((sp + (2 ^ 32 - n)) % 2 ^ 32) buf).1 ≠ .null := by
  have hsz := h.size
  have hal := h.aligned
  have htwo := h.two_le
  unfold KERNBASE at hsz
  rw [wrap_sub (by omega) (by omega)]
  refine copyout_ne_null n (by omega) fun v hv hv' => ?_
  obtain ⟨x, hx, -⟩ := h.user v (by omega)
  exact ⟨x, hx⟩

theorem Caller.commit (h : Caller L kmem task) {p : Pushed} (path : List UInt8) (entry : ℕ)
    (himage : Image L {f | f ∈ kmem.freelist} kmem p.space sz) (hlo : sz - 4096 ≤ p.sp)
    (hhi : p.sp ≤ sz) (hargc : p.ustack.length < MAXARG)
    (hconfined : ∀ a ∈ p.accesses, a.Confined) :
    ∃ r, Memory.commit L task path p.ustack.length sz entry p = some r ∧ Confines kmem task r := by
  unfold MAXARG at hargc
  simp only [Memory.commit]
  generalize hustack : [0xffffffff, p.ustack.length,
    (p.sp + (2 ^ 32 - (p.ustack.length + 1) * 4)) % 2 ^ 32] ++ p.ustack ++ [0] = ustack
  have hlen : (ustack.flatMap word).length = (3 + p.ustack.length + 1) * 4 := by
    rw [length_flatMap_word, ← hustack]
    simp only [List.length_append, List.length_cons, List.length_nil]
    omega
  have hnull := himage.copyout_ustack hlo hhi (by omega) hlen
  obtain ⟨hwrote, haccesses⟩ := himage.copyout ((3 + p.ustack.length + 1) * 4)
    (ustack.flatMap word) (Nat.mod_lt (p.sp + (2 ^ 32 - (3 + p.ustack.length + 1) * 4))
      (by decide : 0 < 2 ^ 32))
  have hall := fun a ha => (List.mem_append.mp ha).elim (hconfined a) (haccesses hnull a)
  generalize copyout ((3 + p.ustack.length + 1) * 4) p.space _ (ustack.flatMap word) = r
    at hnull hwrote hall ⊢
  obtain ⟨result, σ, accesses⟩ := r
  have himage' := himage.wrote hwrote
  cases result with
  | null => exact absurd rfl hnull
  | failed =>
    obtain ⟨k', heq, hreleased⟩ := himage'.discarded.freevm
    simp only [heq, Option.bind_eq_bind, Option.bind_some]
    exact ⟨_, rfl, hreleased.confines hall⟩
  | done =>
    have hsub : σ.kmem.freelist ⊆ kmem.freelist := fun f hf => himage'.sound.parts.mem_of_free hf
    obtain ⟨k', heq⟩ := h.freevm himage'.sound.parts.nodup hsub
    simp only [heq, Option.bind_eq_bind, Option.bind_some]
    exact ⟨_, rfl, nofun, hall, nofun⟩

/-- All arguments can be pushed, or the first that cannot makes `exec` return -1. -/
theorem Caller.exec_of_safe (h : Caller L kmem task) (path : List UInt8) {bytes : List UInt8}
    {elf : Elfhdr} (hload : load L kmem bytes = some (.ok (σ, sz, elf)))
    (himage : Image L {f | f ∈ kmem.freelist} kmem σ sz)
    (hpushes : Pushes {f | f ∈ kmem.freelist} σ sz sz argv (pushArgs argv 0 σ sz))
    (hargc : argv.length < MAXARG) (hsafe : SafeArgs sz sz argv) :
    ConfinedExec L kmem task path (some bytes) argv := by
  have himage' := himage.wrote hpushes.wrote
  have hnull : (pushArgs argv 0 σ sz).result ≠ .null := fun hres => hpushes.null.mp hres hsafe
  unfold ConfinedExec exec
  simp only [hload, Option.bind_eq_bind, Option.bind_some]
  cases hres : (pushArgs argv 0 σ sz).result with
  | null => exact absurd hres hnull
  | failed =>
    obtain ⟨k', heq, hreleased⟩ := himage'.discarded.freevm
    simp only [heq, Option.bind_some]
    exact ⟨_, rfl, hreleased.confines (hpushes.confined hnull)⟩
  | done =>
    obtain ⟨hlo, hhi, hlen⟩ := hpushes.stack hres
    have hcommit := h.commit path elf.entry himage' hlo hhi (hlen.trans_lt hargc)
      (hpushes.confined hnull)
    rwa [hlen] at hcommit

/-- An argument is pushed to where there are no page tables. -/
theorem not_confinedExec {bytes : List UInt8} {elf : Elfhdr} (path : List UInt8)
    (hload : load L kmem bytes = some (.ok (σ, sz, elf)))
    (hpushes : Pushes {f | f ∈ kmem.freelist} σ sz sz argv (pushArgs argv 0 σ sz))
    (hbad : ¬SafeArgs sz sz argv) : ¬ConfinedExec L kmem task path (some bytes) argv := by
  unfold ConfinedExec exec
  simp only [hload, Option.bind_eq_bind, Option.bind_some, hpushes.null.mpr hbad]
  rintro ⟨r, hr, hconfines⟩
  exact hconfines.null (congrArg Executed.ret (Option.some.inj hr)).symm

/-- Arguments of at most 32 MB cannot be pushed to where there are no page tables. -/
theorem safeArgs_of_le (hsz : sz < KERNBASE) (htwo : 8192 ≤ sz) (hlo : sz - 4096 ≤ sp)
    (hhi : sp ≤ sz) (hargs : ∀ arg ∈ argv, arg.length ≤ 2 ^ 25) : SafeArgs sz sp argv := by
  induction argv generalizing sp with
  | nil => trivial
  | cons arg argv ih =>
    have hlen := hargs arg List.mem_cons_self
    refine ⟨fun hgap => ?_, fun hstack hle => ?_⟩
    · unfold KERNBASE at hsz
      unfold KERNBASE PHYSTOP DEVSPACE push at hgap
      by_cases hfit : arg.length + 1 ≤ sp
      · rw [wrap_sub hfit (by omega)] at hgap
        omega
      · rw [Nat.mod_eq_of_lt (by omega)] at hgap
        omega
    · exact ih hstack (hle.trans hhi) fun a ha => hargs a (List.mem_cons_of_mem _ ha)

/-! ## A large task -/

/-- A task of 48 MB. -/
def bigTask : Task where
  pgdir := 2900
  pdes d :=
    if d < 12 then some ⟨2901 + d, fun i => some ⟨3000 + (1024 * d + i), true, true⟩⟩ else none
  sz := 48 * 2 ^ 20
  eip := 0
  esp := 48 * 2 ^ 20
  name := []

/-- 2000 pages are free, and all calls of `kalloc` find one as long as there is one. -/
def someFree : Kmem := ⟨List.range' 300 2000, fun _ => false, 0, fun _ _ => 0⟩

theorem page_bigTask (v : ℕ) : (bigTask.space someFree).page v =
    if v < 12288 then some ⟨3000 + v, true, true⟩ else none := by
  show ((if v / 1024 < 12 then _ else _ : Option PageTable).bind _) = _
  by_cases hv : v < 12288
  · rw [if_pos (by omega), if_pos hv, Option.bind_some]
    simp only [Nat.div_add_mod]
  · rw [if_neg (by omega), if_neg hv]
    rfl

theorem slot_bigTask {s : Slot} {f : ℕ} : (bigTask.space someFree).slot s = some f ↔
    (s = .dir ∧ f = 2900) ∨ (∃ d < 12, s = .table d ∧ f = 2901 + d) ∨
      ∃ v < 12288, s = .user v ∧ f = 3000 + v := by
  cases s with
  | dir => simp [Space.slot, bigTask, Task.space, eq_comm]
  | table d =>
    by_cases hd : d < 12
    · simp [Space.slot, bigTask, Task.space, hd, eq_comm]
    · simp [Space.slot, bigTask, Task.space, hd]
  | user v =>
    rw [slot_user, page_bigTask]
    by_cases hv : v < 12288
    · have : v < UPAGES := hv.trans (by decide)
      simp [hv, this, eq_comm]
    · simp [hv]

theorem caller_bigTask : Caller smallKernel someFree bigTask where
  sound := by
    refine ⟨{f | f ∈ [] ++ someFree.freelist ∨ ∃ s, (bigTask.space someFree).slot s = some f},
      ⟨List.nodup_range', fun {s s' f} hs hs' => ?_, fun {s f} hs hf => ?_, Iff.rfl⟩,
      fun f hf => ?_⟩
    · rw [slot_bigTask] at hs hs'
      rcases hs with ⟨rfl, hf⟩ | ⟨d, hd, rfl, hf⟩ | ⟨v, hv, rfl, hf⟩ <;>
        rcases hs' with ⟨rfl, hf'⟩ | ⟨d', hd', rfl, hf'⟩ | ⟨v', hv', rfl, hf'⟩ <;>
        first
        | rfl
        | exact congrArg _ (by omega)
        | omega
    · have hlt : f < 2300 := (List.mem_range'_1.mp hf).2
      rcases slot_bigTask.mp hs with ⟨-, rfl⟩ | ⟨d, -, -, rfl⟩ | ⟨v, -, -, rfl⟩ <;> omega
    · show 0x102000 ≤ f * 4096 ∧ f * 4096 < 0xE000000
      rcases hf with hf | ⟨s, hs⟩
      · have := List.mem_range'_1.mp hf
        omega
      · rcases slot_bigTask.mp hs with ⟨-, rfl⟩ | ⟨d, hd, -, rfl⟩ | ⟨v, hv, -, rfl⟩ <;> omega
  table d hd := if_neg (by omega)
  size := by decide

/-- An executable without program headers. -/
def bareElf : List UInt8 := [0x7f, 0x45, 0x4c, 0x46] ++ List.replicate 48 0

theorem not_scarce_someFree {n : ℕ} (hn : n ≤ 2) :
    ¬Scarce {f | f ∈ someFree.freelist} [] someFree n := by
  rintro (⟨j, hj⟩ | hcard)
  · cases hj
  · have hsub : ((Finset.Ico 300 2300 : Finset ℕ) : Set ℕ) ⊆ {f | f ∈ someFree.freelist} := by
      intro f hf
      exact List.mem_range'_1.mpr (Finset.mem_Ico.mp (Finset.mem_coe.mp hf))
    have hle := hcard _ hsub
    rw [Nat.card_Ico, List.length_nil] at hle
    omega

/-- The image of the executable consists of the two pages for the stack. -/
theorem load_bareElf : ∃ σ, load smallKernel someFree bareElf =
      some (.ok (σ, 8192, Elfhdr.of bareElf)) ∧
    Image smallKernel {f | f ∈ someFree.freelist} someFree σ 8192 := by
  have hread : readi bareElf 0 ELFHDR = some bareElf := by decide
  have hvalid : ∀ f ∈ someFree.freelist, smallKernel.kend ≤ f * PGSIZE ∧ f * PGSIZE < PHYSTOP := by
    intro f hf
    have := List.mem_range'_1.mp hf
    show 0x102000 ≤ f * 4096 ∧ f * 4096 < 0xE000000
    omega
  obtain ⟨-, -, -, hscarce⟩ | ⟨σ, heq, hsound, hkernel, hcompact, hmem, hfails⟩ :=
    setupkvm_spec smallKernel someFree List.nodup_range' hvalid
  · exact absurd hscarce (not_scarce_someFree (by decide))
  · have hloaded : Loaded smallKernel {f | f ∈ someFree.freelist} someFree σ 0 :=
      ⟨hsound, hkernel, hcompact, fun v hv => absurd hv (Nat.not_lt_zero v), Nat.zero_le _,
        fun f _ => congrFun hmem f, hfails⟩
    obtain ⟨-, -, -, hbase | hscarce⟩ | ⟨σ', hstack, himage⟩ := hloaded.allocStack
    · exact absurd hbase (by decide)
    · exact absurd hscarce (not_scarce_someFree (by decide))
    · refine ⟨σ', ?_, himage⟩
      have hnum : (Elfhdr.of bareElf).phnum = 0 := by decide
      have hgood : ¬(bareElf.length ≠ ELFHDR ∨ (Elfhdr.of bareElf).magic ≠ ELF_MAGIC) := by decide
      simp only [load, hread, if_neg hgood, heq, hnum, loadLoop, hstack, Option.bind_eq_bind,
        Option.bind_some]
      rfl

/-! ## Confinement -/

/-- `exec` is confined if and only if no argument is pushed to where there are no page tables. -/
theorem exec_confined_iff (h : Caller L kmem task) (path : List UInt8) (file : Option (List UInt8))
    (hargc : argv.length < MAXARG) (hargs : ∀ arg ∈ argv, arg.length < task.sz) :
    ConfinedExec L kmem task path file argv ↔
      ∀ bytes σ sz elf, file = some bytes → load L kmem bytes = some (.ok (σ, sz, elf)) →
        SafeArgs sz sz argv := by
  obtain ⟨T, hsound⟩ := h.sound
  cases file with
  | none =>
    refine ⟨fun _ _ _ _ _ => nofun, fun _ => ⟨_, rfl, nofun, fun a ha => ?_, fun _ => ⟨rfl, ?_⟩⟩⟩
    · cases ha
    · exact fun f hf => ⟨hf, rfl⟩
  | some bytes =>
    obtain ⟨k', hload, hrel⟩ | ⟨σ, sz, elf, hload, himage⟩ := load_spec L kmem bytes
      hsound.parts.nodup fun f hf => hsound.valid f (hsound.parts.mem_of_free hf)
    · refine ⟨fun _ b τ s e hb hok => ?_, fun _ => ⟨⟨.error, task, k', []⟩, ?_, ?_⟩⟩
      · rw [← Option.some.inj hb, hload] at hok
        cases hok
      · simp [exec, hload]
      · exact hrel.confines fun a ha => by cases ha
    · have hpushes := himage.pushArgs argv 0 (Nat.sub_le sz 4096) (Nat.le_refl sz)
        (by omega) fun a ha => (hargs a ha).trans_le h.size
      constructor
      · intro hconfined b τ s e hb hok
        rw [← Option.some.inj hb, hload] at hok
        obtain ⟨-, rfl, -⟩ := Prod.mk.inj (Except.ok.inj (Option.some.inj hok))
        exact not_not.mp fun hbad => not_confinedExec path hload hpushes hbad hconfined
      · intro hsafe
        exact h.exec_of_safe path hload himage hpushes hargc (hsafe bytes σ sz elf rfl hload)

/-- A short argument is copied. -/
theorem exec_confined_bigTask : Caller smallKernel someFree bigTask ∧
    ConfinedExec smallKernel someFree bigTask [97] (some bareElf) [[97]] := by
  refine ⟨caller_bigTask, (exec_confined_iff caller_bigTask [97] (some bareElf) (by decide)
    (by decide)).mpr fun b σ sz elf hb hok => ?_⟩
  obtain ⟨τ, hload, -⟩ := load_bareElf
  rw [← Option.some.inj hb, hload] at hok
  obtain ⟨-, rfl, -⟩ := Prod.mk.inj (Except.ok.inj (Option.some.inj hok))
  exact safeArgs_of_le (by decide) (by decide) (by decide) (by decide) (by decide)

/-- An argument of 40 MB. -/
def longArg : List UInt8 := List.replicate (40 * 2 ^ 20) 97

theorem length_longArg : longArg.length = 40 * 2 ^ 20 := List.length_replicate

/-- The argument is pushed to `0xFD801FFC`, where there is no page table. -/
theorem not_exec_confined : Caller smallKernel someFree bigTask ∧
    (∀ v < 12288, ∃ x, (bigTask.space someFree).page v = some x ∧ x.u = true) ∧
    longArg.length < bigTask.sz ∧
    ¬ConfinedExec smallKernel someFree bigTask [97] (some bareElf) [longArg] := by
  have hlen : longArg.length < KERNBASE := length_longArg.trans_lt (by decide)
  refine ⟨caller_bigTask, fun v hv => ⟨_, (page_bigTask v).trans (if_pos hv), rfl⟩,
    length_longArg.trans_lt (by decide), ?_⟩
  obtain ⟨σ, hload, himage⟩ := load_bareElf
  have hpushes := himage.pushArgs [longArg] 0 (by decide) (Nat.le_refl 8192)
    (by decide) fun a ha => List.mem_singleton.mp ha ▸ hlen
  refine not_confinedExec [97] hload hpushes fun hsafe => hsafe.1 ?_
  rw [length_longArg]
  decide

end Memory
