import OsnAssignments.FileSystem.Log

/-!
# Crash atomicity of the log

A disk stands for the disk that recovery makes of it: `view` installs the blocks that the header of
the log names. A crash during recovery does not change the view (`view_recover`). A crash during a
transaction leaves the view as it was before the transaction, or changes it to that after the
transaction (`Logged.view_commit`).
-/

namespace FileSystem

open Bytes Writes

/-! ## Headers -/

namespace LogHeader

variable {lh : LogHeader} {i : ℕ}

/-- The entries that the loop of `write_head` has stored. -/
theorem getLE_foldl (lh : LogHeader) (hb : Block) (m : ℕ) :
    let data := (List.range m).foldl (fun hb i => putLE hb (4 + 4 * i) (lh.block i) 4) hb
    getLE data 0 4 = getLE hb 0 4 ∧
      ∀ i < m, lh.block i < 2 ^ 32 → getLE data (4 + 4 * i) 4 = lh.block i := by
  induction m with
  | zero => simp
  | succ m ih =>
    obtain ⟨hn, hblock⟩ := ih
    dsimp only
    rw [List.range_succ, List.foldl_append, List.foldl_cons, List.foldl_nil]
    refine ⟨?_, fun i hi hlt => ?_⟩
    · rw [getLE_putLE_of_disjoint (by omega), hn]
    · rcases Nat.lt_succ_iff_lt_or_eq.mp hi with hi | rfl
      · rw [getLE_putLE_of_disjoint (by omega), hblock i hi hlt]
      · exact getLE_putLE_of_lt (by simpa using hlt)

theorem getLE_encode_n (lh : LogHeader) (hb : Block) (h : lh.n < 2 ^ 32) :
    getLE (lh.encode hb) 0 4 = lh.n := by
  rw [encode, (getLE_foldl lh _ lh.n).1]
  exact getLE_putLE_of_lt (by simpa using h)

theorem getLE_encode_block (lh : LogHeader) (hb : Block) (hi : i < lh.n)
    (hlt : lh.block i < 2 ^ 32) : getLE (lh.encode hb) (4 + 4 * i) 4 = lh.block i :=
  (getLE_foldl lh _ lh.n).2 i hi hlt

/-- What `write_head` writes, `read_head` reads. -/
theorem blocks_decode_encode (lh lh' : LogHeader) (hb : Block) (hn : lh.n < 2 ^ 32)
    (hlt : ∀ b ∈ lh.blocks, b < 2 ^ 32) : (lh'.decode (lh.encode hb)).blocks = lh.blocks := by
  have hn' : (lh'.decode (lh.encode hb)).n = lh.n := getLE_encode_n lh hb hn
  rw [blocks, blocks, hn']
  refine List.map_congr_left fun i hi => ?_
  have hi' := List.mem_range.mp hi
  have hblock := getLE_encode_block lh hb hi' (hlt _ (mem_blocks.mpr ⟨i, hi', rfl⟩))
  simp only [decode, getLE_encode_n lh hb hn, if_pos hi', hblock]

end LogHeader

/-! ## The writes of a loop -/

namespace Logged

variable {σ : Logged}

/-- Write these blocks one after the other. -/
def bwrites (σ : Logged) (ws : List BlockWrite) : Logged :=
  ws.foldl (fun σ w => σ.bwrite w.1 w.2) σ

theorem bwrites_append (σ : Logged) (ws ws' : List BlockWrite) :
    σ.bwrites (ws ++ ws') = (σ.bwrites ws).bwrites ws' :=
  List.foldl_append

theorem bwrites_eq (σ : Logged) (ws : List BlockWrite) :
    σ.bwrites ws = { σ with
      disk := apply σ.disk ws
      dirty := fun b => if ∃ w ∈ ws, w.1 = b then none else σ.dirty b
      issued := σ.issued ++ ws } := by
  induction ws generalizing σ with
  | nil => simp [bwrites]
  | cons w ws ih =>
    rw [show σ.bwrites (w :: ws) = (σ.bwrite w.1 w.2).bwrites ws from rfl, ih]
    simp only [bwrite, apply_cons, List.append_assoc, List.singleton_append,
      List.mem_cons, exists_eq_or_imp, Logged.mk.injEq, true_and, and_true]
    funext b
    by_cases hb : w.1 = b
    · subst hb
      simp
    · rw [Function.update_of_ne (Ne.symm hb), if_congr (or_iff_right hb) rfl rfl]

@[simp]
theorem bwrites_start (σ : Logged) (ws : List BlockWrite) : (σ.bwrites ws).start = σ.start := by
  rw [bwrites_eq]

@[simp]
theorem bwrites_size (σ : Logged) (ws : List BlockWrite) : (σ.bwrites ws).size = σ.size := by
  rw [bwrites_eq]

@[simp]
theorem bwrites_lh (σ : Logged) (ws : List BlockWrite) : (σ.bwrites ws).lh = σ.lh := by
  rw [bwrites_eq]

@[simp]
theorem bwrites_disk (σ : Logged) (ws : List BlockWrite) :
    (σ.bwrites ws).disk = apply σ.disk ws := by
  rw [bwrites_eq]

@[simp]
theorem bwrites_issued (σ : Logged) (ws : List BlockWrite) :
    (σ.bwrites ws).issued = σ.issued ++ ws := by
  rw [bwrites_eq]

theorem bwrites_dirty (σ : Logged) (ws : List BlockWrite) (b : ℕ) :
    (σ.bwrites ws).dirty b = if ∃ w ∈ ws, w.1 = b then none else σ.dirty b := by
  rw [bwrites_eq]

/-- A block that is not written is read as before. -/
theorem bread_bwrites_of_forall_ne {ws : List BlockWrite} {b : ℕ} (h : ∀ w ∈ ws, w.1 ≠ b) :
    (σ.bwrites ws).bread b = σ.bread b := by
  have hnot : ¬∃ w ∈ ws, w.1 = b := fun ⟨w, hw, hb⟩ => h w hw hb
  rw [bread, bwrites_dirty, if_neg hnot, bwrites_disk, apply_of_forall_ne h, bread]

/-- A loop that writes blocks from a set `A` and chooses what it writes from blocks outside this set
can choose all of it before the first write. -/
theorem foldl_bwrite {f : Logged → ℕ → BlockWrite} {A : ℕ → Prop} {l : List ℕ}
    (hf : ∀ ws : List BlockWrite, (∀ w ∈ ws, A w.1) → ∀ i ∈ l, f (σ.bwrites ws) i = f σ i)
    (hA : ∀ i ∈ l, A (f σ i).1) (ws : List BlockWrite) (hws : ∀ w ∈ ws, A w.1) :
    l.foldl (fun σ i => σ.bwrite (f σ i).1 (f σ i).2) (σ.bwrites ws) =
      σ.bwrites (ws ++ l.map (f σ)) := by
  induction l generalizing ws with
  | nil => simp
  | cons i l ih =>
    have hstep : (σ.bwrites ws).bwrite (f σ i).1 (f σ i).2 = σ.bwrites (ws ++ [f σ i]) := by
      rw [bwrites_append]
      rfl
    have hws' : ∀ w ∈ ws ++ [f σ i], A w.1 := by
      intro w hw
      rcases List.mem_append.mp hw with hw | hw
      · exact hws w hw
      · rw [List.mem_singleton.mp hw]
        exact hA i List.mem_cons_self
    rw [List.foldl_cons, hf ws hws i List.mem_cons_self, hstep,
      ih (fun ws hws j hj => hf ws hws j (List.mem_cons_of_mem _ hj))
        (fun j hj => hA j (List.mem_cons_of_mem _ hj)) _ hws',
      List.append_assoc, List.singleton_append, List.map_cons]

end Logged

/-- The header leaves room for itself in the log and names blocks outside the log. -/
structure LogHeader.Fits (lh : LogHeader) (start size : ℕ) : Prop where
  room : lh.n < size
  home : ∀ b ∈ lh.blocks, IsHome start size b

namespace Logged

variable {σ : Logged}

/-- The writes of `write_log`. -/
def logWrites (σ : Logged) : List BlockWrite :=
  (List.range σ.lh.n).map fun i => (σ.start + i + 1, σ.bread (σ.lh.block i))

/-- The writes of `install_trans`. -/
def installs (σ : Logged) : List BlockWrite :=
  (List.range σ.lh.n).map fun i => (σ.lh.block i, σ.bread (σ.start + i + 1))

theorem writeLog_eq (h : σ.lh.Fits σ.start σ.size) : σ.writeLog = σ.bwrites σ.logWrites := by
  refine foldl_bwrite (A := fun b => ¬IsHome σ.start σ.size b)
    (f := fun σ i => (σ.start + i + 1, σ.bread (σ.lh.block i))) ?_ ?_ [] (by simp)
  · intro ws hws i hi
    have hhome := h.home _ (LogHeader.mem_blocks.mpr ⟨i, List.mem_range.mp hi, rfl⟩)
    simp only [bwrites_start, bwrites_lh]
    rw [bread_bwrites_of_forall_ne fun w hw hb => hws w hw (hb ▸ hhome)]
  · intro i hi
    have hi' := List.mem_range.mp hi
    have hroom := h.room
    simp only [IsHome]
    omega

theorem installTrans_eq (h : σ.lh.Fits σ.start σ.size) : σ.installTrans = σ.bwrites σ.installs := by
  refine foldl_bwrite (A := IsHome σ.start σ.size)
    (f := fun σ i => (σ.lh.block i, σ.bread (σ.start + i + 1))) ?_ ?_ [] (by simp)
  · intro ws hws i hi
    have hi' := List.mem_range.mp hi
    have hroom := h.room
    simp only [bwrites_start, bwrites_lh]
    rw [bread_bwrites_of_forall_ne fun w hw hb => ?_]
    have hhome := hws w hw
    rw [hb, IsHome] at hhome
    omega
  · intro i hi
    exact h.home _ (LogHeader.mem_blocks.mpr ⟨i, List.mem_range.mp hi, rfl⟩)

theorem mem_logWrites (h : σ.lh.Fits σ.start σ.size) :
    ∀ w ∈ σ.logWrites, σ.start < w.1 ∧ w.1 < σ.start + σ.size := by
  intro w hw
  obtain ⟨i, hi, rfl⟩ := List.mem_map.mp hw
  have hi' := List.mem_range.mp hi
  have hroom := h.room
  dsimp only
  omega

end Logged

/-! ## What a disk stands for -/

section View

variable {start size : ℕ} {d d' : ℕ → Block} {b : ℕ}

/-- The header of the log on a disk. -/
def header (start : ℕ) (d : ℕ → Block) : LogHeader :=
  LogHeader.decode { n := 0, block := fun _ => 0 } (d start)

/-- The blocks that recovery installs. -/
def redo (start : ℕ) (d : ℕ → Block) : List BlockWrite :=
  (List.range (header start d).n).map fun i => ((header start d).block i, d (start + i + 1))

/-- The disk that recovery makes of a disk, except for the log. -/
def view (start : ℕ) (d : ℕ → Block) : ℕ → Block :=
  apply d (redo start d)

/-- The log of a disk is one that recovery can install. -/
def Sound (start size : ℕ) (d : ℕ → Block) : Prop :=
  (header start d).Fits start size

theorem ne_of_isHome (hsize : 0 < size) (hb : IsHome start size b) : b ≠ start := by
  rcases hb with hb | hb <;> omega

/-- Disks with the same log have the same blocks to install. -/
theorem redo_congr (hsound : Sound start size d)
    (h : ∀ b, start ≤ b → b < start + size → d' b = d b) :
    header start d' = header start d ∧ redo start d' = redo start d := by
  have hroom := hsound.room
  have hheader : header start d' = header start d := by
    rw [header, header, h start (Nat.le_refl _) (by omega)]
  refine ⟨hheader, ?_⟩
  rw [redo, redo, hheader]
  refine List.map_congr_left fun i hi => ?_
  have hi' := List.mem_range.mp hi
  rw [h (start + i + 1) (by omega) (by omega)]

theorem mem_redo_home (hsound : Sound start size d) :
    ∀ w ∈ redo start d, IsHome start size w.1 := by
  intro w hw
  obtain ⟨i, hi, rfl⟩ := List.mem_map.mp hw
  exact hsound.home _ (LogHeader.mem_blocks.mpr ⟨i, List.mem_range.mp hi, rfl⟩)

/-- A cleared log is one that recovery can install, and it installs nothing. -/
theorem sound_of_clear (hsize : 0 < size) (hclear : getLE (d start) 0 4 = 0) :
    Sound start size d ∧ view start d = d := by
  have hn : (header start d).n = 0 := hclear
  refine ⟨⟨by omega, ?_⟩, ?_⟩
  · simp [LogHeader.blocks, hn]
  · simp [view, redo, hn]

/-- Installing some of the blocks of the log does not change what the disk stands for. -/
theorem view_apply_redo (hsound : Sound start size d) {part : List BlockWrite}
    (hpart : part ⊆ redo start d) :
    Sound start size (apply d part) ∧ view start (apply d part) = view start d := by
  have hlog : ∀ b, start ≤ b → b < start + size → apply d part b = d b := by
    intro b hb hb'
    refine apply_of_forall_ne fun w hw hwb => ?_
    have hhome := mem_redo_home hsound w (hpart hw)
    rw [hwb, IsHome] at hhome
    omega
  obtain ⟨hheader, hredo⟩ := redo_congr hsound hlog
  refine ⟨by rwa [Sound, hheader], ?_⟩
  rw [view, hredo]
  funext b
  exact apply_apply_of_subset hpart

/-- Writing the header does not change the blocks outside the log. -/
theorem apply_header (hsize : 0 < size) (hb : IsHome start size b) (H : Block) :
    apply d [(start, H)] b = d b :=
  apply_singleton_of_ne (ne_of_isHome hsize hb).symm

/-- A crash during recovery does not change what the disk stands for. -/
theorem view_recover (hsize : 0 < size) (hsound : Sound start size d) {H : Block}
    (hH : getLE H 0 4 = 0) (m : ℕ) :
    Sound start size (apply d ((redo start d ++ [(start, H)]).take m)) ∧
      ∀ b, IsHome start size b →
        view start (apply d ((redo start d ++ [(start, H)]).take m)) b = view start d b := by
  by_cases hm : m ≤ (redo start d).length
  · -- some blocks are installed
    rw [List.take_append_of_le_length hm]
    obtain ⟨hsound', hview⟩ := view_apply_redo hsound (List.take_subset m (redo start d))
    exact ⟨hsound', fun b _ => congrFun hview b⟩
  · -- all blocks are installed, and the header is cleared
    rw [List.take_of_length_le (by simp; omega), apply_append]
    have hclear :
        getLE (apply (apply d (redo start d)) [(start, H)] start) 0 4 = 0 := by
      simpa using hH
    obtain ⟨hsound', hview⟩ := sound_of_clear hsize hclear
    refine ⟨hsound', fun b hb => ?_⟩
    rw [hview, apply_header hsize hb, view]

/-- Blocks outside the log and cleared headers are no commits. -/
theorem commits_eq_zero {ws : List BlockWrite}
    (h : ∀ w ∈ ws, w.1 ≠ start ∨ getLE w.2 0 4 = 0) : commits start ws = 0 := by
  rw [commits, List.countP_eq_zero]
  intro w hw
  rcases h w hw with hne | hzero
  · simp [hne]
  · simp [hzero]

/-- Recovery commits nothing. -/
theorem commits_recover (hsize : 0 < size) (hsound : Sound start size d) {H : Block}
    (hH : getLE H 0 4 = 0) (m : ℕ) :
    commits start ((redo start d ++ [(start, H)]).take m) = 0 := by
  refine commits_eq_zero fun w hw => ?_
  rcases List.mem_append.mp (List.mem_of_mem_take hw) with hw | hw
  · exact .inl (ne_of_isHome hsize (mem_redo_home hsound w hw))
  · exact .inr (by rw [List.mem_singleton.mp hw]; exact hH)

end View

/-! ## Recovery and transactions -/

/-- No transaction is in progress: no buffer waits to be written, and the log is cleared. -/
structure Idle (start size : ℕ) (σ : Logged) : Prop where
  start_eq : σ.start = start
  size_eq : σ.size = size
  dirty_eq : ∀ b, σ.dirty b = none
  n_eq : σ.lh.n = 0
  clear : getLE (σ.disk start) 0 4 = 0

namespace Logged

variable {start size : ℕ} {d : ℕ → Block} {σ σ₀ : Logged} {tx : List BlockWrite}

/-- `log.lh.n = 0; write_head()` writes a cleared header. -/
theorem writeHead_clear (σ : Logged) :
    ∃ H, getLE H 0 4 = 0 ∧ σ.clear.writeHead = (σ.bwrites [(σ.start, H)]).clear := by
  refine ⟨putLE (σ.bread σ.start) 0 0 4, ?_, rfl⟩
  exact getLE_putLE_of_lt (by decide)

/-- The blocks that recovery writes, and the state after it. -/
theorem recoverFromLog_spec (hsound : Sound start size d) : ∃ H, getLE H 0 4 = 0 ∧
      (boot start size d).recoverFromLog.issued = redo start d ++ [(start, H)] ∧
      (boot start size d).recoverFromLog.disk = apply d (redo start d ++ [(start, H)]) ∧
      Idle start size (boot start size d).recoverFromLog := by
  have hinstall : (boot start size d).readHead.installTrans =
      (boot start size d).readHead.bwrites (redo start d) :=
    installTrans_eq hsound
  obtain ⟨H, hH, hclear⟩ := writeHead_clear ((boot start size d).readHead.bwrites (redo start d))
  have hrecover : (boot start size d).recoverFromLog =
      ((boot start size d).readHead.bwrites (redo start d ++ [(start, H)])).clear := by
    rw [recoverFromLog, hinstall, hclear, ← bwrites_append, bwrites_start]
    rfl
  have hdisk : (boot start size d).recoverFromLog.disk =
      apply d (redo start d ++ [(start, H)]) := by
    rw [hrecover, clear_disk, bwrites_disk]
    rfl
  refine ⟨H, hH, ?_, hdisk, ?_⟩
  · rw [hrecover, clear_issued, bwrites_issued]
    rfl
  · refine ⟨?_, ?_, fun b => ?_, ?_, ?_⟩
    · rw [hrecover, clear_start, bwrites_start]
      rfl
    · rw [hrecover, clear_size, bwrites_size]
      rfl
    · rw [hrecover, clear_dirty, bwrites_dirty]
      simp [boot, readHead]
    · rw [hrecover]
      rfl
    · rw [hdisk, apply_append]
      simpa using hH

/-- A state in the middle of the transaction `tx` that started in the state `σ₀`: the buffers hold
what the transaction has written, and the header names its blocks. -/
structure Collects (σ₀ : Logged) (tx : List BlockWrite) (σ : Logged) : Prop where
  start_eq : σ.start = σ₀.start
  size_eq : σ.size = σ₀.size
  disk_eq : σ.disk = σ₀.disk
  issued_eq : σ.issued = σ₀.issued
  mem_blocks : ∀ b, b ∈ σ.lh.blocks ↔ ∃ w ∈ tx, w.1 = b
  dirty_eq : ∀ b, b ∉ σ.lh.blocks → σ.dirty b = none
  bread_eq : ∀ b, σ.bread b = apply σ₀.disk tx b
  room : σ.lh.n < σ.size
  le_logsize : σ.lh.n ≤ LOGSIZE

theorem Collects.of_idle (h : Idle start size σ) (hsize : 0 < size) : Collects σ [] σ where
  start_eq := rfl
  size_eq := rfl
  disk_eq := rfl
  issued_eq := rfl
  mem_blocks b := by simp [LogHeader.blocks, h.n_eq]
  dirty_eq b _ := h.dirty_eq b
  bread_eq b := by simp [bread, h.dirty_eq b]
  room := by rw [h.n_eq, h.size_eq]; exact hsize
  le_logsize := by rw [h.n_eq]; exact Nat.zero_le _

/-- `log_write` keeps this. -/
theorem Collects.logWrite (h : Collects σ₀ tx σ) {w : BlockWrite} {σ' : Logged}
    (hw : σ.logWrite w = some σ') : Collects σ₀ (tx ++ [w]) σ' := by
  rw [Logged.logWrite] at hw
  split_ifs at hw with hfull
  cases hw
  have hn : (σ.lh.absorb w.1).n ≤ σ.lh.n + 1 := by
    rw [← LogHeader.length_blocks, LogHeader.blocks_absorb, ← LogHeader.length_blocks]
    split_ifs <;> simp
  refine ⟨h.start_eq, h.size_eq, h.disk_eq, h.issued_eq, fun b => ?_, fun b hb => ?_,
    fun b => ?_, ?_, ?_⟩
  · rw [LogHeader.mem_absorb, h.mem_blocks]
    simp [or_and_right, exists_or, eq_comm]
  · have hb' : b ∉ σ.lh.blocks ∧ b ≠ w.1 := by
      rw [LogHeader.mem_absorb] at hb
      exact not_or.mp hb
    simp only [Function.update_of_ne hb'.2]
    exact h.dirty_eq b hb'.1
  · rw [apply_append]
    by_cases hb : b = w.1
    · subst hb
      simp [bread]
    · rw [apply_singleton_of_ne (Ne.symm hb), ← h.bread_eq b]
      simp [bread, Function.update_of_ne hb]
  · simp only
    omega
  · simp only
    omega

theorem Collects.foldlM {tx' : List BlockWrite} (h : Collects σ₀ tx σ) {σ' : Logged}
    (hrun : tx'.foldlM Logged.logWrite σ = some σ') : Collects σ₀ (tx ++ tx') σ' := by
  induction tx' generalizing tx σ with
  | nil =>
    obtain rfl : σ = σ' := by simpa using hrun
    simpa using h
  | cons w tx' ih =>
    rw [List.foldlM_cons] at hrun
    obtain ⟨σ₁, hw, hrest⟩ := Option.bind_eq_some_iff.mp hrun
    rw [List.append_cons]
    exact ih (h.logWrite hw) hrest

/-- A crash during a commit, before its header is written, leaves what the disk stands for; a crash
after that leaves what it stands for after the transaction. -/
theorem view_commit {W₁ W₃ : List BlockWrite} {H H₀ : Block} (hsize : 0 < size)
    (hclear : getLE (d start) 0 4 = 0) (hW₁ : ∀ w ∈ W₁, start < w.1 ∧ w.1 < start + size)
    (hH : getLE H 0 4 ≠ 0) (hH₀ : getLE H₀ 0 4 = 0)
    (hsound : Sound start size (apply d (W₁ ++ [(start, H)])))
    (hredo : redo start (apply d (W₁ ++ [(start, H)])) = W₃) (m : ℕ) :
    let ws := W₁ ++ [(start, H)] ++ (W₃ ++ [(start, H₀)])
    Sound start size (apply d (ws.take m)) ∧
      commits start (ws.take m) = (if W₁.length < m then 1 else 0) ∧
      ∀ b, IsHome start size b → view start (apply d (ws.take m)) b =
        apply d (if W₁.length < m then W₃ else []) b := by
  have hcommits₁ : ∀ j, commits start (W₁.take j) = 0 := fun j =>
    commits_eq_zero fun w hw => .inl (Nat.ne_of_gt (hW₁ w (List.mem_of_mem_take hw)).1)
  have hhome₁ : ∀ j b, IsHome start size b → apply d (W₁.take j) b = d b := by
    intro j b hb
    refine apply_of_forall_ne fun w hw hwb => ?_
    have hlog := hW₁ w (List.mem_of_mem_take hw)
    rw [hwb] at hlog
    rcases hb with hb | hb <;> omega
  dsimp only
  by_cases hm : W₁.length < m
  · -- the header is written: the rest is what recovery does
    obtain ⟨j, rfl⟩ : ∃ j, m = (W₁ ++ [(start, H)]).length + j :=
      ⟨m - (W₁.length + 1), by simp; omega⟩
    rw [List.take_length_add_append, apply_append]
    have hrest := view_recover hsize hsound hH₀ j
    rw [hredo] at hrest
    refine ⟨hrest.1, ?_, fun b hb => ?_⟩
    · have hzero := commits_recover hsize hsound hH₀ j
      rw [hredo] at hzero
      have hone : commits start [(start, H)] = 1 := by simp [commits, hH]
      have hfirst := hcommits₁ W₁.length
      rw [List.take_length] at hfirst
      rw [if_pos hm]
      unfold commits at hzero hone hfirst ⊢
      rw [List.countP_append, List.countP_append, hzero, hone, hfirst]
    · rw [hrest.2 b hb, view, hredo, if_pos hm]
      refine apply_congr (.inr ?_)
      have hfirst := hhome₁ W₁.length b hb
      rw [List.take_length] at hfirst
      rw [apply_append, apply_header hsize hb, hfirst]
  · -- only the log is written, and its header is still cleared
    have htake : (W₁ ++ [(start, H)] ++ (W₃ ++ [(start, H₀)])).take m = W₁.take m := by
      rw [List.append_assoc, List.take_append_of_le_length (by omega)]
    have hclear' : getLE (apply d (W₁.take m) start) 0 4 = 0 := by
      rw [apply_of_forall_ne fun w hw =>
        Nat.ne_of_gt (hW₁ w (List.mem_of_mem_take hw)).1]
      exact hclear
    obtain ⟨hsound', hview⟩ := sound_of_clear hsize hclear'
    rw [htake, if_neg hm, if_neg hm]
    refine ⟨hsound', hcommits₁ m, fun b hb => ?_⟩
    rw [hview, hhome₁ m b hb, apply_nil]

/-- The blocks that `install_trans` writes after `write_log` and `write_head`. -/
def homeWrites (σ : Logged) : List BlockWrite :=
  (List.range σ.lh.n).map fun i => (σ.lh.block i, σ.bread (σ.lh.block i))

/-- The log blocks hold what `write_log` has written to them. -/
theorem apply_logWrites (σ : Logged) {i : ℕ} (hi : i < σ.lh.n) (d : ℕ → Block) :
    apply d σ.logWrites (σ.start + i + 1) = σ.bread (σ.lh.block i) := by
  apply apply_eq_of_forall
  · exact ⟨_, List.mem_map.mpr ⟨i, List.mem_range.mpr hi, rfl⟩, rfl⟩
  · intro w hw hwb
    obtain ⟨j, -, rfl⟩ := List.mem_map.mp hw
    obtain rfl : j = i := by
      dsimp only at hwb
      omega
    rfl

/-- Installing the blocks of a transaction gives them the data that the transaction has written. -/
theorem Collects.apply_homeWrites (h : Collects σ₀ tx σ) (b : ℕ) :
    apply σ₀.disk σ.homeWrites b = apply σ₀.disk tx b := by
  by_cases hb : b ∈ σ.lh.blocks
  · rw [← h.bread_eq b]
    apply apply_eq_of_forall
    · obtain ⟨i, hi, hib⟩ := LogHeader.mem_blocks.mp hb
      exact ⟨_, List.mem_map.mpr ⟨i, List.mem_range.mpr hi, rfl⟩, hib⟩
    · intro w hw hwb
      obtain ⟨i, -, rfl⟩ := List.mem_map.mp hw
      dsimp only at hwb ⊢
      rw [hwb]
  · have htx : ∀ w ∈ tx, w.1 ≠ b := fun w hw hwb => hb ((h.mem_blocks b).mpr ⟨w, hw, hwb⟩)
    rw [apply_of_forall_ne htx, apply_of_forall_ne]
    intro w hw hwb
    obtain ⟨i, hi, rfl⟩ := List.mem_map.mp hw
    exact hb (LogHeader.mem_blocks.mpr ⟨i, List.mem_range.mp hi, hwb⟩)

/-- The blocks of a transaction are outside the log, and their numbers fit into the header. -/
def ValidTx (start size : ℕ) (tx : List BlockWrite) : Prop :=
  ∀ w ∈ tx, IsHome start size w.1 ∧ w.1 < 2 ^ 32

theorem Collects.fits (h : Collects σ₀ tx σ) (hvalid : ValidTx σ₀.start σ₀.size tx) :
    σ.lh.Fits σ.start σ.size where
  room := h.room
  home b hb := by
    obtain ⟨w, hw, rfl⟩ := (h.mem_blocks b).mp hb
    rw [h.start_eq, h.size_eq]
    exact (hvalid w hw).1

/-- After `write_log` and `write_head`, the header of the log names the blocks of the transaction,
and the log holds their data. -/
theorem Collects.redo_eq (h : Collects σ₀ tx σ) (hvalid : ValidTx σ₀.start σ₀.size tx)
    {d : ℕ → Block} {hb : Block} (hd : d = apply σ₀.disk
      (σ.logWrites ++ [(σ.start, σ.lh.encode hb)])) :
    Sound σ.start σ.size d ∧ redo σ.start d = σ.homeWrites := by
  have hfits := h.fits hvalid
  have hlogsize : LOGSIZE < 2 ^ 32 := by decide
  have hn : σ.lh.n < 2 ^ 32 := Nat.lt_of_le_of_lt h.le_logsize hlogsize
  have hlt : ∀ b ∈ σ.lh.blocks, b < 2 ^ 32 := by
    intro b hb
    obtain ⟨w, hw, rfl⟩ := (h.mem_blocks b).mp hb
    exact (hvalid w hw).2
  have hstart : d σ.start = σ.lh.encode hb := by
    rw [hd, apply_append]
    simp
  have hheader : (header σ.start d).n = σ.lh.n := by
    rw [header, hstart]
    exact LogHeader.getLE_encode_n σ.lh hb hn
  have hblocks : (header σ.start d).blocks = σ.lh.blocks := by
    rw [header, hstart]
    exact LogHeader.blocks_decode_encode σ.lh _ hb hn hlt
  refine ⟨⟨hheader ▸ hfits.room, hblocks ▸ hfits.home⟩, ?_⟩
  rw [redo, homeWrites, hheader]
  refine List.map_congr_left fun i hi => ?_
  have hi' := List.mem_range.mp hi
  have hblock : (header σ.start d).block i = σ.lh.block i := by
    have hmem : σ.lh.block i ∈ σ.lh.blocks := LogHeader.mem_blocks.mpr ⟨i, hi', rfl⟩
    rw [header, hstart]
    simp only [LogHeader.decode, LogHeader.getLE_encode_n σ.lh hb hn, if_pos hi',
      LogHeader.getLE_encode_block σ.lh hb hi' (hlt _ hmem)]
  have hdata : d (σ.start + i + 1) = σ.bread (σ.lh.block i) := by
    rw [hd, apply_append, apply_singleton_of_ne (by dsimp only; omega),
      apply_logWrites σ hi']
  rw [hblock, hdata]

/-- The blocks that a commit writes, and the state after it. -/
theorem Collects.commit_eq (h : Collects σ₀ tx σ) (hvalid : ValidTx σ₀.start σ₀.size tx)
    (hn : 0 < σ.lh.n) : ∃ H₀, getLE H₀ 0 4 = 0 ∧ σ.commit = (σ.bwrites
      (σ.logWrites ++ [(σ.start, σ.lh.encode (σ.bread σ.start))] ++
        (σ.homeWrites ++ [(σ.start, H₀)]))).clear := by
  have hfits := h.fits hvalid
  have hstart : (σ.bwrites σ.logWrites).bread σ.start = σ.bread σ.start :=
    bread_bwrites_of_forall_ne fun w hw => Nat.ne_of_gt (mem_logWrites hfits w hw).1
  have hhead : σ.writeLog.writeHead =
      σ.bwrites (σ.logWrites ++ [(σ.start, σ.lh.encode (σ.bread σ.start))]) := by
    rw [writeLog_eq hfits, bwrites_append, writeHead, bwrites_start, bwrites_lh, hstart]
    rfl
  have hinstalls : (σ.bwrites (σ.logWrites ++
      [(σ.start, σ.lh.encode (σ.bread σ.start))])).installs = σ.homeWrites := by
    rw [installs, homeWrites, bwrites_lh, bwrites_start]
    refine List.map_congr_left fun i hi => ?_
    have hi' := List.mem_range.mp hi
    have hne : σ.start ≠ σ.start + i + 1 := by omega
    -- the buffers of the log are clean, so the log is read from the disk
    have hwritten : ∃ w ∈ σ.logWrites ++ [(σ.start, σ.lh.encode (σ.bread σ.start))],
        w.1 = σ.start + i + 1 :=
      ⟨_, List.mem_append_left _ (List.mem_map.mpr ⟨i, hi, rfl⟩), rfl⟩
    rw [bread, bwrites_dirty, if_pos hwritten, Option.getD_none, bwrites_disk,
      apply_append, apply_singleton_of_ne hne, apply_logWrites σ hi']
  have hinstall : σ.writeLog.writeHead.installTrans = σ.bwrites
      (σ.logWrites ++ [(σ.start, σ.lh.encode (σ.bread σ.start))] ++ σ.homeWrites) := by
    rw [hhead, installTrans_eq (by simpa using hfits), hinstalls, ← bwrites_append]
  obtain ⟨H₀, hH₀, hclear⟩ := writeHead_clear (σ.bwrites
    (σ.logWrites ++ [(σ.start, σ.lh.encode (σ.bread σ.start))] ++ σ.homeWrites))
  refine ⟨H₀, hH₀, ?_⟩
  rw [commit, if_pos hn, hinstall, hclear, bwrites_start, ← bwrites_append, List.append_assoc]

end Logged

/-- From the idle state `σ` the transactions `txs` lead to the idle state `σ'`, and a crash after
any number of their writes leaves a disk that stands for the disk after the transactions whose
header was written. -/
def WritesAtomically (start size : ℕ) (σ : Logged) (txs : List (List BlockWrite))
    (σ' : Logged) : Prop :=
  ∃ ws, σ'.issued = σ.issued ++ ws ∧ σ'.disk = apply σ.disk ws ∧ Idle start size σ' ∧
    commits start ws = (txs.filter (· ≠ [])).length ∧
    ∀ m, Sound start size (apply σ.disk (ws.take m)) ∧
      ∀ b, IsHome start size b → view start (apply σ.disk (ws.take m)) b =
        apply σ.disk ((txs.filter (· ≠ [])).take (commits start (ws.take m))).flatten b

section Runs

variable {start size : ℕ} {σ σ' : Logged} {tx : List BlockWrite} {txs : List (List BlockWrite)}

theorem WritesAtomically.nil (hsize : 0 < size) (h : Idle start size σ) :
    WritesAtomically start size σ [] σ := by
  obtain ⟨hsound, hview⟩ := sound_of_clear hsize h.clear
  refine ⟨[], by simp, by simp, h, rfl, fun m => ?_⟩
  simpa using ⟨hsound, fun b _ => congrFun hview b⟩

/-- One transaction is atomic. -/
theorem WritesAtomically.transaction (hsize : 0 < size) (h : Idle start size σ)
    (hvalid : Logged.ValidTx start size tx) (hrun : σ.transaction tx = some σ') :
    WritesAtomically start size σ [tx] σ' := by
  obtain ⟨τ, hwrites, rfl⟩ := Option.map_eq_some_iff.mp hrun
  have hc : Logged.Collects σ tx τ := by
    simpa using (Logged.Collects.of_idle h hsize).foldlM hwrites
  by_cases htx : tx = []
  · -- without a block `commit` does nothing
    subst htx
    obtain rfl : σ = τ := by simpa using hwrites
    have hcommit : σ.commit = σ := if_neg (by rw [h.n_eq]; exact Nat.lt_irrefl 0)
    rw [hcommit]
    simpa [WritesAtomically] using WritesAtomically.nil hsize h
  · have hvalid' : Logged.ValidTx σ.start σ.size tx := by rwa [h.start_eq, h.size_eq]
    have hstart : τ.start = start := hc.start_eq.trans h.start_eq
    have hsize' : τ.size = size := hc.size_eq.trans h.size_eq
    have hn : 0 < τ.lh.n := by
      obtain ⟨w, hw⟩ := List.exists_mem_of_ne_nil tx htx
      obtain ⟨i, hi, -⟩ := LogHeader.mem_blocks.mp ((hc.mem_blocks w.1).mpr ⟨w, hw, rfl⟩)
      omega
    obtain ⟨H₀, hH₀, hcommit⟩ := hc.commit_eq hvalid' hn
    obtain ⟨hsound, hredo⟩ := hc.redo_eq hvalid' rfl
    have hlogsize : LOGSIZE < 2 ^ 32 := by decide
    have hH : getLE (τ.lh.encode (τ.bread τ.start)) 0 4 ≠ 0 := by
      rw [LogHeader.getLE_encode_n _ _ (Nat.lt_of_le_of_lt hc.le_logsize hlogsize)]
      omega
    have hW₁ := Logged.mem_logWrites (hc.fits hvalid')
    rw [hstart, hsize'] at hsound hW₁
    rw [hstart] at hredo hcommit hH
    have hcrash := Logged.view_commit hsize h.clear hW₁ hH hH₀ hsound hredo
    have hfilter : [tx].filter (· ≠ []) = [tx] := by simp [htx]
    rw [hcommit]
    refine ⟨_, by rw [Logged.clear_issued, Logged.bwrites_issued, hc.issued_eq],
      by rw [Logged.clear_disk, Logged.bwrites_disk, hc.disk_eq], ?_, ?_, fun m => ?_⟩
    · refine ⟨by simpa using hstart, by simpa using hsize', fun b => ?_, rfl, ?_⟩
      · rw [Logged.clear_dirty, Logged.bwrites_dirty]
        by_cases hb : b ∈ τ.lh.blocks
        · obtain ⟨i, hi, rfl⟩ := LogHeader.mem_blocks.mp hb
          refine if_pos ⟨_, List.mem_append_right _ (List.mem_append_left _
            (List.mem_map.mpr ⟨i, List.mem_range.mpr hi, rfl⟩)), rfl⟩
        · rw [hc.dirty_eq b hb, ite_self]
      · rw [Logged.clear_disk, Logged.bwrites_disk, ← List.append_assoc, apply_append]
        simpa using hH₀
    · have hall := (hcrash (τ.logWrites.length + (τ.homeWrites.length + 2))).2.1
      rw [List.take_of_length_le (by simp), if_pos (by omega)] at hall
      rw [hall, hfilter, List.length_singleton]
    · obtain ⟨hsound', hcommits, hview⟩ := hcrash m
      refine ⟨hsound', fun b hb => ?_⟩
      rw [hview b hb, hcommits, hfilter]
      split_ifs
      · rw [hc.apply_homeWrites b]
        simp
      · simp

/-- Transactions one after the other. -/
theorem WritesAtomically.cons {σ₁ : Logged} (hsize : 0 < size)
    (h : WritesAtomically start size σ [tx] σ₁) (h' : WritesAtomically start size σ₁ txs σ') :
    WritesAtomically start size σ (tx :: txs) σ' := by
  obtain ⟨ws, hissued, hdisk, hidle, hcommits, hcrash⟩ := h
  obtain ⟨ws', hissued', hdisk', hidle', hcommits', hcrash'⟩ := h'
  have hcons : (tx :: txs).filter (· ≠ []) = [tx].filter (· ≠ []) ++ txs.filter (· ≠ []) := by
    rw [← List.filter_append, List.singleton_append]
  -- after the whole first transaction the disk is what it stands for
  have hfirst : ∀ b, IsHome start size b →
      σ₁.disk b = apply σ.disk ([tx].filter (· ≠ [])).flatten b := by
    intro b hb
    have hall := (hcrash ws.length).2 b hb
    rw [List.take_length, hcommits, List.take_length, ← hdisk] at hall
    rw [← hall, (sound_of_clear hsize hidle.clear).2]
  refine ⟨ws ++ ws', by rw [hissued', hissued, List.append_assoc],
    by rw [hdisk', hdisk, apply_append], hidle', ?_, fun m => ?_⟩
  · rw [hcons, List.length_append, ← hcommits, ← hcommits', commits, List.countP_append]
    rfl
  by_cases hm : m ≤ ws.length
  · obtain ⟨hsound, hview⟩ := hcrash m
    rw [List.take_append_of_le_length hm]
    refine ⟨hsound, fun b hb => ?_⟩
    have hle : commits start (ws.take m) ≤ ([tx].filter (· ≠ [])).length := by
      rw [← hcommits]
      exact (List.take_sublist m ws).countP_le
    rw [hview b hb, hcons, List.take_append_of_le_length hle]
  · obtain ⟨j, rfl⟩ : ∃ j, m = ws.length + j := ⟨m - ws.length, by omega⟩
    obtain ⟨hsound, hview⟩ := hcrash' j
    have hsplit : commits start (ws ++ ws'.take j) =
        ([tx].filter (· ≠ [])).length + commits start (ws'.take j) := by
      rw [← hcommits, commits, List.countP_append]
      rfl
    rw [List.take_length_add_append, apply_append, ← hdisk]
    refine ⟨hsound, fun b hb => ?_⟩
    rw [hview b hb, hsplit, hcons, List.take_length_add_append, List.flatten_append,
      apply_append]
    exact apply_congr (.inr (hfirst b hb))

/-- Any number of transactions is atomic, one by one. -/
theorem WritesAtomically.foldlM (hsize : 0 < size) (h : Idle start size σ)
    (hvalid : ∀ tx ∈ txs, Logged.ValidTx start size tx)
    (hrun : txs.foldlM Logged.transaction σ = some σ') : WritesAtomically start size σ txs σ' := by
  induction txs generalizing σ with
  | nil =>
    obtain rfl : σ = σ' := by simpa using hrun
    exact .nil hsize h
  | cons tx txs ih =>
    rw [List.foldlM_cons] at hrun
    obtain ⟨σ₁, htx, hrest⟩ := Option.bind_eq_some_iff.mp hrun
    have hfirst := WritesAtomically.transaction hsize h (hvalid tx List.mem_cons_self) htx
    have hidle : Idle start size σ₁ := by
      obtain ⟨_, _, _, hidle, _⟩ := hfirst
      exact hidle
    exact hfirst.cons hsize (ih hidle (fun tx htx => hvalid tx (List.mem_cons_of_mem _ htx)) hrest)

/-- A crash during a session, from its recovery on. -/
theorem view_session {d : ℕ → Block} (hsize : 0 < size) (hsound : Sound start size d)
    (hvalid : ∀ tx ∈ txs, Logged.ValidTx start size tx)
    (hrun : Logged.session start size d txs = some σ) (m : ℕ) :
    Sound start size (apply d (σ.issued.take m)) ∧
      ∀ b, IsHome start size b → view start (apply d (σ.issued.take m)) b =
        apply (view start d)
          ((txs.filter (· ≠ [])).take (commits start (σ.issued.take m))).flatten b := by
  obtain ⟨H, hH, hissued, hdisk, hidle⟩ := Logged.recoverFromLog_spec hsound
  obtain ⟨ws, hissued', -, -, -, hcrash⟩ := WritesAtomically.foldlM hsize hidle hvalid hrun
  have hrecover := view_recover hsize hsound hH
  have hzero := commits_recover hsize hsound hH
  rw [hissued', hissued]
  by_cases hm : m ≤ (redo start d ++ [(start, H)]).length
  · obtain ⟨hsound', hview⟩ := hrecover m
    rw [List.take_append_of_le_length hm]
    refine ⟨hsound', fun b hb => ?_⟩
    rw [hview b hb, hzero m, List.take_zero, List.flatten_nil, apply_nil]
  · obtain ⟨j, rfl⟩ : ∃ j, m = (redo start d ++ [(start, H)]).length + j :=
      ⟨m - (redo start d ++ [(start, H)]).length, by omega⟩
    obtain ⟨hsound', hview⟩ := hcrash j
    have hsplit : commits start ((redo start d ++ [(start, H)]) ++ ws.take j) =
        commits start (ws.take j) := by
      have hnone := hzero (redo start d ++ [(start, H)]).length
      rw [List.take_length] at hnone
      unfold commits at hnone ⊢
      rw [List.countP_append, hnone, Nat.zero_add]
    rw [List.take_length_add_append, apply_append, ← hdisk]
    refine ⟨hsound', fun b hb => ?_⟩
    rw [hview b hb, hsplit]
    refine apply_congr (.inr ?_)
    rw [hdisk, apply_append, apply_header hsize hb, view]

/-- After any history of crashes the disk stands for the disk after the committed transactions. -/
theorem view_of_crashHistory {d₀ d : ℕ → Block} {committed : List (List BlockWrite)}
    (hsize : 0 < size) (hclear : getLE (d₀ start) 0 4 = 0)
    (h : CrashHistory start size d₀ d committed) : Sound start size d ∧ ∀ b, IsHome start size b →
      view start d b = apply d₀ committed.flatten b := by
  induction h with
  | new =>
    obtain ⟨hsound, hview⟩ := sound_of_clear hsize hclear
    exact ⟨hsound, fun b _ => by rw [hview, List.flatten_nil, apply_nil]⟩
  | crash m _ hvalid hrun ih =>
    obtain ⟨hsound, hview⟩ := ih
    obtain ⟨hsound', hview'⟩ := view_session hsize hsound hvalid hrun m
    refine ⟨hsound', fun b hb => ?_⟩
    rw [hview' b hb, List.flatten_append, apply_append]
    exact apply_congr (.inr (hview b hb))

end Runs

/-- On a log that starts cleared, whatever the transactions and the crashes were, `recover_from_log`
leaves every block outside the log as it was after exactly the transactions whose header was
written. -/
theorem recover_atomic {start size : ℕ} (hsize : 0 < size) {d₀ d : ℕ → Block}
    {committed : List (List BlockWrite)} (hclear : getLE (d₀ start) 0 4 = 0)
    (h : CrashHistory start size d₀ d committed) {b : ℕ} (hb : IsHome start size b) :
    (Logged.boot start size d).recoverFromLog.disk b = apply d₀ committed.flatten b := by
  obtain ⟨hsound, hview⟩ := view_of_crashHistory hsize hclear h
  obtain ⟨H, -, -, hdisk, -⟩ := Logged.recoverFromLog_spec hsound
  rw [hdisk, apply_append, apply_header hsize hb, ← hview b hb, view]

/-- A crash right after the header of a transaction of one block is written, and another one during
the recovery. -/
theorem recover_atomic_twice :
    ∃ d, CrashHistory 2 30 (fun _ _ => 0) d [[(50, fun _ => 1)]] ∧
      (Logged.boot 2 30 d).recoverFromLog.disk 50 = fun _ => 1 := by
  have hfirst := @CrashHistory.crash 2 30 (fun _ _ => 0) _ _ [[(50, fun _ => 1)]] _ 3 .new
    (by simp [IsHome]) rfl
  have hsecond := @CrashHistory.crash 2 30 (fun _ _ => 0) _ _ [] _ 0 hfirst (by simp) rfl
  refine ⟨_, hsecond, ?_⟩
  exact recover_atomic (by decide) rfl hsecond (.inr (by decide))

end FileSystem
