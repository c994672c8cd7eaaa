import Mathlib
import OsnAssignments.Common.Transition
import OsnAssignments.FileSystem.Log

/-!
# Admission to the log

`begin_op`, `log_write` and `end_op` of `log.c`, called by any number of processes. `begin_op` lets
an operation in if the log could still take `MAXOPBLOCKS` blocks from every outstanding one;
`log_write` panics if the log is full; the last `end_op` commits.

Each critical section of `log.lock` is one step, and so is each of the two tests that `log_write`
makes without the lock. A process that sleeps in `begin_op` may try again at any moment. What
`commit` writes is left out: here it only empties `log.lh`.
-/

namespace FileSystem

open Function

/-- The number of log blocks on the image, with the header: `nlog` of `mkfs.c`. -/
def nlog : ℕ := LOGSIZE

namespace Admission

/-- Where a process is. -/
inductive Pc
  /-- Not in an operation, or in `begin_op`. -/
  | outside
  /-- In an operation. -/
  | inOp
  /-- In `log_write` on block `b`, between its two tests. -/
  | tested (b : ℕ)
  /-- In `log_write` on block `b`, before it acquires `log.lock`. -/
  | recording (b : ℕ)
  /-- In `end_op`, before `commit`. -/
  | committing
  /-- In `end_op`, after `commit`. -/
  | committed
  deriving DecidableEq, Repr

/-- The process is between `begin_op` and `end_op`. -/
def Pc.InOp : Pc → Prop
  | .inOp | .tested _ | .recording _ => True
  | _ => False

instance Pc.decidableInOp : ∀ pc : Pc, Decidable pc.InOp
  | .inOp | .tested _ | .recording _ => .isTrue trivial
  | .outside | .committing | .committed => .isFalse id

/-- A process. -/
structure Proc where
  pc : Pc
  /-- The blocks that the current operation has logged. -/
  logged : Finset ℕ

/-- The panics of `log.c`. -/
inductive Panic
  /-- `too big a transaction`. -/
  | tooBig
  /-- `log_write outside of trans`. -/
  | outsideTrans
  /-- `log.committing`. -/
  | committing
  deriving DecidableEq, Repr

/-- `struct log` and the processes. -/
structure State (P : Type*) where
  /-- `log.lh`. -/
  lh : LogHeader
  /-- `log.outstanding`. -/
  outstanding : ℤ
  /-- Whether `log.committing` is `1`. -/
  committing : Bool
  procs : P → Proc

/-- A step of a process. -/
inductive Action
  /-- One pass through the loop of `begin_op`. -/
  | beginOp
  /-- The call of `log_write` on block `b`, with its first test. -/
  | logWrite (b : ℕ)
  /-- The second test of `log_write`. -/
  | checkTrans
  /-- The critical section of `log_write`. -/
  | record
  /-- The first critical section of `end_op`. -/
  | endOp
  /-- `commit`. -/
  | commit
  /-- The second critical section of `end_op`. -/
  | release
  deriving DecidableEq, Repr

namespace State

variable {P : Type*} [DecidableEq P]

/-- Set where process `p` is. -/
def setPc (σ : State P) (p : P) (pc : Pc) : State P :=
  { σ with procs := update σ.procs p { σ.procs p with pc } }

/-- One pass through the loop of `begin_op`. -/
def beginOp (σ : State P) (p : P) : State P :=
  if σ.committing then σ
  else if (σ.lh.n : ℤ) + (σ.outstanding + 1) * MAXOPBLOCKS > LOGSIZE then σ
  else
    { σ with
      outstanding := σ.outstanding + 1
      procs := update σ.procs p { pc := .inOp, logged := ∅ } }

/-- The critical section of `log_write`. -/
def record (σ : State P) (p : P) (b : ℕ) : State P :=
  { σ with
    lh := σ.lh.absorb b
    procs := update σ.procs p
      { pc := .inOp, logged := insert b (σ.procs p).logged } }

/-- The first critical section of `end_op`. -/
def endOp (σ : State P) (p : P) : State P × Option Panic :=
  let σ := { σ with outstanding := σ.outstanding - 1 }
  if σ.committing then (σ, some .committing)
  else if σ.outstanding = 0 then ({ σ with committing := true }.setPc p .committing, none)
  else (σ.setPc p .outside, none)

/-- Perform one step of one process; it may end with a panic. -/
def step (σ : State P) (l : P × Action) : Option (State P × Option Panic) :=
  match l.2, (σ.procs l.1).pc with
  | .beginOp, .outside => some (σ.beginOp l.1, none)
  | .logWrite b, .inOp =>
    if LOGSIZE ≤ σ.lh.n ∨ nlog ≤ σ.lh.n + 1 then some (σ, some .tooBig)
    else some (σ.setPc l.1 (.tested b), none)
  | .checkTrans, .tested b =>
    if σ.outstanding < 1 then some (σ, some .outsideTrans)
    else some (σ.setPc l.1 (.recording b), none)
  | .record, .recording b => some (σ.record l.1 b, none)
  | .endOp, .inOp => some (σ.endOp l.1)
  | .commit, .committing =>
    some ({ σ with lh := { σ.lh with n := 0 } }.setPc l.1 .committed, none)
  | .release, .committed => some ({ σ with committing := false }.setPc l.1 .outside, none)
  | _, _ => none

/-- The state after `initlog`. -/
def initial : State P where
  lh := { n := 0, block := fun _ => 0 }
  outstanding := 0
  committing := false
  procs _ := { pc := .outside, logged := ∅ }

end State

/-- The processes and the log. -/
def logging (P : Type*) [DecidableEq P] :
    Transition.System (State P) ((P × Action) × Option Panic) :=
  Transition.ofFun (fun σ => σ = .initial) State.step

/-- The call of `log_write` keeps the operation within `k` distinct blocks. -/
def LogsAtMost {P : Type*} (k : ℕ) (σ : State P) (l : (P × Action) × Option Panic) : Prop :=
  match l.1.2 with
  | .logWrite b => (insert b (σ.procs l.1.1).logged).card ≤ k
  | _ => True

instance decidableLogsAtMost {P : Type*} (k : ℕ) (σ : State P)
    (l : (P × Action) × Option Panic) : Decidable (LogsAtMost k σ l) := by
  unfold LogsAtMost
  split <;> infer_instance

/-! ## Operations of fewer blocks -/

/-- The blocks that a process may still log, if an operation logs fewer than `MAXOPBLOCKS`. -/
def Proc.remaining (x : Proc) : ℕ :=
  MAXOPBLOCKS - 1 - x.logged.card

/-- What holds of each process. -/
structure ProcOk (lh : LogHeader) (x : Proc) : Prop where
  /-- What an operation has logged is in the header. -/
  logged_subset : x.pc.InOp → ∀ b ∈ x.logged, b ∈ lh.blocks
  recording_le : ∀ b, x.pc = .tested b ∨ x.pc = .recording b →
    (insert b x.logged).card ≤ MAXOPBLOCKS - 1
  committed_eq : x.pc = .committed → lh.n = 0

/-- The process is in `end_op` and commits. -/
def Pc.Commits (pc : Pc) : Prop :=
  pc = .committing ∨ pc = .committed

section Invariant

variable {P : Type*} {s : Finset P} {c : Option P} {σ σ' : State P} {p : P}

/-- `s` is the set of processes in an operation, and `c` the process that commits. As long as there
is an operation, what the operations may still log fits into the log. -/
structure Inv (s : Finset P) (c : Option P) (σ : State P) : Prop where
  mem_iff : ∀ p, p ∈ s ↔ (σ.procs p).pc.InOp
  committer_iff : ∀ p, c = some p ↔ (σ.procs p).pc.Commits
  committing_eq : σ.committing = c.isSome
  empty_of_committer : c.isSome = true → s = ∅
  outstanding_eq : σ.outstanding = s.card
  procOk : ∀ p, ProcOk σ.lh (σ.procs p)
  budget : s.Nonempty → σ.lh.n + ∑ p ∈ s, (σ.procs p).remaining + 2 ≤ LOGSIZE
  idle : s = ∅ → c = none → σ.lh.n = 0

theorem Inv.initial : Inv ∅ none (State.initial : State P) := by
  refine ⟨?_, ?_, rfl, by simp, rfl, fun p => ⟨?_, ?_, ?_⟩, by simp, fun _ _ => rfl⟩ <;>
    simp [State.initial, Pc.InOp, Pc.Commits]

/-- While an operation is in progress, nobody commits. -/
theorem Inv.committer_eq_none (h : Inv s c σ) (hp : p ∈ s) : c = none := by
  cases hc : c with
  | none => rfl
  | some =>
    have hempty := h.empty_of_committer (by simp [hc])
    simp [hempty] at hp

/-- While an operation is in progress, the log has room for another block. -/
theorem Inv.room (h : Inv s c σ) (hp : p ∈ s) : ¬(LOGSIZE ≤ σ.lh.n ∨ nlog ≤ σ.lh.n + 1) := by
  have hbudget := h.budget ⟨p, hp⟩
  simp only [nlog]
  omega

variable [DecidableEq P]

variable (h : Inv s c σ)
include h

/-- Process `p` changes, and the log with it. -/
theorem Inv.set {s' : Finset P} {c' : Option P} {lh : LogHeader} {n : ℤ} {b : Bool} {x : Proc}
    (hmem : p ∈ s' ↔ x.pc.InOp) (hcommits : c' = some p ↔ x.pc.Commits) (hok : ProcOk lh x)
    (hothers : ∀ q, q ≠ p →
      (q ∈ s' ↔ q ∈ s) ∧ (c' = some q ↔ c = some q) ∧ ProcOk lh (σ.procs q))
    (hcommitting : b = c'.isSome) (hempty : c'.isSome = true → s' = ∅) (hcard : n = s'.card)
    (hbudget : s'.Nonempty → lh.n + ((if p ∈ s' then x.remaining else 0) +
      ∑ q ∈ s'.erase p, (σ.procs q).remaining) + 2 ≤ LOGSIZE)
    (hidle : s' = ∅ → c' = none → lh.n = 0) : Inv s' c' ⟨lh, n, b, update σ.procs p x⟩ := by
  have hall : ∀ q, (q ∈ s' ↔ (update σ.procs p x q).pc.InOp) ∧
      (c' = some q ↔ (update σ.procs p x q).pc.Commits) ∧ ProcOk lh (update σ.procs p x q) := by
    refine (forall_update_iff _ fun q (x : Proc) => (q ∈ s' ↔ x.pc.InOp) ∧
      (c' = some q ↔ x.pc.Commits) ∧ ProcOk lh x).mpr ⟨⟨hmem, hcommits, hok⟩, fun q hq => ?_⟩
    rw [← h.mem_iff, ← h.committer_iff]
    exact hothers q hq
  refine ⟨fun q => (hall q).1, fun q => (hall q).2.1, hcommitting, hempty, hcard,
    fun q => (hall q).2.2, fun hs => ?_, hidle⟩
  have hrest : ∑ q ∈ s'.erase p, (update σ.procs p x q).remaining =
      ∑ q ∈ s'.erase p, (σ.procs q).remaining :=
    Finset.sum_congr rfl fun q hq => by rw [update_of_ne (Finset.ne_of_mem_erase hq)]
  have hbudget := hbudget hs
  dsimp only
  split_ifs at hbudget with hp
  · rw [← Finset.add_sum_erase s' _ hp, hrest, update_self]
    exact hbudget
  · rw [Finset.erase_eq_of_notMem hp] at hrest hbudget
    rwa [zero_add, ← hrest] at hbudget

/-- A process that is let in reserves room for its operation. -/
theorem Inv.beginOp (hpc : (σ.procs p).pc = .outside) : ∃ s', Inv s' c (σ.beginOp p) := by
  unfold State.beginOp
  split_ifs with hcommitting hfull
  · exact ⟨s, h⟩
  · exact ⟨s, h⟩
  have hp : p ∉ s := by
    rw [h.mem_iff, hpc]
    exact id
  have hc : c = none := by
    rw [h.committing_eq] at hcommitting
    simpa using hcommitting
  have hroom : σ.lh.n + (s.card + 1) * 10 ≤ 30 := by
    have hle := not_lt.mp hfull
    rw [h.outstanding_eq] at hle
    simp only [MAXOPBLOCKS, LOGSIZE] at hle
    omega
  have hold : ∑ q ∈ s, (σ.procs q).remaining ≤ s.card * 9 :=
    Finset.sum_le_card_nsmul s _ 9 fun q _ => Nat.sub_le _ _
  refine ⟨insert p s, h.set (by simp [Pc.InOp]) (by simp [hc, Pc.Commits])
    ⟨by simp, by simp, by simp⟩ (fun q hq => ⟨by simp [hq], Iff.rfl, h.procOk q⟩) h.committing_eq
    (by simp [hc]) ?_ (fun _ => ?_) (by simp)⟩
  · simp [Finset.card_insert_of_notMem hp, h.outstanding_eq]
  · rw [if_pos (Finset.mem_insert_self p s), Finset.erase_insert hp]
    have hnew : Proc.remaining { pc := .inOp, logged := ∅ } = 9 := rfl
    rw [hnew]
    simp only [LOGSIZE, MAXOPBLOCKS]
    rcases s.eq_empty_or_nonempty with hs | hs
    · -- without an outstanding operation the log is empty
      have hzero := h.idle hs hc
      subst hs
      simp [hzero]
    · have hcard := hs.card_pos
      omega

/-- A process that stays in its operation. -/
theorem Inv.setInOp {lh : LogHeader} {x : Proc} (hp : p ∈ s) (hpc : x.pc.InOp) (hok : ProcOk lh x)
    (hothers : ∀ q, q ≠ p → ProcOk lh (σ.procs q))
    (hle : lh.n + x.remaining ≤ σ.lh.n + (σ.procs p).remaining) :
    Inv s c { σ with lh := lh, procs := update σ.procs p x } := by
  refine h.set (iff_of_true hp hpc) ?_ hok (fun q hq => ⟨Iff.rfl, Iff.rfl, hothers q hq⟩)
    h.committing_eq h.empty_of_committer h.outstanding_eq (fun hs => ?_) ?_
  · rw [h.committer_eq_none hp]
    refine iff_of_false (by simp) ?_
    rintro (heq | heq) <;> exact (heq ▸ hpc : Pc.InOp _)
  · have hsum := h.budget hs
    rw [← Finset.add_sum_erase s _ hp] at hsum
    rw [if_pos hp]
    omega
  · rintro rfl
    simp at hp

theorem Inv.setPc {pc : Pc} (hp : p ∈ s) (hpc : pc.InOp)
    (hle : ∀ b, pc = .tested b ∨ pc = .recording b →
      (insert b (σ.procs p).logged).card ≤ MAXOPBLOCKS - 1) : Inv s c (σ.setPc p pc) := by
  refine h.setInOp hp hpc ⟨fun _ => ?_, hle, ?_⟩ (fun q _ => h.procOk q) le_rfl
  · exact (h.procOk p).logged_subset ((h.mem_iff p).mp hp)
  · rintro rfl
    exact hpc.elim

/-- `log_write` uses what its operation has reserved. -/
theorem Inv.record {b : ℕ} (hp : p ∈ s) (hpc : (σ.procs p).pc = .recording b) :
    Inv s c (σ.record p b) := by
  have hlogged := (h.procOk p).logged_subset ((h.mem_iff p).mp hp)
  have hc := h.committer_eq_none hp
  refine h.setInOp hp trivial ⟨fun _ b' hb' => LogHeader.mem_absorb.mpr ?_, by simp, by simp⟩
    (fun q _ => ⟨fun hq b' hb' => LogHeader.mem_absorb.mpr (.inl ?_),
      (h.procOk q).recording_le, fun hq => ?_⟩) ?_
  · rcases Finset.mem_insert.mp hb' with rfl | hb'
    · exact .inr rfl
    · exact .inl (hlogged b' hb')
  · exact (h.procOk q).logged_subset hq b' hb'
  · have hsome := (h.committer_iff q).mpr (.inr hq)
    simp [hc] at hsome
  · simp only [Proc.remaining]
    by_cases hb : b ∈ σ.lh.blocks
    · -- the block is absorbed
      have hcard : (σ.procs p).logged.card ≤ (insert b (σ.procs p).logged).card :=
        Finset.card_le_card (Finset.subset_insert _ _)
      rw [LogHeader.absorb_of_mem hb]
      omega
    · -- the block is new to the log, so it is new to the operation too
      have hnew : b ∉ (σ.procs p).logged := fun hmem => hb (hlogged b hmem)
      have hle := (h.procOk p).recording_le b (.inr hpc)
      rw [Finset.card_insert_of_notMem hnew] at hle
      rw [LogHeader.absorb_of_notMem hb]
      simp only [Finset.card_insert_of_notMem hnew]
      omega

/-- `end_op` does not panic, and gives back what its operation has reserved. The last one
commits. -/
theorem Inv.endOp (hp : p ∈ s) : (σ.endOp p).2 = none ∧ ∃ c', Inv (s.erase p) c' (σ.endOp p).1 := by
  have hc := h.committer_eq_none hp
  have hcommitting : σ.committing = false := by rw [h.committing_eq, hc, Option.isSome_none]
  have hcard : (s.erase p).card + 1 = s.card := Finset.card_erase_add_one hp
  have hself {pc : Pc} (hpc : ¬pc.InOp) : p ∈ s.erase p ↔ pc.InOp :=
    iff_of_false (Finset.notMem_erase p s) hpc
  have hmem {q : P} (hq : q ≠ p) : q ∈ s.erase p ↔ q ∈ s := by simp [hq]
  unfold State.endOp
  simp only [hcommitting, Bool.false_eq_true, if_false]
  split_ifs with hlast
  · have hempty : s.erase p = ∅ := by
      rw [← Finset.card_eq_zero]
      rw [h.outstanding_eq] at hlast
      omega
    refine ⟨rfl, some p, h.set (hself id) (by simp [Pc.Commits])
      ⟨fun hin => hin.elim, by simp, by simp⟩
      (fun q hq => ⟨hmem hq, by simp [hc, hq.symm], h.procOk q⟩) rfl (fun _ => hempty) ?_ ?_
      (by simp)⟩
    · simp [hempty, hlast]
    · simp [hempty]
  · refine ⟨rfl, none, h.set (hself id) (by simp [Pc.Commits])
      ⟨fun hin => hin.elim, by simp, by simp⟩ (fun q hq => ⟨hmem hq, by simp [hc], h.procOk q⟩) rfl
      (by simp) ?_ (fun _ => ?_) fun hempty _ => ?_⟩
    · rw [h.outstanding_eq, ← hcard]
      push_cast
      omega
    · have hsum := h.budget ⟨p, hp⟩
      rw [← Finset.add_sum_erase s _ hp] at hsum
      rw [if_neg (Finset.notMem_erase p s), Finset.erase_idem]
      dsimp only
      omega
    · rw [hempty] at hcard
      rw [h.outstanding_eq, ← hcard] at hlast
      simp at hlast

/-- `commit` empties the log. -/
theorem Inv.commit (hpc : (σ.procs p).pc = .committing) :
    Inv s c ({ σ with lh := { σ.lh with n := 0 } }.setPc p .committed) := by
  have hc : c = some p := (h.committer_iff p).mpr (.inl hpc)
  obtain rfl : s = ∅ := h.empty_of_committer (by simp [hc])
  refine h.set (by simp [Pc.InOp]) (by simp [hc, Pc.Commits])
    ⟨fun hin => hin.elim, by simp, fun _ => rfl⟩ (fun q _ => ⟨Iff.rfl, Iff.rfl, fun hq => ?_,
      (h.procOk q).recording_le, fun _ => rfl⟩) h.committing_eq h.empty_of_committer
    h.outstanding_eq (by simp) fun _ _ => rfl
  have hmem := (h.mem_iff q).mpr hq
  simp at hmem

/-- After a commit operations are let in again. -/
theorem Inv.release (hpc : (σ.procs p).pc = .committed) :
    Inv s none ({ σ with committing := false }.setPc p .outside) := by
  have hc : c = some p := (h.committer_iff p).mpr (.inr hpc)
  obtain rfl : s = ∅ := h.empty_of_committer (by simp [hc])
  exact h.set (by simp [Pc.InOp]) (by simp [Pc.Commits]) ⟨fun hin => hin.elim, by simp, by simp⟩
    (fun q hq => ⟨Iff.rfl, by simp [hc, hq.symm], h.procOk q⟩) rfl (by simp) h.outstanding_eq
    (by simp) fun _ _ => (h.procOk p).committed_eq hpc

/-- No step panics, if operations log fewer than `MAXOPBLOCKS` blocks. -/
theorem Inv.step {l : (P × Action) × Option Panic}
    (hle : LogsAtMost (MAXOPBLOCKS - 1) σ l) (hstep : σ.step l.1 = some (σ', l.2)) :
    l.2 = none ∧ ∃ s' c', Inv s' c' σ' := by
  obtain ⟨⟨p, a⟩, e⟩ := l
  unfold State.step at hstep
  dsimp only at hstep ⊢
  have hin (hpc : (σ.procs p).pc.InOp) : p ∈ s := (h.mem_iff p).mpr hpc
  split at hstep
  · -- `begin_op`
    rename_i hpc
    obtain ⟨rfl, rfl⟩ : σ.beginOp p = σ' ∧ none = e := by simpa using hstep
    obtain ⟨s', h'⟩ := h.beginOp hpc
    exact ⟨rfl, s', c, h'⟩
  · -- the first test of `log_write`
    rename_i b hpc
    have hp := hin (by rw [hpc]; trivial)
    rw [if_neg (h.room hp)] at hstep
    obtain ⟨rfl, rfl⟩ : σ.setPc p (.tested b) = σ' ∧ none = e := by simpa using hstep
    refine ⟨rfl, s, c, h.setPc hp trivial fun b' hb' => ?_⟩
    obtain rfl : b = b' := by simpa using hb'
    exact hle
  · -- the second one
    rename_i b hpc
    have hp := hin (by rw [hpc]; trivial)
    have hcard := Finset.card_pos.mpr ⟨p, hp⟩
    rw [if_neg (by rw [h.outstanding_eq]; omega)] at hstep
    obtain ⟨rfl, rfl⟩ : σ.setPc p (.recording b) = σ' ∧ none = e := by simpa using hstep
    refine ⟨rfl, s, c, h.setPc hp trivial fun b' hb' => ?_⟩
    obtain rfl : b = b' := by simpa using hb'
    exact (h.procOk p).recording_le b (.inl hpc)
  · -- the critical section of `log_write`
    rename_i b hpc
    have hp := hin (by rw [hpc]; trivial)
    obtain ⟨rfl, rfl⟩ : σ.record p b = σ' ∧ none = e := by simpa using hstep
    exact ⟨rfl, s, c, h.record hp hpc⟩
  · -- `end_op`
    rename_i hpc
    have hp := hin (by rw [hpc]; trivial)
    obtain ⟨hnone, c', h'⟩ := h.endOp hp
    obtain ⟨rfl, rfl⟩ : (σ.endOp p).1 = σ' ∧ (σ.endOp p).2 = e :=
      Prod.ext_iff.mp (Option.some.inj hstep)
    exact ⟨hnone, s.erase p, c', h'⟩
  · -- `commit`
    rename_i hpc
    obtain ⟨rfl, rfl⟩ : _ = σ' ∧ none = e := by simpa using hstep
    exact ⟨rfl, s, c, h.commit hpc⟩
  · -- the end of `end_op`
    rename_i hpc
    obtain ⟨rfl, rfl⟩ : _ = σ' ∧ none = e := by simpa using hstep
    exact ⟨rfl, s, none, h.release hpc⟩
  · cases hstep

end Invariant

/-- With any number of processes and any interleaving, the log does not panic, if every operation
logs fewer than `MAXOPBLOCKS` distinct blocks. -/
theorem no_panic {P : Type*} [DecidableEq P] {hist : List (State P × (P × Action) × Option Panic)}
    {σ : State P} (hrun : (logging P).Run hist σ)
    (hle : ∀ x ∈ hist, LogsAtMost (MAXOPBLOCKS - 1) x.1 x.2) : ∀ x ∈ hist, x.2.2 = none := by
  have hinv : (∀ x ∈ hist, x.2.2 = none) ∧ ∃ s c, Inv s c σ := by
    induction hrun with
    | init hinit =>
      obtain rfl := hinit
      exact ⟨by simp, ∅, none, .initial⟩
    | step _ hstep ih =>
      obtain ⟨hnone, s, c, hinv⟩ := ih fun x hx => hle x (List.mem_cons_of_mem _ hx)
      obtain ⟨hlast, hinv'⟩ := hinv.step (hle _ List.mem_cons_self) hstep
      refine ⟨fun x hx => ?_, hinv'⟩
      rcases List.mem_cons.mp hx with rfl | hx
      · exact hlast
      · exact hnone x hx
  exact hinv.1

/-- What is found after performing actions from the start is found at the end of some run. -/
theorem exists_run {P : Type*} [DecidableEq P] (as : List (P × Action))
    (C : List (State P × (P × Action) × Option Panic) → State P → Bool)
    (h : (Transition.exec State.step [] (.initial : State P) as).any (fun r => C r.1 r.2) = true) :
    ∃ hist σ, (logging P).Run hist σ ∧ C hist σ = true :=
  Transition.exists_run_of_exec_any rfl h

/-- The actions by which process `p` logs the blocks `b`, …, `b + k - 1`. -/
def logs {P : Type*} (p : P) (b k : ℕ) : List (P × Action) :=
  (List.range k).flatMap fun i => [(p, .logWrite (b + i)), (p, .checkTrans), (p, .record)]

/-- Two operations of one block each. -/
theorem no_panic_two :
    ∃ hist σ, (logging (Fin 2)).Run hist σ ∧ hist.length = 8 ∧ ∀ x ∈ hist, x.2.2 = none := by
  obtain ⟨hist, σ, hrun, htest⟩ := exists_run
    ([((0 : Fin 2), .beginOp), (1, .beginOp)] ++ logs 0 40 1 ++ logs 1 50 1)
    (fun hist _ => decide (hist.length = 8 ∧ ∀ x ∈ hist, LogsAtMost (MAXOPBLOCKS - 1) x.1 x.2))
    (by decide +kernel)
  obtain ⟨hlen, hle⟩ := of_decide_eq_true htest
  exact ⟨hist, σ, hrun, hlen, no_panic hrun hle⟩

/-- Three operations of ten blocks each: they are let in, and the call of `log_write` on the last
block finds the log full. -/
theorem not_no_panic :
    ∃ hist σ, (logging (Fin 3)).Run hist σ ∧ (∀ x ∈ hist, LogsAtMost MAXOPBLOCKS x.1 x.2) ∧
      ∃ x ∈ hist, x.2.2 = some .tooBig := by
  obtain ⟨hist, σ, hrun, htest⟩ := exists_run
    ([((0 : Fin 3), .beginOp), (1, .beginOp), (2, .beginOp)] ++ logs 0 100 10 ++ logs 1 110 10 ++
      logs 2 120 9 ++ [(2, .logWrite 129)])
    (fun hist _ => decide ((∀ x ∈ hist, LogsAtMost MAXOPBLOCKS x.1 x.2) ∧
      ∃ x ∈ hist, x.2.2 = some .tooBig))
    (by decide +kernel)
  obtain ⟨hle, hpanic⟩ := of_decide_eq_true htest
  exact ⟨hist, σ, hrun, hle, hpanic⟩

/-- Under the same condition, `log.outstanding` is the number of operations in progress, there is
none while a process commits, and no second process commits. Until then the header has all blocks
that the operations in progress have logged, and afterwards none. -/
theorem commits_whole {P : Type*} [DecidableEq P]
    {hist : List (State P × (P × Action) × Option Panic)} {σ : State P}
    (hrun : (logging P).Run hist σ) (hle : ∀ x ∈ hist, LogsAtMost (MAXOPBLOCKS - 1) x.1 x.2) :
    (∃ s : Finset P, (∀ p, p ∈ s ↔ (σ.procs p).pc.InOp) ∧ σ.outstanding = s.card) ∧
      (∀ p, (σ.procs p).pc.Commits →
        ∀ q, ¬(σ.procs q).pc.InOp ∧ ((σ.procs q).pc.Commits → q = p)) ∧
      (∀ p, (σ.procs p).pc.InOp → ∀ b ∈ (σ.procs p).logged, b ∈ σ.lh.blocks) ∧
      ((∀ p, (σ.procs p).pc = .outside) → σ.lh.n = 0) := by
  obtain ⟨s, c, h⟩ : ∃ s c, Inv s c σ := by
    refine hrun.invariant_of_forall (I := fun σ => ∃ s c, Inv s c σ) ?_ ?_ hle
    · rintro _ rfl
      exact ⟨∅, none, .initial⟩
    · rintro σ l σ' ⟨s, c, h⟩ hl hstep
      exact (h.step hl hstep).2
  refine ⟨⟨s, h.mem_iff, h.outstanding_eq⟩, fun p hp q => ⟨fun hq => ?_, fun hq => ?_⟩,
    fun p => (h.procOk p).logged_subset, fun hout => h.idle ?_ ?_⟩
  · have hc := h.committer_eq_none ((h.mem_iff q).mpr hq)
    cases hc.symm.trans ((h.committer_iff p).mpr hp)
  · have hsame := ((h.committer_iff q).mpr hq).symm.trans ((h.committer_iff p).mpr hp)
    exact Option.some.inj hsame
  · refine Finset.eq_empty_of_forall_notMem fun p hp => ?_
    rw [h.mem_iff, hout] at hp
    exact hp
  · refine Option.eq_none_iff_forall_ne_some.mpr fun p hp => ?_
    rw [h.committer_iff, hout] at hp
    simp [Pc.Commits] at hp

/-- The second of two operations ends last, and commits for both. -/
theorem commits_whole_two : ∃ hist σ, (logging (Fin 2)).Run hist σ ∧
    (σ.procs 1).pc = .committing ∧ ∀ q, ¬(σ.procs q).pc.InOp := by
  obtain ⟨hist, σ, hrun, htest⟩ := exists_run
    ([((0 : Fin 2), .beginOp), (1, .beginOp)] ++ logs 0 40 1 ++ logs 1 50 1 ++
      [(0, .endOp), (1, .endOp)])
    (fun hist σ => decide ((σ.procs 1).pc = .committing ∧
      ∀ x ∈ hist, LogsAtMost (MAXOPBLOCKS - 1) x.1 x.2)) (by decide +kernel)
  obtain ⟨hpc, hle⟩ := of_decide_eq_true htest
  exact ⟨hist, σ, hrun, hpc, fun q => ((commits_whole hrun hle).2.1 1 (.inl hpc) q).1⟩

end Admission

end FileSystem
