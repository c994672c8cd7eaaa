import Mathlib
import OsnAssignments.Xv6.QueueSpec

/-!
# What `push` does to the membership of the rings

`push(a, b)` is meant to insert `b` unless some ring holds it already. Its search covers all five
rings, but it is skipped when ring `a` is empty, and in any other ring that is empty it reads
`queue[i][-1]`. `pushOk_iff` says for which rings and arguments `push` does what it is meant to do
and stays inside the rows of `queue`.
-/

namespace Xv6

open Loop

namespace Rings

variable {r : Rings} {a i : Level} {b p : Slot} {j : ℤ}

/-! ## The places that `push` reads and writes -/

/-- The indices that the search of `push` goes through in row `i`, in order. -/
def cells (r : Rings) (i : Level) : List ℤ :=
  if r.face[i] ≤ r.back[i] then upTo r.face[i] r.back[i]
  else upTo r.face[i] (NPROC - 1) ++ upTo 0 r.back[i]

/-- The elements of `queue` that the search of `push` for `b` reads: it returns at the first that
is `b`. -/
def reads (r : Rings) (b : Slot) : List (Level × ℤ) :=
  (visited (r.holds · b) (List.finRange 5)).flatMap fun i =>
    (visited (fun j => r.get i j == some b) (r.cells i)).map (i, ·)

/-- `push(a, b)` with the elements of `queue` that it accesses. -/
def pushTrace (r : Rings) (a : Level) (b : Slot) : Option Rings × List (Level × ℤ) :=
  let last := (a, (r.back[a] + 1) % NPROC)
  if r.face[a] = -1 then (some (r.enqueue a b), [last])
  else if (r.reads b).any fun c => r.get c.1 c.2 == some b then (none, r.reads b)
  else if r.full a then (none, r.reads b)
  else (some (r.enqueue a b), r.reads b ++ [last])

theorem holds_eq_any (r : Rings) (i : Level) (b : Slot) :
    r.holds i b = (r.cells i).any fun j => r.get i j == some b := by
  unfold holds cells
  split_ifs
  · rfl
  · exact List.any_append.symm

/-- The search stops in the first row that holds `b`. -/
theorem mem_reads {c : Level × ℤ} : c ∈ r.reads b ↔ (∀ i < c.1, r.holds i b = false) ∧
      c.2 ∈ visited (fun j => r.get c.1 j == some b) (r.cells c.1) := by
  obtain ⟨i, j⟩ := c
  simp [reads, mem_visited_iff (List.pairwise_lt_finRange 5)]

theorem any_reads (r : Rings) (b : Slot) : ((r.reads b).any fun c => r.get c.1 c.2 == some b) =
      (List.finRange 5).any fun i => r.holds i b := by
  have hrow (i : Level) : ((visited (fun j => r.get i j == some b) (r.cells i)).map (i, ·)).any
      (fun c : Level × ℤ => r.get c.1 c.2 == some b) = r.holds i b := by
    rw [List.any_map, holds_eq_any]
    exact any_visited (fun j => r.get i j == some b) _
  rw [reads, List.any_flatMap]
  simp only [hrow]
  exact any_visited (r.holds · b) _

/-- `pushTrace` does what `push` does. -/
theorem pushTrace_fst (r : Rings) (a : Level) (b : Slot) : (r.pushTrace a b).1 = r.push a b := by
  unfold pushTrace push
  rw [any_reads]
  split_ifs <;> rfl

/-! ## Where the search leaves the rows -/

/-- The search of an empty row reads the element before it. -/
theorem cells_eq_of_empty (hv : r.ValidAt i) (hface : r.face[i] = -1) : r.cells i = [-1] := by
  rw [cells, hface, hv.back_eq hface, if_pos le_rfl]
  decide

/-- The search of a row that is not empty reads its entries. -/
theorem occupied_of_mem_cells (hface : r.face[i] ≠ -1) (h : j ∈ r.cells i) :
    CircularBuffer.Occupied NPROC r.face[i] r.back[i] j := by
  unfold cells at h
  split at h
  next hle => exact ⟨hface, .inl ⟨hle, mem_upTo.mp h⟩⟩
  next hgt =>
    rw [List.mem_append, mem_upTo, mem_upTo] at h
    exact ⟨hface, .inr ⟨by omega, h.imp_left fun h => ⟨h.1, by omega⟩⟩⟩

/-- The element `(i, j)` is in row `i` of `queue`. -/
def InRow (c : Level × ℤ) : Prop :=
  0 ≤ c.2 ∧ c.2 < NPROC

instance (c : Level × ℤ) : Decidable (InRow c) :=
  inferInstanceAs (Decidable (_ ∧ _))

/-- If every search of an empty row is preceded by a hit, the first of these hits is an entry. -/
theorem exists_live_of_holds (hv : r.Valid)
    (h : ∀ i, r.face[i] = -1 → ∃ k < i, r.holds k b = true) (i : Level)
    (hface : r.face[i] = -1) : ∃ k < i, some b ∈ r.live k := by
  induction i using WellFoundedLT.induction with
  | ind i ih =>
    obtain ⟨k, hki, hk⟩ := h i hface
    by_cases hempty : r.face[k] = -1
    · obtain ⟨l, hlk, hl⟩ := ih k hki hempty
      exact ⟨l, hlk.trans hki, hl⟩
    · exact ⟨k, hki, (holds_iff (hv k) hempty b).mp hk⟩

/-- The search stays in the rows when it finds `b` before it comes to an empty row. -/
theorem reads_inRow_iff (hv : r.Valid) :
    (∀ c ∈ r.reads b, InRow c) ↔ ∀ i, r.face[i] = -1 → ∃ k < i, some b ∈ r.live k := by
  constructor
  · intro h
    refine exists_live_of_holds hv fun i hface => ?_
    by_contra hnone
    push Not at hnone
    have hread : (i, (-1 : ℤ)) ∈ r.reads b := by
      rw [mem_reads, cells_eq_of_empty (hv i) hface]
      exact ⟨fun k hk => Bool.eq_false_iff.mpr (hnone k hk), List.mem_cons_self⟩
    have hneg : (0 : ℤ) ≤ -1 := (h _ hread).1
    omega
  · rintro h ⟨i, j⟩ hc
    obtain ⟨hbefore, hj⟩ := mem_reads.mp hc
    have hface : r.face[i] ≠ -1 := by
      intro hface
      obtain ⟨k, hki, hk⟩ := h i hface
      have hne : r.face[k] ≠ -1 := by
        intro hempty
        rw [live_eq_nil hempty] at hk
        cases hk
      exact Bool.eq_false_iff.mp (hbefore k hki) ((holds_iff (hv k) hne b).mpr hk)
    exact CircularBuffer.occupied_bounds (hv i)
      (occupied_of_mem_cells hface (mem_of_mem_visited hj))

/-! ## Membership -/

/-- How often process `p` occurs in the rings. -/
def occurrences (r : Rings) (p : Slot) : ℕ :=
  ∑ i, (r.live i).count (some p)

theorem occurrences_eq_zero : r.occurrences p = 0 ↔ ∀ i, some p ∉ r.live i := by
  simp [occurrences, List.count_eq_zero]

theorem occurrences_enqueue (hv : r.Valid) (hroom : r.face[a] = -1 ∨ r.full a = false) :
    (r.enqueue a b).occurrences p = r.occurrences p + if p = b then 1 else 0 := by
  have hrow (i : Level) : ((r.enqueue a b).live i).count (some p) =
      (r.live i).count (some p) + if i = a then (if p = b then 1 else 0) else 0 := by
    by_cases hi : i = a
    · subst hi
      rw [live_enqueue hv hroom, List.count_append, if_pos rfl]
      by_cases hp : p = b
      · rw [hp, if_pos rfl, List.count_singleton_self]
      · have hnone : List.count (some p) [some b] = 0 :=
          List.count_eq_zero_of_not_mem (by simpa using hp)
        rw [if_neg hp, hnone]
    · rw [live_enqueue_of_ne hv hi, if_neg hi, Nat.add_zero]
  simp only [occurrences, hrow, Finset.sum_add_distrib, Finset.sum_ite_eq', Finset.mem_univ,
    if_true]

/-- The rings after `push(a, b)`. -/
def pushed (r : Rings) (a : Level) (b : Slot) : Rings :=
  (r.push a b).getD r

/-- `push(a, b)` keeps every process in at most one place: it leaves the rings alone if one of them
holds `b`, and otherwise appends `b` to ring `a` if there is room, within the rows of `queue`. -/
structure PushOk (r : Rings) (a : Level) (b : Slot) : Prop where
  unique : ∀ p, (r.pushed a b).occurrences p ≤ 1
  unchanged : (∃ i, some b ∈ r.live i) → r.pushed a b = r
  appended : (∀ i, some b ∉ r.live i) → (r.live a).length < NPROC →
    (r.pushed a b).live a = r.live a ++ [some b] ∧ ∀ i, i ≠ a → (r.pushed a b).live i = r.live i
  inRow : ∀ c ∈ (r.pushTrace a b).2, InRow c

/-- `push` inserts a process that no ring holds. -/
theorem PushOk.of_insert (hv : r.Valid) (huniq : ∀ p, r.occurrences p ≤ 1)
    (hb : ∀ i, some b ∉ r.live i) (hroom : r.face[a] = -1 ∨ r.full a = false)
    (hpush : r.push a b = some (r.enqueue a b)) (hrow : ∀ c ∈ (r.pushTrace a b).2, InRow c) :
    r.PushOk a b := by
  have hpushed : r.pushed a b = r.enqueue a b := by rw [pushed, hpush, Option.getD_some]
  refine ⟨fun p => ?_, fun ⟨i, hi⟩ => absurd hi (hb i), fun _ _ => ?_, hrow⟩
  · rw [hpushed, occurrences_enqueue hv hroom]
    by_cases hp : p = b
    · rw [hp, occurrences_eq_zero.mpr hb, if_pos rfl]
    · rw [if_neg hp]
      exact huniq p
  · rw [hpushed]
    exact ⟨live_enqueue hv hroom, fun i hi => live_enqueue_of_ne hv hi⟩

/-- `push` returns because some ring holds `b` or ring `a` has no room. -/
theorem PushOk.of_return (huniq : ∀ p, r.occurrences p ≤ 1)
    (hwhy : (∃ i, some b ∈ r.live i) ∨ (r.live a).length = NPROC)
    (hpush : r.push a b = none) (hrow : ∀ c ∈ (r.pushTrace a b).2, InRow c) : r.PushOk a b := by
  have hpushed : r.pushed a b = r := by rw [pushed, hpush, Option.getD_none]
  refine ⟨fun p => ?_, fun _ => hpushed, fun hb hlt => ?_, hrow⟩
  · rw [hpushed]
    exact huniq p
  · rcases hwhy with ⟨i, hi⟩ | hfull
    · exact absurd hi (hb i)
    · exact absurd hfull hlt.ne

theorem inRow_last (r : Rings) (a : Level) : InRow (a, (r.back[a] + 1) % NPROC) :=
  ⟨Int.emod_nonneg _ (by decide), Int.emod_lt_of_pos _ (by decide)⟩

/-- An empty ring takes `b` without a search. -/
theorem pushOk_of_empty (hv : r.Valid) (huniq : ∀ p, r.occurrences p ≤ 1) (hface : r.face[a] = -1) :
    r.PushOk a b ↔ ∀ i, some b ∉ r.live i := by
  have hpush : r.push a b = some (r.enqueue a b) := by rw [push, if_pos hface]
  constructor
  · intro h i hi
    have hsame := h.unchanged ⟨i, hi⟩
    rw [pushed, hpush, Option.getD_some] at hsame
    have hlive := live_enqueue (b := b) hv (.inl hface)
    rw [hsame] at hlive
    simp at hlive
  · intro hb
    refine .of_insert hv huniq hb (.inl hface) hpush fun c hc => ?_
    rw [pushTrace, if_pos hface] at hc
    rw [List.mem_singleton.mp hc]
    exact inRow_last r a

/-- In a ring with an entry `push` searches first. -/
theorem pushOk_of_search (hv : r.Valid) (huniq : ∀ p, r.occurrences p ≤ 1)
    (hface : r.face[a] ≠ -1) : r.PushOk a b ↔ ∀ i, r.face[i] = -1 → ∃ k < i, some b ∈ r.live k := by
  rw [← reads_inRow_iff hv]
  constructor
  · intro h c hc
    refine h.inRow c ?_
    rw [pushTrace, if_neg hface]
    split_ifs
    · exact hc
    · exact hc
    · exact List.mem_append_left _ hc
  intro hreads
  have hstop := (reads_inRow_iff hv).mp hreads
  by_cases hfound : (List.finRange 5).any (fun i => r.holds i b) = true
  · -- the search ends at an entry
    have hlive : ∃ i, some b ∈ r.live i := by
      obtain ⟨i, -, hi⟩ := List.any_eq_true.mp hfound
      by_cases hempty : r.face[i] = -1
      · obtain ⟨k, -, hk⟩ := hstop i hempty
        exact ⟨k, hk⟩
      · exact ⟨i, (holds_iff (hv i) hempty b).mp hi⟩
    refine .of_return huniq (.inl hlive) (by rw [push, if_neg hface, if_pos hfound]) ?_
    rw [pushTrace, if_neg hface, any_reads, if_pos hfound]
    exact hreads
  -- every ring has an entry, and none is `b`
  have hb (i : Level) : some b ∉ r.live i := by
    intro hi
    refine hfound (List.any_eq_true.mpr ⟨i, List.mem_finRange i, ?_⟩)
    by_cases hempty : r.face[i] = -1
    · rw [live_eq_nil hempty] at hi
      cases hi
    · exact (holds_iff (hv i) hempty b).mpr hi
  by_cases hfull : r.full a = true
  · have hsize : (r.live a).length = NPROC := by
      rw [live, CircularBuffer.length_live, CircularBuffer.size_eq_iff hface (hv a)]
      simpa [full] using hfull
    refine .of_return huniq (.inr hsize)
      (by rw [push, if_neg hface, if_neg hfound, if_pos hfull]) ?_
    rw [pushTrace, if_neg hface, any_reads, if_neg hfound, if_pos hfull]
    exact hreads
  · refine .of_insert hv huniq hb (.inr (Bool.eq_false_iff.mpr hfull))
      (by rw [push, if_neg hface, if_neg hfound, if_neg hfull]) ?_
    rw [pushTrace, if_neg hface, any_reads, if_neg hfound, if_neg hfull]
    intro c hc
    rcases List.mem_append.mp hc with hc | hc
    · exact hreads c hc
    · rw [List.mem_singleton.mp hc]
      exact inRow_last r a

/-- `push(a, b)` does what it is meant to do in two cases only: ring `a` is empty and no ring holds
`b`, or ring `a` has an entry and the search for `b` never looks at an empty ring. -/
theorem pushOk_iff (r : Rings) (a : Level) (b : Slot) (hv : r.Valid)
    (huniq : ∀ p, r.occurrences p ≤ 1) :
    r.PushOk a b ↔
      (r.face[a] = -1 ∧ ∀ i, some b ∉ r.live i) ∨
        (r.face[a] ≠ -1 ∧ ∀ i, r.face[i] = -1 → ∃ k < i, some b ∈ r.live k) := by
  by_cases hface : r.face[a] = -1
  · rw [pushOk_of_empty hv huniq hface]
    simp [hface]
  · rw [pushOk_of_search hv huniq hface]
    simp [hface]

/-- Ring `0` holds the process `p`; the others are empty. -/
def single (p : Slot) : Rings :=
  (empty none).enqueue 0 p

theorem valid_single (p : Slot) : (single p).Valid :=
  valid_enqueue (valid_empty none) 0 p

theorem occurrences_single (p q : Slot) : (single p).occurrences q ≤ 1 := by
  have hempty : (empty none).occurrences q = 0 :=
    occurrences_eq_zero.mpr fun i => by simp [live_empty]
  rw [single, occurrences_enqueue (valid_empty none) (.inl (getElem_replicate_level (-1) 0)),
    hempty]
  split <;> omega

/-- A process that no ring holds is pushed to an empty ring, and one that ring `0` holds is pushed
to it again. -/
theorem pushOk_iff_single : (single 1).PushOk 3 2 ∧ (single 1).PushOk 0 1 :=
  ⟨(pushOk_iff (single 1) 3 2 (valid_single 1) (occurrences_single 1)).mpr
      (.inl (by decide +kernel)),
    (pushOk_iff (single 1) 0 1 (valid_single 1) (occurrences_single 1)).mpr
      (.inr (by decide +kernel))⟩

/-- Two ways in which `push` fails where ring `0` holds process `1` and the other rings are empty:
pushed to ring `3`, process `1` is then in two rings; and the search for another process to be
pushed to ring `0` reads `queue[1][-1]`. -/
theorem not_pushOk :
    (single 1).Valid ∧ (∀ p, (single 1).occurrences p ≤ 1) ∧
      ((single 1).pushed 3 1).occurrences 1 = 2 ∧ ¬ (single 1).PushOk 3 1 ∧
      (1, -1) ∈ ((single 1).pushTrace 0 2).2 ∧ ¬ (single 1).PushOk 0 2 := by
  have htwice : ((single 1).pushed 3 1).occurrences 1 = 2 := by decide +kernel
  have hread : ((1 : Level), (-1 : ℤ)) ∈ ((single 1).pushTrace 0 2).2 := by decide +kernel
  refine ⟨valid_single 1, occurrences_single 1, htwice, fun h => ?_, hread, fun h => ?_⟩
  · have hone := h.unique 1
    omega
  · exact absurd (h.inRow _ hread) (by decide)

end Rings

end Xv6
