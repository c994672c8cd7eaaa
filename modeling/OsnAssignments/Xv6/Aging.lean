import Mathlib
import OsnAssignments.Xv6.QueueSteps

/-!
# The aging pass

Before it selects a process, the `MLFQ` scheduler goes through the rings `1` to `4` and moves every
process that has waited for more than `age` ticks to the ring above. The loop over a ring walks an
index `j` along the array while `remove` shifts entries towards `j`, moves the start of the ring and
may empty or unwrap it.

What carries the proof is the number of entries that are still ahead: the list of the ring is always
the entries passed and kept, followed by those ahead (`RingAged`), so that nothing is skipped or
visited twice.
-/

namespace Xv6

open Loop Transition CircularBuffer

variable {n : ℕ}

namespace Kernel

variable {σ σ' τ τ' : Kernel n} {p q : Slot} {i k : Level} {j : ℤ}

/-- The entry is a process that has waited for more than `age` ticks. -/
def overdue (σ : Kernel n) (x : Option Slot) : Bool :=
  x.any fun p => (σ.proc p).waittime > age

theorem overdue_some : σ.overdue (some p) = true ↔ (σ.proc p).waittime > age := by
  simp [overdue]

/-! ## One process moves up -/

/-- The process `p` of ring `i` moves to the ring above, or is dropped by `push`. -/
structure MovesUp (i : Level) (p : Slot) (σ σ' : Kernel n) : Prop where
  filed : σ'.Filed
  left : σ'.rings.live i = (σ.rings.live i).erase (some p)
  up : σ'.rings.live (i - 1) = σ.rings.live (i - 1) ++ [some p] ∧ (σ'.proc p).waittime = 0 ∨
    σ'.rings.live (i - 1) = σ.rings.live (i - 1)
  others : ∀ k, k ≠ i → k ≠ i - 1 → σ'.rings.live k = σ.rings.live k
  qn : (σ'.proc p).qn = (σ.proc p).qn - 1
  procs : ∀ q, q ≠ p → σ'.proc q = σ.proc q
  ends : σ.rings.face[i] = σ.rings.back[i] ∧ σ'.rings.face[i] = -1 ∧ σ'.rings.back[i] = -1 ∨
    σ.rings.face[i] ≠ σ.rings.back[i] ∧
      σ'.rings.face[i] = place NPROC σ.rings.face[i] 1 ∧
      σ'.rings.back[i] = σ.rings.back[i]

/-- `push(i - 1, p)` after `remove(i, p)` and `p->qn--`. -/
theorem Filed.movesUp_push {σ₁ : Kernel n} (h : σ.Filed) (hi : i ≠ 0) (hp : some p ∈ σ.rings.live i)
    (hrings : σ₁.rings = σ.rings.remove i p) (hself : (σ₁.proc p).qn = (σ.proc p).qn - 1)
    (hprocs : ∀ q, q ≠ p → σ₁.proc q = σ.proc q) : MovesUp i p σ (σ₁.push (i - 1) p) := by
  have hval := val_sub_one hi
  have hqn := h.qn hp
  have hup := ne_sub_one hi
  have hlive := h.live_remove hp
  have hother (k : Level) (hk : k ≠ i) : (σ.rings.remove i p).live k = σ.rings.live k :=
    Rings.live_remove_of_ne h.valid hp hk
  have hends := Rings.face_back_remove (h.valid i) hp
  have hvalid := Rings.valid_remove h.valid hp
  rw [← hrings] at hlive hother hends hvalid
  have hnodup (k : Level) : (σ₁.rings.live k).Nodup := by
    rw [hlive]
    exact (h.nodup k).erase _
  have hold (k : Level) (x : Option Slot) (hx : x ∈ σ₁.rings.live k) :
      ∃ q, x = some q ∧ q ≠ p ∧ (σ₁.proc q).qn = k := by
    rw [hlive, (h.nodup k).mem_erase_iff] at hx
    obtain ⟨q, rfl, hq⟩ := h.entry k x hx.2
    have hne : q ≠ p := fun heq => hx.1 (congrArg some heq)
    exact ⟨q, rfl, hne, by rw [hprocs q hne]; exact hq⟩
  rcases push_cases (i - 1) p σ₁ with hsame | ⟨hroom, hpushed, hproc⟩
  · -- `push` meets a stale pointer and drops the process
    rw [hsame]
    refine ⟨⟨hvalid, hnodup, fun k x hx => ?_⟩, hlive i, .inr (hother _ hup),
      fun k hk _ => hother k hk, hself, hprocs, hends⟩
    obtain ⟨q, rfl, -, hq⟩ := hold k x hx
    exact ⟨q, rfl, hq⟩
  · have happend := Rings.live_enqueue (b := p) hvalid hroom
    have hkeep {k : Level} (hk : k ≠ i - 1) :
        (σ₁.rings.enqueue (i - 1) p).live k = σ₁.rings.live k :=
      Rings.live_enqueue_of_ne hvalid hk
    rw [← hpushed] at happend
    simp only [← hpushed] at hkeep
    have hne (q : Slot) (hq : q ≠ p) : (σ₁.push (i - 1) p).proc q = σ₁.proc q := by
      rw [hproc, proc_modify_of_ne _ _ hq]
    refine ⟨⟨?_, fun k => ?_, fun k x hx => ?_⟩, (hkeep hup.symm).trans (hlive i),
      .inl ⟨happend.trans (congrArg (· ++ _) (hother _ hup)), ?_⟩,
      fun k hk hk' => (hkeep hk').trans (hother k hk), ?_,
      fun q hq => (hne q hq).trans (hprocs q hq), ?_⟩
    · rw [hpushed]
      exact Rings.valid_enqueue hvalid _ p
    · by_cases hk : k = i - 1
      · subst hk
        rw [happend, List.nodup_append]
        refine ⟨hnodup _, List.nodup_singleton _, fun x hx y hy hxy => ?_⟩
        obtain ⟨q, rfl, hq, -⟩ := hold _ x hx
        exact hq (Option.some.inj (hxy.trans (List.mem_singleton.mp hy)))
      · rw [hkeep hk]
        exact hnodup k
    · by_cases hx₁ : x ∈ σ₁.rings.live k
      · obtain ⟨q, rfl, hqp, hq⟩ := hold k x hx₁
        exact ⟨q, rfl, by rw [hne q hqp]; exact hq⟩
      · -- what is new is `p`, in the ring of its new level
        have hk : k = i - 1 := by
          by_contra hk
          rw [hkeep hk] at hx
          exact hx₁ hx
        subst hk
        rw [happend, List.mem_append, List.mem_singleton] at hx
        refine ⟨p, hx.resolve_left hx₁, ?_⟩
        rw [hproc, proc_modify_self]
        exact hself.trans (by omega)
    · rw [hproc, proc_modify_self]
    · rw [hproc, proc_modify_self]
      exact hself
    · rw [hpushed, Rings.face_enqueue, Rings.back_enqueue, if_neg fun h => hup.symm h.1,
        if_neg hup.symm]
      exact hends

/-- One iteration of the aging loops at an index that holds the process `p`. -/
theorem Filed.ageBody (h : σ.Filed) (hi : i ≠ 0) (hp : some p ∈ σ.rings.live i)
    (hj : σ.rings.get i j = some p) : σ.overdue (some p) = false ∧ σ.ageBody i j = σ ∨
      σ.overdue (some p) = true ∧ MovesUp i p σ (σ.ageBody i j) := by
  unfold Kernel.ageBody
  rw [hj]
  dsimp only
  by_cases hwait : (σ.proc p).waittime > age
  · rw [if_pos hwait]
    refine .inr ⟨overdue_some.mpr hwait, h.movesUp_push hi hp rfl ?_ fun q hq => ?_⟩
    · rw [proc_modify_self]
      rfl
    · rw [proc_modify_of_ne _ _ hq]
      rfl
  · rw [if_neg hwait]
    exact .inl ⟨Bool.eq_false_iff.mpr fun h => hwait (overdue_some.mp h), rfl⟩

/-! ## The loops over one ring -/

/-- The aging loop over ring `i`, started in `σ`, has passed the entries `P` of the ring and has the
entries `B` ahead. -/
structure RingAged (i : Level) (σ : Kernel n) (P B : List (Option Slot)) (τ : Kernel n) : Prop where
  filed : τ.Filed
  split : σ.rings.live i = P ++ B
  live : τ.rings.live i = (P.filter fun x => !σ.overdue x) ++ B
  up : ∃ M, τ.rings.live (i - 1) = σ.rings.live (i - 1) ++ M ∧
    ∀ x ∈ M, x ∈ P ∧ ∀ q, x = some q → (τ.proc q).waittime = 0
  others : ∀ k, k ≠ i → k ≠ i - 1 → τ.rings.live k = σ.rings.live k
  procs : ∀ q, τ.proc q = σ.proc q ∨
    some q ∈ P ∧ σ.overdue (some q) = true ∧ (τ.proc q).qn = (σ.proc q).qn - 1

namespace RingAged

variable {P B : List (Option Slot)} {x : Option Slot}

theorem start (h : σ.Filed) (i : Level) : RingAged i σ [] (σ.rings.live i) σ :=
  ⟨h, rfl, rfl, ⟨[], (List.append_nil _).symm, nofun⟩, fun _ _ _ => rfl, fun _ => .inl rfl⟩

/-- An entry that stays. -/
theorem keep (h : RingAged i σ P (x :: B) τ) (hx : σ.overdue x = false) :
    RingAged i σ (P ++ [x]) B τ := by
  obtain ⟨M, hM, hzero⟩ := h.up
  refine ⟨h.filed, ?_, ?_, ⟨M, hM, fun x hx => ?_⟩, h.others,
    fun q => (h.procs q).imp_right fun hq => ?_⟩
  · rw [h.split, List.append_assoc]
    rfl
  · rw [h.live, List.filter_append, List.filter_singleton, hx, List.append_assoc]
    rfl
  · exact ⟨List.mem_append_left _ (hzero x hx).1, (hzero x hx).2⟩
  · exact ⟨List.mem_append_left _ hq.1, hq.2⟩

/-- An entry that moves up. -/
theorem move (hnodup : (σ.rings.live i).Nodup) (hi : i ≠ 0) (h : RingAged i σ P (some p :: B) τ)
    (hp : σ.overdue (some p) = true) (hmove : MovesUp i p τ τ') :
    RingAged i σ (P ++ [some p]) B τ' := by
  rw [h.split, List.nodup_append] at hnodup
  obtain ⟨-, -, hdisjoint⟩ := hnodup
  have hpP : some p ∉ P := fun hp => hdisjoint _ hp _ List.mem_cons_self rfl
  have hpτ : τ.proc p = σ.proc p := (h.procs p).resolve_right fun hq => hpP hq.1
  have hmem : some p ∈ τ.rings.live i := by
    rw [h.live]
    exact List.mem_append_right _ List.mem_cons_self
  have hqn : (τ'.proc p).qn = (σ.proc p).qn - 1 := by rw [hmove.qn, hpτ]
  refine ⟨hmove.filed, ?_, ?_, ?_, fun k hk hk' => ?_, fun q => ?_⟩
  · rw [h.split, List.append_assoc]
    rfl
  · have hkept : some p ∉ P.filter fun x => !σ.overdue x := fun hp =>
      hpP (List.mem_of_mem_filter hp)
    rw [hmove.left, h.live, List.erase_append_right _ hkept, List.erase_cons_head,
      List.filter_append, List.filter_singleton, hp]
    simp
  · obtain ⟨M, hM, hzero⟩ := h.up
    -- the processes that have moved up before are not `p`
    have hzero' (x : Option Slot) (hx : x ∈ M) :
        x ∈ P ++ [some p] ∧ ∀ q, x = some q → (τ'.proc q).waittime = 0 := by
      refine ⟨List.mem_append_left _ (hzero x hx).1, ?_⟩
      rintro q rfl
      have hne : q ≠ p := by
        rintro rfl
        have hq' : some q ∈ τ.rings.live (i - 1) := by
          rw [hM]
          exact List.mem_append_right _ hx
        exact ne_sub_one hi (h.filed.ring_unique hmem hq')
      rw [hmove.procs q hne]
      exact (hzero _ hx).2 q rfl
    rcases hmove.up with ⟨hup, hwait⟩ | hup
    · refine ⟨M ++ [some p], by rw [hup, hM, List.append_assoc], fun x hx => ?_⟩
      rcases List.mem_append.mp hx with hx | hx
      · exact hzero' x hx
      · obtain rfl := List.mem_singleton.mp hx
        refine ⟨List.mem_append_right _ hx, ?_⟩
        rintro q ⟨⟩
        exact hwait
    · exact ⟨M, by rw [hup, hM], hzero'⟩
  · rw [hmove.others k hk hk', h.others k hk hk']
  · by_cases hq : q = p
    · subst hq
      exact .inr ⟨List.mem_append_right _ (List.mem_singleton_self _), hp, hqn⟩
    · rw [hmove.procs q hq]
      exact (h.procs q).imp_right fun hq => ⟨List.mem_append_left _ hq.1, hq.2⟩

/-- One iteration at the index of the first entry ahead. -/
theorem step (hnodup : (σ.rings.live i).Nodup) (hi : i ≠ 0) (h : RingAged i σ P (x :: B) τ)
    (hj : τ.rings.get i j = x) :
    RingAged i σ (P ++ [x]) B (τ.ageBody i j) ∧ Ends i τ (τ.ageBody i j) := by
  have hmem : x ∈ τ.rings.live i := by
    rw [h.live]
    exact List.mem_append_right _ List.mem_cons_self
  obtain ⟨p, rfl, -⟩ := h.filed.entry i x hmem
  -- `p` has not been passed yet, so it is overdue now if it was at the start
  have hsame : τ.overdue (some p) = σ.overdue (some p) := by
    rw [h.split, List.nodup_append] at hnodup
    have hproc := (h.procs p).resolve_right fun hq => hnodup.2.2 _ hq.1 _ List.mem_cons_self rfl
    simp [overdue, hproc]
  rcases h.filed.ageBody hi hmem hj with ⟨hyoung, hstay⟩ | ⟨hold, hmove⟩
  · rw [hstay]
    exact ⟨h.keep (hsame ▸ hyoung), .inl ⟨rfl, rfl⟩⟩
  · exact ⟨h.move hnodup hi (hsame ▸ hold) hmove, .inr hmove.ends⟩

/-- The index of the first entry ahead. -/
theorem get_ahead (h : RingAged i σ P (x :: B) τ) {m : ℕ}
    (hm : m + (B.length + 1) = size NPROC τ.rings.face[i] τ.rings.back[i]) :
    τ.rings.get i (place NPROC τ.rings.face[i] m) = x := by
  have hlen : (τ.rings.live i).length = size NPROC τ.rings.face[i] τ.rings.back[i] :=
    length_live
  have hm' : m = (P.filter fun x => !σ.overdue x).length := by
    rw [h.live, List.length_append, List.length_cons] at hlen
    omega
  have hlt : m < (τ.rings.live i).length := by omega
  have hget : (τ.rings.live i)[m] = x := by
    subst hm'
    simp [h.live]
  exact (getElem_live hlt).symm.trans hget

theorem length_le (h : RingAged i σ P B τ) :
    B.length ≤ size NPROC τ.rings.face[i] τ.rings.back[i] := by
  have hlen := congrArg List.length h.live
  rw [Rings.live, length_live, List.length_append] at hlen
  omega

/-- One iteration at the index `j` of the first entry ahead. -/
theorem advance (hnodup : (σ.rings.live i).Nodup) (hi : i ≠ 0) (h : RingAged i σ P B τ)
    (hB : B ≠ []) (hj : place NPROC τ.rings.face[i]
      (size NPROC τ.rings.face[i] τ.rings.back[i] - B.length) = j) :
    ∃ P' B', B'.length + 1 = B.length ∧ RingAged i σ P' B' (τ.ageBody i j) ∧
      Ends i τ (τ.ageBody i j) := by
  have hsize := h.length_le
  cases B with
  | nil => exact absurd rfl hB
  | cons x B =>
    rw [List.length_cons] at hsize hj
    have hget := h.get_ahead (m := size NPROC τ.rings.face[i] τ.rings.back[i] -
      (B.length + 1)) (by omega)
    rw [hj] at hget
    obtain ⟨hstep, hends⟩ := h.step hnodup hi hget
    exact ⟨_, B, rfl, hstep, hends⟩

/-- At the start of an iteration of the loop `for (; j <= back[i]; j++)` the entries from `j` to
`back[i]` are ahead. -/
def Low (i : Level) (σ : Kernel n) (j : ℤ) (τ : Kernel n) : Prop :=
  ∃ P B, RingAged i σ P B τ ∧ 0 ≤ j ∧
    (τ.rings.face[i] = -1 ∧ B = [] ∨
      τ.rings.face[i] ≠ -1 ∧ (B.length : ℤ) = τ.rings.back[i] + 1 - j)

theorem ageGuard_iff : ageGuard i τ j = true ↔ j ≤ τ.rings.back[i] := by
  simp [ageGuard]

theorem Low.step (hnodup : (σ.rings.live i).Nodup) (hi : i ≠ 0) (h : Low i σ j τ)
    (hguard : ageGuard i τ j = true) : Low i σ (j + 1) (τ.ageBody i j) := by
  have hN := Rings.cast_NPROC
  obtain ⟨P, B, h, h0, hB⟩ := h
  have hle := ageGuard_iff.mp hguard
  have hv := h.filed.valid i
  have hne : τ.rings.face[i] ≠ -1 := by
    intro hempty
    have := hv.back_eq hempty
    omega
  have hB := (hB.resolve_left fun hempty => hne hempty.1).2
  have hsize := h.length_le
  have hplace : place NPROC τ.rings.face[i]
      (size NPROC τ.rings.face[i] τ.rings.back[i] - B.length) = j := by
    unfold place size CircularBuffer.Valid at *
    split_ifs at * <;> omega
  have hBne : B ≠ [] := List.ne_nil_of_length_pos (by omega)
  obtain ⟨P', B', hlen, hstep, hends⟩ := h.advance hnodup hi hBne hplace
  refine ⟨P', B', hstep, by omega, ?_⟩
  rcases hends with ⟨hface, hback⟩ | ⟨hone, hface, -⟩ | ⟨-, hface, hback⟩
  · rw [hface, hback]
    exact .inr ⟨hne, by omega⟩
  · -- the ring had one entry, so nothing is ahead
    refine .inl ⟨hface, List.length_eq_zero_iff.mp ?_⟩
    unfold size at hsize
    split_ifs at hsize <;> omega
  · obtain ⟨hf, -⟩ := hv.bounds hne
    have hplace := place_bounds hf.1 hf.2
    rw [hface, hback]
    exact .inr ⟨by omega, by omega⟩

/-- The loop `for (; j <= back[i]; j++)` passes all entries ahead. -/
theorem Low.loop (hnodup : (σ.rings.live i).Nodup) (hi : i ≠ 0) (h : Low i σ j τ) :
    RingAged i σ (σ.rings.live i) [] (forLoop (ageGuard i) (Kernel.ageBody i) NPROC j τ) := by
  have hN := Rings.cast_NPROC
  have hlt (j : ℤ) (τ : Kernel n) (h : Low i σ j τ) (hguard : ageGuard i τ j = true) :
      j < NPROC := by
    obtain ⟨P, B, h, -⟩ := h
    have hle := ageGuard_iff.mp hguard
    have hv := h.filed.valid i
    unfold CircularBuffer.Valid at hv
    omega
  have hfuel : (NPROC : ℤ) ≤ j + (NPROC : ℕ) := by
    obtain ⟨-, -, -, h0, -⟩ := h
    omega
  obtain ⟨j', ⟨P', B', h', -, hB'⟩, hend⟩ :=
    forLoop_exit (fun _ _ h => Low.step hnodup hi h) hlt hfuel h
  -- the guard has failed, so nothing is ahead
  have hend : ¬ j' ≤ _ := fun hle => Bool.eq_false_iff.mp hend (ageGuard_iff.mpr hle)
  obtain rfl : B' = [] := by
    rcases hB' with ⟨-, hnil⟩ | ⟨-, hlen⟩
    · exact hnil
    · exact List.length_eq_zero_iff.mp (by omega)
  rw [h'.split, List.append_nil]
  exact h'

/-- At the start of an iteration of the loop over the part of a wrapped ring up to the end of the
array, that part from `j` on and the part at the start of the array are ahead. -/
def High (i : Level) (σ : Kernel n) (j : ℤ) (τ : Kernel n) : Prop :=
  ∃ P B, RingAged i σ P B τ ∧ j ≤ NPROC ∧
    (B.length : ℤ) = NPROC - j + (τ.rings.back[i] + 1) ∧ τ.rings.face[i] ≠ -1 ∧
    (τ.rings.back[i] < τ.rings.face[i] ∨ j = NPROC)

theorem High.step (hnodup : (σ.rings.live i).Nodup) (hi : i ≠ 0) (h : High i σ j τ)
    (hlt : j < NPROC) : High i σ (j + 1) (τ.ageBody i j) := by
  have hN := Rings.cast_NPROC
  obtain ⟨P, B, h, -, hB, hne, hwrap⟩ := h
  have hwrap := hwrap.resolve_right hlt.ne
  obtain ⟨hf, hb⟩ := (h.filed.valid i).bounds hne
  have hsize := h.length_le
  have hplace : place NPROC τ.rings.face[i]
      (size NPROC τ.rings.face[i] τ.rings.back[i] - B.length) = j := by
    unfold place size at *
    split_ifs at * <;> omega
  have hstart : τ.rings.face[i] ≤ j := by
    unfold size at hsize
    split_ifs at hsize <;> omega
  have hBne : B ≠ [] := List.ne_nil_of_length_pos (by omega)
  obtain ⟨P', B', hlen, hstep, hends⟩ := h.advance hnodup hi hBne hplace
  refine ⟨P', B', hstep, by omega, ?_⟩
  rcases hends with ⟨hface, hback⟩ | ⟨hone, -⟩ | ⟨-, hface, hback⟩
  · rw [hface, hback]
    exact ⟨by omega, hne, .inl hwrap⟩
  · omega
  · -- the start wraps to zero only when the last index is removed
    rw [hface, hback]
    unfold place
    split_ifs <;> exact ⟨by omega, by omega, by omega⟩

/-- The loop over the part of a wrapped ring up to the end of the array leaves the rest ahead. -/
theorem High.loop (hnodup : (σ.rings.live i).Nodup) (hi : i ≠ 0) (h : High i σ j τ)
    (h0 : 0 ≤ j) : Low i σ 0 (forLoop (fun _ j => j < NPROC) (Kernel.ageBody i) NPROC j τ) := by
  have hfuel : (NPROC : ℤ) ≤ j + (NPROC : ℕ) := by omega
  have hloop : ∃ j', High i σ j' (forLoop (fun _ j => j < NPROC) (Kernel.ageBody i) NPROC j τ) ∧
      decide (j' < NPROC) = false :=
    forLoop_exit (fun _ _ h hlt => High.step hnodup hi h (of_decide_eq_true hlt))
      (fun _ _ _ hlt => of_decide_eq_true hlt) hfuel h
  obtain ⟨j', ⟨P, B, h', hj', hB, hne, -⟩, hend⟩ := hloop
  have hend : ¬ j' < NPROC := of_decide_eq_false hend
  exact ⟨P, B, h', le_rfl, .inr ⟨hne, by omega⟩⟩

end RingAged

/-- The aging loop over one ring passes every entry of the ring once. -/
theorem Filed.ringAged (h : σ.Filed) (hi : i ≠ 0) :
    RingAged i σ (σ.rings.live i) [] (σ.ageRing i) := by
  have hv := h.valid i
  have hnodup := h.nodup i
  have hN := Rings.cast_NPROC
  unfold ageRing
  split_ifs with hempty hle
  · have hnil : σ.rings.live i = [] := Rings.live_eq_nil hempty
    have hstart := RingAged.start h i
    rw [hnil] at hstart ⊢
    exact hstart
  · obtain ⟨hf, hb⟩ := hv.bounds hempty
    refine RingAged.Low.loop hnodup hi ⟨[], _, .start h i, hf.1, .inr ⟨hempty, ?_⟩⟩
    rw [Rings.live, length_live]
    unfold size
    split_ifs
    omega
  · obtain ⟨hf, hb⟩ := hv.bounds hempty
    have hhigh : RingAged.High i σ σ.rings.face[i] σ := by
      refine ⟨[], _, .start h i, by omega, ?_, hempty, .inl (by omega)⟩
      rw [Rings.live, length_live]
      unfold size
      split_ifs
      omega
    exact (hhigh.loop hnodup hi hf.1).loop hnodup hi

/-! ## The pass over the rings `1` to `4` -/

/-- What stays in ring `i` when processes that have waited for too long are moved up. -/
def kept (σ : Kernel n) (i : Level) : List (Option Slot) :=
  (σ.rings.live i).filter fun x => decide (i = 0) || !σ.overdue x

/-- The pass, started in `σ`, has been over the rings up to `k`. -/
structure Aged (σ : Kernel n) (k : Level) (τ : Kernel n) : Prop where
  filed : τ.Filed
  live : ∀ i, ∃ M, τ.rings.live i = (if k < i then σ.rings.live i else σ.kept i) ++ M ∧
    (∀ x ∈ M, x ∉ σ.rings.live i ∧ ∀ q, x = some q → (τ.proc q).waittime = 0) ∧
    (k ≤ i → M = [])
  procs : ∀ q, τ.proc q = σ.proc q ∨
    (τ.proc q).qn = (σ.proc q).qn - 1 ∧ σ.overdue (some q) = true ∧
      ∃ i ≤ k, some q ∈ σ.rings.live i

namespace Aged

theorem start (h : σ.Filed) : Aged σ 0 σ := by
  refine ⟨h, fun i => ⟨[], ?_, nofun, fun _ => rfl⟩, fun _ => .inl rfl⟩
  rw [List.append_nil]
  split
  · rfl
  next hi =>
    have hi : i = 0 := Fin.le_zero_iff.mp (not_lt.mp hi)
    simp [kept, hi]

/-- The next ring. -/
theorem step (hσ : σ.Filed) (hi : i ≠ 0) (h : Aged σ (i - 1) τ) : Aged σ i (τ.ageRing i) := by
  have hval := val_sub_one hi
  have hlt : i - 1 < i := Fin.lt_def.mpr (by omega)
  have hring := h.filed.ringAged hi
  -- the pass has not touched ring `i` before
  have hlive : τ.rings.live i = σ.rings.live i := by
    obtain ⟨M, hM, -, hnil⟩ := h.live i
    rw [hM, hnil hlt.le, if_pos hlt, List.append_nil]
  have hproc (q : Slot) (hq : some q ∈ σ.rings.live i) : τ.proc q = σ.proc q := by
    refine (h.procs q).resolve_right ?_
    rintro ⟨-, -, k, hk, hqk⟩
    have := hσ.ring_unique hq hqk
    subst this
    exact absurd hk (not_le.mpr hlt)
  have hover (x : Option Slot) (hx : x ∈ σ.rings.live i) : τ.overdue x = σ.overdue x := by
    obtain ⟨q, rfl, -⟩ := hσ.entry i x hx
    simp [overdue, hproc q hx]
  refine ⟨hring.filed, fun k => ?_, fun q => ?_⟩
  · obtain ⟨M, hM, hzero, hnil⟩ := h.live k
    by_cases hki : k = i
    · subst hki
      refine ⟨[], ?_, nofun, fun _ => rfl⟩
      rw [hring.live, hlive, if_neg (lt_irrefl k), kept]
      simp only [List.append_nil, decide_eq_false hi, Bool.false_or]
      exact List.filter_congr fun x hx => by rw [hover x hx]
    have hcond : (if i < k then σ.rings.live k else σ.kept k) =
        if i - 1 < k then σ.rings.live k else σ.kept k := by
      have hne : (k : ℕ) ≠ i := fun h => hki (Fin.ext h)
      refine if_congr ?_ rfl rfl
      rw [Fin.lt_def, Fin.lt_def]
      omega
    -- who has moved up before is not touched again
    have hzero' (x : Option Slot) (hx : x ∈ M) :
        x ∉ σ.rings.live k ∧ ∀ q, x = some q → ((τ.ageRing i).proc q).waittime = 0 := by
      refine ⟨(hzero x hx).1, ?_⟩
      rintro q rfl
      have hqk : some q ∈ τ.rings.live k := by
        rw [hM]
        exact List.mem_append_right _ hx
      have hsame : (τ.ageRing i).proc q = τ.proc q :=
        (hring.procs q).resolve_right fun hq => hki (h.filed.ring_unique hq.1 hqk)
      rw [hsame]
      exact (hzero _ hx).2 q rfl
    by_cases hk : k = i - 1
    · subst hk
      obtain ⟨M', hM', hzero''⟩ := hring.up
      refine ⟨M', ?_, fun x hx => ⟨fun hxk => ?_, (hzero'' x hx).2⟩, fun hle => ?_⟩
      · rw [hM', hM, hnil le_rfl, List.append_nil, hcond]
      · have hxi : x ∈ σ.rings.live i := hlive ▸ (hzero'' x hx).1
        obtain ⟨q, rfl, -⟩ := hσ.entry i x hxi
        exact hki (hσ.ring_unique hxi hxk)
      · exact absurd hle (not_le.mpr hlt)
    · refine ⟨M, ?_, hzero', fun hle => hnil (hlt.le.trans hle)⟩
      rw [hring.others k hki hk, hM, hcond]
  · rcases hring.procs q with hsame | ⟨hq, hold, hqn⟩
    · rw [hsame]
      refine (h.procs q).imp_right ?_
      rintro ⟨hqn, hold, k, hk, hqk⟩
      exact ⟨hqn, hold, k, hk.trans hlt.le, hqk⟩
    · rw [hlive] at hq
      rw [hproc q hq] at hqn
      rw [hover _ hq] at hold
      exact .inr ⟨hqn, hold, i, le_rfl, hq⟩

end Aged

/-- The aging pass over the four rings. -/
theorem Filed.aged (h : σ.Filed) : Aged σ 4 σ.agePass := by
  have h1 : Aged σ 1 (σ.ageRing 1) := (Aged.start h).step h (by decide)
  have h2 : Aged σ 2 ((σ.ageRing 1).ageRing 2) := h1.step h (by decide)
  have h3 : Aged σ 3 (((σ.ageRing 1).ageRing 2).ageRing 3) := h2.step h (by decide)
  exact h3.step h (by decide)

theorem filed_of_occurrences (hv : σ.rings.Valid) (huniq : ∀ p, σ.rings.occurrences p ≤ 1)
    (hentry : ∀ i x, x ∈ σ.rings.live i → ∃ p, x = some p ∧ (σ.proc p).qn = i) : σ.Filed := by
  refine ⟨hv, fun i => List.nodup_iff_count_le_one.mpr fun x => ?_, hentry⟩
  by_cases hx : x ∈ σ.rings.live i
  · obtain ⟨p, rfl, -⟩ := hentry i x hx
    refine le_trans ?_ (huniq p)
    exact Finset.single_le_sum (f := fun i => (σ.rings.live i).count (some p))
      (fun _ _ => Nat.zero_le _) (Finset.mem_univ i)
  · rw [List.count_eq_zero_of_not_mem hx]
    exact Nat.zero_le 1

/-- After the aging pass no entry of the rings `1` to `4` has waited for more than `age` ticks,
every ring still holds the others in order, ahead of what is new to it, and no process has moved by
more than one level. -/
theorem aging_pass (σ : Kernel n) (hv : σ.rings.Valid) (huniq : ∀ p, σ.rings.occurrences p ≤ 1)
    (hentry : ∀ i x, x ∈ σ.rings.live i → ∃ p, x = some p ∧ (σ.proc p).qn = i) :
    (∀ i, i ≠ 0 → ∀ p, some p ∈ σ.agePass.rings.live i → (σ.agePass.proc p).waittime ≤ age) ∧
    (∀ i, ∃ M, σ.agePass.rings.live i =
        ((σ.rings.live i).filter fun x => decide (i = 0) || !σ.overdue x) ++ M ∧
      ∀ x ∈ M, x ∉ σ.rings.live i) ∧
    ∀ p, (σ.agePass.proc p).qn = (σ.proc p).qn ∨ (σ.agePass.proc p).qn = (σ.proc p).qn - 1 := by
  have haged := (filed_of_occurrences hv huniq hentry).aged
  have hlast (i : Level) : ¬ 4 < i := not_lt.mpr (Fin.le_last i)
  refine ⟨fun i hi p hp => ?_, fun i => ?_, fun p => ?_⟩
  · obtain ⟨M, hM, hzero, -⟩ := haged.live i
    rw [if_neg (hlast i)] at hM
    rw [hM] at hp
    rcases List.mem_append.mp hp with hkept | hnew
    · -- who has stayed has not been touched
      have hyoung : σ.overdue (some p) = false := by
        have hkept := (List.mem_filter.mp hkept).2
        simpa [hi] using hkept
      have hsame := (haged.procs p).resolve_right fun hq => by simp [hyoung] at hq
      rw [hsame]
      exact not_lt.mp fun hlt => Bool.eq_false_iff.mp hyoung (overdue_some.mpr hlt)
    · rw [(hzero _ hnew).2 p rfl]
      decide
  · obtain ⟨M, hM, hnew, -⟩ := haged.live i
    rw [if_neg (hlast i)] at hM
    exact ⟨M, hM, fun x hx => (hnew x hx).1⟩
  · rcases haged.procs p with hsame | ⟨hqn, -⟩
    · exact .inl (by rw [hsame])
    · exact .inr hqn

/-- Ring `1` wraps around and holds the processes `2, 0, 1`; process `0` has waited for 19 ticks. -/
def waitingLong : Kernel 0 :=
  let r := (((Rings.empty none).put 1 62 (some 2)).put 1 63 (some 0)).put 1 0 (some 1)
  let r := { r with face := r.face.set 1 62, back := r.back.set 1 0 }
  let σ : Kernel 0 := { initial none with rings := r }
  ((σ.modify 0 fun q => { q with qn := 1, waittime := 19 }).modify 1
    fun q => { q with qn := 1 }).modify 2 fun q => { q with qn := 1 }

/-- The other two stay in ring `1`, in their order. -/
theorem aging_pass_waitingLong :
    waitingLong.rings.live 1 = [some 2, some 0, some 1] ∧
      ∃ M, waitingLong.agePass.rings.live 1 = [some 2, some 1] ++ M := by
  obtain ⟨-, hlive, -⟩ := aging_pass waitingLong (by decide +kernel) (by decide +kernel)
    (by decide +kernel)
  obtain ⟨M, hM, -⟩ := hlive 1
  have hkept : ((waitingLong.rings.live 1).filter
      fun x => decide ((1 : Level) = 0) || !waitingLong.overdue x) = [some 2, some 1] := by
    decide +kernel
  exact ⟨by decide +kernel, M, by rw [hM, hkept]⟩

end Kernel

end Xv6
