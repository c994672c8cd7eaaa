import Mathlib
import OsnAssignments.Common.FirstMin
import OsnAssignments.Xv6.Kernel

/-!
# What the `FCFS` and `PBS` scans select

Both loops keep a candidate and replace it only by a process with a strictly smaller key, so they
end with the first minimum in the order of the scan: the table order for `FCFS`, and for `PBS` the
cyclic table order that starts at the scheduler's variable `p`. The `PBS` scan starts only when
some process from `p` on is `RUNNABLE`.
-/

namespace Xv6.Kernel

variable {n : ℕ} {σ : Kernel n} {i : ℕ} {p q : Slot}
variable {c : CpuId n}

/-- The process `p` is `RUNNABLE`. -/
abbrev Runnable (σ : Kernel n) (p : Slot) : Prop :=
  (σ.proc p).state = .runnable

/-- The `RUNNABLE` processes of a list of entries. -/
def runnables (σ : Kernel n) (l : List Slot) : List Slot :=
  l.filter fun p => σ.Runnable p

theorem mem_runnables {l : List Slot} : p ∈ σ.runnables l ↔ p ∈ l ∧ σ.Runnable p := by
  simp [runnables]

theorem runnables_append (l l' : List Slot) :
    σ.runnables (l ++ l') = σ.runnables l ++ σ.runnables l' :=
  List.filter_append ..

theorem runnables_cons_of_runnable (hp : σ.Runnable p) (l : List Slot) :
    σ.runnables (p :: l) = p :: σ.runnables l :=
  List.filter_cons_of_pos (by simpa using hp)

theorem runnables_cons_of_not (hp : ¬ σ.Runnable p) (l : List Slot) :
    σ.runnables (p :: l) = σ.runnables l :=
  List.filter_cons_of_neg (by simpa using hp)

/-! ## `FCFS` -/

theorem pickFcfs_eq_argmin (σ : Kernel n) :
    σ.pickFcfs = (σ.runnables (List.finRange NPROC)).argmin
      fun p => int32 (σ.proc p).ctime := by
  unfold pickFcfs runnables List.argmin
  rw [List.foldl_filter]
  congr 1
  funext pro p
  unfold fcfsBody
  by_cases hp : σ.Runnable p
  · rw [if_neg (not_not.mpr hp), if_pos (decide_eq_true hp)]
    cases pro <;> rfl
  · rw [if_pos hp, if_neg (by simpa using hp)]

/-- `FCFS` selects the `RUNNABLE` process whose `ctime` is the smallest `int`, and among those the
one with the lowest index. -/
theorem pickFcfs_eq_some_iff : σ.pickFcfs = some p ↔ σ.Runnable p ∧ ∀ q, σ.Runnable q →
      int32 (σ.proc p).ctime < int32 (σ.proc q).ctime ∨
        int32 (σ.proc p).ctime = int32 (σ.proc q).ctime ∧ p ≤ q := by
  have hsorted : (σ.runnables (List.finRange NPROC)).Pairwise (id · < id ·) :=
    (List.pairwise_lt_finRange NPROC).filter _
  rw [pickFcfs_eq_argmin, FirstMin.argmin_eq_some_iff hsorted]
  simp [mem_runnables]

/-! ## `PBS` -/

/-- How far entry `q` is from entry `i` in cyclic table order. -/
def offset (i : ℕ) (q : Slot) : ℕ :=
  if i ≤ q then q - i else q + NPROC - i

/-- The table in cyclic order from entry `i` on. -/
def slotsAround (i : ℕ) : List Slot :=
  slotsFrom i ++ (List.finRange NPROC).take i

theorem mem_slotsAround (i : ℕ) (q : Slot) : q ∈ slotsAround i := by
  have hq : q ∈ (List.finRange NPROC).take i ++ (List.finRange NPROC).drop i := by
    rw [List.take_append_drop]
    exact List.mem_finRange q
  rw [List.mem_append] at hq
  exact List.mem_append.mpr hq.symm

theorem mem_slotsFrom : q ∈ slotsFrom i ↔ i ≤ q := by
  unfold slotsFrom
  rw [List.mem_drop_iff_getElem]
  constructor
  · rintro ⟨j, hj, rfl⟩
    simp
  · intro hi
    refine ⟨q - i, ?_, ?_⟩
    · rw [List.length_finRange]
      omega
    · ext
      simp
      omega

theorem mem_take_finRange (h : q ∈ (List.finRange NPROC).take i) : (q : ℕ) < i := by
  obtain ⟨j, hj, rfl⟩ := List.mem_take_iff_getElem.mp h
  simp only [List.getElem_finRange]
  exact Nat.lt_of_lt_of_le hj (Nat.min_le_left _ _)

theorem pairwise_slotsAround (hi : i ≤ NPROC) :
    (slotsAround i).Pairwise (offset i · < offset i ·) := by
  have htable := List.pairwise_lt_finRange NPROC
  refine List.pairwise_append.mpr ⟨?_, ?_, fun a ha b hb => ?_⟩
  · refine List.Pairwise.imp_of_mem (fun {a b} ha hb hab => ?_) (htable.drop (i := i))
    have ha : i ≤ a := mem_slotsFrom.mp ha
    have hb : i ≤ b := mem_slotsFrom.mp hb
    rw [offset, offset, if_pos ha, if_pos hb]
    omega
  · refine List.Pairwise.imp_of_mem (fun {a b} ha hb hab => ?_) (htable.take (i := i))
    have ha := mem_take_finRange ha
    have hb := mem_take_finRange hb
    rw [offset, offset, if_neg (by omega), if_neg (by omega)]
    omega
  · have ha : i ≤ a := mem_slotsFrom.mp ha
    have hb := mem_take_finRange hb
    rw [offset, offset, if_pos ha, if_neg (by omega)]
    omega

/-- The inner loops of `PBS`, from the candidate `hp` on. -/
theorem foldl_pbsBody (σ : Kernel n) (hp : Slot) (l : List Slot) :
    some (l.foldl σ.pbsBody hp) = (hp :: σ.runnables l).argmin fun p => (σ.proc p).priority := by
  have hfold (l : List Slot) (hp : Slot) : some (l.foldl σ.pbsBody hp) =
      (σ.runnables l).foldl
        (List.argAux fun a b => (σ.proc a).priority < (σ.proc b).priority) (some hp) := by
    induction l generalizing hp with
    | nil => rfl
    | cons p l ih =>
      rw [List.foldl_cons, ih, pbsBody]
      by_cases hrun : σ.Runnable p
      · rw [if_neg (not_not.mpr hrun), runnables_cons_of_runnable hrun, List.foldl_cons]
        congr 1
        exact apply_ite some _ _ _
      · rw [if_pos hrun, runnables_cons_of_not hrun]
  exact hfold l hp

/-- Splitting the table at the entry `p`. -/
theorem take_drop_of_finRange_eq {before after : List Slot}
    (h : List.finRange NPROC = before ++ p :: after) :
    (List.finRange NPROC).take p = before ∧ slotsFrom (p + 1) = after := by
  have hget : (List.finRange NPROC)[before.length]? = some p := by
    rw [h]
    simp
  obtain ⟨hlt, heq⟩ := List.getElem?_eq_some_iff.mp hget
  have hp : (p : ℕ) = before.length := by
    rw [← heq, List.getElem_finRange]
    rfl
  rw [slotsFrom, hp, h]
  simp

/-- From a `RUNNABLE` process at or after `p` on, `PBS` scans the whole table in cyclic order. -/
theorem pickPbs_eq_argmin (h : ∃ q : Slot, i ≤ q ∧ σ.Runnable q) :
    σ.pickPbs i = (σ.runnables (slotsAround i)).argmin fun p => (σ.proc p).priority := by
  obtain ⟨q, hiq, hq⟩ := h
  cases hfind : (slotsFrom i).find? fun p => σ.Runnable p with
  | none =>
    have hnone := List.find?_eq_none.mp hfind q (mem_slotsFrom.mpr hiq)
    exact absurd (decide_eq_true hq) hnone
  | some p =>
    obtain ⟨hp, before, after, hsplit, hbefore⟩ := List.find?_eq_some_iff_append.mp hfind
    have hp : σ.Runnable p := of_decide_eq_true hp
    have hskip : σ.runnables before = [] :=
      List.filter_eq_nil_iff.mpr fun a ha => by simpa using hbefore a ha
    -- the loops split the table at `p`, the cyclic order splits it at `i`
    have htable : List.finRange NPROC = ((List.finRange NPROC).take i ++ before) ++ p :: after := by
      rw [List.append_assoc, ← hsplit, slotsFrom, List.take_append_drop]
    obtain ⟨htake, hafter⟩ := take_drop_of_finRange_eq htable
    have hpick : σ.pickPbs i = some (((List.finRange NPROC).take p).foldl σ.pbsBody
        ((slotsFrom (p + 1)).foldl σ.pbsBody p)) := by
      unfold pickPbs
      rw [hfind]
      rfl
    rw [hpick, ← List.foldl_append, foldl_pbsBody, hafter, htake, slotsAround, hsplit]
    simp only [runnables_append, runnables_cons_of_runnable hp, hskip, List.append_nil,
      List.nil_append, List.cons_append]

/-- `PBS` selects nothing when no process at or after `p` is `RUNNABLE`. -/
theorem pickPbs_eq_none_iff : σ.pickPbs i = none ↔ ∀ q : Slot, i ≤ q → ¬ σ.Runnable q := by
  unfold pickPbs
  rw [Option.bind_eq_bind, Option.bind_eq_none_iff]
  constructor
  · intro h q hiq hq
    cases hfind : (slotsFrom i).find? fun p => σ.Runnable p with
    | none => exact List.find?_eq_none.mp hfind q (mem_slotsFrom.mpr hiq) (decide_eq_true hq)
    | some p => cases h p hfind
  · intro h p hfind
    have hp : σ.Runnable p := by simpa using List.find?_some hfind
    exact absurd hp (h p (mem_slotsFrom.mp (List.mem_of_find?_eq_some hfind)))

/-- When some process at or after `p` is `RUNNABLE`, `PBS` selects the first one of the smallest
priority value in the whole table, in cyclic order from `p` on. -/
theorem pickPbs_eq_some_iff :
    σ.pickPbs i = some p ↔ (∃ q : Slot, i ≤ q ∧ σ.Runnable q) ∧ σ.Runnable p ∧
      ∀ q, σ.Runnable q → (σ.proc p).priority < (σ.proc q).priority ∨
        (σ.proc p).priority = (σ.proc q).priority ∧ offset i p ≤ offset i q := by
  by_cases h : ∃ q : Slot, i ≤ q ∧ σ.Runnable q
  · have hi : i ≤ NPROC := by
      obtain ⟨q, hq, -⟩ := h
      omega
    have hsorted : (σ.runnables (slotsAround i)).Pairwise (offset i · < offset i ·) :=
      (pairwise_slotsAround hi).filter _
    rw [pickPbs_eq_argmin h, FirstMin.argmin_eq_some_iff hsorted]
    simp [mem_runnables, mem_slotsAround, h]
  · rw [pickPbs_eq_none_iff.mpr fun q hiq hq => h ⟨q, hiq, hq⟩]
    simp [h]

/-- `p` is a `RUNNABLE` process with the smallest priority value, and among those the first in
cyclic table order from entry `i` on. -/
def FirstBest (σ : Kernel n) (i : ℕ) (p : Slot) : Prop :=
  σ.Runnable p ∧ ∀ q, σ.Runnable q → (σ.proc p).priority < (σ.proc q).priority ∨
    (σ.proc p).priority = (σ.proc q).priority ∧ offset i p ≤ offset i q

/-- If no process from entry `i` on is `RUNNABLE`, the order from entry `i` on is the order from the
first entry on. -/
theorem FirstBest.of_restart {i : ℕ} (hi : i ≤ NPROC) (hnone : ∀ q : Slot, i ≤ q → ¬ σ.Runnable q)
    (h : σ.FirstBest 0 p) : σ.FirstBest i p := by
  have hoffset (q : Slot) (hq : σ.Runnable q) : offset i q + i = offset 0 q + NPROC := by
    have hlt : ¬ i ≤ q := fun hle => hnone q hle hq
    unfold offset
    rw [if_neg hlt, if_pos (Nat.zero_le _)]
    omega
  refine ⟨h.1, fun q hq => (h.2 q hq).imp_right fun hsame => ⟨hsame.1, ?_⟩⟩
  have hp := hoffset p h.1
  have hq := hoffset q hq
  have hle := hsame.2
  omega

/-- The loop of `scheduler` on CPU `c` from its scan with the variable `p` to the next dispatch: if
the scan finds nothing, the next pass starts at the first entry. -/
def nextDispatch (b : Build) (σ : Kernel n) (c : CpuId n) : Option (Kernel n × Event) := do
  let (σ₁, e) ← σ.select b c
  match e with
  | .dispatch p => return (σ₁, .dispatch p)
  | _ =>
    let (σ₂, _) ← σ₁.acquire c
    σ₂.select b c

/-- What `select` does when the scan finds a process, and when it finds none. -/
theorem select_pbs (hctl : (σ.cpus c).ctl = .loop) (hlock : σ.lock = some c) :
    σ.select .pbs c = match σ.pickPbs (σ.cpus c).p with
      | none => some (σ.endPass c, .silent)
      | some p => some (σ.dispatch .pbs p c, .dispatch p) := by
  unfold select pick
  cases σ.pickPbs (σ.cpus c).p <;> simp [guard, hctl, hlock]

/-- The end of a pass and the start of the next one. -/
theorem acquire_endPass (htrap : (σ.cpus c).trap = .none) :
    ∃ σ₂ : Kernel n, (σ.endPass c).acquire c = some (σ₂, .silent) ∧ (σ₂.cpus c).ctl = .loop ∧
      σ₂.lock = some c ∧ (σ₂.cpus c).p = 0 ∧ σ₂.proc = σ.proc := by
  refine ⟨{ σ.endPass c with lock := some c }.modifyCpu c fun k => { k with ctl := .loop, p := 0 },
    ?_, ?_, rfl, ?_, rfl⟩
  · simp [acquire, endPass, modifyCpu, guard, htrap]
  · simp [modifyCpu]
  · simp [modifyCpu]

/-- The next dispatch of the `PBS` loop, from any place in the table on. -/
theorem nextDispatch_pbs (hctl : (σ.cpus c).ctl = .loop)
    (htrap : (σ.cpus c).trap = .none) (hlock : σ.lock = some c) (hcursor : (σ.cpus c).p ≤ NPROC)
    (hready : ∃ q, σ.Runnable q) : ∃ p, σ.FirstBest (σ.cpus c).p p ∧
      ∃ σ', σ.nextDispatch .pbs c = some (σ', .dispatch p) ∧ (σ'.cpus c).proc = some p := by
  unfold nextDispatch
  rw [select_pbs hctl hlock]
  cases hpick : σ.pickPbs (σ.cpus c).p with
  | some p =>
    refine ⟨p, (pickPbs_eq_some_iff.mp hpick).2, σ.dispatch .pbs p c, rfl, ?_⟩
    simp [dispatch, modifyCpu]
  | none =>
    -- the pass ends, and the next one scans the whole table
    have hnone := pickPbs_eq_none_iff.mp hpick
    obtain ⟨σ₂, hacquire, hctl₂, hlock₂, hcursor₂, hproc₂⟩ := acquire_endPass htrap
    obtain ⟨q, hq⟩ := hready
    have hq₂ : σ₂.Runnable q := by
      rw [Runnable, hproc₂]
      exact hq
    cases hpick₂ : σ₂.pickPbs 0 with
    | none => exact absurd hq₂ (pickPbs_eq_none_iff.mp hpick₂ q (Nat.zero_le _))
    | some p =>
      have hbest : σ₂.FirstBest 0 p := (pickPbs_eq_some_iff.mp hpick₂).2
      have hbest : σ.FirstBest 0 p := by
        simpa only [FirstBest, Runnable, hproc₂] using hbest
      refine ⟨p, hbest.of_restart hcursor hnone, σ₂.dispatch .pbs p c, ?_, ?_⟩
      · simp [hacquire, select_pbs hctl₂ hlock₂, hcursor₂, hpick₂]
      · simp [dispatch, modifyCpu]

/-- Wherever the variable `p` points, the next process that the `PBS` loop dispatches is the first
`RUNNABLE` process of the smallest priority value, in cyclic table order from `p` on. -/
theorem pbs_dispatches (σ : Kernel n) (c : CpuId n) (hctl : (σ.cpus c).ctl = .loop)
    (htrap : (σ.cpus c).trap = .none) (hlock : σ.lock = some c) (hcursor : (σ.cpus c).p ≤ NPROC)
    (hready : ∃ q, σ.Runnable q) :
    ∃ p σ', σ.nextDispatch .pbs c = some (σ', .dispatch p) ∧ (σ'.cpus c).proc = some p ∧
      σ.FirstBest (σ.cpus c).p p := by
  obtain ⟨p, hbest, σ', hnext, hproc⟩ := nextDispatch_pbs hctl htrap hlock hcursor hready
  exact ⟨p, σ', hnext, hproc, hbest⟩

/-- The scheduler of the only CPU is about to look at entry `5`; the processes `2` and `7` are
`RUNNABLE`, with the same priority value. -/
def twoReady : Kernel 0 :=
  let σ : Kernel 0 := { initial none with lock := some 0 }
  let σ := σ.modifyCpu 0 fun k => { k with ctl := .loop, p := 5 }
  (σ.modify 2 fun q => { q with state := .runnable, priority := 60 }).modify 7
    fun q => { q with state := .runnable, priority := 60 }

/-- It dispatches process `7`. -/
theorem pbs_dispatches_twoReady :
    ∃ p σ', twoReady.nextDispatch .pbs 0 = some (σ', .dispatch p) ∧ p = 7 := by
  obtain ⟨p, σ', hnext, -, hrun, hbest⟩ :=
    pbs_dispatches twoReady 0 rfl rfl rfl (by decide) ⟨2, by decide +kernel⟩
  refine ⟨p, σ', hnext, ?_⟩
  -- an entry other than `2` and `7` is not `RUNNABLE`, and `2` comes after `7`
  have hcases : ∀ q, twoReady.Runnable q → q = 2 ∨ q = 7 := by decide +kernel
  have htwo : (twoReady.proc 2).priority = (twoReady.proc 7).priority := by decide +kernel
  rcases hcases p hrun with rfl | rfl
  · rcases hbest 7 (by decide +kernel) with hlt | ⟨-, hle⟩
    · omega
    · exact absurd hle (by decide)
  · rfl

end Xv6.Kernel
