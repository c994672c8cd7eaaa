import Mathlib
import OsnAssignments.Common.Allotment
import OsnAssignments.Vaccination.Conservation

/-!
# Seats

A student that has taken a slot, a ticket for a seat, looks for a seat in `filled`.

The zone begins to clear the seats when it has seen that the last slot is taken. If the student that
took it sits down after that, then there are eight slots and seven seats, and the last student finds
no seat.
-/

namespace Vaccination

open State Allotment

variable {S : Setup}

/-- The student inside a zone as one that looks for a seat. -/
def seatSeeker : Option (StudentPc S) → Seeker 8
  | some (.searching _ k) => .looking k
  | some (.claiming _ k) => .claiming k
  | _ => .none

/-- The seats that a zone has cleared for the next slots. -/
def ZonePc.cleared : ZonePc S → ℕ
  | .clearing .before k => k
  | .reducing => 8
  | .publishing _ => 8
  | _ => 0

/-- The seats of a zone. -/
structure SeatsOk (x : Zone S) (h : Option (StudentPc S)) : Prop where
  seats : Allotment.Ok x.filled x.slots (seatSeeker h)
  cleared : Cleared x.filled x.pc.cleared
  alone : 0 < x.pc.cleared → seatSeeker h = .none
  unpublished_le : x.pc.unpublished ≤ 8

variable {σ σ' : State S} {s : S.StudentId} {z : S.ZoneId} {e : Event S} {isOver : Bool}
  {x x' : Zone S} {h h' : Option (StudentPc S)}

/-- A zone that has slots left does not clear the seats for the next ones. -/
theorem ZonePc.cleared_of_offers {pc : ZonePc S} (hoffers : pc.Offers isOver) : pc.cleared = 0 := by
  cases pc with
  | clearing c => cases c <;> simp_all [ZonePc.Offers, ZonePc.cleared]
  | _ => simp_all [ZonePc.Offers, ZonePc.cleared]

/-- The student inside a zone moves, and is not looking for a seat. -/
theorem SeatsOk.of_holder (hok : SeatsOk x h) (hbefore : seatSeeker h = .none)
    (hafter : seatSeeker h' = .none) : SeatsOk x h' :=
  { hok with
    seats := by
      rw [hafter, ← hbefore]
      exact hok.seats
    alone := fun _ => hafter }

theorem SeatsOk.visit {doses published delivered : ℤ} (hok : SeatsOk x h)
    (hzone : ZoneOk isOver x h doses published delivered) (hv : Visit s z x h x' h' e) :
    SeatsOk x' h' := by
  have hseats := hok.seats
  cases hv with
  | lock | unlock => exact { hok.of_holder rfl rfl with }
  | offer | refuse | dose => exact hok.of_holder rfl rfl
  | take =>
    -- the zone offers slots, so it is not about to publish new ones
    have hpos : 0 < x.slots := hzone.taking rfl
    have hcleared := ZonePc.cleared_of_offers (hzone.offers (by omega))
    exact ⟨hseats.draw hpos, hok.cleared, fun hlt => absurd hlt (by simp [hcleared]),
      hok.unpublished_le⟩
  | skip hk hfull =>
    exact ⟨hseats.skip hk hfull, hok.cleared, fun hlt => absurd (hok.alone hlt) nofun,
      hok.unpublished_le⟩
  | find hk hfree =>
    exact ⟨hseats.find hk hfree, hok.cleared, fun hlt => absurd (hok.alone hlt) nofun,
      hok.unpublished_le⟩
  | miss hk => exact absurd hseats.lt hk
  | claim =>
    have hcleared : x.pc.cleared = 0 := by
      by_contra hne
      exact absurd (hok.alone (by omega)) nofun
    refine ⟨hseats.claim s, ?_, fun _ => rfl, hok.unpublished_le⟩
    show Cleared _ x.pc.cleared
    rw [hcleared]
    exact Cleared.zero _

/-- A student that has taken a slot finds a seat. -/
theorem SeatsOk.seated (hok : SeatsOk x h) (hv : Visit s z x h x' h' e) (t : S.StudentId)
    (y : S.ZoneId) : e ≠ .unseated t y := by
  cases hv with
  | miss hk => exact absurd hok.seats.lt hk
  | _ => exact nofun

/-- The zone has cleared no seats for the next slots. -/
theorem SeatsOk.of_seats (hseats : Allotment.Ok x.filled x.slots (seatSeeker h))
    (hcleared : x.pc.cleared = 0) (hunp : x.pc.unpublished = 0) : SeatsOk x h where
  seats := hseats
  cleared := by
    rw [hcleared]
    exact Cleared.zero _
  alone hlt := absurd hlt (by simp [hcleared])
  unpublished_le := by simp [hunp]

theorem val_of_succ?_none {n : ℕ} {k : Fin n} (hk : succ? k = none) : k.val + 1 = n := by
  unfold succ? at hk
  split_ifs at hk
  omega

theorem val_of_succ?_some {n : ℕ} {k k' : Fin n} (hk : succ? k = some k') : k'.val = k.val + 1 := by
  unfold succ? at hk
  split_ifs at hk
  cases hk
  rfl

/-- The loops that clear the seats. -/
theorem SeatsOk.clear {c : Clear} {k : Fin 8} (hok : SeatsOk x h) (hpc : x.pc = .clearing c k)
    (hapart : x.pc = .clearing .before 0 → seatSeeker h = .none) :
    SeatsOk { x with
      filled := Function.update x.filled k none
      pc := (succ? k).elim (afterClear c) (.clearing c) } h := by
  have hcleared := hok.cleared
  have halone : c = .before → seatSeeker h = .none := by
    rintro rfl
    by_cases hk : k = 0
    · exact hapart (hk ▸ hpc)
    · refine hok.alone ?_
      rw [hpc]
      exact Fin.pos_of_ne_zero hk
  rw [hpc] at hcleared
  -- the place after the step, and how far it says that the seats are cleared
  have hnext : ((succ? k).elim (afterClear c) (.clearing c) : ZonePc S).unpublished = 0 ∧
      (((succ? k).elim (afterClear c) (.clearing c) : ZonePc S).cleared = 0 ∨
        c = .before ∧
          ((succ? k).elim (afterClear c) (.clearing c) : ZonePc S).cleared = k + 1) := by
    cases hk : succ? k with
    | none =>
      have hlast := val_of_succ?_none hk
      cases c with
      | before => exact ⟨rfl, .inr ⟨rfl, hlast.symm⟩⟩
      | _ => exact ⟨rfl, .inl rfl⟩
    | some =>
      have hval := val_of_succ?_some hk
      cases c with
      | before => exact ⟨rfl, .inr ⟨rfl, hval⟩⟩
      | _ => exact ⟨rfl, .inl rfl⟩
  obtain ⟨hunp, hzero | ⟨rfl, hsucc⟩⟩ := hnext
  · exact .of_seats (hok.seats.clear k) hzero hunp
  · refine ⟨hok.seats.clear k, ?_, fun _ => halone rfl, by simp [hunp]⟩
    show Cleared _ (ZonePc.cleared _)
    rw [hsucc]
    exact Cleared.step hcleared

theorem SeatsOk.turn {comps : S.CompId → Comp S} (hok : SeatsOk x h)
    (hapart : x.pc = .clearing .before 0 → seatSeeker h = .none)
    (ht : Turn z comps isOver x x' e) : SeatsOk x' h := by
  have hseats := hok.seats
  cases ht with
  | clear hpc => exact hok.clear hpc hapart
  | reduce hpc =>
    have hcleared := hok.cleared
    have halone := hok.alone
    rw [hpc] at hcleared halone
    exact ⟨hseats, hcleared, halone, min_le_right ..⟩
  | @publish a hpc =>
    have hcleared := hok.cleared
    have halone := hok.alone
    have hle := hok.unpublished_le
    rw [hpc] at hcleared halone hle
    refine .of_seats ?_ rfl rfl
    rw [halone (by simp [ZonePc.cleared])]
    exact hcleared.renew hle
  | _ => exact .of_seats hseats rfl rfl

/-! ## Runs -/

/-- The student has taken a slot in zone `z` and has no seat yet. -/
def StudentPc.seatless (z : S.ZoneId) : StudentPc S → Bool
  | .searching i _ => i = z
  | .claiming i _ => i = z
  | _ => false

/-- A zone begins to clear the seats for the next slots only when every student that has taken one
of its slots has a seat. -/
def PhasesApart (σ : State S) : Action S → Prop
  | .zone z => (σ.zones z).pc = .clearing .before 0 →
      ∀ s, (σ.students s).pc.seatless z = false
  | _ => True

instance (σ : State S) (a : Action S) : Decidable (PhasesApart σ a) :=
  match a with
  | .zone z => inferInstanceAs (Decidable ((σ.zones z).pc = .clearing .before 0 →
      ∀ s, (σ.students s).pc.seatless z = false))
  | .student _ _ => isTrue trivial
  | .comp _ _ => isTrue trivial
  | .finish => isTrue trivial

theorem seatSeeker_eq_none (hlocked : Locked σ)
    (hall : ∀ s, (σ.students s).pc.seatless z = false) : seatSeeker (holder σ z) = .none := by
  cases hh : holder σ z with
  | none => rfl
  | some pc =>
    obtain ⟨s, hs, hin⟩ := hlocked.zone.exists_of_holder hh
    have hno := hall s
    rw [hs] at hno
    cases pc with
    | searching | claiming =>
      cases hin
      simp [StudentPc.seatless] at hno
    | _ => rfl

theorem Turn.seated {comps : S.CompId → Comp S} (ht : Turn z comps isOver x x' e)
    (t : S.StudentId) (y : S.ZoneId) : e ≠ .unseated t y := by
  cases ht <;> exact nofun

variable {a : Action S} {hist : History S}

/-- One statement keeps the seats of all zones in order, and no student is left without a seat. -/
theorem seats_step (hinv : Inv hist σ) (hok : ∀ z, SeatsOk (σ.zones z) (holder σ z))
    (hapart : PhasesApart σ a) (hm : Moved σ a e σ') :
    (∀ z, SeatsOk (σ'.zones z) (holder σ' z)) ∧ ∀ t y, e ≠ .unseated t y := by
  refine ⟨fun z => ?_, fun t y => ?_⟩
  · cases hm.atZone z with
    | apart hzone hholder =>
      rw [hzone, hholder]
      exact hok z
    | visit hv => exact (hok z).visit (hinv.zone z) hv
    | turn ht hholder =>
      rw [hholder]
      exact (hok z).turn (fun hpc => seatSeeker_eq_none hinv.locked (hapart hpc)) ht
  · cases hm.atZone y with
    | apart _ _ he =>
      rintro rfl
      exact he rfl
    | visit hv => exact (hok y).seated hv t y
    | turn ht => exact ht.seated t y

/-- A student that has taken a slot has a free seat in front of it until it claims one, and the loop
that looks for a seat does not reach its end. -/
structure Seated (hist : History S) (σ : State S) : Prop where
  free : ∀ s z k, (σ.students s).pc = .searching z k →
    ∃ i : Fin 8, k ≤ i ∧ (σ.zones z).filled i = none
  found : ∀ s z k, (σ.students s).pc = .claiming z k → (σ.zones z).filled k = none
  never : ∀ x ∈ hist, ∀ s z, x.2.2 ≠ .unseated s z

/-- The seats of all zones, in runs in which the phases of the zones do not overlap. -/
theorem seats_of_run (hrun : (simulation S).Run hist σ)
    (hapart : ∀ x ∈ hist, PhasesApart x.1 x.2.1) :
    (∀ z, SeatsOk (σ.zones z) (holder σ z)) ∧ ∀ x ∈ hist, ∀ s z, x.2.2 ≠ .unseated s z := by
  induction hrun with
  | init hinit =>
    obtain rfl := hinit
    exact ⟨fun z => .of_seats ⟨Int.natCast_nonneg _, nofun, nofun⟩ rfl rfl, by simp⟩
  | @step hist σ σ' l hrun hstep ih =>
    obtain ⟨hok, hnever⟩ := ih fun x hx => hapart x (List.mem_cons_of_mem _ hx)
    have hinv := Inv.of_run hrun
    obtain ⟨hok', hlast⟩ := seats_step hinv hok (hapart _ List.mem_cons_self)
      (moved_of_step hinv.locked hstep)
    exact ⟨hok', List.forall_mem_cons.mpr ⟨hlast, hnever⟩⟩

/-- An allotted student always finds a seat, in every run in which a zone begins to clear the seats
for the next slots only when the students of the last ones have theirs. -/
theorem allotted_student_seated (hrun : (simulation S).Run hist σ)
    (hapart : ∀ x ∈ hist, PhasesApart x.1 x.2.1) : Seated hist σ := by
  obtain ⟨hok, hnever⟩ := seats_of_run hrun hapart
  have hlocked := (Inv.of_run hrun).locked
  have hseats : ∀ s z, (σ.students s).pc.inside = some z →
      Allotment.Ok (σ.zones z).filled (σ.zones z).slots (seatSeeker (some (σ.students s).pc)) := by
    intro s z hin
    have hholder : holder σ z = some (σ.students s).pc := hlocked.zone.holder_eq hin
    rw [← hholder]
    exact (hok z).seats
  refine ⟨fun s z k hpc => ?_, fun s z k hpc => ?_, hnever⟩
  · have hok := hseats s z (by rw [hpc]; rfl)
    rw [hpc] at hok
    exact hok.ahead k rfl
  · have hok := hseats s z (by rw [hpc]; rfl)
    rw [hpc] at hok
    exact hok.found k rfl

/-- The statements of student `s` in a visit. -/
def visit (S : Setup) (s n : ℕ) : List (Action S) :=
  haveI : NeZero S.noOfStudents := ⟨Nat.pos_iff_ne_zero.mp S.students_pos⟩
  List.replicate n (.student (Fin.ofNat _ s) true)

/-- The zone publishes eight slots, and the student that takes the first of them tests the first
seat. -/
theorem allotted_student_seated_first :
    ∃ (hist : History ⟨1, 1, 1, by decide, by decide, by decide⟩) (σ : State _),
      (simulation _).Run hist σ ∧ (∀ x ∈ hist, PhasesApart x.1 x.2.1) ∧
        (σ.students 0).pc = .searching 0 0 ∧ Seated hist σ := by
  obtain ⟨hist, σ, hrun, htest⟩ := exists_run (S := ⟨1, 1, 1, by decide, by decide, by decide⟩)
    (firstBatch _ ++ List.replicate 26 (.zone 0) ++ visit _ 0 4)
    (fun hist σ => decide ((∀ x ∈ hist, PhasesApart x.1 x.2.1) ∧
      (σ.students 0).pc = .searching 0 0))
    (by decide +kernel)
  obtain ⟨hapart, hpc⟩ := of_decide_eq_true htest
  exact ⟨hist, σ, hrun, hapart, hpc, allotted_student_seated hrun hapart⟩

/-- A student fills the last seat after the zone has cleared the seats for its next phase, so that
the last of eight more students finds no seat. -/
theorem not_allotted_student_seated :
    ∃ (hist : History ⟨1, 1, 16, by decide, by decide, by decide⟩) (σ : State _),
      (simulation _).Run hist σ ∧ (∃ x ∈ hist, x.2.2 = .unseated 15 0) ∧ ¬Seated hist σ := by
  obtain ⟨hist, σ, hrun, htest⟩ := exists_run (S := ⟨1, 1, 16, by decide, by decide, by decide⟩)
    (List.replicate 5 (.comp 0 0) ++ [.comp 0 16, .comp 0 1] ++ List.replicate 26 (.zone 0) ++
      (List.range 7).flatMap (fun i => visit _ i (i + 8)) ++ visit _ 7 12 ++
      List.replicate 21 (.zone 0) ++ visit _ 7 3 ++
      (List.range 7).flatMap (fun i => visit _ (i + 8) (i + 8)) ++ visit _ 15 13)
    (fun hist _ => decide (∃ x ∈ hist, x.2.2 = .unseated 15 0))
    (by decide +kernel)
  obtain ⟨x, hx, hevent⟩ := of_decide_eq_true htest
  exact ⟨hist, σ, hrun, ⟨x, hx, hevent⟩, fun h => h.never x hx 15 0 hevent⟩

end Vaccination
