import Mathlib
import OsnAssignments.Common.Tally
import OsnAssignments.Vaccination.Locks

/-!
# Conservation of vaccines

Doses come from published slots, and slots from delivered vaccines.

The vaccines that the companies deliver are those that they have produced, unless a company begins a
new round while a zone that has taken the last batch has not yet read its size: the zone then gets a
batch of the new size, and the company counts one of the old size.
-/

namespace Vaccination

open State Transition Function

variable {S : Setup}

namespace Event

/-- The doses of a student. -/
def doseOf (s : S.StudentId) : Event S → ℤ
  | .dose t _ _ => if t = s then 1 else 0
  | _ => 0

/-- The doses in a zone. -/
def doseIn (z : S.ZoneId) : Event S → ℤ
  | .dose _ y _ => if y = z then 1 else 0
  | _ => 0

/-- The slots that a zone publishes. -/
def slotsOf (z : S.ZoneId) : Event S → ℤ
  | .published y a => if y = z then a else 0
  | _ => 0

/-- The vaccines that a zone gets. -/
def deliveredTo (z : S.ZoneId) : Event S → ℤ
  | .delivered y _ n => if y = z then n else 0
  | _ => 0

/-- The vaccines that a company delivers. -/
def deliveredBy (c : S.CompId) : Event S → ℤ
  | .delivered _ d n => if d = c then n else 0
  | _ => 0

/-- The vaccines that a company produces. -/
def producedBy (c : S.CompId) : Event S → ℤ
  | .produced d x y => if d = c then x * y else 0
  | _ => 0

/-- The vaccines that are delivered. -/
def allDelivered : Event S → ℤ
  | .delivered _ _ n => n
  | _ => 0

/-- The vaccines that are produced. -/
def allProduced : Event S → ℤ
  | .produced _ x y => x * y
  | _ => 0

theorem allDelivered_eq_sum (e : Event S) : e.allDelivered = ∑ c, e.deliveredBy c := by
  cases e <;> simp [allDelivered, deliveredBy]

theorem allProduced_eq_sum (e : Event S) : e.allProduced = ∑ c, e.producedBy c := by
  cases e <;> simp [allProduced, producedBy]

/-- A student tests positive. -/
def positive (s : S.StudentId) : Event S → Bool
  | .dose t _ true => t = s
  | _ => false

end Event

/-- The sum of what `f` counts for each event of a history. -/
def total (f : Event S → ℤ) (hist : History S) : ℤ :=
  tally (fun l => f l.2) hist

@[simp]
theorem total_nil (f : Event S → ℤ) : total f [] = 0 := rfl

@[simp]
theorem total_cons (f : Event S → ℤ) (x : State S × Label S) (hist : History S) :
    total f (x :: hist) = f x.2.2 + total f hist := rfl

/-- What all companies do together. -/
theorem total_eq_sum {f : Event S → ℤ} {g : S.CompId → Event S → ℤ} (h : ∀ e, f e = ∑ c, g c e)
    (hist : History S) : total f hist = ∑ c, total (g c) hist := by
  have hf : (fun l : Label S => f l.2) = fun l => ∑ c, g c l.2 := funext fun l => h l.2
  unfold total
  rw [hf, tally_sum]

/-! ## Zones -/

/-- `1` if the student inside the zone has taken a slot and waits for its dose. -/
def inUse : Option (StudentPc S) → ℤ
  | some (.searching _ _) => 1
  | some (.claiming _ _) => 1
  | some (.dosing _) => 1
  | _ => 0

/-- The student inside the zone is about to take a slot. -/
def takes : Option (StudentPc S) → Bool
  | some (.taking _) => true
  | _ => false

namespace ZonePc

/-- Slots that are about to be published. -/
def unpublished : ZonePc S → ℤ
  | .publishing a => a
  | _ => 0

/-- Where a zone may have slots left. -/
def Offers (isOver : Bool) : ZonePc S → Prop
  | .waiting => True
  | .polling => True
  | .clearing .after _ => isOver = true
  | .ending => isOver = true
  | .stopped => isOver = true
  | _ => False

end ZonePc

/-- The account of a zone, of which `doses` were given, `published` slots were published and
`delivered` vaccines were delivered. -/
structure ZoneOk (isOver : Bool) (x : Zone S) (h : Option (StudentPc S))
    (doses published delivered : ℤ) : Prop where
  slots_nonneg : 0 ≤ x.slots
  taking : takes h = true → 0 < x.slots
  offers : x.slots ≠ 0 → x.pc.Offers isOver
  capacity_nonneg : 0 ≤ x.capacity
  unpublished_nonneg : 0 ≤ x.pc.unpublished
  doses_le : doses + inUse h + x.slots ≤ published
  published_le : published + x.capacity + x.pc.unpublished ≤ delivered

variable {σ σ' : State S} {s : S.StudentId} {z : S.ZoneId} {c : S.CompId} {e : Event S}
  {isOver : Bool} {doses published delivered : ℤ}
variable {x : Zone S} {h : Option (StudentPc S)} {x' : Comp S} {zones : S.ZoneId → Zone S}
  {produced : ℤ}

section

variable (hok : ZoneOk isOver x h doses published delivered)
include hok

/-- Nothing but the place of the student inside changes. -/
theorem ZoneOk.of_holder {h' : Option (StudentPc S)} 
    (htaking : takes h' = true → 0 < x.slots) {n : ℤ} (huse : n + inUse h' ≤ inUse h) :
    ZoneOk isOver x h' (n + doses) (0 + published) (0 + delivered) :=
  { hok with
    taking := htaking
    doses_le := by
      have := hok.doses_le
      omega
    published_le := by
      have := hok.published_le
      omega }

theorem ZoneOk.visit {x' : Zone S} {h' : Option (StudentPc S)} (hv : Visit s z x h x' h' e) :
    ZoneOk isOver x' h' (e.doseIn z + doses) (e.slotsOf z + published)
      (e.deliveredTo z + delivered) := by
  cases hv with
  | lock =>
    have hlock : ZoneOk isOver x (some (.testing z)) (0 + doses) (0 + published) (0 + delivered) :=
      hok.of_holder (by simp [takes]) (by simp [inUse])
    exact { hlock with }
  | offer hpos => exact hok.of_holder (fun _ => hpos) (by simp [inUse, Event.doseIn])
  | refuse | skip | find | miss | dose =>
    exact hok.of_holder (by simp [takes]) (by simp [inUse, Event.doseIn])
  | take =>
    have hpos := hok.taking rfl
    have hdoses := hok.doses_le
    have hpub := hok.published_le
    refine ⟨?_, by simp [takes], fun hne => hok.offers ?_, hok.capacity_nonneg,
      hok.unpublished_nonneg, ?_, ?_⟩
    · show 0 ≤ x.slots - 1
      omega
    · omega
    · simp only [inUse, Event.doseIn, Event.slotsOf] at hdoses ⊢
      omega
    · simp only [Event.slotsOf, Event.deliveredTo]
      omega
  | claim =>
    have hclaim : ZoneOk isOver x (some (.dosing z)) (0 + doses) (0 + published) (0 + delivered) :=
      hok.of_holder (by simp [takes]) (by simp [inUse])
    exact { hclaim with }
  | unlock =>
    have hunlock : ZoneOk isOver x none (0 + doses) (0 + published) (0 + delivered) :=
      hok.of_holder (by simp [takes]) (by simp [inUse])
    exact { hunlock with }

/-- The zone changes nothing but its place. -/
theorem ZoneOk.of_pc {pc : ZonePc S}
    (hoffers : x.slots ≠ 0 → pc.Offers isOver) (hunp : pc.unpublished = x.pc.unpublished) :
    ZoneOk isOver { x with pc } h (0 + doses) (0 + published) (0 + delivered) :=
  { hok with
    offers := hoffers
    unpublished_nonneg := hunp ▸ hok.unpublished_nonneg
    doses_le := by
      have := hok.doses_le
      rwa [zero_add, zero_add]
    published_le := by
      have := hok.published_le
      rw [zero_add, zero_add]
      rwa [← hunp] at this }

theorem ZoneOk.turn {comps : S.CompId → Comp S} {x' : Zone S} 
    (hsize : ∀ c, 0 ≤ (comps c).noPerBatch) (ht : Turn z comps isOver x x' e) :
    ZoneOk isOver x' h (e.doseIn z + doses) (e.slotsOf z + published)
      (e.deliveredTo z + delivered) := by
  -- without slots there is nothing to show for the place of the zone
  have hnone : ∀ {pc : ZonePc S}, x.pc = pc → ¬pc.Offers isOver → x.slots = 0 := by
    rintro _ rfl hno
    by_contra hne
    exact hno (hok.offers hne)
  cases ht with
  | @clear c k hpc =>
    have hkeep : x.slots ≠ 0 →
        ((succ? k).elim (afterClear c) (.clearing c) : ZonePc S).Offers isOver := by
      intro hne
      have hoffers := hok.offers hne
      rw [hpc] at hoffers
      cases c with
      | start | before => exact absurd hoffers id
      | after =>
        cases succ? k with
        | none | some => exact hoffers
    have hunp : ((succ? k).elim (afterClear c) (.clearing c) : ZonePc S).unpublished =
        x.pc.unpublished := by
      rw [hpc]
      cases succ? k with
      | none => cases c <;> rfl
      | some => rfl
    exact { hok.of_pc hkeep hunp with }
  | lock hpc | offer hpc | refuse hpc | take hpc | skip hpc | find hpc | miss hpc | enter hpc
  | go hpc | back hpc | begin hpc | finish hpc | search hpc =>
    exact hok.of_pc (fun hne => absurd (hnone hpc id) hne) (by rw [hpc]; rfl)
  | @size i hpc =>
    have hzero := hnone hpc id
    have hcap := hok.capacity_nonneg
    have hunp := hok.unpublished_nonneg
    have hpub := hok.published_le
    have hdoses := hok.doses_le
    refine ⟨hok.slots_nonneg, hok.taking, fun hne => absurd hzero hne, hsize i, le_refl 0, ?_, ?_⟩
    · simp only [Event.doseIn, Event.slotsOf]
      omega
    · simp only [Event.slotsOf, Event.deliveredTo, if_true, ZonePc.unpublished]
      omega
  | reduce hpc =>
    have hzero := hnone hpc id
    have hcap := hok.capacity_nonneg
    have hpub := hok.published_le
    have hdoses := hok.doses_le
    rw [hpc] at hpub
    refine ⟨hok.slots_nonneg, hok.taking, fun hne => absurd hzero hne, ?_, ?_, ?_, ?_⟩
    · show 0 ≤ x.capacity - min x.capacity 8
      omega
    · show 0 ≤ min x.capacity 8
      omega
    · simp only [Event.doseIn, Event.slotsOf]
      omega
    · simp only [Event.slotsOf, Event.deliveredTo, ZonePc.unpublished] at hpub ⊢
      omega
  | @publish a hpc =>
    have hzero := hnone hpc id
    have hunp := hok.unpublished_nonneg
    have hpub := hok.published_le
    have hdoses := hok.doses_le
    rw [hpc] at hunp hpub
    refine ⟨hunp, fun htakes => ?_, fun _ => trivial, hok.capacity_nonneg, le_refl 0, ?_, ?_⟩
    · have := hok.taking htakes
      omega
    · simp only [Event.doseIn, Event.slotsOf, if_true]
      omega
    · simp only [Event.slotsOf, Event.deliveredTo, if_true, ZonePc.unpublished] at hpub ⊢
      omega
  | wait hpc | poll hpc => exact hok.of_pc (fun _ => trivial) (by rw [hpc]; rfl)
  | used hpc =>
    have hnonneg := hok.slots_nonneg
    exact hok.of_pc (fun hne => absurd (by omega) hne) (by rw [hpc]; rfl)
  | give hpc hover => exact hok.of_pc (fun _ => hover) (by rw [hpc]; rfl)
  | stop hpc hover =>
    refine hok.of_pc (fun _ => hover) ?_
    rcases hpc with hpc | hpc <;> rw [hpc] <;> rfl
  | again hpc hover =>
    exact hok.of_pc (fun hne => absurd (hnone hpc (by simp [ZonePc.Offers, hover])) hne)
      (by rw [hpc]; rfl)

/-- A zone does not count what happens elsewhere. -/
theorem ZoneOk.elsewhere (he : e.zone? ≠ some z) :
    ZoneOk isOver x h (e.doseIn z + doses) (e.slotsOf z + published)
      (e.deliveredTo z + delivered) := by
  have hcounts : e.doseIn z = 0 ∧ e.slotsOf z = 0 ∧ e.deliveredTo z = 0 := by
    cases e <;> simp_all [Event.zone?, Event.doseIn, Event.slotsOf, Event.deliveredTo]
  rwa [hcounts.1, hcounts.2.1, hcounts.2.2, zero_add, zero_add, zero_add]

theorem ZoneOk.over : ZoneOk true x h doses published delivered := by
  refine { hok with offers := fun hne => ?_ }
  have hoffers := hok.offers hne
  cases hpc : x.pc with
  | clearing c => cases c <;> simp_all [ZonePc.Offers]
  | _ => simp_all [ZonePc.Offers]

end

/-! ## Companies -/

/-- The zone that asks the company is about to take a batch. -/
def draws : Option (ZonePc S) → Bool
  | some (.taking _) => true
  | _ => false

/-- `1` if the zone that asks the company has taken a batch and not read its size. -/
def unsized : Option (ZonePc S) → ℤ
  | some (.sizing _) => 1
  | _ => 0

/-- Where a company has no batches left. -/
def CompPc.Idle (isOver : Bool) : CompPc → Prop
  | .watching => False
  | .polling => False
  | .watched => isOver = false
  | .stopped => False
  | _ => True

/-- The batches of a company. -/
structure CompOk (isOver : Bool) (x : Comp S) (h : Option (ZonePc S)) : Prop where
  batches_nonneg : 0 ≤ x.noOfBatches
  size_nonneg : 0 ≤ x.noPerBatch
  drawing : draws h = true → 0 < x.noOfBatches
  idle : x.pc.Idle isOver → x.noOfBatches = 0

theorem CompOk.delivery {i : S.CompId} {x : Comp S} {h h' : Option (ZonePc S)}
    (hok : CompOk isOver x h) (hd : Delivery z i x h x' h' e) : CompOk isOver x' h' := by
  cases hd with
  | offer hpos => exact { hok with drawing := fun _ => hpos }
  | take =>
    have hpos := hok.drawing rfl
    refine { hok with
      batches_nonneg := ?_, drawing := by simp [draws], idle := fun hidle => ?_ }
    · show 0 ≤ x.noOfBatches - 1
      omega
    · have := hok.idle hidle
      omega
  | _ => exact { hok with drawing := by simp [draws] }

theorem CompOk.round {x : Comp S} {h : Option (ZonePc S)}
    (hok : CompOk isOver x h) (hr : Round c zones isOver x x' e) : CompOk isOver x' h := by
  have hidle : ∀ {pc : CompPc}, x.pc = pc → pc.Idle isOver → x.noOfBatches = 0 := by
    rintro _ rfl
    exact hok.idle
  cases hr with
  | make hpc | skip hpc | look hpc | judge hpc | report hpc | reset hpc =>
    exact { hok with idle := fun _ => hidle hpc trivial }
  | size hpc hle =>
    exact { hok with
      size_nonneg := Int.le_trans (by decide) hle
      idle := fun _ => hidle hpc trivial }
  | @count n =>
    have hpos : 0 < n := by omega
    exact ⟨Int.le_of_lt hpos, hok.size_nonneg, fun _ => hpos, nofun⟩
  | watch | poll | stop => exact { hok with idle := nofun }
  | used =>
    have := hok.batches_nonneg
    exact { hok with idle := fun _ => by show x.noOfBatches = 0; omega }
  | give hpc hover =>
    exact { hok with idle := fun hfalse => absurd (hover.symm.trans hfalse) nofun }
  | scan hpc hover =>
    refine { hok with idle := fun _ => ?_ }
    rcases hpc with hpc | hpc
    · exact hidle hpc hover
    · exact hidle hpc trivial

theorem CompOk.over {x : Comp S} {h : Option (ZonePc S)} (hok : CompOk isOver x h) :
    CompOk true x h := by
  refine { hok with idle := fun hidle => hok.idle ?_ }
  cases hpc : x.pc <;> simp_all [CompPc.Idle]

/-- The account of a company: what it has produced is delivered, is about to be, or is left. -/
def Account (x : Comp S) (h : Option (ZonePc S)) (delivered produced : ℤ) : Prop :=
  delivered + (unsized h + x.noOfBatches) * x.noPerBatch = produced

theorem Account.delivery {i : S.CompId} {x : Comp S} {h h' : Option (ZonePc S)}
    (hacc : Account x h delivered produced) (hd : Delivery z i x h x' h' e) :
    Account x' h' (e.deliveredBy i + delivered) (e.producedBy i + produced) := by
  unfold Account at hacc ⊢
  cases hd with
  | take =>
    simp only [unsized, Event.deliveredBy, Event.producedBy] at hacc ⊢
    linarith
  | size =>
    simp only [unsized, Event.deliveredBy, Event.producedBy, if_true] at hacc ⊢
    linarith
  | @unlock f =>
    cases f <;> simp only [unsized, Event.deliveredBy, Event.producedBy] at hacc ⊢ <;>
      simpa using hacc
  | _ =>
    simp only [unsized, Event.deliveredBy, Event.producedBy] at hacc ⊢
    linarith

/-- A company that changes the size of its batches when nobody reads it. -/
theorem Account.round {x : Comp S} {h : Option (ZonePc S)}
    (hacc : Account x h delivered produced) (hok : CompOk isOver x h)
    (hsettled : x.pc = .sizing → unsized h = 0) (hr : Round c zones isOver x x' e) :
    Account x' h (e.deliveredBy c + delivered) (e.producedBy c + produced) := by
  unfold Account at hacc ⊢
  cases hr with
  | @size n hpc =>
    have hzero : x.noOfBatches = 0 := hok.idle (by rw [hpc]; trivial)
    simp only [hsettled hpc, hzero, Event.deliveredBy, Event.producedBy] at hacc ⊢
    linarith
  | @count n hpc =>
    have hzero : x.noOfBatches = 0 := hok.idle (by rw [hpc]; trivial)
    simp only [hzero, Event.deliveredBy, Event.producedBy, if_true] at hacc ⊢
    linarith
  | _ =>
    simp only [Event.deliveredBy, Event.producedBy]
    linarith

theorem Account.elsewhere {x : Comp S} {h : Option (ZonePc S)}
    (hacc : Account x h delivered produced) (he : e.comp? ≠ some c) :
    Account x h (e.deliveredBy c + delivered) (e.producedBy c + produced) := by
  have hcounts : e.deliveredBy c = 0 ∧ e.producedBy c = 0 := by
    cases e <;> simp_all [Event.comp?, Event.deliveredBy, Event.producedBy]
  rwa [hcounts.1, hcounts.2, zero_add, zero_add]

/-! ## Students -/

/-- The student will not look for a zone again. -/
def StudentPc.finished : StudentPc S → Bool
  | .leaving _ returns => returns
  | .done => true
  | _ => false

/-- The doses of a student; `positive` says whether a test was positive. -/
structure StudentOk (x : Student S) (doses : ℤ) (positive : Prop) : Prop where
  chance_eq : x.chance = doses + 1
  chance_le : x.chance ≤ 4
  last : x.chance = 4 ∨ positive → x.pc.finished = true

/-- What a statement of a student does to its own record. -/
theorem student_cases {result : Bool} (hstep : σ.studentStep s result = some (σ', e)) :
    (∀ t ≠ s, σ'.students t = σ.students t) ∧
      ((∃ i, (σ.students s).pc = .dosing i ∧ e = .dose s i result ∧ σ'.students s =
          ⟨.leaving i (decide ((σ.students s).chance + 1 = 4) || result),
            (σ.students s).chance + 1⟩) ∨
        ((∀ t, e.doseOf t = 0 ∧ e.positive t = false) ∧
          (σ'.students s).chance = (σ.students s).chance ∧
          ((σ.students s).pc.finished = true → (σ'.students s).pc.finished = true))) := by
  -- all other statements change the place only
  have hmove : ∀ pc' : StudentPc S,
      σ'.students = update σ.students s { σ.students s with pc := pc' } →
      ((σ.students s).pc.finished = true → pc'.finished = true) →
      (∀ t, e.doseOf t = 0 ∧ e.positive t = false) →
      (∀ t ≠ s, σ'.students t = σ.students t) ∧ (∀ t, e.doseOf t = 0 ∧ e.positive t = false) ∧
        (σ'.students s).chance = (σ.students s).chance ∧
        ((σ.students s).pc.finished = true → (σ'.students s).pc.finished = true) := by
    intro pc' hσ' hfinished he
    rw [hσ']
    refine ⟨fun t ht => update_of_ne ht .., he, ?_, ?_⟩
    · rw [update_self]
    · rwa [update_self]
  unfold studentStep at hstep
  cases hpc : (σ.students s).pc with
  | dosing i =>
    simp only [hpc] at hstep
    cases hstep
    exact ⟨fun t ht => update_of_ne ht .., .inl ⟨i, rfl, rfl, update_self ..⟩⟩
  | searching i k =>
    by_cases hk : k < 8
    · simp only [hpc, dif_pos hk] at hstep
      cases hstep
      rw [← hpc]
      exact (hmove _ rfl (by simp [hpc, StudentPc.finished]) fun _ => ⟨rfl, rfl⟩).imp_right .inr
    · simp only [hpc, dif_neg hk] at hstep
      cases hstep
      rw [← hpc]
      exact (hmove _ rfl (by simp [hpc, StudentPc.finished]) fun _ => ⟨rfl, rfl⟩).imp_right .inr
  | seeking =>
    simp only [hpc, Option.ite_none_right_eq_some, Option.some.injEq, Prod.mk.injEq] at hstep
    obtain ⟨-, rfl, rfl⟩ := hstep
    rw [← hpc]
    exact (hmove _ rfl (by simp [hpc, StudentPc.finished]) fun _ => ⟨rfl, rfl⟩).imp_right .inr
  | leaving i returns =>
    simp only [hpc] at hstep
    cases hstep
    rw [← hpc]
    refine (hmove _ rfl (fun hfinished => ?_) fun _ => ⟨rfl, rfl⟩).imp_right .inr
    have hreturns : returns = true := by rwa [hpc] at hfinished
    rw [if_pos hreturns]
    rfl
  | arriving | testing | taking | claiming =>
    simp only [hpc] at hstep
    cases hstep
    rw [← hpc]
    exact (hmove _ rfl (by simp [hpc, StudentPc.finished]) fun _ => ⟨rfl, rfl⟩).imp_right .inr
  | done => simp [hpc] at hstep

/-! ## Runs -/

/-- Some test of the student in the history was positive. -/
def TestedPositive (s : S.StudentId) (hist : History S) : Prop :=
  ∃ x ∈ hist, x.2.2.positive s = true

/-- The accounts of the zones and of the students, and the batches of the companies. -/
structure Inv (hist : History S) (σ : State S) : Prop where
  locked : Locked σ
  zone : ∀ z, ZoneOk σ.isOver (σ.zones z) (holder σ z) (total (·.doseIn z) hist)
    (total (·.slotsOf z) hist) (total (·.deliveredTo z) hist)
  comp : ∀ c, CompOk σ.isOver (σ.comps c) (asker σ c)
  student : ∀ s, StudentOk (σ.students s) (total (·.doseOf s) hist) (TestedPositive s hist)
  none_after : hist.Pairwise fun later earlier =>
    ∀ s, later.2.2.doseOf s ≠ 0 → earlier.2.2.positive s = false

theorem inv_initial (S : Setup) : Inv [] (State.initial S) where
  locked := locked_initial S
  zone z := by
    refine ⟨le_refl 0, nofun, fun hne => absurd rfl hne, le_refl 0, le_refl 0, ?_, ?_⟩
    · exact le_refl 0
    · exact le_refl 0
  comp c := ⟨le_refl 0, le_refl 0, nofun, fun _ => rfl⟩
  student s := ⟨rfl, by show 1 ≤ 4; decide, fun h => by
    rcases h with h | ⟨x, hx, -⟩ <;> simp_all [State.initial]⟩
  none_after := .nil

variable {hist : History S} {a : Action S}

theorem Inv.zone_step (h : Inv hist σ) (hm : Moved σ a e σ') (z : S.ZoneId) :
    ZoneOk σ'.isOver (σ'.zones z) (holder σ' z) (e.doseIn z + total (·.doseIn z) hist)
      (e.slotsOf z + total (·.slotsOf z) hist)
      (e.deliveredTo z + total (·.deliveredTo z) hist) := by
  have hok : ZoneOk σ.isOver (σ'.zones z) (holder σ' z) (e.doseIn z + total (·.doseIn z) hist)
      (e.slotsOf z + total (·.slotsOf z) hist)
      (e.deliveredTo z + total (·.deliveredTo z) hist) := by
    cases hm.atZone z with
    | apart hzone hholder he =>
      rw [hzone, hholder]
      exact (h.zone z).elsewhere he
    | visit hv => exact (h.zone z).visit hv
    | turn ht hholder =>
      rw [hholder]
      exact (h.zone z).turn (fun c => (h.comp c).size_nonneg) ht
  rcases hm.over_cases with hover | hover <;> rw [hover]
  · exact hok
  · exact hok.over

theorem Inv.comp_step (h : Inv hist σ) (hm : Moved σ a e σ') (c : S.CompId) :
    CompOk σ'.isOver (σ'.comps c) (asker σ' c) := by
  have hok : CompOk σ.isOver (σ'.comps c) (asker σ' c) := by
    cases hm.atComp c with
    | apart hcomp hasker =>
      rw [hcomp, hasker]
      exact h.comp c
    | delivery hd => exact (h.comp c).delivery hd
    | round hr hasker =>
      rw [hasker]
      exact (h.comp c).round hr
  rcases hm.over_cases with hover | hover <;> rw [hover]
  · exact hok
  · exact hok.over

theorem testedPositive_cons (s : S.StudentId) (x : State S × Label S) (hist : History S) :
    TestedPositive s (x :: hist) ↔ x.2.2.positive s = true ∨ TestedPositive s hist := by
  simp [TestedPositive]

theorem Turn.quiet {comps : S.CompId → Comp S} {x' : Zone S} (ht : Turn z comps isOver x x' e)
    (t : S.StudentId) : e.doseOf t = 0 ∧ e.positive t = false := by
  cases ht <;> exact ⟨rfl, rfl⟩

theorem Round.quiet {x : Comp S} (hr : Round c zones isOver x x' e)
    (t : S.StudentId) : e.doseOf t = 0 ∧ e.positive t = false := by
  cases hr <;> exact ⟨rfl, rfl⟩

/-- What the other threads do does not count for a student. -/
theorem Moved.quiet (hm : Moved σ a e σ') (ha : ∀ s result, a ≠ .student s result) :
    σ'.students = σ.students ∧ ∀ t, e.doseOf t = 0 ∧ e.positive t = false := by
  cases hm with
  | student => exact absurd rfl (ha _ _)
  | zone hm => exact ⟨hm.students_eq, hm.turn.quiet⟩
  | comp hm => exact ⟨hm.students_eq, hm.round.quiet⟩
  | finish => exact ⟨rfl, fun t => ⟨rfl, rfl⟩⟩

/-- A student that gets no dose. -/
theorem StudentOk.keep {x x' : Student S} {y : State S × Label S}
    (hok : StudentOk x (total (·.doseOf s) hist) (TestedPositive s hist))
    (hy : y.2.2.doseOf s = 0 ∧ y.2.2.positive s = false) (hchance : x'.chance = x.chance)
    (hfinished : x.pc.finished = true → x'.pc.finished = true) :
    StudentOk x' (total (·.doseOf s) (y :: hist)) (TestedPositive s (y :: hist)) := by
  refine ⟨?_, by rw [hchance]; exact hok.chance_le, fun hlast => hfinished (hok.last ?_)⟩
  · rw [total_cons, hy.1, zero_add, hchance]
    exact hok.chance_eq
  · rw [testedPositive_cons, hy.2, hchance] at hlast
    simpa using hlast

theorem Inv.student_step (h : Inv hist σ) (hstep : σ.step a = some (σ', e)) :
    (∀ t, StudentOk (σ'.students t) (total (·.doseOf t) ((σ, a, e) :: hist))
        (TestedPositive t ((σ, a, e) :: hist))) ∧
      ∀ x ∈ hist, ∀ t, e.doseOf t ≠ 0 → x.2.2.positive t = false := by
  have hm := moved_of_step h.locked hstep
  by_cases ha : ∃ s result, a = .student s result
  · obtain ⟨s, result, rfl⟩ := ha
    obtain ⟨hothers, ⟨i, hpc, rfl, hown⟩ | ⟨hquiet, hchance, hfinished⟩⟩ := student_cases hstep
    · -- the student has had fewer than three doses, and no positive test
      have hok := h.student s
      have hnot : ¬((σ.students s).chance = 4 ∨ TestedPositive s hist) := by
        intro hlast
        have := hok.last hlast
        rw [hpc] at this
        cases this
      obtain ⟨hchance, hnone⟩ := not_or.mp hnot
      have hle := hok.chance_le
      have heq := hok.chance_eq
      refine ⟨fun t => ?_, fun x hx t ht => ?_⟩
      · by_cases ht : t = s
        · subst ht
          rw [hown]
          refine ⟨?_, ?_, fun hlast => ?_⟩
          · rw [total_cons, show (Event.dose t i result).doseOf t = 1 from if_pos rfl]
            push_cast
            omega
          · show (σ.students t).chance + 1 ≤ 4
            omega
          · rw [testedPositive_cons] at hlast
            show (decide ((σ.students t).chance + 1 = 4) || result) = true
            rcases hlast with hfour | hpos | hpos
            · simp [show (σ.students t).chance + 1 = 4 from hfour]
            · have hresult : result = true := by
                cases result with
                | true => rfl
                | false => simp [Event.positive] at hpos
              simp [hresult]
            · exact absurd hpos hnone
        · refine (h.student t).keep ⟨?_, ?_⟩ (by rw [hothers t ht]) (by rw [hothers t ht]; exact id)
          · simp [Event.doseOf, Ne.symm ht]
          · cases result <;> simp [Event.positive, Ne.symm ht]
      · have hts : s = t := by
          by_contra hne
          exact ht (by simp [Event.doseOf, hne])
        subst hts
        by_contra hpos
        exact hnone ⟨x, hx, by simpa using hpos⟩
    · refine ⟨fun t => ?_, fun x _ t ht => absurd (hquiet t).1 ht⟩
      by_cases ht : t = s
      · subst ht
        exact (h.student t).keep (hquiet t) hchance hfinished
      · exact (h.student t).keep (hquiet t) (by rw [hothers t ht]) (by rw [hothers t ht]; exact id)
  · obtain ⟨hstudents, hquiet⟩ := hm.quiet fun s result heq => ha ⟨s, result, heq⟩
    refine ⟨fun t => ?_, fun x _ t ht => absurd (hquiet t).1 ht⟩
    rw [hstudents]
    exact (h.student t).keep (hquiet t) rfl id

theorem Inv.of_run (hrun : (simulation S).Run hist σ) : Inv hist σ := by
  refine hrun.historyInvariant ?_ ?_
  · rintro _ rfl
    exact inv_initial S
  · rintro hist σ ⟨a, e⟩ σ' - h hstep
    have hm := moved_of_step h.locked hstep
    obtain ⟨hstudent, hnone⟩ := h.student_step hstep
    exact ⟨hm.locked h.locked, h.zone_step hm, h.comp_step hm, hstudent,
      List.pairwise_cons.mpr ⟨hnone, h.none_after⟩⟩

/-! ## Conservation -/

/-- A company changes the size of its batches only when no zone is about to read it. -/
def SizesSettled (σ : State S) : Action S → Prop
  | .comp c _ => (σ.comps c).pc = .sizing → ∀ z, (σ.zones z).pc ≠ .sizing c
  | _ => True

instance (σ : State S) (a : Action S) : Decidable (SizesSettled σ a) :=
  match a with
  | .comp c _ =>
    inferInstanceAs (Decidable ((σ.comps c).pc = .sizing → ∀ z, (σ.zones z).pc ≠ .sizing c))
  | .student _ _ => isTrue trivial
  | .zone _ => isTrue trivial
  | .finish => isTrue trivial

theorem unsized_eq_zero (h : Locked σ) (hc : ∀ z, (σ.zones z).pc ≠ .sizing c) :
    unsized (asker σ c) = 0 := by
  cases ha : asker σ c with
  | none => rfl
  | some pc =>
    obtain ⟨z, hz, hin⟩ := h.comp.exists_of_holder ha
    cases pc with
    | sizing =>
      cases hin
      exact absurd hz (hc z)
    | _ => rfl

/-- The accounts of the companies, in runs in which no zone reads the size of a batch of another
round. -/
theorem account_of_run (hrun : (simulation S).Run hist σ)
    (hsettled : ∀ x ∈ hist, SizesSettled x.1 x.2.1) (c : S.CompId) :
    Account (σ.comps c) (asker σ c) (total (·.deliveredBy c) hist)
      (total (·.producedBy c) hist) := by
  induction hrun with
  | init hinit =>
    obtain rfl := hinit
    simp [Account, State.initial]
  | @step hist σ σ' l hrun hstep ih =>
    obtain ⟨a, e⟩ := l
    have hacc := ih fun x hx => hsettled x (List.mem_cons_of_mem _ hx)
    have hlast := hsettled _ List.mem_cons_self
    have h := Inv.of_run hrun
    rw [total_cons, total_cons]
    cases (moved_of_step h.locked hstep).atComp c with
    | apart hcomp hasker he =>
      rw [hcomp, hasker]
      exact hacc.elsewhere he
    | delivery hd => exact hacc.delivery hd
    | round hr hasker =>
      rw [hasker]
      exact hacc.round (h.comp c) (fun hpc => unsized_eq_zero h.locked (hlast hpc)) hr

/-- Vaccines are conserved from the companies to the zones, the slots and the students, each of
which has at most three doses and none after a positive test. -/
structure Conserved (hist : History S) (σ : State S) : Prop where
  doses_le : ∀ s, total (·.doseOf s) hist ≤ 3
  none_after : hist.Pairwise fun later earlier =>
    ∀ s, later.2.2.doseOf s ≠ 0 → earlier.2.2.positive s = false
  doses_le_slots : ∀ z, total (·.doseIn z) hist ≤ total (·.slotsOf z) hist
  slots_le_delivered : ∀ z, total (·.slotsOf z) hist ≤ total (·.deliveredTo z) hist
  slots_nonneg : ∀ z, 0 ≤ (σ.zones z).slots
  delivered_le : total Event.allDelivered hist ≤ total Event.allProduced hist

theorem inUse_nonneg (h : Option (StudentPc S)) : 0 ≤ inUse h := by
  unfold inUse
  split <;> decide

theorem unsized_nonneg (h : Option (ZonePc S)) : 0 ≤ unsized h := by
  unfold unsized
  split <;> decide

/-- Vaccines are conserved in every run in which a company changes the size of its batches only when
no zone is about to read it. -/
theorem vaccines_conserved (hrun : (simulation S).Run hist σ)
    (hsettled : ∀ x ∈ hist, SizesSettled x.1 x.2.1) : Conserved hist σ := by
  have h := Inv.of_run hrun
  refine ⟨fun s => ?_, h.none_after, fun z => ?_, fun z => ?_, fun z => (h.zone z).slots_nonneg, ?_⟩
  · have hok := h.student s
    have hle := hok.chance_le
    have heq := hok.chance_eq
    omega
  · have hok := h.zone z
    have hdoses := hok.doses_le
    have hslots := hok.slots_nonneg
    have huse := inUse_nonneg (holder σ z)
    omega
  · have hok := h.zone z
    have hpub := hok.published_le
    have hcap := hok.capacity_nonneg
    have hunp := hok.unpublished_nonneg
    omega
  · rw [total_eq_sum Event.allDelivered_eq_sum, total_eq_sum Event.allProduced_eq_sum]
    refine Finset.sum_le_sum fun c _ => ?_
    have hacc : _ = _ := account_of_run hrun hsettled c
    have hbatches := (h.comp c).batches_nonneg
    have hsize := (h.comp c).size_nonneg
    have hunsized := unsized_nonneg (asker σ c)
    have hleft : 0 ≤ (unsized (asker σ c) + (σ.comps c).noOfBatches) * (σ.comps c).noPerBatch := by
      positivity
    linarith

/-- The first company produces one batch of ten vaccines. -/
def firstBatch (S : Setup) : List (Action S) :=
  List.replicate 5 (.comp S.comp0 0) ++ [.comp S.comp0 10, .comp S.comp0 1]

/-- A company produces ten vaccines, a zone publishes eight of them, and a student gets one. -/
theorem vaccines_conserved_ten :
    ∃ (hist : History ⟨1, 1, 1, by decide, by decide, by decide⟩) (σ : State _),
      (simulation _).Run hist σ ∧ (∀ x ∈ hist, SizesSettled x.1 x.2.1) ∧
        total Event.allProduced hist = 10 ∧ total (·.slotsOf 0) hist = 8 ∧
        total (·.doseOf 0) hist = 1 ∧ Conserved hist σ := by
  obtain ⟨hist, σ, hrun, htest⟩ := exists_run (S := ⟨1, 1, 1, by decide, by decide, by decide⟩)
    (firstBatch _ ++ List.replicate 26 (.zone 0) ++ List.replicate 7 (.student 0 true))
    (fun hist _ => decide ((∀ x ∈ hist, SizesSettled x.1 x.2.1) ∧
      total Event.allProduced hist = 10 ∧ total (·.slotsOf 0) hist = 8 ∧
      total (·.doseOf 0) hist = 1))
    (by decide +kernel)
  obtain ⟨hsettled, hproduced, hslots, hdoses⟩ := of_decide_eq_true htest
  exact ⟨hist, σ, hrun, hsettled, hproduced, hslots, hdoses, vaccines_conserved hrun hsettled⟩

/-- A company produces a batch of twenty while a zone still has to read the size of its batch of
ten: forty vaccines are delivered, and thirty were produced. -/
theorem not_vaccines_conserved :
    ∃ (hist : History ⟨1, 2, 1, by decide, by decide, by decide⟩) (σ : State _),
      (simulation _).Run hist σ ∧ total Event.allDelivered hist = 40 ∧
        total Event.allProduced hist = 30 ∧ ¬Conserved hist σ := by
  obtain ⟨hist, σ, hrun, htest⟩ := exists_run (S := ⟨1, 2, 1, by decide, by decide, by decide⟩)
    (firstBatch _ ++ List.replicate 11 (.zone 0) ++ List.replicate 18 (.comp 0 0) ++
      [.comp 0 20, .comp 0 1, .zone 0, .zone 0, .zone 0, .zone 0] ++ List.replicate 12 (.zone 1))
    (fun hist _ => decide (total Event.allDelivered hist = 40 ∧
      total Event.allProduced hist = 30))
    (by decide +kernel)
  obtain ⟨hdelivered, hproduced⟩ := of_decide_eq_true htest
  refine ⟨hist, σ, hrun, hdelivered, hproduced, fun h => ?_⟩
  have hle := h.delivered_le
  omega

end Vaccination
