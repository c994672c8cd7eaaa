import Mathlib
import OsnAssignments.Common.Mutex
import OsnAssignments.Vaccination.Model

/-!
# Critical sections

At most one student is inside a zone, and at most one zone asks a company, since they hold the mutex
there. A statement of a student changes nothing but its place and the zone that it is in (`Visit`),
and a statement of a zone changes, apart from the zone itself, nothing but the company that it asks
(`Delivery`).
-/

namespace Vaccination

open State Function

variable {S : Setup}

namespace StudentPc

/-- The zone whose mutex the student holds. -/
def inside : StudentPc S → Option S.ZoneId
  | .testing i => some i
  | .taking i => some i
  | .searching i _ => some i
  | .claiming i _ => some i
  | .dosing i => some i
  | .leaving i _ => some i
  | _ => none

end StudentPc

namespace ZonePc

/-- The company whose mutex the zone holds. -/
def inside : ZonePc S → Option S.CompId
  | .testing i => some i
  | .taking i => some i
  | .sizing i => some i
  | .recording i _ => some i
  | .entering i _ => some i
  | .leaving i _ => some i
  | _ => none

end ZonePc

/-- The mutexes are held by the threads that are in their critical sections. -/
structure Locked (σ : State S) : Prop where
  zone : Mutex.Held StudentPc.inside (fun s => (σ.students s).pc) fun z => (σ.zones z).lock
  comp : Mutex.Held ZonePc.inside (fun z => (σ.zones z).pc) fun c => (σ.comps c).lock

/-- Where the student inside a zone is. -/
def holder (σ : State S) (z : S.ZoneId) : Option (StudentPc S) :=
  Mutex.holder (fun s => (σ.students s).pc) (fun z => (σ.zones z).lock) z

/-- Where the zone that asks a company is. -/
def asker (σ : State S) (c : S.CompId) : Option (ZonePc S) :=
  Mutex.holder (fun z => (σ.zones z).pc) (fun c => (σ.comps c).lock) c

/-- A statement of the student `s` in the zone `i`: the zone and the place of the student inside,
before and after it. -/
inductive Visit (s : S.StudentId) (i : S.ZoneId) :
    Zone S → Option (StudentPc S) → Zone S → Option (StudentPc S) → Event S → Prop
  | lock {x : Zone S} : x.lock = none →
      Visit s i x none { x with lock := some s } (some (.testing i)) .silent
  | offer {x : Zone S} : 0 < x.slots →
      Visit s i x (some (.testing i)) x (some (.taking i)) .silent
  | refuse {x : Zone S} : ¬0 < x.slots →
      Visit s i x (some (.testing i)) x (some (.leaving i false)) .silent
  | take {x : Zone S} : x.lock = some s →
      Visit s i x (some (.taking i)) { x with slots := x.slots - 1 } (some (.searching i 0))
        (.slot s i)
  | skip {x : Zone S} {k : ℕ} (hk : k < 8) : x.filled ⟨k, hk⟩ ≠ none →
      Visit s i x (some (.searching i k)) x (some (.searching i (k + 1))) .silent
  | find {x : Zone S} {k : ℕ} (hk : k < 8) : x.filled ⟨k, hk⟩ = none →
      Visit s i x (some (.searching i k)) x (some (.claiming i ⟨k, hk⟩)) .silent
  | miss {x : Zone S} {k : ℕ} {returns : Bool} : ¬k < 8 →
      Visit s i x (some (.searching i k)) x (some (.leaving i returns)) (.unseated s i)
  | claim {x : Zone S} {k : Fin 8} :
      Visit s i x (some (.claiming i k)) { x with filled := update x.filled k (some s) }
        (some (.dosing i)) .silent
  | dose {x : Zone S} {returns result : Bool} : x.lock = some s →
      Visit s i x (some (.dosing i)) x (some (.leaving i returns)) (.dose s i result)
  | unlock {x : Zone S} {returns : Bool} :
      Visit s i x (some (.leaving i returns)) { x with lock := none } none .silent

/-- A statement of the zone `z` that asks the company `i`: the company and the place of the zone,
before and after it. -/
inductive Delivery (z : S.ZoneId) (i : S.CompId) :
    Comp S → Option (ZonePc S) → Comp S → Option (ZonePc S) → Event S → Prop
  | lock {x : Comp S} : x.lock = none →
      Delivery z i x none { x with lock := some z } (some (.testing i)) .silent
  | offer {x : Comp S} : 0 < x.noOfBatches →
      Delivery z i x (some (.testing i)) x (some (.taking i)) .silent
  | refuse {x : Comp S} : ¬0 < x.noOfBatches →
      Delivery z i x (some (.testing i)) x (some (.leaving i false)) .silent
  | take {x : Comp S} :
      Delivery z i x (some (.taking i)) { x with noOfBatches := x.noOfBatches - 1 }
        (some (.sizing i)) (.taken z i)
  | size {x : Comp S} : x.lock = some z →
      Delivery z i x (some (.sizing i)) x (some (.recording i 0)) (.delivered z i x.noPerBatch)
  | skip {x : Comp S} {j : ℕ} (hj : j < 5) : x.zonesUnder ⟨j, hj⟩ ≠ none →
      Delivery z i x (some (.recording i j)) x (some (.recording i (j + 1))) .silent
  | find {x : Comp S} {j : ℕ} (hj : j < 5) : x.zonesUnder ⟨j, hj⟩ = none →
      Delivery z i x (some (.recording i j)) x (some (.entering i ⟨j, hj⟩)) .silent
  | miss {x : Comp S} {j : ℕ} : ¬j < 5 →
      Delivery z i x (some (.recording i j)) x (some (.leaving i false)) (.dropped z i)
  | enter {x : Comp S} {j : Fin 5} : x.lock = some z →
      Delivery z i x (some (.entering i j))
        { x with zonesUnder := update x.zonesUnder j (some z) } (some (.leaving i true))
        .silent
  | unlock {x : Comp S} {f : Bool} {n : ℤ} :
      Delivery z i x (some (.leaving i f)) { x with lock := none } none
        (if f then .entered z n else .silent)

/-- A statement of a zone: its record before and after it. -/
inductive Turn (z : S.ZoneId) (comps : S.CompId → Comp S) (isOver : Bool) :
    Zone S → Zone S → Event S → Prop
  | clear {x : Zone S} {c : Clear} {k : Fin 8} : x.pc = .clearing c k →
      Turn z comps isOver x { x with
        filled := update x.filled k none
        pc := (succ? k).elim (afterClear c) (.clearing c) } .silent
  | lock {x : Zone S} {i : S.CompId} : x.pc = .seeking i →
      Turn z comps isOver x { x with pc := .testing i } .silent
  | offer {x : Zone S} {i : S.CompId} : x.pc = .testing i →
      Turn z comps isOver x { x with pc := .taking i } .silent
  | refuse {x : Zone S} {i : S.CompId} : x.pc = .testing i →
      Turn z comps isOver x { x with pc := .leaving i false } .silent
  | take {x : Zone S} {i : S.CompId} : x.pc = .taking i →
      Turn z comps isOver x { x with pc := .sizing i } (.taken z i)
  | size {x : Zone S} {i : S.CompId} : x.pc = .sizing i →
      Turn z comps isOver x { x with
        capacity := (comps i).noPerBatch
        compAssigned := some i
        pc := .recording i 0 } (.delivered z i (comps i).noPerBatch)
  | skip {x : Zone S} {i : S.CompId} {j : ℕ} : x.pc = .recording i j →
      Turn z comps isOver x { x with pc := .recording i (j + 1) } .silent
  | find {x : Zone S} {i : S.CompId} {j : ℕ} {k : Fin 5} : x.pc = .recording i j →
      Turn z comps isOver x { x with pc := .entering i k } .silent
  | miss {x : Zone S} {i : S.CompId} {j : ℕ} : x.pc = .recording i j → ¬j < 5 →
      Turn z comps isOver x { x with pc := .leaving i false } (.dropped z i)
  | enter {x : Zone S} {i : S.CompId} {j : Fin 5} : x.pc = .entering i j →
      Turn z comps isOver x { x with pc := .leaving i true } .silent
  | go {x : Zone S} {i : S.CompId} : x.pc = .leaving i true →
      Turn z comps isOver x { x with pc := .vaccinating } (.entered z x.capacity)
  | back {x : Zone S} {i : S.CompId} : x.pc = .leaving i false →
      Turn z comps isOver x { x with pc := .seeking (cyclic i) } .silent
  | begin {x : Zone S} : x.pc = .vaccinating → 0 < x.capacity →
      Turn z comps isOver x { x with pc := .clearing .before 0 } .silent
  | finish {x : Zone S} : x.pc = .vaccinating → ¬0 < x.capacity →
      Turn z comps isOver x { x with pc := .finishing } .silent
  | reduce {x : Zone S} : x.pc = .reducing →
      Turn z comps isOver x { x with
        capacity := x.capacity - min x.capacity 8
        pc := .publishing (min x.capacity 8) } .silent
  | publish {x : Zone S} {a : ℤ} : x.pc = .publishing a →
      Turn z comps isOver x { x with slots := a, pc := .waiting } (.published z a)
  | wait {x : Zone S} : x.pc = .waiting → 0 < x.slots →
      Turn z comps isOver x { x with pc := .polling } .silent
  | used {x : Zone S} : x.pc = .waiting → ¬0 < x.slots →
      Turn z comps isOver x { x with pc := .clearing .after 0 } .silent
  | give {x : Zone S} : x.pc = .polling → isOver = true →
      Turn z comps isOver x { x with pc := .clearing .after 0 } .silent
  | poll {x : Zone S} : x.pc = .polling → isOver = false →
      Turn z comps isOver x { x with pc := .waiting } .silent
  | stop {x : Zone S} : x.pc = .ending ∨ x.pc = .finishing → isOver = true →
      Turn z comps isOver x { x with pc := .stopped } .silent
  | again {x : Zone S} : x.pc = .ending → isOver = false →
      Turn z comps isOver x { x with pc := .vaccinating } .silent
  | search {x : Zone S} : x.pc = .finishing → isOver = false →
      Turn z comps isOver x { x with pc := .seeking S.comp0 } .silent

/-- A statement of a company: its record before and after it. -/
inductive Round (c : S.CompId) (zones : S.ZoneId → Zone S) (isOver : Bool) :
    Comp S → Comp S → Event S → Prop
  | make {x : Comp S} {k : Fin 5} : x.pc = .making k →
      Round c zones isOver x { x with
        zonesUnder := update x.zonesUnder k none
        pc := (succ? k).elim .sizing .making } .silent
  | size {x : Comp S} {n : ℤ} : x.pc = .sizing → 10 ≤ n → n ≤ 20 →
      Round c zones isOver x { x with noPerBatch := n, pc := .counting } .silent
  | count {x : Comp S} {n : ℤ} : x.pc = .counting → 1 ≤ n → n ≤ 5 →
      Round c zones isOver x { x with noOfBatches := n, pc := .watching }
        (.produced c x.noPerBatch n)
  | watch {x : Comp S} : x.pc = .watching → 0 < x.noOfBatches →
      Round c zones isOver x { x with pc := .polling } .silent
  | used {x : Comp S} : x.pc = .watching → ¬0 < x.noOfBatches →
      Round c zones isOver x { x with pc := .watched } .silent
  | give {x : Comp S} : x.pc = .polling → isOver = true →
      Round c zones isOver x { x with pc := .watched } .silent
  | poll {x : Comp S} : x.pc = .polling → isOver = false →
      Round c zones isOver x { x with pc := .watching } .silent
  | stop {x : Comp S} : x.pc = .watched ∨ x.pc = .deciding true → isOver = true →
      Round c zones isOver x { x with pc := .stopped } .silent
  | scan {x : Comp S} : x.pc = .watched ∨ x.pc = .deciding true → isOver = false →
      Round c zones isOver x { x with pc := .scanning false 0 } .silent
  | skip {x : Comp S} {flag : Bool} {i : Fin 5} : x.pc = .scanning flag i →
      x.zonesUnder i = none → Round c zones isOver x { x with pc := afterEntry flag i } .silent
  | look {x : Comp S} {flag : Bool} {i : Fin 5} : x.pc = .scanning flag i →
      Round c zones isOver x { x with pc := .looking flag i } .silent
  | judge {x : Comp S} {flag : Bool} {i : Fin 5} {z : S.ZoneId} : x.pc = .looking flag i →
      x.zonesUnder i = some z →
      Round c zones isOver x
        { x with pc := afterEntry (flag || decide (0 < (zones z).capacity)) i } .silent
  | report {x : Comp S} : x.pc = .deciding false →
      Round c zones isOver x { x with pc := .resetting 0 } (.report c)
  | reset {x : Comp S} {k : Fin 5} : x.pc = .resetting k →
      Round c zones isOver x { x with
        zonesUnder := update x.zonesUnder k none
        pc := (succ? k).elim (.making 0) .resetting } .silent

variable {σ σ' : State S} {s : S.StudentId} {i z : S.ZoneId} {c : S.CompId} {e : Event S}
variable {x x' : Zone S} {h h' : Option (StudentPc S)} {pc : ZonePc S} {isOver : Bool}

/-! ## Students -/

/-- What a statement of the student `s` does: it changes its own place only, or it is a statement in
a zone. -/
structure StudentMoved (s : S.StudentId) (σ : State S) (e : Event S) (σ' : State S) : Prop where
  locked : Locked σ'
  comps_eq : σ'.comps = σ.comps
  over_eq : σ'.isOver = σ.isOver
  moved : (e = .silent ∧ σ'.zones = σ.zones ∧ ∀ z, holder σ' z = holder σ z) ∨
    ∃ i, Visit s i (σ.zones i) (holder σ i) (σ'.zones i) (holder σ' i) e ∧
      (∀ z ≠ i, σ'.zones z = σ.zones z) ∧ ∀ z ≠ i, holder σ' z = holder σ z

theorem pc_setStudent (σ : State S) (s : S.StudentId) (x : Student S) :
    (fun t => ((σ.setStudent s x).students t).pc) =
      update (fun t => (σ.students t).pc) s x.pc :=
  funext fun t => apply_update (fun _ => Student.pc) σ.students s x t

theorem pc_setZone (σ : State S) (z : S.ZoneId) (x : Zone S) :
    (fun t => ((σ.setZone z x).zones t).pc) = update (fun t => (σ.zones t).pc) z x.pc :=
  funext fun t => apply_update (fun _ => Zone.pc) σ.zones z x t

theorem lock_setZone (σ : State S) (z : S.ZoneId) (x : Zone S) :
    (fun t => ((σ.setZone z x).zones t).lock) =
      update (fun t => (σ.zones t).lock) z x.lock :=
  funext fun t => apply_update (fun _ => Zone.lock) σ.zones z x t

/-- The student `s` and the zone `i` are changed, and nothing else. -/
theorem moved_visit {x : Student S} {y : Zone S} (h : Locked σ)
    (hm : Mutex.Moves StudentPc.inside (fun s => (σ.students s).pc) (fun z => (σ.zones z).lock) s i
      x.pc y.lock) (hpc : y.pc = (σ.zones i).pc) (hvisit : Visit s i (σ.zones i)
      (if (σ.students s).pc.inside = some i then some (σ.students s).pc else none) y
      (if x.pc.inside = some i then some x.pc else none) e) :
    StudentMoved s σ e ((σ.setStudent s x).setZone i y) := by
  have hself : ((σ.setStudent s x).setZone i y).zones i = y := update_self ..
  have hne : ∀ z ≠ i, ((σ.setStudent s x).setZone i y).zones z = σ.zones z := fun z hz =>
    update_of_ne hz ..
  have hholder : ∀ z, holder ((σ.setStudent s x).setZone i y) z =
      Mutex.holder (update (fun t => (σ.students t).pc) s x.pc)
        (update (fun t => (σ.zones t).lock) i y.lock) z := by
    intro z
    unfold holder
    rw [lock_setZone]
    exact congrArg (Mutex.holder · _ z) (pc_setStudent σ s x)
  refine ⟨⟨?_, ?_⟩, rfl, rfl, .inr ⟨i, ?_, hne, fun z hz => ?_⟩⟩
  · rw [lock_setZone]
    exact pc_setStudent σ s x ▸ hm.held h.zone
  · rw [pc_setZone, hpc]
    exact (update_eq_self i fun z => (σ.zones z).pc).symm ▸ h.comp
  · rw [hself, hholder, hm.holder_after, show holder σ i = _ from hm.holder_before]
    exact hvisit
  · rw [hholder]
    exact hm.holder_of_ne h.zone hz

/-- A statement inside the zone `i` that leaves the mutex alone. -/
theorem moved_inside {pc : StudentPc S} {x : Student S} {y : Zone S} (h : Locked σ)
    (hpc : (σ.students s).pc = pc) (hbefore : pc.inside = some i) (hafter : x.pc.inside = some i)
    (hlock : y.lock = (σ.zones i).lock) (hzone : y.pc = (σ.zones i).pc)
    (hvisit : Visit s i (σ.zones i) (some pc) y (some x.pc) e) :
    StudentMoved s σ e ((σ.setStudent s x).setZone i y) := by
  subst hpc
  refine moved_visit h ?_ hzone (by rwa [if_pos hbefore, if_pos hafter])
  rw [hlock]
  exact h.zone.stays hbefore hafter

/-- The student changes nothing but its own place. -/
theorem moved_setStudent {pc : StudentPc S} {x : Student S} (h : Locked σ)
    (hpc : (σ.students s).pc = pc) (hbefore : pc.inside = some i) (hafter : x.pc.inside = some i)
    (hvisit : Visit s i (σ.zones i) (some pc) (σ.zones i) (some x.pc) e) :
    StudentMoved s σ e (σ.setStudent s x) := by
  have hself : σ.setStudent s x = (σ.setStudent s x).setZone i (σ.zones i) := by
    unfold setZone
    rw [show (σ.setStudent s x).zones = σ.zones from rfl, update_eq_self]
    rfl
  rw [hself]
  exact moved_inside h hpc hbefore hafter rfl rfl hvisit

theorem studentMoved (h : Locked σ) {result : Bool}
    (hstep : σ.studentStep s result = some (σ', e)) : StudentMoved s σ e σ' := by
  unfold studentStep at hstep
  cases hpc : (σ.students s).pc with
  | arriving =>
    simp only [hpc] at hstep
    cases hstep
    have hout := h.zone.outside (t := s) (p := StudentPc.seeking S.zone0)
      (show (σ.students s).pc.inside = none by rw [hpc]; rfl) rfl
    rw [← pc_setStudent σ s { σ.students s with pc := .seeking S.zone0 }] at hout
    exact ⟨⟨hout.1, h.comp⟩, rfl, rfl, .inl ⟨rfl, rfl, hout.2⟩⟩
  | seeking i =>
    simp only [hpc, Option.ite_none_right_eq_some, Option.some.injEq, Prod.mk.injEq] at hstep
    obtain ⟨hfree, rfl, rfl⟩ := hstep
    have hout : (σ.students s).pc.inside = none := by rw [hpc]; rfl
    refine moved_visit h (Mutex.acquires hfree hout rfl) rfl ?_
    have hin : (StudentPc.testing i).inside = some i := rfl
    rw [hout, if_neg nofun, if_pos hin]
    exact .lock hfree
  | testing i =>
    by_cases hslots : 0 < (σ.zones i).slots
    · simp only [hpc, if_pos hslots] at hstep
      cases hstep
      exact moved_setStudent h hpc rfl rfl (.offer hslots)
    · simp only [hpc, if_neg hslots] at hstep
      cases hstep
      exact moved_setStudent h hpc rfl rfl (.refuse hslots)
  | taking i =>
    simp only [hpc] at hstep
    cases hstep
    have hlock := (h.zone i s).mpr (congrArg StudentPc.inside hpc)
    exact moved_inside h hpc rfl rfl rfl rfl (.take hlock)
  | searching i k =>
    by_cases hk : k < 8
    · by_cases hfree : (σ.zones i).filled ⟨k, hk⟩ = none
      · simp only [hpc, dif_pos hk, if_pos hfree] at hstep
        cases hstep
        exact moved_setStudent h hpc rfl rfl (.find hk hfree)
      · simp only [hpc, dif_pos hk, if_neg hfree] at hstep
        cases hstep
        exact moved_setStudent h hpc rfl rfl (.skip hk hfree)
    · simp only [hpc, dif_neg hk] at hstep
      cases hstep
      exact moved_setStudent h hpc rfl rfl (.miss hk)
  | claiming =>
    simp only [hpc] at hstep
    cases hstep
    exact moved_inside h hpc rfl rfl rfl rfl .claim
  | dosing i =>
    simp only [hpc] at hstep
    cases hstep
    have hlock := (h.zone i s).mpr (congrArg StudentPc.inside hpc)
    exact moved_setStudent h hpc rfl rfl (.dose hlock)
  | leaving i returns =>
    simp only [hpc] at hstep
    cases hstep
    have hin : (σ.students s).pc.inside = some i := by rw [hpc]; rfl
    have hafter : (if returns = true then .done else .seeking (cyclic i) : StudentPc S).inside =
        none := by
      split_ifs <;> rfl
    refine moved_visit h (h.zone.releases hin hafter) rfl ?_
    rw [if_pos hin, hpc, hafter]
    exact .unlock
  | done => simp [hpc] at hstep

theorem Visit.pc_eq (hv : Visit s i x h x' h' e) : x'.pc = x.pc := by
  cases hv <;> rfl

/-- A student does not move a zone. -/
theorem StudentMoved.pc_eq (hm : StudentMoved s σ e σ') (z : S.ZoneId) :
    (σ'.zones z).pc = (σ.zones z).pc := by
  obtain ⟨-, hzones, -⟩ | ⟨i, hv, hzones, -⟩ := hm.moved
  · rw [hzones]
  · by_cases hz : z = i
    · rw [hz, hv.pc_eq]
    · rw [hzones z hz]

theorem StudentMoved.asker_eq (hm : StudentMoved s σ e σ') (c : S.CompId) :
    asker σ' c = asker σ c := by
  unfold asker
  rw [funext hm.pc_eq, hm.comps_eq]

/-! ## Zones -/

/-- What a statement of the zone `z` does to the companies: nothing, or it asks one of them. -/
structure ZoneMoved (z : S.ZoneId) (σ : State S) (e : Event S) (σ' : State S) : Prop where
  locked : Locked σ'
  students_eq : σ'.students = σ.students
  over_eq : σ'.isOver = σ.isOver
  turn : Turn z σ.comps σ.isOver (σ.zones z) (σ'.zones z) e
  zones_eq : ∀ z' ≠ z, σ'.zones z' = σ.zones z'
  holder_eq : ∀ z', holder σ' z' = holder σ z'
  moved : ((e = .silent ∨ ∃ a, e = .published z a) ∧ σ'.comps = σ.comps ∧
      ∀ c, asker σ' c = asker σ c) ∨
    ∃ i, Delivery z i (σ.comps i) (asker σ i) (σ'.comps i) (asker σ' i) e ∧
      (∀ c ≠ i, σ'.comps c = σ.comps c) ∧ ∀ c ≠ i, asker σ' c = asker σ c

theorem lock_setComp (σ : State S) (c : S.CompId) (x : Comp S) :
    (fun d => ((σ.setComp c x).comps d).lock) =
      update (fun d => (σ.comps d).lock) c x.lock :=
  funext fun d => apply_update (fun _ => Comp.lock) σ.comps c x d

theorem holder_setZone (hlock : x.lock = (σ.zones z).lock) (z' : S.ZoneId) :
    holder (σ.setZone z x) z' = holder σ z' := by
  unfold holder
  rw [lock_setZone, hlock]
  exact congrArg (Mutex.holder _ · z') (update_eq_self z fun t => (σ.zones t).lock)

/-- The zone `z` and the company `i` are changed, and nothing else. -/
theorem moved_delivery {i : S.CompId} {y : Comp S} (h : Locked σ)
    (hm : Mutex.Moves ZonePc.inside (fun z => (σ.zones z).pc) (fun c => (σ.comps c).lock) z i
      x.pc y.lock) (hlock : x.lock = (σ.zones z).lock)
    (hturn : Turn z σ.comps σ.isOver (σ.zones z) x e) (hdelivery : Delivery z i (σ.comps i)
      (if (σ.zones z).pc.inside = some i then some (σ.zones z).pc else none) y
      (if x.pc.inside = some i then some x.pc else none) e) :
    ZoneMoved z σ e ((σ.setZone z x).setComp i y) := by
  have hself : ((σ.setZone z x).setComp i y).comps i = y := update_self ..
  have hne : ∀ c ≠ i, ((σ.setZone z x).setComp i y).comps c = σ.comps c := fun c hc =>
    update_of_ne hc ..
  have hasker : ∀ c, asker ((σ.setZone z x).setComp i y) c =
      Mutex.holder (update (fun t => (σ.zones t).pc) z x.pc)
        (update (fun d => (σ.comps d).lock) i y.lock) c := by
    intro c
    unfold asker
    rw [lock_setComp]
    exact congrArg (Mutex.holder · _ c) (pc_setZone σ z x)
  refine ⟨⟨?_, ?_⟩, rfl, rfl, ?_, fun z' hz' => update_of_ne hz' .., ?_,
    .inr ⟨i, ?_, hne, fun c hc => ?_⟩⟩
  · have hzone := (update_eq_self z fun t => (σ.zones t).lock).symm ▸ h.zone
    rw [← hlock, ← lock_setZone] at hzone
    exact hzone
  · rw [lock_setComp]
    exact pc_setZone σ z x ▸ hm.held h.comp
  · rw [show ((σ.setZone z x).setComp i y).zones z = x from update_self ..]
    exact hturn
  · exact holder_setZone hlock
  · rw [hself, hasker, hm.holder_after, show asker σ i = _ from hm.holder_before]
    exact hdelivery
  · rw [hasker]
    exact hm.holder_of_ne h.comp hc

/-- A statement under the mutex of the company `i` that leaves the mutex alone. -/
theorem moved_asking {i : S.CompId} {y : Comp S} (h : Locked σ)
    (hpc : (σ.zones z).pc = pc) (hbefore : pc.inside = some i) (hafter : x.pc.inside = some i)
    (hclock : y.lock = (σ.comps i).lock) (hlock : x.lock = (σ.zones z).lock)
    (hturn : Turn z σ.comps σ.isOver (σ.zones z) x e)
    (hdelivery : Delivery z i (σ.comps i) (some pc) y (some x.pc) e) :
    ZoneMoved z σ e ((σ.setZone z x).setComp i y) := by
  subst hpc
  refine moved_delivery h ?_ hlock hturn (by rwa [if_pos hbefore, if_pos hafter])
  rw [hclock]
  exact h.comp.stays hbefore hafter

/-- The zone changes nothing but its own record, under the mutex of the company `i`. -/
theorem moved_setZone {i : S.CompId} (h : Locked σ)
    (hpc : (σ.zones z).pc = pc) (hbefore : pc.inside = some i) (hafter : x.pc.inside = some i)
    (hlock : x.lock = (σ.zones z).lock) (hturn : Turn z σ.comps σ.isOver (σ.zones z) x e)
    (hdelivery : Delivery z i (σ.comps i) (some pc) (σ.comps i) (some x.pc) e) :
    ZoneMoved z σ e (σ.setZone z x) := by
  have hself : σ.setZone z x = (σ.setZone z x).setComp i (σ.comps i) := by
    unfold setComp
    rw [show (σ.setZone z x).comps = σ.comps from rfl, update_eq_self]
    rfl
  rw [hself]
  exact moved_asking h hpc hbefore hafter rfl hlock hturn hdelivery

/-- A statement of a zone that asks no company. -/
theorem moved_apart (h : Locked σ) (hpc : (σ.zones z).pc = pc)
    (hbefore : pc.inside = none) (hafter : x.pc.inside = none) (hlock : x.lock = (σ.zones z).lock)
    (hevent : e = .silent ∨ ∃ a, e = .published z a)
    (hturn : Turn z σ.comps σ.isOver (σ.zones z) x e) : ZoneMoved z σ e (σ.setZone z x) := by
  subst hpc
  have hout := h.comp.outside hbefore hafter
  rw [← pc_setZone σ z x] at hout
  refine ⟨⟨?_, hout.1⟩, rfl, rfl, ?_, fun z' hz' => update_of_ne hz' ..,
    holder_setZone hlock, .inl ⟨hevent, rfl, hout.2⟩⟩
  · rw [lock_setZone, hlock]
    exact (update_eq_self z fun t => (σ.zones t).lock).symm ▸ h.zone
  · rw [show (σ.setZone z x).zones z = x from update_self ..]
    exact hturn

theorem zoneMoved (h : Locked σ) (hstep : σ.zoneStep z = some (σ', e)) : ZoneMoved z σ e σ' := by
  unfold zoneStep at hstep
  cases hpc : (σ.zones z).pc with
  | clearing c k =>
    simp only [hpc] at hstep
    cases hstep
    have hafter : ((succ? k).elim (afterClear c) (.clearing c) : ZonePc S).inside = none := by
      cases succ? k with
      | none => cases c <;> rfl
      | some => rfl
    exact moved_apart h hpc rfl hafter rfl (.inl rfl) (.clear hpc)
  | seeking i =>
    simp only [hpc, Option.ite_none_right_eq_some, Option.some.injEq, Prod.mk.injEq] at hstep
    obtain ⟨hfree, rfl, rfl⟩ := hstep
    have hout : (σ.zones z).pc.inside = none := by rw [hpc]; rfl
    refine moved_delivery h (Mutex.acquires hfree hout rfl) rfl (.lock hpc) ?_
    have hin : (ZonePc.testing i).inside = some i := rfl
    rw [hout, if_neg nofun, if_pos hin]
    exact .lock hfree
  | testing i =>
    by_cases hbatches : 0 < (σ.comps i).noOfBatches
    · simp only [hpc, if_pos hbatches] at hstep
      cases hstep
      exact moved_setZone h hpc rfl rfl rfl (.offer hpc) (.offer hbatches)
    · simp only [hpc, if_neg hbatches] at hstep
      cases hstep
      exact moved_setZone h hpc rfl rfl rfl (.refuse hpc) (.refuse hbatches)
  | taking =>
    simp only [hpc] at hstep
    cases hstep
    exact moved_asking h hpc rfl rfl rfl rfl (.take hpc) .take
  | sizing i =>
    simp only [hpc] at hstep
    cases hstep
    have hlock := (h.comp i z).mpr (congrArg ZonePc.inside hpc)
    exact moved_setZone h hpc rfl rfl rfl (.size hpc) (.size hlock)
  | recording i j =>
    by_cases hj : j < 5
    · by_cases hfree : (σ.comps i).zonesUnder ⟨j, hj⟩ = none
      · simp only [hpc, dif_pos hj, if_pos hfree] at hstep
        cases hstep
        exact moved_setZone h hpc rfl rfl rfl (.find hpc) (.find hj hfree)
      · simp only [hpc, dif_pos hj, if_neg hfree] at hstep
        cases hstep
        exact moved_setZone h hpc rfl rfl rfl (.skip hpc) (.skip hj hfree)
    · simp only [hpc, dif_neg hj] at hstep
      cases hstep
      exact moved_setZone h hpc rfl rfl rfl (.miss hpc hj) (.miss hj)
  | entering i =>
    simp only [hpc] at hstep
    cases hstep
    have hlock := (h.comp i z).mpr (congrArg ZonePc.inside hpc)
    exact moved_asking h hpc rfl rfl rfl rfl (.enter hpc) (.enter hlock)
  | leaving i f =>
    simp only [hpc] at hstep
    cases hstep
    have hin : (σ.zones z).pc.inside = some i := by rw [hpc]; rfl
    have hafter : (if f = true then .vaccinating else .seeking (cyclic i) : ZonePc S).inside =
        none := by
      split_ifs <;> rfl
    refine moved_delivery h (h.comp.releases hin hafter) rfl ?_ ?_
    · cases f with
      | true => exact .go hpc
      | false => exact .back hpc
    · rw [if_pos hin, hpc, hafter]
      exact .unlock
  | vaccinating =>
    by_cases hcap : 0 < (σ.zones z).capacity
    · simp only [hpc, if_pos hcap] at hstep
      cases hstep
      exact moved_apart h hpc rfl rfl rfl (.inl rfl) (.begin hpc hcap)
    · simp only [hpc, if_neg hcap] at hstep
      cases hstep
      exact moved_apart h hpc rfl rfl rfl (.inl rfl) (.finish hpc hcap)
  | reducing =>
    simp only [hpc] at hstep
    cases hstep
    exact moved_apart h hpc rfl rfl rfl (.inl rfl) (.reduce hpc)
  | publishing a =>
    simp only [hpc] at hstep
    cases hstep
    exact moved_apart h hpc rfl rfl rfl (.inr ⟨a, rfl⟩) (.publish hpc)
  | waiting =>
    by_cases hslots : 0 < (σ.zones z).slots
    · simp only [hpc, if_pos hslots] at hstep
      cases hstep
      exact moved_apart h hpc rfl rfl rfl (.inl rfl) (.wait hpc hslots)
    · simp only [hpc, if_neg hslots] at hstep
      cases hstep
      exact moved_apart h hpc rfl rfl rfl (.inl rfl) (.used hpc hslots)
  | polling =>
    simp only [hpc] at hstep
    cases hstep
    cases hover : σ.isOver with
    | true => exact moved_apart h hpc rfl rfl rfl (.inl rfl) (.give hpc hover)
    | false => exact moved_apart h hpc rfl rfl rfl (.inl rfl) (.poll hpc hover)
  | ending =>
    simp only [hpc] at hstep
    cases hstep
    cases hover : σ.isOver with
    | true => exact moved_apart h hpc rfl rfl rfl (.inl rfl) (.stop (.inl hpc) hover)
    | false => exact moved_apart h hpc rfl rfl rfl (.inl rfl) (.again hpc hover)
  | finishing =>
    simp only [hpc] at hstep
    cases hstep
    cases hover : σ.isOver with
    | true => exact moved_apart h hpc rfl rfl rfl (.inl rfl) (.stop (.inr hpc) hover)
    | false => exact moved_apart h hpc rfl rfl rfl (.inl rfl) (.search hpc hover)
  | stopped => simp [hpc] at hstep

/-! ## Companies -/

/-- What a statement of the company `c` does. -/
structure CompMoved (c : S.CompId) (σ : State S) (e : Event S) (σ' : State S) : Prop where
  locked : Locked σ'
  students_eq : σ'.students = σ.students
  zones_eq : σ'.zones = σ.zones
  over_eq : σ'.isOver = σ.isOver
  round : Round c σ.zones σ.isOver (σ.comps c) (σ'.comps c) e
  comps_eq : ∀ d ≠ c, σ'.comps d = σ.comps d
  asker_eq : ∀ d, asker σ' d = asker σ d

theorem CompMoved.holder_eq (hm : CompMoved c σ e σ') (z : S.ZoneId) :
    holder σ' z = holder σ z := by
  unfold holder
  rw [hm.students_eq, hm.zones_eq]

theorem moved_round {x : Comp S} (h : Locked σ) (hlock : x.lock = (σ.comps c).lock)
    (hround : Round c σ.zones σ.isOver (σ.comps c) x e) : CompMoved c σ e (σ.setComp c x) := by
  have hself :
      update (fun d => (σ.comps d).lock) c x.lock = fun d => (σ.comps d).lock := by
    rw [hlock]
    exact update_eq_self c fun d => (σ.comps d).lock
  refine ⟨⟨h.zone, ?_⟩, rfl, rfl, rfl, ?_, fun d hd => update_of_ne hd .., fun d => ?_⟩
  · rw [lock_setComp, hself]
    exact h.comp
  · rw [show (σ.setComp c x).comps c = x from update_self ..]
    exact hround
  · unfold asker
    rw [lock_setComp, hself]
    rfl

theorem compMoved (h : Locked σ) {n : ℤ} (hstep : σ.compStep c n = some (σ', e)) :
    CompMoved c σ e σ' := by
  unfold compStep at hstep
  cases hpc : (σ.comps c).pc with
  | making =>
    simp only [hpc] at hstep
    cases hstep
    exact moved_round h rfl (.make hpc)
  | sizing =>
    simp only [hpc, Option.ite_none_right_eq_some, Option.some.injEq, Prod.mk.injEq] at hstep
    obtain ⟨⟨hle, hge⟩, rfl, rfl⟩ := hstep
    exact moved_round h rfl (.size hpc hle hge)
  | counting =>
    simp only [hpc, Option.ite_none_right_eq_some, Option.some.injEq, Prod.mk.injEq] at hstep
    obtain ⟨⟨hle, hge⟩, rfl, rfl⟩ := hstep
    exact moved_round h rfl (.count hpc hle hge)
  | watching =>
    by_cases hbatches : 0 < (σ.comps c).noOfBatches
    · simp only [hpc, if_pos hbatches] at hstep
      cases hstep
      exact moved_round h rfl (.watch hpc hbatches)
    · simp only [hpc, if_neg hbatches] at hstep
      cases hstep
      exact moved_round h rfl (.used hpc hbatches)
  | polling =>
    simp only [hpc] at hstep
    cases hstep
    cases hover : σ.isOver with
    | true => exact moved_round h rfl (.give hpc hover)
    | false => exact moved_round h rfl (.poll hpc hover)
  | watched =>
    simp only [hpc] at hstep
    cases hstep
    cases hover : σ.isOver with
    | true => exact moved_round h rfl (.stop (.inl hpc) hover)
    | false => exact moved_round h rfl (.scan (.inl hpc) hover)
  | scanning flag i =>
    by_cases hnone : (σ.comps c).zonesUnder i = none
    · simp only [hpc, if_pos hnone] at hstep
      cases hstep
      exact moved_round h rfl (.skip hpc hnone)
    · simp only [hpc, if_neg hnone] at hstep
      cases hstep
      exact moved_round h rfl (.look hpc)
  | looking flag i =>
    cases hz : (σ.comps c).zonesUnder i with
    | none => simp [hpc, hz] at hstep
    | some =>
      simp only [hpc, hz] at hstep
      cases hstep
      exact moved_round h rfl (.judge hpc hz)
  | deciding flag =>
    cases flag with
    | true =>
      simp only [hpc, if_true] at hstep
      cases hstep
      cases hover : σ.isOver with
      | true => exact moved_round h rfl (.stop (.inr hpc) hover)
      | false => exact moved_round h rfl (.scan (.inr hpc) hover)
    | false =>
      simp only [hpc, Bool.false_eq_true, if_false] at hstep
      cases hstep
      exact moved_round h rfl (.report hpc)
  | resetting =>
    simp only [hpc] at hstep
    cases hstep
    exact moved_round h rfl (.reset hpc)
  | stopped => simp [hpc] at hstep

/-! ## Events -/

/-- The zone that an event is about. -/
def Event.zone? : Event S → Option S.ZoneId
  | .slot _ z => some z
  | .dose _ z _ => some z
  | .unseated _ z => some z
  | .taken z _ => some z
  | .delivered z _ _ => some z
  | .dropped z _ => some z
  | .entered z _ => some z
  | .published z _ => some z
  | _ => none

/-- The company that an event is about. -/
def Event.comp? : Event S → Option S.CompId
  | .taken _ c => some c
  | .delivered _ c _ => some c
  | .dropped _ c => some c
  | .produced c _ _ => some c
  | .report c => some c
  | _ => none

theorem Visit.zone?_of_ne (hv : Visit s i x h x' h' e) (hz : z ≠ i) : e.zone? ≠ some z := by
  cases hv <;> simp [Event.zone?, Ne.symm hz]

theorem Visit.comp? (hv : Visit s i x h x' h' e) : e.comp? = none := by
  cases hv <;> rfl

theorem Turn.zone?_of_ne {comps : S.CompId → Comp S}
    (ht : Turn i comps isOver x x' e) (hz : z ≠ i) : e.zone? ≠ some z := by
  cases ht <;> simp [Event.zone?, Ne.symm hz]

theorem Delivery.comp?_of_ne {i : S.CompId} {x x' : Comp S} {h h' : Option (ZonePc S)}
    (hd : Delivery z i x h x' h' e) (hc : c ≠ i) : e.comp? ≠ some c := by
  cases hd with
  | @unlock f => cases f <;> simp [Event.comp?]
  | _ => simp [Event.comp?, Ne.symm hc]

theorem Round.zone? {zones : S.ZoneId → Zone S} {x x' : Comp S}
    (hr : Round c zones isOver x x' e) : e.zone? = none := by
  cases hr <;> rfl

theorem Round.comp?_of_ne {d : S.CompId} {zones : S.ZoneId → Zone S}
    {x x' : Comp S} (hr : Round d zones isOver x x' e) (hc : c ≠ d) : e.comp? ≠ some c := by
  cases hr <;> simp [Event.comp?, Ne.symm hc]

/-! ## Runs -/

theorem locked_initial (S : Setup) : Locked (State.initial S) where
  zone _ _ := ⟨nofun, nofun⟩
  comp _ _ := ⟨nofun, nofun⟩

/-- What one statement does. -/
inductive Moved (σ : State S) : Action S → Event S → State S → Prop
  | student {s : S.StudentId} {result : Bool} {e : Event S} {σ' : State S} :
      StudentMoved s σ e σ' → Moved σ (.student s result) e σ'
  | zone {z : S.ZoneId} {e : Event S} {σ' : State S} :
      ZoneMoved z σ e σ' → Moved σ (.zone z) e σ'
  | comp {c : S.CompId} {n : ℤ} {e : Event S} {σ' : State S} :
      CompMoved c σ e σ' → Moved σ (.comp c n) e σ'
  | finish : (∀ s, (σ.students s).pc = .done) →
      Moved σ .finish .silent { σ with isOver := true }

variable {a : Action S}

theorem moved_of_step (h : Locked σ) (hstep : σ.step a = some (σ', e)) : Moved σ a e σ' := by
  cases a with
  | student => exact .student (studentMoved h hstep)
  | zone => exact .zone (zoneMoved h hstep)
  | comp => exact .comp (compMoved h hstep)
  | finish =>
    simp only [State.step, Option.ite_none_right_eq_some, Option.some.injEq, Prod.mk.injEq]
      at hstep
    obtain ⟨hdone, rfl, rfl⟩ := hstep
    exact .finish hdone

theorem Moved.locked (hm : Moved σ a e σ') (h : Locked σ) : Locked σ' := by
  cases hm with
  | student hm | zone hm | comp hm => exact hm.locked
  | finish => exact ⟨h.zone, h.comp⟩

/-- Nothing but the end of `main` changes `over`. -/
theorem Moved.over_cases (hm : Moved σ a e σ') : σ'.isOver = σ.isOver ∨ σ'.isOver = true := by
  cases hm with
  | student hm | zone hm | comp hm => exact .inl hm.over_eq
  | finish => exact .inr rfl

/-- What one statement does to the zone `z` and the student inside. -/
inductive AtZone (z : S.ZoneId) (σ : State S) (e : Event S) (σ' : State S) : Action S → Prop
  | apart {a : Action S} : σ'.zones z = σ.zones z → holder σ' z = holder σ z →
      e.zone? ≠ some z → a ≠ .zone z → AtZone z σ e σ' a
  | visit {s : S.StudentId} {result : Bool} :
      Visit s z (σ.zones z) (holder σ z) (σ'.zones z) (holder σ' z) e →
      AtZone z σ e σ' (.student s result)
  | turn : Turn z σ.comps σ.isOver (σ.zones z) (σ'.zones z) e → holder σ' z = holder σ z →
      AtZone z σ e σ' (.zone z)

theorem Moved.atZone (hm : Moved σ a e σ') (z : S.ZoneId) : AtZone z σ e σ' a := by
  cases hm with
  | student hm =>
    obtain ⟨rfl, hzones, hholder⟩ | ⟨i, hv, hzones, hholder⟩ := hm.moved
    · exact .apart (congrFun hzones z) (hholder z) (by simp [Event.zone?]) (by simp)
    · by_cases hz : z = i
      · subst hz
        exact .visit hv
      · exact .apart (hzones z hz) (hholder z hz) (hv.zone?_of_ne hz) (by simp)
  | @zone y _ _ hm =>
    by_cases hz : z = y
    · subst hz
      exact .turn hm.turn (hm.holder_eq z)
    · exact .apart (hm.zones_eq z hz) (hm.holder_eq z) (hm.turn.zone?_of_ne hz)
        (by simpa using Ne.symm hz)
  | comp hm =>
    exact .apart (congrFun hm.zones_eq z) (hm.holder_eq z) (by simp [hm.round.zone?]) (by simp)
  | finish => exact .apart rfl rfl (by simp [Event.zone?]) (by simp)

/-- What one statement does to the company `c` and the zone that asks it. -/
inductive AtComp (c : S.CompId) (σ : State S) (e : Event S) (σ' : State S) : Action S → Prop
  | apart {a : Action S} : σ'.comps c = σ.comps c → asker σ' c = asker σ c →
      e.comp? ≠ some c → AtComp c σ e σ' a
  | delivery {z : S.ZoneId} :
      Delivery z c (σ.comps c) (asker σ c) (σ'.comps c) (asker σ' c) e → AtComp c σ e σ' (.zone z)
  | round {n : ℤ} : Round c σ.zones σ.isOver (σ.comps c) (σ'.comps c) e →
      asker σ' c = asker σ c → AtComp c σ e σ' (.comp c n)

theorem Moved.atComp (hm : Moved σ a e σ') (c : S.CompId) : AtComp c σ e σ' a := by
  cases hm with
  | student hm =>
    refine .apart (congrFun hm.comps_eq c) (hm.asker_eq c) ?_
    obtain ⟨rfl, -⟩ | ⟨i, hv, -⟩ := hm.moved
    · simp [Event.comp?]
    · simp [hv.comp?]
  | zone hm =>
    obtain ⟨he, hcomps, hasker⟩ | ⟨i, hd, hcomps, hasker⟩ := hm.moved
    · refine .apart (congrFun hcomps c) (hasker c) ?_
      rcases he with rfl | ⟨a, rfl⟩ <;> simp [Event.comp?]
    · by_cases hc : c = i
      · subst hc
        exact .delivery hd
      · exact .apart (hcomps c hc) (hasker c hc) (hd.comp?_of_ne hc)
  | @comp d _ _ _ hm =>
    by_cases hc : c = d
    · subst hc
      exact .round hm.round (hm.asker_eq c)
    · exact .apart (hm.comps_eq c hc) (hm.asker_eq c) (hm.round.comp?_of_ne hc)
  | finish => exact .apart rfl rfl (by simp [Event.comp?])

end Vaccination
