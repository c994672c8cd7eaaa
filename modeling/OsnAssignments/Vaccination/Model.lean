import Mathlib
import OsnAssignments.Common.Transition

/-!
# Companies, zones and students

The threads of `q2/Q2.c`, one for each company, vaccination zone and student: `comp_start` and
`comp_2`, `zone_start` and `zone_2`, `student_wait` and `student_slotmein`, and the assignment of
`main` to `over`.

`step` performs one statement of one thread, as far as other threads can observe it: each read and
each write of a shared variable is a step of its own, except that a test or an assignment that
touches the variables of its own thread besides is one step. The random numbers and the results of
the antibody tests are arbitrary, and so is the value of `student_slotmein` if it reaches its end
without a `return`.

The printed texts are left out, and so are the fields that no thread reads or that only decide a
random number: `treated`, `stati` and `prob`.
-/

namespace Vaccination

open Function

/-- The most slots a zone offers at a time. -/
scoped instance (priority := 3000) neZeroSeat : NeZero 8 :=
  ⟨by decide⟩

/-- The most batches a company makes at a time. -/
scoped instance (priority := 3000) neZeroBatch : NeZero 5 :=
  ⟨by decide⟩

/-- The input of `main`, which refuses zeros. -/
structure Setup where
  noOfComp : ℕ
  noOfZones : ℕ
  noOfStudents : ℕ
  comp_pos : 0 < noOfComp
  zones_pos : 0 < noOfZones
  students_pos : 0 < noOfStudents

namespace Setup

variable (S : Setup)

/-- An index into `comps`. -/
abbrev CompId := Fin S.noOfComp

/-- An index into `zones`. -/
abbrev ZoneId := Fin S.noOfZones

/-- An index into `students`. -/
abbrev StudentId := Fin S.noOfStudents

/-- The first company. -/
def comp0 : S.CompId := ⟨0, S.comp_pos⟩

/-- The first zone. -/
def zone0 : S.ZoneId := ⟨0, S.zones_pos⟩

/-- The first student. -/
def student0 : S.StudentId := ⟨0, S.students_pos⟩

end Setup

/-- The next index of a loop that starts again at its end. -/
def cyclic {n : ℕ} (i : Fin n) : Fin n :=
  ⟨(i.val + 1) % n, Nat.mod_lt _ (Nat.lt_of_le_of_lt (Nat.zero_le _) i.isLt)⟩

/-- The next index of a loop, if there is one. -/
def succ? {n : ℕ} (k : Fin n) : Option (Fin n) :=
  if h : k.val + 1 < n then some ⟨k.val + 1, h⟩ else none

/-- Where the thread of a student is. -/
inductive StudentPc (S : Setup)
  /-- Before `student_wait`. -/
  | arriving
  /-- Before `pthread_mutex_lock(&mutex_for_zone[i])`. -/
  | seeking (i : S.ZoneId)
  /-- Before the test `slots > 0`. -/
  | testing (i : S.ZoneId)
  /-- Before `slots--`. -/
  | taking (i : S.ZoneId)
  /-- In the loop of `student_slotmein`, before the test of `filled[k]`; at its end if `k` is 8. -/
  | searching (i : S.ZoneId) (k : ℕ)
  /-- Before the assignment to `filled[k]`. -/
  | claiming (i : S.ZoneId) (k : Fin 8)
  /-- Before the antibody test. -/
  | dosing (i : S.ZoneId)
  /-- Before `pthread_mutex_unlock(&mutex_for_zone[i])`, and whether `student_wait` then returns. -/
  | leaving (i : S.ZoneId) (returns : Bool)
  | done
  deriving DecidableEq

/-- The three loops that clear `filled`. -/
inductive Clear
  /-- In `zone_start`. -/
  | start
  /-- In `zone_2`, before the slots are published. -/
  | before
  /-- In `zone_2`, after the slots are used up. -/
  | after
  deriving DecidableEq

/-- Where the thread of a zone is. -/
inductive ZonePc (S : Setup)
  /-- Before the assignment to `filled[k]` in one of the loops. -/
  | clearing (c : Clear) (k : Fin 8)
  /-- Before `pthread_mutex_lock(&mutex_for_comp[i])`. -/
  | seeking (i : S.CompId)
  /-- Before the test `no_of_batches > 0`. -/
  | testing (i : S.CompId)
  /-- Before `no_of_batches--`. -/
  | taking (i : S.CompId)
  /-- Before the assignment to `capacity`. -/
  | sizing (i : S.CompId)
  /-- In the loop over `zones_under`, before the test of entry `j`; at its end if `j` is 5. -/
  | recording (i : S.CompId) (j : ℕ)
  /-- Before the assignment to `zones_under[j]`. -/
  | entering (i : S.CompId) (j : Fin 5)
  /-- Before `pthread_mutex_unlock(&mutex_for_comp[i])`, with the value of `f`. -/
  | leaving (i : S.CompId) (f : Bool)
  /-- Before the test `capacity > 0`. -/
  | vaccinating
  /-- Before `capacity -= a`. -/
  | reducing
  /-- Before `slots = a`. -/
  | publishing (a : ℤ)
  /-- Before the test `slots > 0`. -/
  | waiting
  /-- Before the test of `over` in the loop that waits. -/
  | polling
  /-- After `zone_2`, before the test of `over`. -/
  | ending
  /-- The vaccines are used up; before the test of `over`. -/
  | finishing
  | stopped
  deriving DecidableEq

/-- Where the thread of a company is. -/
inductive CompPc
  /-- In `comp_start`, before the assignment to `zones_under[k]`. -/
  | making (k : Fin 5)
  /-- Before the assignment to `no_per_batch`. -/
  | sizing
  /-- Before the assignment to `no_of_batches`. -/
  | counting
  /-- Before the test `no_of_batches > 0`. -/
  | watching
  /-- Before the test of `over` in the loop that watches. -/
  | polling
  /-- After that loop, before the test of `over`. -/
  | watched
  /-- In `comp_2`, before the test of `zones_under[i]`. -/
  | scanning (flag : Bool) (i : Fin 5)
  /-- Before the test of the capacity of zone `zones_under[i]`. -/
  | looking (flag : Bool) (i : Fin 5)
  /-- Before the test of `flag`. -/
  | deciding (flag : Bool)
  /-- Before the assignment to `zones_under[k]` in `comp_2`. -/
  | resetting (k : Fin 5)
  | stopped
  deriving DecidableEq

/-- `struct student`, with the place of its thread. -/
structure Student (S : Setup) where
  pc : StudentPc S
  chance : ℕ

/-- `struct zone`, with the place of its thread. -/
structure Zone (S : Setup) where
  pc : ZonePc S
  slots : ℤ
  capacity : ℤ
  /-- `none` is `-1`. -/
  filled : Fin 8 → Option S.StudentId
  /-- `none` is `-1`. -/
  compAssigned : Option S.CompId
  /-- The student that holds `mutex_for_zone`. -/
  lock : Option S.StudentId

/-- `struct comp`, with the place of its thread. -/
structure Comp (S : Setup) where
  pc : CompPc
  noOfBatches : ℤ
  noPerBatch : ℤ
  /-- `none` is `-1`. -/
  zonesUnder : Fin 5 → Option S.ZoneId
  /-- The zone that holds `mutex_for_comp`. -/
  lock : Option S.ZoneId

/-- The shared memory. -/
structure State (S : Setup) where
  students : S.StudentId → Student S
  zones : S.ZoneId → Zone S
  comps : S.CompId → Comp S
  /-- `over`. -/
  isOver : Bool

/-- A statement of a thread. -/
inductive Action (S : Setup)
  /-- Of a student; `result` is the result of an antibody test, or whether `student_slotmein`
  returns 1 at its end. -/
  | student (s : S.StudentId) (result : Bool)
  | zone (z : S.ZoneId)
  /-- Of a company; `n` is a random number. -/
  | comp (c : S.CompId) (n : ℤ)
  /-- `main` has joined all students and assigns to `over`. -/
  | finish
  deriving DecidableEq

/-- What a statement did. -/
inductive Event (S : Setup)
  | silent
  /-- `slots--`. -/
  | slot (s : S.StudentId) (z : S.ZoneId)
  /-- A student is vaccinated, with the result of the test. -/
  | dose (s : S.StudentId) (z : S.ZoneId) (positive : Bool)
  /-- `student_slotmein` has reached its end. -/
  | unseated (s : S.StudentId) (z : S.ZoneId)
  /-- `no_of_batches--`. -/
  | taken (z : S.ZoneId) (c : S.CompId)
  /-- `capacity = no_per_batch`. -/
  | delivered (z : S.ZoneId) (c : S.CompId) (n : ℤ)
  /-- A zone has found no free entry of `zones_under`. -/
  | dropped (z : S.ZoneId) (c : S.CompId)
  /-- A zone goes to its vaccination loop, with its capacity. -/
  | entered (z : S.ZoneId) (n : ℤ)
  /-- `slots = a`. -/
  | published (z : S.ZoneId) (a : ℤ)
  /-- A company has manufactured `y` batches of `x` vaccines. -/
  | produced (c : S.CompId) (x y : ℤ)
  /-- A company reports that its vaccines are over. -/
  | report (c : S.CompId)
  deriving DecidableEq

namespace State

variable {S : Setup}

/-- Replace the record of a student. -/
def setStudent (σ : State S) (s : S.StudentId) (x : Student S) : State S :=
  { σ with students := update σ.students s x }

/-- Replace the record of a zone. -/
def setZone (σ : State S) (z : S.ZoneId) (x : Zone S) : State S :=
  { σ with zones := update σ.zones z x }

/-- Replace the record of a company. -/
def setComp (σ : State S) (c : S.CompId) (x : Comp S) : State S :=
  { σ with comps := update σ.comps c x }

/-- A statement of a student, which may change the zone that it visits. -/
def studentStep (σ : State S) (s : S.StudentId) (result : Bool) : Option (State S × Event S) :=
  let x := σ.students s
  match x.pc with
  | .arriving => some (σ.setStudent s { x with pc := .seeking S.zone0 }, .silent)
  | .seeking i =>
    if (σ.zones i).lock = none then
      some ((σ.setStudent s { x with pc := .testing i }).setZone i
        { σ.zones i with lock := some s }, .silent)
    else none
  | .testing i =>
    let pc := if 0 < (σ.zones i).slots then .taking i else .leaving i false
    some (σ.setStudent s { x with pc := pc }, .silent)
  | .taking i =>
    some ((σ.setStudent s { x with pc := .searching i 0 }).setZone i
      { σ.zones i with slots := (σ.zones i).slots - 1 }, .slot s i)
  | .searching i k =>
    if h : k < 8 then
      let pc := if (σ.zones i).filled ⟨k, h⟩ = none then .claiming i ⟨k, h⟩
        else .searching i (k + 1)
      some (σ.setStudent s { x with pc := pc }, .silent)
    else some (σ.setStudent s { x with pc := .leaving i result }, .unseated s i)
  | .claiming i k =>
    some ((σ.setStudent s { x with pc := .dosing i }).setZone i
      { σ.zones i with filled := update (σ.zones i).filled k (some s) }, .silent)
  | .dosing i =>
    let returns := decide (x.chance + 1 = 4) || result
    some (σ.setStudent s ⟨.leaving i returns, x.chance + 1⟩, .dose s i result)
  | .leaving i returns =>
    let pc := if returns then .done else .seeking (cyclic i)
    some ((σ.setStudent s { x with pc := pc }).setZone i { σ.zones i with lock := none }, .silent)
  | .done => none

/-- Where a zone goes after a loop that clears `filled`. -/
def afterClear : Clear → ZonePc S
  | .start => .seeking S.comp0
  | .before => .reducing
  | .after => .ending

/-- A statement of a zone, which may change the company that it asks. -/
def zoneStep (σ : State S) (z : S.ZoneId) : Option (State S × Event S) :=
  let x := σ.zones z
  match x.pc with
  | .clearing c k =>
    let pc := (succ? k).elim (afterClear c) (.clearing c)
    some (σ.setZone z { x with filled := update x.filled k none, pc := pc }, .silent)
  | .seeking i =>
    if (σ.comps i).lock = none then
      some ((σ.setZone z { x with pc := .testing i }).setComp i
        { σ.comps i with lock := some z }, .silent)
    else none
  | .testing i =>
    let pc := if 0 < (σ.comps i).noOfBatches then .taking i else .leaving i false
    some (σ.setZone z { x with pc := pc }, .silent)
  | .taking i =>
    some ((σ.setZone z { x with pc := .sizing i }).setComp i
      { σ.comps i with noOfBatches := (σ.comps i).noOfBatches - 1 }, .taken z i)
  | .sizing i =>
    let n := (σ.comps i).noPerBatch
    some (σ.setZone z { x with capacity := n, compAssigned := some i, pc := .recording i 0 },
      .delivered z i n)
  | .recording i j =>
    if h : j < 5 then
      let pc := if (σ.comps i).zonesUnder ⟨j, h⟩ = none then .entering i ⟨j, h⟩
        else .recording i (j + 1)
      some (σ.setZone z { x with pc := pc }, .silent)
    else some (σ.setZone z { x with pc := .leaving i false }, .dropped z i)
  | .entering i j =>
    some ((σ.setZone z { x with pc := .leaving i true }).setComp i
      { σ.comps i with zonesUnder := update (σ.comps i).zonesUnder j (some z) }, .silent)
  | .leaving i f =>
    let pc := if f then .vaccinating else .seeking (cyclic i)
    some ((σ.setZone z { x with pc := pc }).setComp i { σ.comps i with lock := none },
      if f then .entered z x.capacity else .silent)
  | .vaccinating =>
    let pc := if 0 < x.capacity then .clearing .before 0 else .finishing
    some (σ.setZone z { x with pc := pc }, .silent)
  | .reducing =>
    let a := min x.capacity 8
    some (σ.setZone z { x with capacity := x.capacity - a, pc := .publishing a }, .silent)
  | .publishing a => some (σ.setZone z { x with slots := a, pc := .waiting }, .published z a)
  | .waiting =>
    let pc := if 0 < x.slots then .polling else .clearing .after 0
    some (σ.setZone z { x with pc := pc }, .silent)
  | .polling =>
    let pc := if σ.isOver then .clearing .after 0 else .waiting
    some (σ.setZone z { x with pc := pc }, .silent)
  | .ending =>
    let pc := if σ.isOver then .stopped else .vaccinating
    some (σ.setZone z { x with pc := pc }, .silent)
  | .finishing =>
    let pc := if σ.isOver then .stopped else .seeking S.comp0
    some (σ.setZone z { x with pc := pc }, .silent)
  | .stopped => none

/-- Where a company goes after entry `i` of `zones_under`. -/
def afterEntry (flag : Bool) (i : Fin 5) : CompPc :=
  (succ? i).elim (.deciding flag) (.scanning flag)

/-- A statement of a company, for which `n` is the random number if it needs one. -/
def compStep (σ : State S) (c : S.CompId) (n : ℤ) : Option (State S × Event S) :=
  let x := σ.comps c
  match x.pc with
  | .making k =>
    let pc := (succ? k).elim .sizing .making
    some (σ.setComp c { x with zonesUnder := update x.zonesUnder k none, pc := pc },
      .silent)
  | .sizing =>
    if 10 ≤ n ∧ n ≤ 20 then
      some (σ.setComp c { x with noPerBatch := n, pc := .counting }, .silent)
    else none
  | .counting =>
    if 1 ≤ n ∧ n ≤ 5 then
      some (σ.setComp c { x with noOfBatches := n, pc := .watching }, .produced c x.noPerBatch n)
    else none
  | .watching =>
    let pc := if 0 < x.noOfBatches then .polling else .watched
    some (σ.setComp c { x with pc := pc }, .silent)
  | .polling =>
    let pc := if σ.isOver then .watched else .watching
    some (σ.setComp c { x with pc := pc }, .silent)
  | .watched =>
    let pc := if σ.isOver then .stopped else .scanning false 0
    some (σ.setComp c { x with pc := pc }, .silent)
  | .scanning flag i =>
    let pc := if x.zonesUnder i = none then afterEntry flag i else .looking flag i
    some (σ.setComp c { x with pc := pc }, .silent)
  | .looking flag i =>
    match x.zonesUnder i with
    | none => none
    | some z =>
      let flag := flag || decide (0 < (σ.zones z).capacity)
      some (σ.setComp c { x with pc := afterEntry flag i }, .silent)
  | .deciding flag =>
    if flag then
      let pc := if σ.isOver then .stopped else .scanning false 0
      some (σ.setComp c { x with pc := pc }, .silent)
    else some (σ.setComp c { x with pc := .resetting 0 }, .report c)
  | .resetting k =>
    let pc := (succ? k).elim (.making 0) .resetting
    some (σ.setComp c { x with zonesUnder := update x.zonesUnder k none, pc := pc },
      .silent)
  | .stopped => none

/-- Perform one statement. -/
def step (σ : State S) : Action S → Option (State S × Event S)
  | .student s result => σ.studentStep s result
  | .zone z => σ.zoneStep z
  | .comp c n => σ.compStep c n
  | .finish =>
    if ∀ s, (σ.students s).pc = .done then some ({ σ with isOver := true }, .silent) else none

/-- The state in which `main` starts the threads; the memory that `shareMem` returns is zero. -/
def initial (S : Setup) : State S where
  students _ := ⟨.arriving, 1⟩
  zones _ := ⟨.clearing .start 0, 0, 0, fun _ => some S.student0, none, none⟩
  comps _ := ⟨.making 0, 0, 0, fun _ => some S.zone0, none⟩
  isOver := false

end State

/-- The label of a step: the statement, and what it did. -/
abbrev Label (S : Setup) := Action S × Event S

/-- The steps of a run, newest first. -/
abbrev History (S : Setup) := List (State S × Label S)

/-- The simulation. -/
def simulation (S : Setup) : Transition.System (State S) (Label S) :=
  Transition.ofFun (fun σ => σ = .initial S) State.step

/-- What is found after executing statements from the start is found at the end of some run. -/
theorem exists_run {S : Setup} (as : List (Action S)) (P : History S → State S → Bool)
    (h : (Transition.exec State.step [] (.initial S) as).any (fun r => P r.1 r.2) = true) :
    ∃ hist σ, (simulation S).Run hist σ ∧ P hist σ = true :=
  Transition.exists_run_of_exec_any rfl h

end Vaccination
