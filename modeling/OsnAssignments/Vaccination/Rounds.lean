import Mathlib
import OsnAssignments.Vaccination.Batches

/-!
# Rounds

In each round a company waits until its vaccines are used up. The batches that it has delivered are
found through `zones_under`, and a zone has used up its batch if its capacity is zero.

The vaccines of a batch that have not been given are still in the capacity of the zone, or they are
slots, or a student has taken the slot and waits for its dose (`Ledger`). Only the first are counted
by the company.
-/

namespace Vaccination

open State Allotment

variable {S : Setup}

/-! ## The doses of a batch -/

/-- The number of batches that were delivered to zone `z`. -/
def deliveries (z : S.ZoneId) : History S → ℕ
  | [] => 0
  | x :: hist =>
    match x.2.2 with
    | .delivered y _ _ => if y = z then deliveries z hist + 1 else deliveries z hist
    | _ => deliveries z hist

/-- The student that has taken the last slot in zone `z`, and the number of the batch that it comes
from, which is the last one that was delivered before. -/
def lastSlot (z : S.ZoneId) : History S → Option (S.StudentId × ℕ)
  | [] => none
  | x :: hist =>
    match x.2.2 with
    | .slot s y => if y = z then some (s, deliveries z hist) else lastSlot z hist
    | _ => lastSlot z hist

/-- The vaccines in batch number `j` of zone `z`. -/
def sizeOf (z : S.ZoneId) (j : ℕ) : History S → ℤ
  | [] => 0
  | x :: hist =>
    (if j = deliveries z hist + 1 then x.2.2.deliveredTo z else 0) + sizeOf z j hist

/-- A student gets a dose in zone `z` for the slot `last` that it has taken there. -/
def Event.doseFor (z : S.ZoneId) (last : Option (S.StudentId × ℕ)) (j : ℕ) : Event S → ℤ
  | .dose s y _ => if y = z ∧ last = some (s, j) then 1 else 0
  | _ => 0

/-- The doses from batch number `j` of zone `z`. -/
def given (z : S.ZoneId) (j : ℕ) : History S → ℤ
  | [] => 0
  | x :: hist => x.2.2.doseFor z (lastSlot z hist) j + given z j hist

/-- The vaccines of batch number `j` of zone `z` that have not been given. -/
def left (z : S.ZoneId) (hist : History S) (j : ℕ) : ℤ :=
  sizeOf z j hist - given z j hist

/-- The batches that company `c` has delivered since it has last produced any: the zones, and the
numbers that the batches have there. -/
def round (c : S.CompId) : History S → List (S.ZoneId × ℕ)
  | [] => []
  | x :: hist =>
    match x.2.2 with
    | .delivered z d _ => if d = c then (z, deliveries z hist + 1) :: round c hist else round c hist
    | .produced d _ _ => if d = c then [] else round c hist
    | _ => round c hist

variable {σ σ' : State S} {s : S.StudentId} {z : S.ZoneId} {c : S.CompId} {e : Event S}
  {hist : History S} {a : Action S}
variable {zones : S.ZoneId → Zone S} {pc : CompPc}

theorem deliveries_le_cons (z : S.ZoneId) (x : State S × Label S) (hist : History S) :
    deliveries z hist ≤ deliveries z (x :: hist) := by
  obtain ⟨σ, a, e⟩ := x
  cases e with
  | delivered y => by_cases hy : y = z <;> simp [deliveries, hy]
  | _ => exact le_refl _

/-- The batches of a round have been delivered. -/
theorem le_deliveries_of_mem_round {p : S.ZoneId × ℕ} (hp : p ∈ round c hist) :
    p.2 ≤ deliveries p.1 hist := by
  induction hist with
  | nil => simp [round] at hp
  | cons x hist ih =>
    have hle := deliveries_le_cons p.1 x hist
    unfold round at hp
    split at hp
    · next z d n hevent =>
      split_ifs at hp
      · rcases List.mem_cons.mp hp with rfl | hp
        · simp [deliveries, hevent]
        · exact (ih hp).trans hle
      · exact (ih hp).trans hle
    · split_ifs at hp
      · simp at hp
      · exact (ih hp).trans hle
    · exact (ih hp).trans hle

theorem Event.doseFor_nonneg (e : Event S) (z : S.ZoneId) (last : Option (S.StudentId × ℕ))
    (j : ℕ) : 0 ≤ e.doseFor z last j := by
  unfold doseFor
  split
  · split_ifs <;> decide
  · exact le_refl 0

/-- Nothing is added to a batch that has been delivered. -/
theorem left_cons_le {j : ℕ} (hj : j ≤ deliveries z hist) (x : State S × Label S) :
    left z (x :: hist) j ≤ left z hist j := by
  have hdose := x.2.2.doseFor_nonneg z (lastSlot z hist) j
  unfold left
  rw [sizeOf, given, if_neg (by omega)]
  omega

/-- The event counts for the batches of zone `z`. -/
def Event.counts (z : S.ZoneId) : Event S → Bool
  | .slot _ y => y = z
  | .dose _ y _ => y = z
  | .delivered y _ _ => y = z
  | _ => false

theorem Event.counts_of_ne (he : e.zone? ≠ some z) : e.counts z = false := by
  cases e <;> simp_all [zone?, counts]

theorem ghosts_of_not_counts {x : State S × Label S} (he : x.2.2.counts z = false)
    (hist : History S) :
    deliveries z (x :: hist) = deliveries z hist ∧ lastSlot z (x :: hist) = lastSlot z hist ∧
      left z (x :: hist) = left z hist := by
  obtain ⟨σ, a, e⟩ := x
  unfold left
  cases e <;>
    simp_all [Event.counts, deliveries, lastSlot, sizeOf, given, Event.deliveredTo, Event.doseFor]

/-- What happens elsewhere does not count for a company. -/
theorem round_of_ne {x : State S × Label S} (he : x.2.2.comp? ≠ some c) :
    round c (x :: hist) = round c hist := by
  obtain ⟨σ, a, e⟩ := x
  cases e <;> simp_all [Event.comp?, round]

/-! ## Zones -/

/-- Where a zone has used up its batches. -/
def ZonePc.spent : ZonePc S → Bool
  | .clearing .start _ => true
  | .seeking _ => true
  | .testing _ => true
  | .taking _ => true
  | .sizing _ => true
  | .leaving _ f => !f
  | .finishing => true
  | _ => false

/-- The vaccines of a zone that have not been given: `batch` is the number of the last batch, `last`
the last slot that was taken, and `left` counts the vaccines of each batch. -/
structure Ledger (x : Zone S) (h : Option (StudentPc S)) (batch : ℕ)
    (last : Option (S.StudentId × ℕ)) (left : ℕ → ℤ) : Prop where
  left_eq : ∀ j, left j = (if last.map Prod.snd = some j then inUse h else 0) +
    if j = batch then x.slots + x.capacity + x.pc.unpublished else 0
  last_le : ∀ s j, last = some (s, j) → j ≤ batch
  owner : inUse h ≠ 0 → ∃ s j, last = some (s, j) ∧ x.lock = some s
  spent : x.pc.spent = true → x.capacity = 0

section Zones

variable {x x' : Zone S} {h h' : Option (StudentPc S)} {batch : ℕ}
  {last : Option (S.StudentId × ℕ)} {rest : ℕ → ℤ} {doses published delivered : ℤ}

/-- The student inside moves on with the slot that it has taken, or has none. -/
theorem Ledger.of_holder (hok : Ledger x h batch last rest) (huse : inUse h' = inUse h) :
    Ledger x h' batch last rest :=
  { hok with
    left_eq := by
      rw [huse]
      exact hok.left_eq
    owner := by
      rw [huse]
      exact hok.owner }

/-- A student takes a slot. -/
theorem Ledger.take (hok : Ledger x (some (.taking z)) batch last rest) (hlock : x.lock = some s) :
    Ledger { x with slots := x.slots - 1 } (some (.searching z 0)) batch (some (s, batch))
      rest := by
  refine ⟨fun j => ?_, ?_, fun _ => ⟨s, batch, rfl, hlock⟩, hok.spent⟩
  · rw [hok.left_eq j]
    by_cases hj : j = batch
    · simp [hj, inUse]
      ring
    · simp [hj, inUse, Ne.symm hj]
  · rintro t j heq
    obtain ⟨-, rfl⟩ := Prod.mk.inj (Option.some.inj heq)
    exact le_refl _

/-- A student gets its dose. -/
theorem Ledger.dose (hok : Ledger x (some (.dosing z)) batch last rest) (hlock : x.lock = some s)
    (returns result : Bool) : Ledger x (some (.leaving z returns)) batch last
      fun j => rest j - (Event.dose s z result).doseFor z last j := by
  obtain ⟨t, k, rfl, ht⟩ := hok.owner (by simp [inUse])
  obtain rfl : s = t := Option.mem_unique hlock ht
  refine ⟨fun j => ?_, hok.last_le, by simp [inUse], hok.spent⟩
  rw [hok.left_eq j]
  by_cases hj : k = j
  · simp [hj, inUse, Event.doseFor]
  · simp [hj, Event.doseFor]

/-- The ledger of a zone in a run. -/
abbrev LedgerAt (z : S.ZoneId) (hist : History S) (x : Zone S) (h : Option (StudentPc S)) : Prop :=
  Ledger x h (deliveries z hist) (lastSlot z hist) (left z hist)

theorem LedgerAt.keep {y : State S × Label S} (hok : LedgerAt z hist x h)
    (he : y.2.2.counts z = false) : LedgerAt z (y :: hist) x h := by
  obtain ⟨hdel, hlast, hleft⟩ := ghosts_of_not_counts he hist
  unfold LedgerAt
  rw [hdel, hlast, hleft]
  exact hok

theorem LedgerAt.visit (hok : LedgerAt z hist x h) (hseats : SeatsOk x h)
    (hv : Visit s z x h x' h' e) (σ : State S) (a : Action S) :
    LedgerAt z ((σ, a, e) :: hist) x' h' := by
  have hquiet : ∀ h' : Option (StudentPc S), inUse h' = inUse h →
      LedgerAt z ((σ, a, .silent) :: hist) x h' := by
    intro h' huse
    exact (LedgerAt.keep hok rfl).of_holder huse
  cases hv with
  | lock =>
    have hlock := hquiet (some (.testing z)) rfl
    exact { hlock with owner := fun hne => absurd rfl hne }
  | offer | refuse | skip | find => exact hquiet _ rfl
  | take hlock =>
    have htake := hok.take hlock
    have hleft : left z ((σ, a, .slot s z) :: hist) = left z hist := by
      funext j
      simp [left, sizeOf, given, Event.deliveredTo, Event.doseFor]
    unfold LedgerAt
    rw [hleft, show lastSlot z ((σ, a, .slot s z) :: hist) = some (s, deliveries z hist) by
      simp [lastSlot]]
    exact htake
  | miss hk => exact absurd hseats.seats.lt hk
  | claim => exact { hquiet (some (.dosing z)) rfl with }
  | @dose returns result hlock =>
    have hdose := hok.dose hlock returns result
    have hleft : left z ((σ, a, .dose s z result) :: hist) =
        fun j => left z hist j - (Event.dose s z result).doseFor z (lastSlot z hist) j := by
      funext j
      simp only [left, sizeOf, given, Event.deliveredTo, ite_self]
      ring
    unfold LedgerAt
    rw [hleft]
    exact hdose
  | unlock =>
    have hunlock := hquiet none rfl
    exact { hunlock with owner := fun hne => absurd rfl hne }

/-- The zone changes nothing but its place. -/
theorem Ledger.of_pc (hok : Ledger x h batch last rest) {pc : ZonePc S}
    (hunp : pc.unpublished = x.pc.unpublished) (hspent : pc.spent = true → x.capacity = 0) :
    Ledger { x with pc } h batch last rest :=
  { hok with
    left_eq := fun j => by
      have heq := hok.left_eq j
      rwa [← hunp] at heq
    spent := hspent }

/-- A batch is delivered to a zone that has used up the last one. -/
theorem Ledger.size {i : S.CompId} {n : ℤ} (hok : Ledger x h batch last rest)
    (hnone : x.slots + x.capacity + x.pc.unpublished = 0) (hslots : x.slots = 0) :
    Ledger { x with capacity := n, compAssigned := some i, pc := .recording i 0 } h (batch + 1) last
      fun j => (if j = batch + 1 then n else 0) + rest j := by
  refine ⟨fun j => ?_, fun s j hs => (hok.last_le s j hs).trans (Nat.le_succ _), hok.owner, nofun⟩
  rw [hok.left_eq j, hnone]
  simp only [hslots, ZonePc.unpublished]
  by_cases hj : j = batch + 1
  · have hlast : last.map Prod.snd ≠ some j := by
      intro hmap
      obtain ⟨⟨t, k⟩, hlast, rfl⟩ := Option.map_eq_some_iff.mp hmap
      have := hok.last_le t k hlast
      simp only at hj
      omega
    simp [hj, hj ▸ hlast]
  · simp [hj]

theorem LedgerAt.turn {comps : S.CompId → Comp S} (hok : LedgerAt z hist x h)
    (hzone : ZoneOk false x h doses published delivered)
    (hlt : ∀ c j, x.pc = .recording c j → j < 5) (ht : Turn z comps false x x' e) (σ : State S)
    (a : Action S) : LedgerAt z ((σ, a, e) :: hist) x' h := by
  -- a zone that is not at a place where it offers slots has none
  have hnone : ∀ {pc : ZonePc S}, x.pc = pc → ¬pc.Offers false → x.slots = 0 := by
    rintro _ rfl hno
    by_contra hne
    exact hno (hzone.offers hne)
  have hspent : ∀ {pc : ZonePc S}, x.pc = pc → pc.spent = true → x.capacity = 0 := by
    rintro _ rfl
    exact hok.spent
  have hquiet : e.counts z = false → LedgerAt z ((σ, a, e) :: hist) x h := fun he => hok.keep he
  cases ht with
  | @clear c k hpc =>
    have hnext : ((succ? k).elim (afterClear c) (.clearing c) : ZonePc S).unpublished = 0 ∧
        (((succ? k).elim (afterClear c) (.clearing c) : ZonePc S).spent = true → c = .start) := by
      cases succ? k with
      | none => cases c <;> simp [afterClear, ZonePc.spent, ZonePc.unpublished]
      | some => cases c <;> simp [ZonePc.spent, ZonePc.unpublished]
    have hunp : ((succ? k).elim (afterClear c) (.clearing c) : ZonePc S).unpublished =
        x.pc.unpublished := by
      rw [hnext.1, hpc]
      rfl
    have hmove := (hquiet rfl).of_pc hunp fun hs => hspent hpc (by rw [hnext.2 hs]; rfl)
    exact { hmove with }
  | lock hpc | offer hpc | refuse hpc | take hpc | back hpc | search hpc =>
    exact (hquiet rfl).of_pc (by rw [hpc]; rfl) fun _ => hspent hpc rfl
  | @size i hpc =>
    have hslots := hnone hpc id
    have hzero : x.slots + x.capacity + x.pc.unpublished = 0 := by
      rw [hslots, hspent hpc rfl, hpc]
      rfl
    have hsize := hok.size (i := i) (n := (comps i).noPerBatch) hzero hslots
    have hleft : left z ((σ, a, .delivered z i (comps i).noPerBatch) :: hist) =
        fun j => (if j = deliveries z hist + 1 then (comps i).noPerBatch else 0) +
          left z hist j := by
      funext j
      simp only [left, sizeOf, given, Event.deliveredTo, Event.doseFor, if_true]
      ring
    unfold LedgerAt
    rw [hleft]
    simpa [deliveries, lastSlot] using hsize
  | skip hpc | find hpc | enter hpc | begin hpc | wait hpc | used hpc | poll hpc | again hpc
  | go hpc => exact (hquiet rfl).of_pc (by rw [hpc]; rfl) (by simp [ZonePc.spent])
  | miss hpc hj => exact absurd (hlt _ _ hpc) hj
  | finish hpc =>
    have hcap := hzone.capacity_nonneg
    exact (hquiet rfl).of_pc (by rw [hpc]; rfl) fun _ => by omega
  | reduce hpc =>
    have hkeep := hquiet rfl
    refine { hkeep with left_eq := fun j => ?_, spent := by simp [ZonePc.spent] }
    rw [hkeep.left_eq j, hpc]
    simp only [ZonePc.unpublished]
    congr 2
    ring
  | @publish n hpc =>
    have hkeep := hquiet rfl
    refine { hkeep with left_eq := fun j => ?_, spent := by simp [ZonePc.spent] }
    rw [hkeep.left_eq j, hpc, hnone hpc id]
    simp only [ZonePc.unpublished]
    congr 2
    ring
  | give hpc hover | stop hpc hover => exact absurd hover Bool.false_ne_true

end Zones

/-! ## Companies -/

namespace CompPc

/-- The company waits until the batches of its round are used up. -/
def open? : CompPc → Bool
  | .watching => true
  | .polling => true
  | .watched => true
  | .scanning _ _ => true
  | .looking _ _ => true
  | .deciding _ => true
  | _ => false

/-- The company looks at the zones that it has supplied, or has begun to forget them. -/
def checking : CompPc → Bool
  | .scanning _ _ => true
  | .looking _ _ => true
  | .deciding _ => true
  | .resetting _ => true
  | _ => false

/-- The entries that the company has looked at, if it has found no vaccines there. -/
def scanned : CompPc → ℕ
  | .scanning false i => i
  | .looking false i => i
  | .deciding false => 5
  | _ => 0

theorem idle_of_checking {isOver : Bool} (hpc : pc.checking = true) : pc.Idle isOver := by
  cases pc <;> simp_all [checking, Idle]

theorem checking_of_scanned (hpc : 0 < pc.scanned) : pc.checking = true := by
  cases pc <;> simp_all [scanned, checking]

end CompPc

theorem scanned_afterEntry (flag : Bool) (i : Fin 5) :
    (afterEntry flag i).scanned = if flag then 0 else i.val + 1 := by
  unfold afterEntry
  cases hi : succ? i with
  | none =>
    have hlast := val_of_succ?_none hi
    cases flag with
    | true => rfl
    | false => exact hlast.symm
  | some =>
    have hval := val_of_succ?_some hi
    cases flag with
    | true => rfl
    | false => exact hval

section Comps

variable {isOver : Bool} {x x' : Comp S} {h h' : Option (ZonePc S)}

/-- All zones are recorded when the company looks at them. -/
def Checked (x : Comp S) (h : Option (ZonePc S)) : Prop :=
  x.pc.checking = true → entrySeeker h = .none

theorem Checked.delivery (hok : Checked x h) (hcomp : CompOk isOver x h)
    (hd : Delivery z c x h x' h' e) : Checked x' h' := by
  cases hd with
  | lock | offer | refuse | miss | enter | unlock => exact fun _ => rfl
  | take =>
    intro hpc
    have hpos : 0 < x.noOfBatches := hcomp.drawing rfl
    have hzero : x.noOfBatches = 0 := hcomp.idle (CompPc.idle_of_checking hpc)
    omega
  | size | skip | find => exact fun hpc => absurd (hok hpc) nofun

theorem Checked.round (hok : Checked x h)
    (hwatched : x.pc = .watched → isOver = false → entrySeeker h = .none)
    (hr : Round c zones isOver x x' e) : Checked x' h := by
  have hkeep : ∀ {pc : CompPc}, x.pc = pc → pc.checking = true → entrySeeker h = .none := by
    rintro _ rfl
    exact hok
  cases hr with
  | @make k =>
    intro hchecking
    cases hk : succ? k <;> simp [hk, CompPc.checking] at hchecking
  | size | count | watch | used | give | poll | stop => exact nofun
  | scan hpc hover =>
    rcases hpc with hpc | hpc
    · exact fun _ => hwatched hpc hover
    · exact fun _ => hkeep hpc rfl
  | skip hpc | look hpc | judge hpc | report hpc | reset hpc => exact fun _ => hkeep hpc rfl

/-- The batches of a round: their zones are recorded, or about to be, and the company has found them
used up if it has found no vaccines so far. -/
structure RoundOk (x : Comp S) (h : Option (ZonePc S)) (batches : List (S.ZoneId × ℕ))
    (left : S.ZoneId → ℕ → ℤ) : Prop where
  recorded : x.pc.open? = true → ∀ p ∈ batches,
    (∃ i, x.zonesUnder i = some p.1) ∨ entrySeeker h ≠ .none ∧ x.lock = some p.1
  scanned : ∀ i : Fin 5, i.val < x.pc.scanned → ∀ p ∈ batches, x.zonesUnder i = some p.1 →
    left p.1 p.2 = 0

variable {batches batches' : List (S.ZoneId × ℕ)} {left : S.ZoneId → ℕ → ℤ}

variable (hok : RoundOk x h batches left)
include hok

/-- The company moves, and has not begun to look at the zones. -/
theorem RoundOk.of_pc (hopen : pc.open? = true → x.pc.open? = true) (hscanned : pc.scanned = 0) :
    RoundOk { x with pc } h batches left :=
  ⟨fun hpc => hok.recorded (hopen hpc), fun i hi => absurd hi (by simp [hscanned])⟩

theorem RoundOk.delivery (hentries : EntriesOk x h)
    (hchecked : Checked x h) (hd : Delivery z c x h x' h' e)
    (hbatches : ∀ p ∈ batches', p ∈ batches ∨ ∃ n, e = .delivered p.1 c n) :
    RoundOk x' h' batches' left := by
  -- nobody is recorded while the company looks at the zones
  have hquiet : ∀ i : Fin 5, i.val < x.pc.scanned → entrySeeker h = .none := fun i hi =>
    hchecked (CompPc.checking_of_scanned (Nat.lt_of_le_of_lt (Nat.zero_le _) hi))
  have hsub : (∀ y n, e ≠ .delivered y c n) → ∀ p ∈ batches', p ∈ batches := fun hne p hp =>
    (hbatches p hp).resolve_right fun ⟨n, heq⟩ => hne p.1 n heq
  cases hd with
  | lock | offer | refuse =>
    have hsub := hsub nofun
    refine ⟨fun hpc p hp => ?_, fun i hi p hp => hok.scanned i hi p (hsub p hp)⟩
    exact (hok.recorded hpc p (hsub p hp)).imp_right fun hlock => absurd rfl hlock.1
  | take | skip | find =>
    have hsub := hsub nofun
    refine ⟨fun hpc p hp => ?_, fun i hi p hp => hok.scanned i hi p (hsub p hp)⟩
    exact (hok.recorded hpc p (hsub p hp)).imp_right fun hlock => ⟨nofun, hlock.2⟩
  | size hlock =>
    refine ⟨fun hpc p hp => ?_, fun i hi => absurd (hquiet i hi) nofun⟩
    rcases hbatches p hp with hp | ⟨n, heq⟩
    · exact (hok.recorded hpc p hp).imp_right fun hlock => ⟨nofun, hlock.2⟩
    · obtain ⟨rfl, -, -⟩ := Event.delivered.inj heq
      exact .inr ⟨nofun, hlock⟩
  | miss hj => exact absurd hentries.entries.lt hj
  | @enter j hlock =>
    have hsub := hsub nofun
    refine ⟨fun hpc p hp => .inl ?_, fun i hi => absurd (hquiet i hi) nofun⟩
    rcases hok.recorded hpc p (hsub p hp) with ⟨i, hi⟩ | ⟨-, hp⟩
    · -- the entry that is filled was free, so no other zone is forgotten
      have hfree : x.zonesUnder j = none := hentries.entries.found j rfl
      have hne : i ≠ j := by
        rintro rfl
        exact absurd (hi.symm.trans hfree) nofun
      exact ⟨i, (Function.update_of_ne hne ..).trans hi⟩
    · exact ⟨j, (Function.update_self ..).trans (hlock.symm.trans hp)⟩
  | @unlock f =>
    have hsub := hsub (by cases f <;> exact nofun)
    refine ⟨fun hpc p hp => ?_, fun i hi p hp => hok.scanned i hi p (hsub p hp)⟩
    exact (hok.recorded hpc p (hsub p hp)).imp_right fun hlock => absurd rfl hlock.1

/-- The company has looked at entry `i`. -/
theorem RoundOk.afterEntry {flag flag' : Bool} {i : Fin 5}
    (hpc : x.pc = .scanning flag i ∨ x.pc = .looking flag i) (hflag : flag' = false → flag = false ∧
      ∀ p ∈ batches, x.zonesUnder i = some p.1 → left p.1 p.2 = 0) :
    RoundOk { x with pc := State.afterEntry flag' i } h batches left := by
  have hopen : x.pc.open? = true := by rcases hpc with hpc | hpc <;> rw [hpc] <;> rfl
  refine ⟨fun _ => hok.recorded hopen, fun k hk p hp hz => ?_⟩
  change k.val < (State.afterEntry flag' i).scanned at hk
  rw [scanned_afterEntry] at hk
  split_ifs at hk with htrue
  · exact absurd hk (Nat.not_lt_zero _)
  · obtain ⟨rfl, hlast⟩ := hflag (Bool.eq_false_iff.mpr htrue)
    rcases Nat.lt_succ_iff_lt_or_eq.mp hk with hlt | heq
    · refine hok.scanned k ?_ p hp hz
      rcases hpc with hpc | hpc <;> rw [hpc] <;> exact hlt
    · obtain rfl := Fin.ext heq
      exact hlast p hp hz

theorem RoundOk.round (hlook : ∀ flag i z, x.pc = .looking flag i → x.zonesUnder i = some z →
      ¬0 < (zones z).capacity → ∀ j, left z j = 0) (hr : Round c zones isOver x x' e)
    (hbatches : ∀ p ∈ batches', p ∈ batches ∧ ∀ n m, e ≠ .produced c n m) :
    RoundOk x' h batches' left := by
  -- a round begins with no batches, and the others have those that they had
  have hsub : ∀ {y : Comp S}, RoundOk y h batches left → RoundOk y h batches' left := fun hy =>
    ⟨fun hpc p hp => hy.recorded hpc p (hbatches p hp).1,
      fun i hi p hp => hy.scanned i hi p (hbatches p hp).1⟩
  have hopen : ∀ {pc : CompPc}, x.pc = pc → pc.open? = true → x.pc.open? = true := by
    rintro _ rfl
    exact id
  cases hr with
  | @make k | @reset k =>
    refine ⟨fun hpc' => ?_, fun i hi => ?_⟩
    · cases hk : succ? k <;> simp [hk, CompPc.open?] at hpc'
    · cases hk : succ? k <;> simp [hk, CompPc.scanned] at hi
  | size => exact ⟨nofun, fun i hi => absurd hi (Nat.not_lt_zero _)⟩
  | count =>
    exact ⟨fun _ p hp => absurd rfl ((hbatches p hp).2 _ _),
      fun _ _ p hp => absurd rfl ((hbatches p hp).2 _ _)⟩
  | watch hpc | used hpc | give hpc | poll hpc =>
    exact hsub (hok.of_pc (fun _ => hopen hpc rfl) rfl)
  | stop | report => exact hsub (hok.of_pc nofun rfl)
  | scan hpc => exact hsub (hok.of_pc (fun _ => hpc.elim (hopen · rfl) (hopen · rfl)) rfl)
  | @skip flag i hpc hnone =>
    refine hsub (hok.afterEntry (.inl hpc) fun hflag => ⟨hflag, fun p _ hz => ?_⟩)
    exact absurd (hnone.symm.trans hz) nofun
  | @look flag i hpc =>
    refine hsub ⟨fun _ => hok.recorded (hopen hpc rfl), fun k hk => hok.scanned k ?_⟩
    rw [hpc]
    cases flag <;> exact hk
  | @judge flag i z hpc hz =>
    refine hsub (hok.afterEntry (.inr hpc) fun hflag => ?_)
    rw [Bool.or_eq_false_iff, decide_eq_false_iff_not] at hflag
    refine ⟨hflag.1, fun p _ hp => ?_⟩
    obtain rfl : z = p.1 := Option.mem_unique hz hp
    exact hlook flag i _ hpc hz hflag.2 p.2

end Comps

/-! ## Runs -/

/-- The student has taken a slot in zone `z` and waits for its dose. -/
def StudentPc.waits (z : S.ZoneId) : StudentPc S → Bool
  | .searching i _ => i = z
  | .claiming i _ => i = z
  | .dosing i => i = z
  | _ => false

/-- Zone `z` has no slots, is not about to publish any, and no student waits there for its dose. -/
def NoneOut (σ : State S) (z : S.ZoneId) : Prop :=
  (σ.zones z).slots = 0 ∧ (σ.zones z).pc.unpublished = 0 ∧
    ∀ s, (σ.students s).pc.waits z = false

/-- A company begins to look at the zones only when every zone that has taken one of its batches is
recorded, and a zone whose capacity it finds to be zero has no slots and no students that wait. -/
def LooksSettled (σ : State S) : Action S → Prop
  | .comp c _ => ((σ.comps c).pc = .watched → σ.isOver = false →
        ∀ z, (σ.zones z).pc.unrecorded c = false) ∧
      ∀ flag i z, (σ.comps c).pc = .looking flag i → (σ.comps c).zonesUnder i = some z →
        ¬0 < (σ.zones z).capacity → NoneOut σ z
  | _ => True

instance (σ : State S) (z : S.ZoneId) : Decidable (NoneOut σ z) :=
  inferInstanceAs (Decidable (_ ∧ _ ∧ _))

instance (σ : State S) (a : Action S) : Decidable (LooksSettled σ a) :=
  match a with
  | .comp _ _ => inferInstanceAs (Decidable (_ ∧ _))
  | .student _ _ => isTrue trivial
  | .zone _ => isTrue trivial
  | .finish => isTrue trivial

theorem unrecorded_eq_false (hlocked : Locked σ) (hnone : entrySeeker (asker σ c) = .none)
    (z : S.ZoneId) : (σ.zones z).pc.unrecorded c = false := by
  have hasker : (σ.zones z).pc.inside = some c → asker σ c = some (σ.zones z).pc :=
    hlocked.comp.holder_eq
  by_contra hun
  cases hpc : (σ.zones z).pc <;> rw [hpc] at hun hasker <;>
    simp_all [ZonePc.unrecorded, ZonePc.inside, entrySeeker]

theorem inUse_eq_zero (hlocked : Locked σ) (hall : ∀ s, (σ.students s).pc.waits z = false) :
    inUse (holder σ z) = 0 := by
  cases hh : holder σ z with
  | none => rfl
  | some pc =>
    obtain ⟨s, hs, hin⟩ := hlocked.zone.exists_of_holder hh
    have hno := hall s
    rw [hs] at hno
    cases pc with
    | searching | claiming | dosing =>
      cases hin
      simp [StudentPc.waits] at hno
    | _ => rfl

theorem checked_step (hinv : Inv hist σ) (hok : ∀ c, Checked (σ.comps c) (asker σ c))
    (hsettled : LooksSettled σ a) (hm : Moved σ a e σ') (c : S.CompId) :
    Checked (σ'.comps c) (asker σ' c) := by
  cases hm.atComp c with
  | apart hcomp hasker =>
    rw [hcomp, hasker]
    exact hok c
  | delivery hd => exact (hok c).delivery (hinv.comp c) hd
  | round hr hasker =>
    rw [hasker]
    exact (hok c).round
      (fun hpc hover => entrySeeker_eq_none hinv.locked (hsettled.1 hpc hover)) hr

/-- If all zones are recorded before the company looks at them, then they are when it begins to
forget them. -/
theorem checked_of_run (hrun : (simulation S).Run hist σ)
    (hsettled : ∀ x ∈ hist, LooksSettled x.1 x.2.1) :
    (∀ c, Checked (σ.comps c) (asker σ c)) ∧ ∀ x ∈ hist, RoundsApart x.1 x.2.1 := by
  induction hrun with
  | init hinit =>
    obtain rfl := hinit
    exact ⟨fun c => nofun, by simp⟩
  | @step hist σ σ' l hrun hstep ih =>
    obtain ⟨a, e⟩ := l
    obtain ⟨hok, hapart⟩ := ih fun x hx => hsettled x (List.mem_cons_of_mem _ hx)
    have hinv := Inv.of_run hrun
    have hm := moved_of_step hinv.locked hstep
    refine ⟨checked_step hinv hok (hsettled _ List.mem_cons_self) hm,
      List.forall_mem_cons.mpr ⟨?_, hapart⟩⟩
    cases a with
    | comp c =>
      intro hpc
      exact unrecorded_eq_false hinv.locked (hok c (by rw [hpc]; rfl))
    | _ => trivial

theorem ledger_step (hinv : Inv hist σ) (hseats : ∀ z, SeatsOk (σ.zones z) (holder σ z))
    (hentries : ∀ c, EntriesOk (σ.comps c) (asker σ c)) (hover : σ.isOver = false)
    (hok : ∀ z, LedgerAt z hist (σ.zones z) (holder σ z)) (hm : Moved σ a e σ') (z : S.ZoneId) :
    LedgerAt z ((σ, a, e) :: hist) (σ'.zones z) (holder σ' z) := by
  cases hm.atZone z with
  | apart hzone hholder he =>
    rw [hzone, hholder]
    exact (hok z).keep (Event.counts_of_ne he)
  | visit hv => exact (hok z).visit (hseats z) hv _ _
  | turn ht hholder =>
    have hzone := hinv.zone z
    rw [hover] at hzone ht
    rw [hholder]
    exact (hok z).turn hzone (fun _ _ => recording_lt hinv.locked hentries) ht _ _

theorem LedgerAt.nonneg {x : Zone S} {h : Option (StudentPc S)} {isOver : Bool}
    {doses published delivered : ℤ} (hok : LedgerAt z hist x h)
    (hzone : ZoneOk isOver x h doses published delivered) (j : ℕ) : 0 ≤ left z hist j := by
  have huse := inUse_nonneg h
  have hslots := hzone.slots_nonneg
  have hcap := hzone.capacity_nonneg
  have hunp := hzone.unpublished_nonneg
  rw [hok.left_eq j]
  split_ifs <;> omega

theorem mem_round_cons {p : S.ZoneId × ℕ} (hp : p ∈ round c ((σ, a, e) :: hist)) :
    p ∈ round c hist ∧ (∀ n m, e ≠ .produced c n m) ∨ ∃ n, e = .delivered p.1 c n := by
  cases e with
  | delivered z d n =>
    by_cases hd : d = c
    · subst hd
      simp only [round, if_true, List.mem_cons] at hp
      rcases hp with rfl | hp
      · exact .inr ⟨n, rfl⟩
      · exact .inl ⟨hp, by simp⟩
    · rw [round_of_ne (by simpa [Event.comp?] using hd)] at hp
      exact .inl ⟨hp, by simp⟩
  | produced d =>
    by_cases hd : d = c
    · simp [round, hd] at hp
    · rw [round_of_ne (by simpa [Event.comp?] using hd)] at hp
      refine .inl ⟨hp, fun n' m' heq => hd ?_⟩
      exact (Event.produced.inj heq).1
  | _ => exact .inl ⟨hp, by simp⟩

/-- The batches of the rounds, as the companies see them. -/
abbrev RoundAt (c : S.CompId) (hist : History S) (σ : State S) : Prop :=
  RoundOk (σ.comps c) (asker σ c) (round c hist) fun z j => left z hist j

theorem round_step (hinv : Inv hist σ) (hentries : ∀ c, EntriesOk (σ.comps c) (asker σ c))
    (hchecked : ∀ c, Checked (σ.comps c) (asker σ c))
    (hledger : ∀ z, LedgerAt z hist (σ.zones z) (holder σ z))
    (hnonneg : ∀ z j, 0 ≤ left z ((σ, a, e) :: hist) j) (hok : ∀ c, RoundAt c hist σ)
    (hsettled : LooksSettled σ a) (hm : Moved σ a e σ') (c : S.CompId) :
    RoundAt c ((σ, a, e) :: hist) σ' := by
  -- what has been used up stays so
  have hmono : RoundOk (σ.comps c) (asker σ c) (round c hist)
      fun z j => left z ((σ, a, e) :: hist) j := by
    refine ⟨(hok c).recorded, fun i hi p hp hz => le_antisymm ?_ (hnonneg p.1 p.2)⟩
    have hzero := (hok c).scanned i hi p hp hz
    exact (left_cons_le (le_deliveries_of_mem_round hp) _).trans hzero.le
  unfold RoundAt
  cases hm.atComp c with
  | apart hcomp hasker he =>
    rw [hcomp, hasker, round_of_ne he]
    exact hmono
  | delivery hd =>
    refine hmono.delivery (hentries c) (hchecked c) hd fun p hp => ?_
    exact (mem_round_cons hp).imp_left And.left
  | @round n hr hasker =>
    rw [hasker]
    refine hmono.round (fun flag i z hpc hz hcap j => ?_) hr fun p hp => ?_
    · have hquiet : e.counts z = false := Event.counts_of_ne (by simp [hr.zone?])
      have hzero : (σ.zones z).capacity = 0 := by
        have := (hinv.zone z).capacity_nonneg
        omega
      -- the zone has no slots, no capacity and no students that wait
      obtain ⟨hslots, hunp, hwaits⟩ := hsettled.2 flag i z hpc hz hcap
      simp only [(ghosts_of_not_counts (x := (σ, .comp c n, e)) hquiet hist).2.2]
      rw [(hledger z).left_eq j, inUse_eq_zero hinv.locked hwaits, hslots, hzero, hunp]
      simp
    · rcases mem_round_cons hp with hp | ⟨m, heq⟩
      · exact hp
      · cases heq ▸ hr.zone?

theorem rounds_of_run (hrun : (simulation S).Run hist σ)
    (hapart : ∀ x ∈ hist, PhasesApart x.1 x.2.1) (hsettled : ∀ x ∈ hist, LooksSettled x.1 x.2.1)
    (hover : σ.isOver = false) :
    (∀ z, LedgerAt z hist (σ.zones z) (holder σ z)) ∧ ∀ c, RoundAt c hist σ := by
  induction hrun with
  | init hinit =>
    obtain rfl := hinit
    refine ⟨fun z => ⟨fun j => ?_, nofun, fun hne => absurd rfl hne, fun _ => rfl⟩,
      fun c => ⟨nofun, fun i hi => absurd hi (Nat.not_lt_zero _)⟩⟩
    simp [left, sizeOf, given, lastSlot, State.initial, ZonePc.unpublished]
  | @step hist σ σ' l hrun hstep ih =>
    obtain ⟨a, e⟩ := l
    have hapart' := fun x hx => hapart x (List.mem_cons_of_mem _ hx)
    have hsettled' := fun x hx => hsettled x (List.mem_cons_of_mem _ hx)
    have hinv := Inv.of_run hrun
    have hm := moved_of_step hinv.locked hstep
    obtain ⟨hchecked, hrounds⟩ := checked_of_run hrun hsettled'
    have hentries := entries_of_run hrun hrounds
    have hover' : σ.isOver = false := by
      rcases hm.over_cases with heq | heq <;> simp_all
    obtain ⟨hledger, hok⟩ := ih hapart' hsettled' hover'
    have hnext := ledger_step hinv (seats_of_run hrun hapart').1 hentries hover' hledger hm
    refine ⟨hnext, round_step hinv hentries hchecked hledger (fun z j => ?_) hok
      (hsettled _ List.mem_cons_self) hm⟩
    exact (hnext z).nonneg ((Inv.of_run (hrun.step hstep)).zone z) j

/-- Every dose of every batch that company `c` has delivered since it has last produced any has been
given to a student. -/
def UsedUp (c : S.CompId) (hist : History S) : Prop :=
  ∀ p ∈ round c hist, given p.1 p.2 hist = sizeOf p.1 p.2 hist

/-- When a company has reported that its vaccines are over, before `over` was set, they were: the
batches that it had delivered were used up, and no zone had taken one that was still to be
delivered. -/
def ReportsTrue (hist : History S) : Prop :=
  ∀ σ a c before, (σ, a, Event.report c) :: before <:+ hist → σ.isOver = false →
    UsedUp c before ∧ ∀ z, (σ.zones z).pc ≠ .sizing c

theorem Round.of_report {d : S.CompId} {isOver : Bool}
    {x x' : Comp S} (hr : Round d zones isOver x x' (.report c)) :
    d = c ∧ x.pc = .deciding false := by
  cases hr with
  | report hpc => exact ⟨rfl, hpc⟩

theorem Turn.not_report {comps : S.CompId → Comp S} {isOver : Bool} {x x' : Zone S}
    (ht : Turn z comps isOver x x' e) (c : S.CompId) : e ≠ .report c := by
  cases ht <;> exact nofun

/-- A report is made by a company that has found no vaccines. -/
theorem Moved.of_report (hm : Moved σ a (.report c) σ') : (σ.comps c).pc = .deciding false := by
  cases hm with
  | student hm =>
    obtain ⟨he, -, -⟩ | ⟨i, hv, -, -⟩ := hm.moved
    · cases he
    · cases hv.comp?
  | zone hm => exact absurd rfl (hm.turn.not_report c)
  | comp hm =>
    obtain ⟨rfl, hpc⟩ := hm.round.of_report
    exact hpc

/-- The reports of the companies are true in runs in which companies look at settled zones only and
the phases of the zones do not overlap. -/
theorem reports_true (hrun : (simulation S).Run hist σ)
    (hapart : ∀ x ∈ hist, PhasesApart x.1 x.2.1)
    (hsettled : ∀ x ∈ hist, LooksSettled x.1 x.2.1) : ReportsTrue hist := by
  induction hrun with
  | init _ => exact fun σ a c before hsuffix => absurd hsuffix (by simp)
  | @step hist σ σ' l hrun hstep ih =>
    obtain ⟨a, e⟩ := l
    have hapart' := fun x hx => hapart x (List.mem_cons_of_mem _ hx)
    have hsettled' := fun x hx => hsettled x (List.mem_cons_of_mem _ hx)
    intro τ b c before hsuffix hover
    rcases List.suffix_cons_iff.mp hsuffix with heq | hsuffix
    · obtain ⟨hhead, rfl⟩ := List.cons.inj heq
      obtain ⟨rfl, hlabel⟩ := Prod.mk.inj hhead
      obtain ⟨rfl, rfl⟩ := Prod.mk.inj hlabel
      have hlocked := (Inv.of_run hrun).locked
      have hpc := (moved_of_step hlocked hstep).of_report
      have hnone := (checked_of_run hrun hsettled').1 c (by rw [hpc]; rfl)
      have hok := (rounds_of_run hrun hapart' hsettled' hover).2 c
      refine ⟨fun p hp => ?_, fun z hz => ?_⟩
      · -- the zone is recorded, and the company has looked at its entry
        rcases hok.recorded (by rw [hpc]; rfl) p hp with ⟨i, hi⟩ | ⟨hne, -⟩
        · have hzero := hok.scanned i (by rw [hpc]; exact i.isLt) p hp hi
          unfold left at hzero
          omega
        · exact absurd hnone hne
      · have := unrecorded_eq_false hlocked hnone z
        simp [hz, ZonePc.unrecorded] at this
    · exact ih hapart' hsettled' τ b c before hsuffix hover

/-- One company, one zone and ten students. -/
abbrev tenStudents : Setup := ⟨1, 1, 10, by decide, by decide, by decide⟩

/-- Ten vaccines are delivered, and eight students are vaccinated. The zone then has two more
slots. -/
def eightDoses : List (Action tenStudents) :=
  firstBatch _ ++ List.replicate 26 (.zone 0) ++
    (List.range 8).flatMap (fun i => visit _ i (i + 8)) ++ List.replicate 21 (.zone 0)

/-- Two more students are vaccinated, and the company reports that its ten vaccines are over. -/
theorem reports_true_ten :
    ∃ (hist : History tenStudents) (σ : State _),
      (simulation _).Run hist σ ∧ (∀ x ∈ hist, PhasesApart x.1 x.2.1) ∧
        (∀ x ∈ hist, LooksSettled x.1 x.2.1) ∧ hist.head?.map (·.2.2) = some (.report 0) ∧
        round 0 hist = [(0, 1)] ∧ sizeOf 0 1 hist = 10 ∧ ReportsTrue hist := by
  obtain ⟨hist, σ, hrun, htest⟩ := exists_run (S := tenStudents)
    (eightDoses ++ visit _ 8 8 ++ visit _ 9 9 ++ List.replicate 9 (.comp 0 0))
    (fun hist _ => decide ((∀ x ∈ hist, PhasesApart x.1 x.2.1) ∧
      (∀ x ∈ hist, LooksSettled x.1 x.2.1) ∧ hist.head?.map (·.2.2) = some (.report 0) ∧
      round 0 hist = [(0, 1)] ∧ sizeOf 0 1 hist = 10))
    (by decide +kernel)
  obtain ⟨hapart, hsettled, hreport, hround, hsize⟩ := of_decide_eq_true htest
  exact ⟨hist, σ, hrun, hapart, hsettled, hreport, hround, hsize,
    reports_true hrun hapart hsettled⟩

/-- The company reports that its ten vaccines are over when the zone offers the last two of them. -/
theorem not_reports_true :
    ∃ (hist : History tenStudents) (σ : State _),
      (simulation _).Run hist σ ∧ (σ.zones 0).slots = 2 ∧ ¬ReportsTrue hist := by
  obtain ⟨hist, σ, hrun, htest⟩ := exists_run (S := tenStudents)
    (eightDoses ++ List.replicate 9 (.comp 0 0))
    (fun hist σ => decide ((σ.zones 0).slots = 2 ∧ ∃ x ∈ hist.head?, x.2.2 = .report 0 ∧
      x.1.isOver = false ∧ round 0 hist.tail = [(0, 1)] ∧ sizeOf 0 1 hist.tail = 10 ∧
      given 0 1 hist.tail = 8))
    (by decide +kernel)
  obtain ⟨hslots, ⟨τ, a, e⟩, hhead, rfl, hover, hround, hsize, hgiven⟩ := of_decide_eq_true htest
  refine ⟨hist, σ, hrun, hslots, fun htrue => ?_⟩
  have hcons : (τ, a, Event.report 0) :: hist.tail = hist := List.cons_head?_tail hhead
  have hused :=
    (htrue τ a 0 hist.tail (hcons ▸ List.suffix_refl _) hover).1 (0, 1) (by simp [hround])
  simp only [hsize, hgiven] at hused
  omega

end Vaccination
