import Mathlib
import OsnAssignments.Vaccination.Seats

/-!
# Batches

A zone that has taken a batch of a company looks for a free entry of `zones_under`. The batches are
tickets for the entries: a company produces at most five batches, after it has cleared the five
entries.

The company begins to clear the entries when it has seen that the last batch is taken, whether or
not the zone that took it is recorded. If it is recorded after the entries are cleared, then there
may be five batches and four entries, and the last zone asks the companies for another batch.
-/

namespace Vaccination

open State Allotment

variable {S : Setup}

/-! ## Entries -/

/-- The zone that asks a company as one that looks for an entry. -/
def entrySeeker : Option (ZonePc S) → Seeker 5
  | some (.sizing _) => .looking 0
  | some (.recording _ j) => .looking j
  | some (.entering _ j) => .claiming j
  | _ => .none

namespace CompPc

/-- The entries that a company has cleared for the next batches. -/
def cleared : CompPc → ℕ
  | .resetting k => k
  | .making k => k
  | .sizing => 5
  | .counting => 5
  | _ => 0

/-- The company has begun to clear the entries for the next batches. -/
def preparing : CompPc → Bool
  | .resetting k => 0 < k.val
  | .making _ => true
  | .sizing => true
  | .counting => true
  | _ => false

theorem idle_of_preparing {pc : CompPc} {isOver : Bool} (hpc : pc.preparing = true) :
    pc.Idle isOver := by
  cases pc <;> simp_all [preparing, Idle]

theorem preparing_of_cleared {pc : CompPc} (hpc : 0 < pc.cleared) : pc.preparing = true := by
  cases pc <;> simp_all [cleared, preparing]

end CompPc

/-- The entries of a company. -/
structure EntriesOk (x : Comp S) (h : Option (ZonePc S)) : Prop where
  entries : Allotment.Ok x.zonesUnder x.noOfBatches (entrySeeker h)
  cleared : Cleared x.zonesUnder x.pc.cleared
  alone : x.pc.preparing = true → entrySeeker h = .none

variable {σ σ' : State S} {z : S.ZoneId} {c : S.CompId} {e : Event S} {isOver : Bool}
  {x x' : Comp S} {h h' : Option (ZonePc S)}

/-- The zone that asks moves, and is not looking for an entry. -/
theorem EntriesOk.of_asker (hok : EntriesOk x h) (hbefore : entrySeeker h = .none)
    (hafter : entrySeeker h' = .none) : EntriesOk x h' :=
  { hok with
    entries := by
      rw [hafter, ← hbefore]
      exact hok.entries
    alone := fun _ => hafter }

theorem EntriesOk.delivery (hok : EntriesOk x h) (hcomp : CompOk isOver x h)
    (hd : Delivery z c x h x' h' e) : EntriesOk x' h' := by
  have hentries := hok.entries
  cases hd with
  | lock | unlock => exact { hok.of_asker rfl rfl with }
  | offer | refuse => exact hok.of_asker rfl rfl
  | take =>
    -- there is a batch left, so the company does not clear the entries
    have hpos : 0 < x.noOfBatches := hcomp.drawing rfl
    refine ⟨hentries.draw hpos, hok.cleared, fun hprep => ?_⟩
    have := hcomp.idle (CompPc.idle_of_preparing hprep)
    omega
  | size => exact ⟨hentries, hok.cleared, fun hprep => absurd (hok.alone hprep) nofun⟩
  | skip hj hfull =>
    exact ⟨hentries.skip hj hfull, hok.cleared, fun hprep => absurd (hok.alone hprep) nofun⟩
  | find hj hfree =>
    exact ⟨hentries.find hj hfree, hok.cleared, fun hprep => absurd (hok.alone hprep) nofun⟩
  | miss hj => exact absurd hentries.lt hj
  | enter =>
    refine ⟨hentries.claim z, ?_, fun _ => rfl⟩
    have hcleared : x.pc.cleared = 0 := by
      by_contra hne
      have hprep := CompPc.preparing_of_cleared (Nat.pos_of_ne_zero hne)
      exact absurd (hok.alone hprep) nofun
    show Cleared _ x.pc.cleared
    rw [hcleared]
    exact Cleared.zero _

/-- The company moves, and has cleared no entries for the next batches. -/
theorem EntriesOk.of_entries (hentries : Allotment.Ok x.zonesUnder x.noOfBatches (entrySeeker h))
    (hcleared : x.pc.cleared = 0) (halone : x.pc.preparing = true → entrySeeker h = .none) :
    EntriesOk x h where
  entries := hentries
  cleared := by
    rw [hcleared]
    exact Cleared.zero _
  alone := halone

theorem afterEntry_waits (flag : Bool) (i : Fin 5) :
    (afterEntry flag i).cleared = 0 ∧ (afterEntry flag i).preparing = false := by
  unfold afterEntry
  cases succ? i with
  | none | some => exact ⟨rfl, rfl⟩

theorem EntriesOk.round {zones : S.ZoneId → Zone S} (hok : EntriesOk x h)
    (hapart : x.pc = .resetting 0 → entrySeeker h = .none) (hr : Round c zones isOver x x' e) :
    EntriesOk x' h := by
  have hentries := hok.entries
  have hcleared := hok.cleared
  have halone := hok.alone
  cases hr with
  | @make k hpc =>
    rw [hpc] at hcleared halone
    refine ⟨hentries.clear k, ?_, fun _ => halone rfl⟩
    have hstep := Cleared.step hcleared
    cases hk : succ? k with
    | none =>
      rw [val_of_succ?_none hk] at hstep
      exact hstep
    | some =>
      rw [← val_of_succ?_some hk] at hstep
      exact hstep
  | @reset k hpc =>
    have hnone : entrySeeker h = .none := by
      by_cases hk : k = 0
      · exact hapart (hk ▸ hpc)
      · rw [hpc] at halone
        exact halone (decide_eq_true (Fin.pos_of_ne_zero hk))
    rw [hpc] at hcleared
    refine ⟨hentries.clear k, ?_, fun _ => hnone⟩
    have hstep := Cleared.step hcleared
    cases hk : succ? k with
    | none => exact Cleared.zero _
    | some =>
      rw [← val_of_succ?_some hk] at hstep
      exact hstep
  | size hpc =>
    rw [hpc] at hcleared halone
    exact ⟨hentries, hcleared, halone⟩
  | @count n hpc _ hle =>
    rw [hpc] at hcleared halone
    refine .of_entries ?_ rfl nofun
    rw [halone rfl]
    exact hcleared.renew hle
  | skip | judge =>
    obtain ⟨hzero, hno⟩ := afterEntry_waits _ _
    exact .of_entries hentries hzero fun hprep => absurd (hno.symm.trans hprep) nofun
  | _ => exact .of_entries hentries rfl nofun

/-! ## Batches of a zone -/

/-- What has become of the batches that a zone has taken. -/
inductive Fate (S : Setup)
  /-- The zone has entered its vaccination loop with each of them. -/
  | entered
  /-- Not yet with the last one, which it has taken from company `c`; its size is not known yet. -/
  | taken (c : S.CompId)
  /-- Not yet with the last one, which are `n` vaccines from company `c`. -/
  | delivered (c : S.CompId) (n : ℤ)
  /-- One of them was dropped, or another one has taken its place. -/
  | lost
  deriving DecidableEq

/-- What an event changes. -/
def Fate.next (z : S.ZoneId) (f : Fate S) : Event S → Fate S
  | .taken y c => if y = z then if f = .entered then .taken c else .lost else f
  | .delivered y c n => if y = z then if f = .taken c then .delivered c n else .lost else f
  | .dropped y _ => if y = z then .lost else f
  | .entered y n =>
    if y = z then
      match f with
      | .delivered _ m => if n = m then .entered else .lost
      | _ => .lost
    else f
  | _ => f

/-- What has become of the batches that zone `z` has taken in a run. -/
def fate (z : S.ZoneId) : History S → Fate S
  | [] => .entered
  | x :: hist => (fate z hist).next z x.2.2

/-- A zone takes a batch. -/
def Event.isTaken : Event S → Bool
  | .taken _ _ => true
  | _ => false

/-- The statements of zone `z` after it has taken the last batch. -/
def sinceTaken (z : S.ZoneId) : History S → ℕ
  | [] => 0
  | x :: hist =>
    if x.2.1 = .zone z then if x.2.2.isTaken then 0 else sinceTaken z hist + 1
    else sinceTaken z hist

/-- The zone has taken a batch and not entered its vaccination loop. -/
def ZonePc.carries : ZonePc S → Bool
  | .sizing _ => true
  | .recording _ _ => true
  | .entering _ _ => true
  | .leaving _ f => f
  | _ => false

/-- The place of a zone, and what has become of its batches: `n` is the number of its statements
after it has taken the last one. -/
def BatchOk (x : Zone S) (f : Fate S) (n : ℕ) : Prop :=
  match x.pc with
  | .sizing c => f = .taken c ∧ n = 0
  | .recording c j => f = .delivered c x.capacity ∧ n = j + 1 ∧ j ≤ 5
  | .entering c _ => f = .delivered c x.capacity ∧ n ≤ 6
  | .leaving c true => f = .delivered c x.capacity ∧ n ≤ 7
  | _ => f = .entered

section Zones

variable {x x' : Zone S} {f : Fate S} {n : ℕ}

theorem BatchOk.of_entered (hpc : x.pc.carries = false) (n : ℕ) : BatchOk x .entered n := by
  unfold BatchOk
  split <;> simp_all [ZonePc.carries]

section

variable (hok : BatchOk x f n)
include hok

theorem BatchOk.entered (hpc : x.pc.carries = false) : f = .entered := by
  unfold BatchOk at hok
  split at hok <;> simp_all [ZonePc.carries]

/-- No batch is lost, and a zone that carries one has performed at most seven statements since it
has taken it. -/
theorem BatchOk.soon : f ≠ .lost ∧ (f ≠ .entered → n ≤ 7) := by
  unfold BatchOk at hok
  split at hok
  · exact ⟨by simp [hok.1], fun _ => by omega⟩
  · exact ⟨by simp [hok.1], fun _ => by omega⟩
  · exact ⟨by simp [hok.1], fun _ => by omega⟩
  · exact ⟨by simp [hok.1], fun _ => by omega⟩
  · exact ⟨by simp [hok], fun hne => absurd hok hne⟩

theorem BatchOk.turn {comps : S.CompId → Comp S}
    (hlt : ∀ c j, x.pc = .recording c j → j < 5) (ht : Turn z comps isOver x x' e) :
    BatchOk x' (f.next z e) (if e.isTaken then 0 else n + 1) := by
  -- most statements are performed by a zone that carries no batch, before and after it
  have hidle : ∀ {pc : ZonePc S}, x.pc = pc → pc.carries = false → f = .entered := by
    rintro _ rfl
    exact hok.entered
  cases ht with
  | @clear c k hpc =>
    obtain rfl := hidle hpc rfl
    refine .of_entered ?_ _
    cases succ? k with
    | none => cases c <;> rfl
    | some => rfl
  | lock hpc | offer hpc | refuse hpc | back hpc | begin hpc | finish hpc | reduce hpc
  | publish hpc | wait hpc | used hpc | give hpc | poll hpc | again hpc | search hpc =>
    obtain rfl := hidle hpc rfl
    exact .of_entered rfl _
  | stop hpc =>
    have hf : f = .entered := hpc.elim (hidle · rfl) (hidle · rfl)
    obtain rfl := hf
    exact .of_entered rfl _
  | take hpc =>
    obtain rfl := hidle hpc rfl
    exact ⟨by simp [Fate.next], rfl⟩
  | @size i hpc =>
    unfold BatchOk at hok
    rw [hpc] at hok
    obtain ⟨rfl, rfl⟩ := hok
    exact ⟨by simp [Fate.next], rfl, Nat.zero_le 5⟩
  | @skip i j hpc =>
    have hj := hlt i j hpc
    unfold BatchOk at hok
    rw [hpc] at hok
    obtain ⟨rfl, rfl, -⟩ := hok
    exact ⟨rfl, rfl, hj⟩
  | @find i j k hpc =>
    have hj := hlt i j hpc
    unfold BatchOk at hok
    rw [hpc] at hok
    obtain ⟨rfl, rfl, -⟩ := hok
    exact ⟨rfl, by simp [Event.isTaken]; omega⟩
  | miss hpc hj => exact absurd (hlt _ _ hpc) hj
  | enter hpc =>
    unfold BatchOk at hok
    rw [hpc] at hok
    obtain ⟨rfl, hn⟩ := hok
    exact ⟨rfl, Nat.succ_le_succ hn⟩
  | go hpc =>
    unfold BatchOk at hok
    rw [hpc] at hok
    obtain ⟨rfl, -⟩ := hok
    rw [show (Fate.delivered _ x.capacity).next z (.entered z x.capacity) = .entered by
      simp [Fate.next]]
    exact .of_entered rfl _

/-- A student does not touch the batches. -/
theorem BatchOk.visit {s : S.StudentId} {h h' : Option (StudentPc S)}
    (hv : Visit s z x h x' h' e) (y : S.ZoneId) : BatchOk x' (f.next y e) n := by
  cases hv <;> exact hok

end

theorem Fate.next_of_ne (f : Fate S) (he : e.zone? ≠ some z) : f.next z e = f := by
  cases e <;> simp_all [Event.zone?, Fate.next]

end Zones

/-! ## Runs -/

/-- The zone has taken a batch of company `c` and is not recorded. -/
def ZonePc.unrecorded (c : S.CompId) : ZonePc S → Bool
  | .sizing i => i = c
  | .recording i _ => i = c
  | .entering i _ => i = c
  | _ => false

/-- A company begins to clear the entries for the next batches only when every zone that has taken
one of its batches is recorded. -/
def RoundsApart (σ : State S) : Action S → Prop
  | .comp c _ => (σ.comps c).pc = .resetting 0 → ∀ z, (σ.zones z).pc.unrecorded c = false
  | _ => True

instance (σ : State S) (a : Action S) : Decidable (RoundsApart σ a) :=
  match a with
  | .comp c _ => inferInstanceAs (Decidable ((σ.comps c).pc = .resetting 0 →
      ∀ z, (σ.zones z).pc.unrecorded c = false))
  | .student _ _ => isTrue trivial
  | .zone _ => isTrue trivial
  | .finish => isTrue trivial

theorem entrySeeker_eq_none (hlocked : Locked σ)
    (hall : ∀ z, (σ.zones z).pc.unrecorded c = false) : entrySeeker (asker σ c) = .none := by
  cases ha : asker σ c with
  | none => rfl
  | some pc =>
    obtain ⟨z, hz, hin⟩ := hlocked.comp.exists_of_holder ha
    have hno := hall z
    rw [hz] at hno
    cases pc with
    | sizing | recording | entering =>
      cases hin
      simp [ZonePc.unrecorded] at hno
    | _ => rfl

variable {a : Action S} {hist : History S}

theorem entries_step (hinv : Inv hist σ) (hok : ∀ c, EntriesOk (σ.comps c) (asker σ c))
    (hapart : RoundsApart σ a) (hm : Moved σ a e σ') (c : S.CompId) :
    EntriesOk (σ'.comps c) (asker σ' c) := by
  cases hm.atComp c with
  | apart hcomp hasker =>
    rw [hcomp, hasker]
    exact hok c
  | delivery hd => exact (hok c).delivery (hinv.comp c) hd
  | round hr hasker =>
    rw [hasker]
    exact (hok c).round (fun hpc => entrySeeker_eq_none hinv.locked (hapart hpc)) hr

/-- A zone that looks for an entry has a free one in front of it. -/
theorem entries_of_pc (hlocked : Locked σ) (hok : ∀ c, EntriesOk (σ.comps c) (asker σ c))
    (hin : (σ.zones z).pc.inside = some c) :
    Allotment.Ok (σ.comps c).zonesUnder (σ.comps c).noOfBatches
      (entrySeeker (some (σ.zones z).pc)) := by
  have hasker : asker σ c = some (σ.zones z).pc := hlocked.comp.holder_eq hin
  rw [← hasker]
  exact (hok c).entries

theorem recording_lt (hlocked : Locked σ) (hok : ∀ c, EntriesOk (σ.comps c) (asker σ c)) {j : ℕ}
    (hpc : (σ.zones z).pc = .recording c j) : j < 5 := by
  have hentries := entries_of_pc hlocked hok (z := z) (c := c) (by rw [hpc]; rfl)
  rw [hpc] at hentries
  exact hentries.lt

theorem batch_step (hinv : Inv hist σ) (hok : ∀ c, EntriesOk (σ.comps c) (asker σ c))
    (hbatch : ∀ z, BatchOk (σ.zones z) (fate z hist) (sinceTaken z hist))
    (hm : Moved σ a e σ') (z : S.ZoneId) :
    BatchOk (σ'.zones z) (fate z ((σ, a, e) :: hist)) (sinceTaken z ((σ, a, e) :: hist)) := by
  cases hm.atZone z with
  | apart hzone hholder he ha =>
    show BatchOk _ ((fate z hist).next z e) (if _ then _ else _)
    rw [if_neg ha, hzone, Fate.next_of_ne _ he]
    exact hbatch z
  | visit hv => exact (hbatch z).visit hv z
  | turn ht =>
    have hturn := (hbatch z).turn (fun _ _ => recording_lt hinv.locked hok) ht
    simpa only [fate, sinceTaken, if_true] using hturn

/-- The entries of the companies, in runs in which the rounds of the companies do not overlap. -/
theorem entries_of_run (hrun : (simulation S).Run hist σ)
    (hapart : ∀ x ∈ hist, RoundsApart x.1 x.2.1) (c : S.CompId) :
    EntriesOk (σ.comps c) (asker σ c) := by
  induction hrun generalizing c with
  | init hinit =>
    obtain rfl := hinit
    exact .of_entries ⟨Int.natCast_nonneg _, nofun, nofun⟩ rfl fun _ => rfl
  | step hrun hstep ih =>
    have hinv := Inv.of_run hrun
    have hok := ih fun x hx => hapart x (List.mem_cons_of_mem _ hx)
    exact entries_step hinv hok (hapart _ List.mem_cons_self) (moved_of_step hinv.locked hstep) c

theorem batches_of_run (hrun : (simulation S).Run hist σ)
    (hapart : ∀ x ∈ hist, RoundsApart x.1 x.2.1) (z : S.ZoneId) :
    BatchOk (σ.zones z) (fate z hist) (sinceTaken z hist) := by
  induction hrun generalizing z with
  | init hinit =>
    obtain rfl := hinit
    exact .of_entered rfl _
  | step hrun hstep ih =>
    have hinv := Inv.of_run hrun
    have hapart' := fun x hx => hapart x (List.mem_cons_of_mem _ hx)
    exact batch_step hinv (entries_of_run hrun hapart') (ih hapart')
      (moved_of_step hinv.locked hstep) z

/-- A zone that carries a batch is not blocked. -/
theorem step_of_carries (hpc : (σ.zones z).pc.carries = true) :
    (σ.step (.zone z)).isSome = true := by
  show (σ.zoneStep z).isSome = true
  unfold zoneStep
  cases h : (σ.zones z).pc with
  | recording i j => by_cases hj : j < 5 <;> simp [h, hj]
  | _ => simp_all [ZonePc.carries]

/-- No batch is lost: a zone that has taken one finds a free entry, and enters its vaccination loop
with it after at most eight statements, none of which blocks. -/
structure Kept (hist : History S) (σ : State S) : Prop where
  free : ∀ z c j, (σ.zones z).pc = .recording c j →
    ∃ i : Fin 5, j ≤ i ∧ (σ.comps c).zonesUnder i = none
  found : ∀ z c j, (σ.zones z).pc = .entering c j → (σ.comps c).zonesUnder j = none
  kept : ∀ z, fate z hist ≠ .lost
  soon : ∀ z, fate z hist ≠ .entered →
    sinceTaken z hist ≤ 7 ∧ (σ.step (.zone z)).isSome = true

/-- No batch is lost in runs in which a company begins to clear the entries for the next batches
only when every zone that has taken one of its batches is recorded. -/
theorem no_batch_lost (hrun : (simulation S).Run hist σ)
    (hapart : ∀ x ∈ hist, RoundsApart x.1 x.2.1) : Kept hist σ := by
  have hlocked := (Inv.of_run hrun).locked
  have hok := entries_of_run hrun hapart
  have hbatch := batches_of_run hrun hapart
  refine ⟨fun z c j hpc => ?_, fun z c j hpc => ?_, fun z => (hbatch z).soon.1,
    fun z hne => ⟨(hbatch z).soon.2 hne, step_of_carries ?_⟩⟩
  · have hentries := entries_of_pc hlocked hok (z := z) (c := c) (by rw [hpc]; rfl)
    rw [hpc] at hentries
    exact hentries.ahead j rfl
  · have hentries := entries_of_pc hlocked hok (z := z) (c := c) (by rw [hpc]; rfl)
    rw [hpc] at hentries
    exact hentries.found j rfl
  · by_contra hno
    exact hne ((hbatch z).entered (by simpa using hno))

/-- A zone has taken a batch of ten and tests the first entry. -/
theorem no_batch_lost_first :
    ∃ (hist : History ⟨1, 1, 1, by decide, by decide, by decide⟩) (σ : State _),
      (simulation _).Run hist σ ∧ (∀ x ∈ hist, RoundsApart x.1 x.2.1) ∧
        fate 0 hist = .delivered 0 10 ∧ (σ.zones 0).pc = .recording 0 0 ∧ Kept hist σ := by
  obtain ⟨hist, σ, hrun, htest⟩ := exists_run (S := ⟨1, 1, 1, by decide, by decide, by decide⟩)
    (firstBatch _ ++ List.replicate 12 (.zone 0))
    (fun hist σ => decide ((∀ x ∈ hist, RoundsApart x.1 x.2.1) ∧
      fate 0 hist = .delivered 0 10 ∧ (σ.zones 0).pc = .recording 0 0))
    (by decide +kernel)
  obtain ⟨hapart, hfate, hpc⟩ := of_decide_eq_true htest
  exact ⟨hist, σ, hrun, hapart, hfate, hpc, no_batch_lost hrun hapart⟩

/-- The company sees no zone that it has to wait for and produces five batches before the zone with
the first one is recorded; the last zone that takes a batch finds no free entry. -/
theorem not_no_batch_lost :
    ∃ (hist : History ⟨1, 6, 1, by decide, by decide, by decide⟩) (σ : State _),
      (simulation _).Run hist σ ∧ fate 5 hist = .lost ∧ ¬Kept hist σ := by
  obtain ⟨hist, σ, hrun, htest⟩ := exists_run (S := ⟨1, 6, 1, by decide, by decide, by decide⟩)
    (firstBatch _ ++ List.replicate 11 (.zone 0) ++ List.replicate 18 (.comp 0 0) ++
      [.comp 0 10, .comp 0 5, .zone 0, .zone 0, .zone 0, .zone 0] ++
      List.replicate 16 (.zone 1) ++ List.replicate 17 (.zone 2) ++ List.replicate 18 (.zone 3) ++
      List.replicate 19 (.zone 4) ++ List.replicate 18 (.zone 5))
    (fun hist _ => decide (fate 5 hist = .lost))
    (by decide +kernel)
  have hlost := of_decide_eq_true htest
  exact ⟨hist, σ, hrun, hlost, fun h => h.kept 5 hlost⟩

end Vaccination
