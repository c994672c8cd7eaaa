import Mathlib

/-!
# Tickets and places

A thread draws a ticket, if one is left, and then looks for a free place in an array; one thread
does so at a time. If there are at least as many free places as tickets, counting the one that has
been drawn, then the search succeeds (`Ok.lt`).

Places may become free at any time. Tickets may be added when all places are free and no thread is
looking for one (`Cleared.renew`).
-/

namespace Allotment

open Function

variable {n : ℕ} {α : Type*}

/-- Where the thread is that has drawn a ticket. -/
inductive Seeker (n : ℕ)
  /-- There is no such thread. -/
  | none
  /-- Before the test of place `k`; at the end of the loop if `k` is `n`. -/
  | looking (k : ℕ)
  /-- It has found that place `k` is free. -/
  | claiming (k : Fin n)
  deriving DecidableEq

/-- The tickets that have been drawn and are not used. -/
def Seeker.pending : Seeker n → ℤ
  | .none => 0
  | .looking _ => 1
  | .claiming _ => 1

/-- The number of free places. -/
def free (places : Fin n → Option α) : ℕ :=
  (Finset.univ.filter fun k => (places k).isNone).card

variable {places : Fin n → Option α} {k : Fin n}

theorem mem_free {j : Fin n} :
    j ∈ Finset.univ.filter (fun k => (places k).isNone) ↔ places j = none := by
  simp

/-- A place becomes free. -/
theorem free_le_update_none (places : Fin n → Option α) (k : Fin n) :
    free places ≤ free (update places k none) := by
  refine Finset.card_le_card fun j hj => mem_free.mpr ?_
  rw [update_apply]
  split_ifs
  · rfl
  · exact mem_free.mp hj

/-- A free place is filled. -/
theorem free_update_some (hfree : places k = none) (a : α) :
    free (update places k (some a)) + 1 = free places := by
  have herase : (Finset.univ.filter fun j => (update places k (some a) j).isNone) =
      (Finset.univ.filter fun j => (places j).isNone).erase k := by
    ext j
    rw [Finset.mem_erase, mem_free, mem_free]
    by_cases hj : j = k
    · simp [hj]
    · simp [hj]
  unfold free
  rw [herase]
  exact Finset.card_erase_add_one (mem_free.mpr hfree)

theorem exists_of_free_pos (h : 0 < free places) : ∃ j, places j = none := by
  obtain ⟨j, hj⟩ := Finset.card_pos.mp h
  exact ⟨j, mem_free.mp hj⟩

/-- There are at least as many free places as tickets, and the thread that looks for a place has one
in front of it. -/
structure Ok (places : Fin n → Option α) (tickets : ℤ) (seeker : Seeker n) : Prop where
  room : tickets + seeker.pending ≤ free places
  ahead : ∀ k, seeker = .looking k → ∃ j : Fin n, k ≤ j ∧ places j = none
  found : ∀ k, seeker = .claiming k → places k = none

section Steps

variable {tickets : ℤ} {seeker : Seeker n}

/-- The thread draws a ticket. -/
theorem Ok.draw (h : Ok places tickets .none) (hpos : 0 < tickets) :
    Ok places (tickets - 1) (.looking 0) := by
  have hroom := h.room
  simp only [Seeker.pending] at hroom
  refine ⟨?_, fun k hk => ?_, nofun⟩
  · simp only [Seeker.pending]
    omega
  · obtain rfl := Seeker.looking.inj hk
    have hfree : 0 < free places := by omega
    obtain ⟨j, hj⟩ := exists_of_free_pos hfree
    exact ⟨j, Nat.zero_le _, hj⟩

/-- The search does not reach the end of the array. -/
theorem Ok.lt {k : ℕ} (h : Ok places tickets (.looking k)) : k < n := by
  obtain ⟨j, hle, -⟩ := h.ahead k rfl
  omega

/-- The place is not free. -/
theorem Ok.skip {k : ℕ} (h : Ok places tickets (.looking k)) (hk : k < n)
    (hfull : places ⟨k, hk⟩ ≠ none) : Ok places tickets (.looking (k + 1)) := by
  refine ⟨h.room, fun k' hk' => ?_, nofun⟩
  obtain rfl := Seeker.looking.inj hk'
  obtain ⟨j, hle, hj⟩ := h.ahead k rfl
  refine ⟨j, Nat.lt_of_le_of_ne hle ?_, hj⟩
  rintro rfl
  exact hfull hj

/-- The place is free. -/
theorem Ok.find {k : ℕ} (h : Ok places tickets (.looking k)) (hk : k < n)
    (hfree : places ⟨k, hk⟩ = none) : Ok places tickets (.claiming ⟨k, hk⟩) := by
  refine ⟨h.room, nofun, fun k' hk' => ?_⟩
  obtain rfl := Seeker.claiming.inj hk'
  exact hfree

/-- The thread fills the place that it has found. -/
theorem Ok.claim (h : Ok places tickets (.claiming k)) (a : α) :
    Ok (update places k (some a)) tickets .none := by
  have hroom := h.room
  have hfree := free_update_some (h.found k rfl) a
  refine ⟨?_, nofun, nofun⟩
  simp only [Seeker.pending] at hroom ⊢
  omega

/-- A place becomes free. -/
theorem Ok.clear (h : Ok places tickets seeker) (k : Fin n) :
    Ok (update places k none) tickets seeker := by
  -- the places that were free stay free
  have hkeep : ∀ j, places j = none → update places k none j = none := by
    intro j hj
    rw [update_apply]
    split_ifs
    · rfl
    · exact hj
  refine ⟨?_, fun i hi => ?_, fun i hi => hkeep i (h.found i hi)⟩
  · have hroom := h.room
    have hle := free_le_update_none places k
    omega
  · obtain ⟨j, hle, hj⟩ := h.ahead i hi
    exact ⟨j, hle, hkeep j hj⟩

end Steps

/-- The first `m` places are free. -/
def Cleared (places : Fin n → Option α) (m : ℕ) : Prop :=
  ∀ j : Fin n, j.val < m → places j = none

theorem Cleared.zero (places : Fin n → Option α) : Cleared places 0 :=
  fun j hj => absurd hj (Nat.not_lt_zero j)

/-- A loop that makes one place after the other free. -/
theorem Cleared.step (h : Cleared places k) : Cleared (update places k none) (k + 1) := by
  intro j hj
  rw [update_apply]
  split_ifs with hjk
  · rfl
  · exact h j (Nat.lt_of_le_of_ne (Nat.le_of_lt_succ hj) fun heq => hjk (Fin.ext heq))

/-- All places are free and nobody is looking for one: there may be as many tickets as places. -/
theorem Cleared.renew (h : Cleared places n) {tickets : ℤ} (hle : tickets ≤ n) :
    Ok places tickets .none := by
  have hall : (Finset.univ.filter fun k => (places k).isNone) = Finset.univ :=
    Finset.filter_true_of_mem fun j _ => by simp [h j j.isLt]
  refine ⟨?_, nofun, nofun⟩
  unfold free
  rw [hall, Finset.card_univ, Fintype.card_fin]
  simpa [Seeker.pending] using hle

end Allotment
