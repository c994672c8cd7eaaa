import Mathlib

/-!
# Threads in critical sections

Threads have places, and resources have mutexes. `inside` says which resource's mutex a place is
under. `Held` says that the mutexes are held by the threads that are under them, so that there is at
most one such thread for each resource, and `holder` is its place.

A thread that moves, takes the mutex of a resource or gives it back keeps `Held`, and changes the
holder of no other resource.
-/

namespace Mutex

open Function

variable {T R P : Type*} (inside : P → Option R)

/-- The mutexes are held by the threads that are under them. -/
def Held (place : T → P) (lock : R → Option T) : Prop :=
  ∀ r t, lock r = some t ↔ inside (place t) = some r

/-- The place of the thread that holds the mutex of `r`. -/
def holder (place : T → P) (lock : R → Option T) (r : R) : Option P :=
  (lock r).map place

variable {inside} {place : T → P} {lock : R → Option T} {t : T} {r r' : R} {p : P} {l : Option T}

section

variable (h : Held inside place lock)
include h

/-- A thread that is under a mutex is its holder. -/
theorem Held.holder_eq (hin : inside (place t) = some r) :
    holder place lock r = some (place t) := by
  unfold holder
  rw [(h r t).mpr hin, Option.map_some]

/-- The holder of a mutex is a thread that is under it. -/
theorem Held.exists_of_holder (hp : holder place lock r = some p) :
    ∃ t, place t = p ∧ inside p = some r := by
  obtain ⟨t, hlock, rfl⟩ := Option.map_eq_some_iff.mp hp
  exact ⟨t, rfl, (h r t).mp hlock⟩

/-- A thread that is under no mutex moves. -/
theorem Held.outside [DecidableEq T]
    (hbefore : inside (place t) = none) (hafter : inside p = none) :
    Held inside (update place t p) lock ∧
      ∀ r, holder (update place t p) lock r = holder place lock r := by
  refine ⟨fun r t' => ?_, fun r => Option.map_congr fun t' ht' => ?_⟩
  · by_cases ht : t' = t
    · subst ht
      rw [update_self, h r t', hbefore, hafter]
    · rw [update_of_ne ht, h r t']
  · have hne : t' ≠ t := by
      rintro rfl
      rw [(h r t').mp ht'] at hbefore
      cases hbefore
    rw [update_of_ne hne]

end

variable [DecidableEq R]

variable (inside place lock t r p l) in
/-- The thread `t` moves to `p`, and the mutex of `r` becomes `l`: `t` holds it or nobody does, and
`t` is under no other mutex. -/
structure Moves : Prop where
  before : lock r = if inside (place t) = some r then some t else none
  after : l = if inside p = some r then some t else none
  only : ∀ r' ≠ r, inside (place t) ≠ some r' ∧ inside p ≠ some r'

/-- A thread under a mutex moves on under it. -/
theorem Held.stays (h : Held inside place lock) (hbefore : inside (place t) = some r)
    (hafter : inside p = some r) : Moves inside place lock t r p (lock r) where
  before := by rw [if_pos hbefore, (h r t).mpr hbefore]
  after := by rw [if_pos hafter, (h r t).mpr hbefore]
  only r' hr := by
    rw [hbefore, hafter]
    exact ⟨fun heq => hr (Option.some.inj heq).symm, fun heq => hr (Option.some.inj heq).symm⟩

/-- A thread takes a free mutex. -/
theorem acquires (hfree : lock r = none) (hbefore : inside (place t) = none)
    (hafter : inside p = some r) : Moves inside place lock t r p (some t) where
  before := by rw [hfree, if_neg (by rw [hbefore]; nofun)]
  after := by rw [if_pos hafter]
  only r' hr := by
    rw [hbefore, hafter]
    exact ⟨nofun, fun heq => hr (Option.some.inj heq).symm⟩

/-- A thread gives its mutex back. -/
theorem Held.releases (h : Held inside place lock) (hbefore : inside (place t) = some r)
    (hafter : inside p = none) : Moves inside place lock t r p none where
  before := by rw [if_pos hbefore, (h r t).mpr hbefore]
  after := by rw [if_neg (by rw [hafter]; nofun)]
  only r' hr := by
    rw [hbefore, hafter]
    exact ⟨fun heq => hr (Option.some.inj heq).symm, nofun⟩

theorem Moves.holder_before (hm : Moves inside place lock t r p l) :
    holder place lock r = if inside (place t) = some r then some (place t) else none := by
  unfold holder
  rw [hm.before]
  split_ifs
  · rfl
  · rfl

variable [DecidableEq T]

variable (hm : Moves inside place lock t r p l)
include hm

theorem Moves.held (h : Held inside place lock) :
    Held inside (update place t p) (update lock r l) := by
  intro r' t'
  by_cases hr : r' = r
  · subst hr
    rw [update_self, hm.after]
    by_cases ht : t' = t
    · subst ht
      rw [update_self]
      split_ifs with hin
      · simp [hin]
      · simp [hin]
    · -- no other thread is under the mutex, neither before nor after
      have hne : ∀ q : Prop, [Decidable q] → (if q then some t else none) ≠ some t' := by
        intro q _ heq
        split_ifs at heq
        exact ht (Option.some.inj heq).symm
      rw [update_of_ne ht, ← h r' t', hm.before]
      exact ⟨fun heq => absurd heq (hne _), fun heq => absurd heq (hne _)⟩
  · rw [update_of_ne hr, h r' t']
    by_cases ht : t' = t
    · subst ht
      rw [update_self]
      exact ⟨fun heq => absurd heq (hm.only r' hr).1, fun heq => absurd heq (hm.only r' hr).2⟩
    · rw [update_of_ne ht]

theorem Moves.holder_of_ne (h : Held inside place lock) (hr : r' ≠ r) :
    holder (update place t p) (update lock r l) r' = holder place lock r' := by
  unfold holder
  rw [update_of_ne hr]
  refine Option.map_congr fun t' ht' => ?_
  have hne : t' ≠ t := by
    rintro rfl
    exact (hm.only r' hr).1 ((h r' t').mp ht')
  rw [update_of_ne hne]

theorem Moves.holder_after : holder (update place t p) (update lock r l) r =
      if inside p = some r then some p else none := by
  unfold holder
  rw [update_self, hm.after]
  split_ifs
  · rw [Option.map_some, update_self]
  · rfl

end Mutex
