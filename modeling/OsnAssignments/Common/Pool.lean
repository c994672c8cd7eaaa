import Mathlib.Data.List.Nodup
import Mathlib.Data.Set.Basic
import Mathlib.Logic.Function.Basic
import Mathlib.Tactic.Common

/-!
# Pools

A fixed set of items, each of which is free, held by the code that runs, or in one of the slots of a
data structure, and in one place only. Items are taken from the list of free ones, put into empty
slots, removed from slots and freed.
-/

namespace Pool

open Function

variable {S F : Type*} {T : Set F} {slot : S → Option F} {held free : List F} {s : S} {f : F}

/-- The items of `T` are distributed over the slots, those that are held and the free ones. -/
structure Parts (T : Set F) (slot : S → Option F) (held free : List F) : Prop where
  nodup : (held ++ free).Nodup
  inj : ∀ {s s' f}, slot s = some f → slot s' = some f → s = s'
  slot_notMem : ∀ {s f}, slot s = some f → f ∉ held ++ free
  total : ∀ {f}, f ∈ T ↔ f ∈ held ++ free ∨ ∃ s, slot s = some f

section

variable (h : Parts T slot held free)
include h

theorem Parts.mem_of_slot (hs : slot s = some f) : f ∈ T :=
  h.total.mpr (.inr ⟨s, hs⟩)

theorem Parts.mem_of_free (hf : f ∈ free) : f ∈ T :=
  h.total.mpr (.inl (List.mem_append_right _ hf))

theorem Parts.mem_of_held (hf : f ∈ held) : f ∈ T :=
  h.total.mpr (.inl (List.mem_append_left _ hf))

/-- An item goes from one place outside the slots to another. -/
theorem Parts.perm {held' free' : List F}
    (hperm : (held' ++ free').Perm (held ++ free)) : Parts T slot held' free' where
  nodup := hperm.nodup_iff.mpr h.nodup
  inj := h.inj
  slot_notMem hs hf := h.slot_notMem hs (hperm.mem_iff.mp hf)
  total := by
    intro f
    rw [h.total, hperm.mem_iff]

end

/-- A free item is taken. -/
theorem Parts.take (h : Parts T slot held (f :: free)) : Parts T slot (f :: held) free :=
  h.perm List.perm_middle.symm

/-- An item that is held is freed. -/
theorem Parts.drop (h : Parts T slot (f :: held) free) : Parts T slot held (f :: free) :=
  h.perm List.perm_middle

/-- Some of the free items are lost. -/
theorem Parts.restrict {free' : List F} (h : Parts T slot held free) (hnodup : free'.Nodup)
    (hsub : free' ⊆ free) :
    Parts {f | f ∈ held ++ free' ∨ ∃ s, slot s = some f} slot held free' where
  nodup := by
    obtain ⟨hheld, -, hdisj⟩ := List.nodup_append.mp h.nodup
    exact List.nodup_append.mpr ⟨hheld, hnodup, fun a ha b hb => hdisj a ha b (hsub hb)⟩
  inj := h.inj
  slot_notMem hs hf :=
    h.slot_notMem hs (List.mem_append.mpr ((List.mem_append.mp hf).imp_right fun hm => hsub hm))
  total := Iff.rfl

theorem Parts.restrict_subset {free' : List F} (h : Parts T slot held free) (hsub : free' ⊆ free) :
    {f | f ∈ held ++ free' ∨ ∃ s, slot s = some f} ⊆ T := by
  rintro f (hf | hs)
  · exact (List.mem_append.mp hf).elim h.mem_of_held fun hm => h.mem_of_free (hsub hm)
  · exact h.total.mpr (.inr hs)

variable [DecidableEq S]

/-- An item that is held goes into an empty slot. -/
theorem Parts.put (h : Parts T slot (f :: held) free) (hs : slot s = none) :
    Parts T (update slot s (some f)) held free := by
  have hf : f ∉ held ++ free := (List.nodup_cons.mp h.nodup).1
  have hslot : ∀ {r g}, update slot s (some f) r = some g →
      (r = s ∧ g = f) ∨ (r ≠ s ∧ slot r = some g) := by
    intro r g hr
    by_cases hrs : r = s
    · subst hrs
      rw [update_self] at hr
      exact .inl ⟨rfl, (Option.some.inj hr).symm⟩
    · rw [update_of_ne hrs] at hr
      exact .inr ⟨hrs, hr⟩
  have hother : ∀ {r g}, slot r = some g → g ≠ f := by
    rintro r g hr rfl
    exact h.slot_notMem hr List.mem_cons_self
  refine ⟨(List.nodup_cons.mp h.nodup).2, fun hr hr' => ?_, fun hr hmem => ?_, ?_⟩
  · rcases hslot hr with ⟨rfl, rfl⟩ | ⟨-, hold⟩
    · rcases hslot hr' with ⟨rfl, -⟩ | ⟨-, hold'⟩
      · rfl
      · exact absurd rfl (hother hold')
    · rcases hslot hr' with ⟨-, rfl⟩ | ⟨-, hold'⟩
      · exact absurd rfl (hother hold)
      · exact h.inj hold hold'
  · rcases hslot hr with ⟨-, rfl⟩ | ⟨-, hr⟩
    · exact hf hmem
    · exact h.slot_notMem hr (List.mem_cons_of_mem _ hmem)
  · intro g
    rw [h.total, List.cons_append, List.mem_cons]
    constructor
    · rintro ((rfl | hg) | ⟨r, hr⟩)
      · exact .inr ⟨s, update_self ..⟩
      · exact .inl hg
      · have hrs : r ≠ s := by
          rintro rfl
          rw [hs] at hr
          cases hr
        exact .inr ⟨r, by rw [update_of_ne hrs, hr]⟩
    · rintro (hg | ⟨r, hr⟩)
      · exact .inl (.inr hg)
      · rcases hslot hr with ⟨-, rfl⟩ | ⟨-, hr⟩
        · exact .inl (.inl rfl)
        · exact .inr ⟨r, hr⟩

/-- The item of a slot is freed. -/
theorem Parts.release (h : Parts T slot held free) (hs : slot s = some f) :
    Parts T (update slot s none) held (f :: free) := by
  have hslot : ∀ {r g}, update slot s none r = some g → r ≠ s ∧ slot r = some g := by
    intro r g hr
    have hrs : r ≠ s := by
      rintro rfl
      rw [update_self] at hr
      cases hr
    exact ⟨hrs, by rwa [update_of_ne hrs] at hr⟩
  have hmem : ∀ {g}, g ∈ held ++ f :: free ↔ g = f ∨ g ∈ held ++ free := by
    intro g
    rw [List.perm_middle.mem_iff, List.mem_cons]
  refine ⟨?_, fun hr hr' => h.inj (hslot hr).2 (hslot hr').2, fun hr hg => ?_, ?_⟩
  · rw [List.perm_middle.nodup_iff, List.nodup_cons]
    exact ⟨h.slot_notMem hs, h.nodup⟩
  · obtain ⟨hrs, hr⟩ := hslot hr
    rcases hmem.mp hg with rfl | hg
    · exact hrs (h.inj hr hs)
    · exact h.slot_notMem hr hg
  · intro g
    rw [h.total, hmem]
    constructor
    · rintro (hg | ⟨r, hr⟩)
      · exact .inl (.inr hg)
      · by_cases hrs : r = s
        · subst hrs
          exact .inl (.inl (Option.mem_unique hr hs))
        · exact .inr ⟨r, by rw [update_of_ne hrs, hr]⟩
    · rintro ((rfl | hg) | ⟨r, hr⟩)
      · exact .inr ⟨s, hs⟩
      · exact .inl hg
      · exact .inr ⟨r, (hslot hr).2⟩

end Pool
