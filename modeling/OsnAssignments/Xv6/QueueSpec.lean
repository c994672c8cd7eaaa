import Mathlib.Data.Fintype.Card
import Mathlib.Data.Fintype.Option
import OsnAssignments.Common.CircularBuffer
import OsnAssignments.Xv6.Queue

/-!
# The ready queues as lists

`Rings.live r i` is what ring `i` holds, in the order in which `pop` will return it. On these
lists `push` appends, `pop` takes the head, and `remove` erases, each leaving the other rings
alone:

* `live_enqueue`, for the part of `push` that inserts, and `push_eq_none`, for the cases in which
  `push` inserts nothing;
* `live_pop`;
* `live_remove`, whose three loops move entries of the array up by one place.
-/

namespace Xv6

open CircularBuffer (place rank before Occupied occupied_bounds place_bounds)
open Loop

namespace Rings

variable {r r' : Rings} {i i' : Level} {j j' : ℤ} {p : Slot}
variable {a : Level} {b : Slot} {m : ℤ}

/-- The entries of ring `i`, first to last. -/
def live (r : Rings) (i : Level) : List (Option Slot) :=
  CircularBuffer.live NPROC (r.get i) r.face[i] r.back[i]

/-- Ring `i` is empty or has both indices in its array. -/
abbrev ValidAt (r : Rings) (i : Level) : Prop :=
  CircularBuffer.Valid NPROC r.face[i] r.back[i]

/-- Every ring is empty or has both indices in its array. -/
def Valid (r : Rings) : Prop :=
  ∀ i : Level, CircularBuffer.Valid NPROC r.face[i] r.back[i]

instance (r : Rings) : Decidable r.Valid :=
  inferInstanceAs (Decidable (∀ _, _))

theorem valid_empty (below : Option Slot) : (empty below).Valid := by
  intro i
  exact .inl ⟨getElem_replicate_level (-1) i, getElem_replicate_level (-1) i⟩

theorem live_empty (below : Option Slot) (i : Level) : (empty below).live i = [] := by
  have hface : (empty below).face[i] = -1 := getElem_replicate_level (-1) i
  rw [live, hface, CircularBuffer.live_empty]

theorem live_eq_nil (h : r.face[i] = -1) : r.live i = [] := by
  rw [live, h, CircularBuffer.live_empty]

theorem mem_live (hv : r.ValidAt i) {x : Option Slot} : x ∈ r.live i ↔
      ∃ j, Occupied NPROC r.face[i] r.back[i] j ∧ r.get i j = x :=
  CircularBuffer.mem_live hv

/-! ## Reading and writing the array -/

theorem cast_NPROC : ((NPROC : ℕ) : ℤ) = 64 := rfl

/-- A write is seen at its own place only. -/
theorem get_put (hj : 0 ≤ j ∧ j < NPROC) (hj' : 0 ≤ j' ∧ j' < NPROC) (x : Option Slot) :
    (r.put i j x).get i' j' = if i' = i ∧ j' = j then x else r.get i' j' := by
  rw [cast_NPROC] at hj hj'
  have hnn : ¬ ((NPROC : ℤ) * i' + j' < 0) := by
    rw [cast_NPROC]
    omega
  have hlt : ((NPROC : ℤ) * i + j).toNat < 5 * NPROC := by
    rw [cast_NPROC]
    change _ < 320
    omega
  rw [get, get, if_neg hnn, if_neg hnn, put]
  by_cases h : i' = i ∧ j' = j
  · obtain ⟨rfl, rfl⟩ := h
    rw [if_pos ⟨rfl, rfl⟩, Vector.getElem?_setIfInBounds_self_of_lt hlt, Option.getD_some]
  · have hne : ((NPROC : ℤ) * i + j).toNat ≠ ((NPROC : ℤ) * i' + j').toNat := by
      rw [cast_NPROC]
      intro heq
      refine h ⟨Fin.ext ?_, ?_⟩ <;> omega
    rw [if_neg h, Vector.getElem?_setIfInBounds_ne hne]

/-- A loop that copies to each place from `lo` to `m`, last to first, an entry `s` that it has not
overwritten yet. -/
theorem get_foldl_put {s : ℤ → ℤ} {lo : ℤ} (hlo : 0 ≤ lo) (hm : m < NPROC)
    (hs : ∀ j, lo ≤ j → j ≤ m → 0 ≤ s j ∧ s j < NPROC ∧ (s j < j ∨ m < s j))
    (hj' : 0 ≤ j' ∧ j' < NPROC) :
    ((downTo m lo).foldl (fun r j => r.put i j (r.get i (s j))) r).get i' j' =
      if i' = i ∧ lo ≤ j' ∧ j' ≤ m then r.get i' (s j') else r.get i' j' := by
  -- by induction on the number of iterations left, `m + 1 - lo`
  obtain ⟨k, hk⟩ : ∃ k : ℕ, (m + 1 - lo).toNat = k := ⟨_, rfl⟩
  induction k generalizing r m with
  | zero => rw [downTo_eq_nil (by omega), List.foldl_nil, if_neg (by omega)]
  | succ k ih =>
    rw [downTo_eq_cons (by omega), List.foldl_cons,
      ih (by omega) (fun j hj hjm => ⟨(hs j hj (by omega)).1, (hs j hj (by omega)).2.1,
        (hs j hj (by omega)).2.2.imp_right (by omega)⟩) (by omega)]
    by_cases hrow : i' = i
    · subst hrow
      simp only [true_and]
      by_cases hin : lo ≤ j' ∧ j' ≤ m
      · obtain ⟨hnn, hlt, hnew⟩ := hs j' hin.1 hin.2
        rw [if_pos hin]
        by_cases hlast : j' = m
        · subst hlast
          rw [if_neg (by omega), get_put (by omega) hj', if_pos ⟨rfl, rfl⟩]
        · rw [if_pos (by omega), get_put (by omega) ⟨hnn, hlt⟩, if_neg (by omega)]
      · rw [if_neg (by omega), if_neg hin, get_put (by omega) hj', if_neg (by omega)]
    · rw [if_neg (by simp [hrow]), if_neg (by simp [hrow]), get_put (by omega) hj',
        if_neg (by simp [hrow])]

/-- The loop of `remove` that moves part of a ring up by one place. -/
theorem get_shift {lo : ℤ} (hlo : 1 ≤ lo) (hm : m < NPROC) (hj' : 0 ≤ j' ∧ j' < NPROC) :
    (r.shift i m lo).get i' j' =
      if i' = i ∧ lo ≤ j' ∧ j' ≤ m then r.get i' (j' - 1) else r.get i' j' :=
  get_foldl_put (s := fun j => j - 1) (by omega) hm
    (fun j _ _ => ⟨by omega, by omega, by omega⟩) hj'

theorem shiftAround_eq (r : Rings) (i : Level) (m : ℤ) : r.shiftAround i m =
    (downTo m 0).foldl (fun r j => r.put i j (r.get i (before NPROC j))) r := by
  unfold shiftAround before
  congr
  funext r j
  split <;> rfl

/-- The loop of `remove` that moves the wrapped part of a ring up by one place. -/
theorem get_shiftAround (hm : m < NPROC - 1) (hj' : 0 ≤ j' ∧ j' < NPROC) :
    (r.shiftAround i m).get i' j' =
      if i' = i ∧ j' ≤ m then r.get i' (before NPROC j') else r.get i' j' := by
  have hN := cast_NPROC
  rw [shiftAround_eq, get_foldl_put (Int.le_refl 0) (by omega) (fun j _ _ => ?_) hj']
  · simp [hj'.1]
  · unfold before
    split_ifs <;> omega

/-! ## Inserting -/

theorem face_enqueue (r : Rings) (a : Level) (b : Slot) (i : Level) :
    (r.enqueue a b).face[i] = if i = a ∧ r.face[a] = -1 then 0 else r.face[i] := by
  change (if r.face[a] = -1 then r.face.set a 0 else r.face)[i] = _
  by_cases hface : r.face[a] = -1
  · rw [if_pos hface, getElem_set_level]
    simp only [hface, and_true]
  · rw [if_neg hface, if_neg fun h => hface h.2]

theorem back_enqueue (r : Rings) (a : Level) (b : Slot) (i : Level) :
    (r.enqueue a b).back[i] = if i = a then (r.back[a] + 1) % NPROC else r.back[i] :=
  getElem_set_level ..

theorem get_enqueue (b : Slot) (hj' : 0 ≤ j' ∧ j' < NPROC) : (r.enqueue i b).get i' j' =
      if i' = i ∧ j' = (r.back[i] + 1) % NPROC then some b else r.get i' j' :=
  get_put ⟨Int.emod_nonneg _ (by decide), Int.emod_lt_of_pos _ (by decide)⟩ hj' _

section

variable (hv : r.Valid)
include hv

/-- The index at which `push` writes into a ring. -/
theorem back_succ (i : Level) (h : r.face[i] ≠ -1) :
    (r.back[i] + 1) % (NPROC : ℤ) = place NPROC r.back[i] 1 := by
  obtain ⟨-, hback⟩ := (hv i).bounds h
  exact CircularBuffer.emod_succ hback.1 hback.2

theorem valid_enqueue (a : Level) (b : Slot) : (r.enqueue a b).Valid := by
  intro i
  have hN := cast_NPROC
  have hnn : 0 ≤ (r.back[a] + 1) % (NPROC : ℤ) := Int.emod_nonneg _ (by decide)
  have hlt : (r.back[a] + 1) % (NPROC : ℤ) < NPROC := Int.emod_lt_of_pos _ (by decide)
  rw [face_enqueue, back_enqueue]
  by_cases hi : i = a
  · subst hi
    have hold := hv i
    unfold CircularBuffer.Valid at hold ⊢
    rw [if_pos rfl]
    by_cases hface : r.face[i] = -1
    · rw [if_pos ⟨rfl, hface⟩]
      omega
    · rw [if_neg fun h => hface h.2]
      omega
  · rw [if_neg fun h => hi h.1, if_neg hi]
    exact hv i

/-- The ring into which `push` inserts. -/
theorem live_enqueue (hroom : r.face[a] = -1 ∨ r.full a = false) :
    (r.enqueue a b).live a = r.live a ++ [some b] := by
  have hN := cast_NPROC
  by_cases hface : r.face[a] = -1
  · -- the first entry of an empty ring goes to index `0`
    have hback : r.back[a] = -1 := (hv a).back_eq hface
    rw [live_eq_nil hface, live, face_enqueue, back_enqueue, if_pos ⟨rfl, hface⟩, if_pos rfl, hback]
    change CircularBuffer.live NPROC _ 0 0 = _
    rw [CircularBuffer.live_single le_rfl (by decide), List.nil_append,
      get_enqueue b (by omega), hback, if_pos ⟨rfl, rfl⟩]
  · have hfull := hroom.resolve_left hface
    have hroom : CircularBuffer.size NPROC r.face[a] r.back[a] < NPROC := by
      refine lt_of_le_of_ne (CircularBuffer.size_le (hv a)) fun hsize => ?_
      rw [CircularBuffer.size_eq_iff hface (hv a)] at hsize
      simp only [full, Bool.or_eq_false_iff, Bool.and_eq_false_iff, beq_eq_false_iff_ne] at hfull
      omega
    obtain ⟨-, hback⟩ := (hv a).bounds hface
    have hplace := place_bounds hback.1 hback.2
    rw [live, face_enqueue, back_enqueue, if_neg fun h => hface h.2, if_pos rfl,
      back_succ hv a hface, CircularBuffer.live_push hface (hv a) hroom,
      get_enqueue b hplace, back_succ hv a hface, if_pos ⟨rfl, rfl⟩]
    · rfl
    -- the write goes to a place that holds no entry, so that the old entries stay
    · intro j hj
      have hbounds := occupied_bounds (hv a) hj
      rw [get_enqueue b hbounds, if_neg]
      rintro ⟨-, hlast⟩
      rw [hlast, back_succ hv a hface] at hj
      exact CircularBuffer.not_occupied_place_back hface (hv a) hroom hj

/-- The other rings. -/
theorem live_enqueue_of_ne (hi : i ≠ a) : (r.enqueue a b).live i = r.live i := by
  rw [live, face_enqueue, back_enqueue, if_neg fun h => hi h.1, if_neg hi]
  refine CircularBuffer.live_congr (hv i) fun j hj => ?_
  rw [get_enqueue b (occupied_bounds (hv i) hj), if_neg fun h => hi h.1]

end

/-- The search of `push` in a ring that is not empty. -/
theorem holds_iff (hv : r.ValidAt i) (hne : r.face[i] ≠ -1) (b : Slot) :
    r.holds i b = true ↔ some b ∈ r.live i := by
  rw [mem_live hv, holds]
  have hN := cast_NPROC
  unfold ValidAt CircularBuffer.Valid at hv
  split
  next hle =>
    simp only [List.any_eq_true, mem_upTo, beq_iff_eq]
    constructor
    · rintro ⟨j, hj, hget⟩
      exact ⟨j, ⟨hne, .inl ⟨hle, hj⟩⟩, hget⟩
    · rintro ⟨j, ⟨-, hj⟩, hget⟩
      exact ⟨j, by omega, hget⟩
  next hgt =>
    simp only [Bool.or_eq_true, List.any_eq_true, mem_upTo, beq_iff_eq]
    constructor
    · rintro (⟨j, hj, hget⟩ | ⟨j, hj, hget⟩)
      · exact ⟨j, ⟨hne, .inr ⟨by omega, .inl (by omega)⟩⟩, hget⟩
      · exact ⟨j, ⟨hne, .inr ⟨by omega, .inr hj⟩⟩, hget⟩
    · rintro ⟨j, ⟨-, hj⟩, hget⟩
      by_cases hfirst : r.face[i] ≤ j
      · exact .inl ⟨j, by omega, hget⟩
      · exact .inr ⟨j, by omega, hget⟩

/-- `push(a, b)` does not look at the word before an empty ring, or does not meet `b` there. -/
def PushClear (r : Rings) (a : Level) (b : Slot) : Prop :=
  r.face[a] = -1 ∨ ∀ i : Level, r.face[i] = -1 → r.get i (-1) ≠ some b

instance (r : Rings) (a : Level) (b : Slot) : Decidable (r.PushClear a b) :=
  inferInstanceAs (Decidable (_ ∨ _))

/-- A ring of distinct processes other than `b` has room for `b`. -/
theorem full_eq_false (hv : r.Valid) (hne : r.face[a] ≠ -1)
    (hnodup : (r.live a).Nodup) (hnone : none ∉ r.live a) (hb : some b ∉ r.live a) :
    r.full a = false := by
  -- with the null pointer and `b`, the entries are distinct values of a type of `NPROC + 1` values
  have hall : (none :: some b :: r.live a).Nodup := by
    rw [List.nodup_cons, List.nodup_cons, List.mem_cons]
    refine ⟨?_, hb, hnodup⟩
    rintro (h | h)
    · cases h
    · exact hnone h
  have hcard := hall.length_le_card
  rw [Fintype.card_option, Fintype.card_fin, List.length_cons, List.length_cons, live,
    CircularBuffer.length_live] at hcard
  have hsize := (CircularBuffer.size_eq_iff hne (hv a)).not.mp (by omega)
  simp only [full, Bool.or_eq_false_iff, Bool.and_eq_false_iff, beq_eq_false_iff_ne]
  omega

/-- `push` of a process that is in no ring inserts it, unless it meets a stale pointer. -/
theorem push_eq_some (hv : r.Valid) (hnodup : (r.live a).Nodup)
    (hnone : none ∉ r.live a) (hb : ∀ i, some b ∉ r.live i) (hclear : r.PushClear a b) :
    r.push a b = some (r.enqueue a b) := by
  by_cases hface : r.face[a] = -1
  · rw [push, if_pos hface]
  · have hholds : ((List.finRange 5).any fun i => r.holds i b) = false := by
      rw [List.any_eq_false]
      intro i _
      by_cases hi : r.face[i] = -1
      · -- in an empty ring the search looks at the word before the ring
        have hback : r.back[i] = -1 := (hv i).back_eq hi
        have hstale := hclear.resolve_left hface i hi
        rw [holds, hi, hback, if_pos le_rfl]
        simpa [upTo] using hstale
      · rw [holds_iff (hv i) hi]
        exact hb i
    rw [push, if_neg hface, hholds, full_eq_false hv hface hnodup hnone (hb a)]
    rfl

/-- What `push` inserts, it inserts into a ring that is not full. -/
theorem of_push_eq_some (h : r.push a b = some r') :
    r' = r.enqueue a b ∧ (r.face[a] = -1 ∨ r.full a = false) := by
  unfold push at h
  split_ifs at h with hface hholds hfull
  · exact ⟨(Option.some.inj h).symm, .inl hface⟩
  · exact ⟨(Option.some.inj h).symm, .inr (by simpa using hfull)⟩

/-! ## Taking the first entry -/

/-- The last entry of a ring leaves it empty. -/
theorem live_clear (r : Rings) (i : Level) : (r.clear i).live i = [] := by
  refine live_eq_nil ?_
  rw [clear, getElem_set_level, if_pos rfl]

theorem valid_clear (hv : r.Valid) (i : Level) : (r.clear i).Valid := by
  intro k
  simp only [clear, getElem_set_level]
  by_cases hk : k = i
  · rw [if_pos hk, if_pos hk]
    exact .inl ⟨rfl, rfl⟩
  · rw [if_neg hk, if_neg hk]
    exact hv k

theorem face_advance (r : Rings) (i k : Level) :
    (r.advance i).face[k] = if k = i then (r.face[i] + 1) % NPROC else r.face[k] :=
  getElem_set_level ..

theorem valid_advance (hv : r.Valid) (hne : r.face[i] ≠ -1) : (r.advance i).Valid := by
  intro k
  rw [face_advance]
  by_cases hk : k = i
  · subst hk
    have hold := hv k
    have hnn : 0 ≤ (r.face[k] + 1) % (NPROC : ℤ) := Int.emod_nonneg _ (by decide)
    have hlt : (r.face[k] + 1) % (NPROC : ℤ) < NPROC := Int.emod_lt_of_pos _ (by decide)
    rw [if_pos rfl]
    change CircularBuffer.Valid NPROC _ r.back[k]
    unfold CircularBuffer.Valid at hold ⊢
    omega
  · rw [if_neg hk]
    exact hv k

/-- The index at which a ring starts once its first entry is gone. -/
theorem face_succ (hv : r.ValidAt i) (hne : r.face[i] ≠ -1) :
    (r.face[i] + 1) % (NPROC : ℤ) = place NPROC r.face[i] 1 := by
  obtain ⟨hface, -⟩ := hv.bounds hne
  exact CircularBuffer.emod_succ hface.1 hface.2

/-- `pop` returns the first entry and leaves the rest. -/
theorem live_pop (hv : r.ValidAt a) (hne : r.face[a] ≠ -1) :
    r.live a = (r.pop a).1 :: (r.pop a).2.live a := by
  unfold pop
  rw [if_neg hne]
  dsimp only
  by_cases hlast : r.face[a] = r.back[a]
  · rw [if_neg (not_not.mpr hlast)]
    have hempty : ({ r with
        sz := r.sz.set a (r.sz[a] - 1), face := r.face.set a (-1),
        back := r.back.set a (-1) } : Rings).live a = [] := live_clear r a
    rw [hempty, live, ← hlast]
    obtain ⟨hface, -⟩ := hv.bounds hne
    exact CircularBuffer.live_single hface.1 hface.2
  · rw [if_pos hlast]
    have hrest : ({ r with
        sz := r.sz.set a (r.sz[a] - 1),
        face := r.face.set a ((r.face[a] + 1) % NPROC) } : Rings).live a =
        CircularBuffer.live NPROC (r.get a) (place NPROC r.face[a] 1) r.back[a] := by
      rw [live, getElem_set_level, if_pos rfl, face_succ hv hne]
      rfl
    rw [hrest]
    exact CircularBuffer.live_cons hne hlast hv

theorem live_pop_of_ne (hi : i ≠ a) : (r.pop a).2.live i = r.live i := by
  unfold pop live
  split_ifs <;> simp only [getElem_set_level, if_neg hi] <;> rfl

theorem valid_pop (hv : r.Valid) (a : Level) : (r.pop a).2.Valid := by
  unfold pop
  split_ifs with hempty hlast
  · exact hv
  · exact valid_advance hv hempty
  · exact valid_clear hv a

/-! ## Erasing an entry -/

/-- The loops of `remove` change the array only. -/
theorem foldl_put_eq (s : ℤ → ℤ) (l : List ℤ) (r : Rings) (i : Level) : ∃ queue below,
    l.foldl (fun r j => r.put i j (r.get i (s j))) r = ⟨r.face, r.back, r.sz, queue, below⟩ := by
  induction l generalizing r with
  | nil => exact ⟨r.queue, r.below, rfl⟩
  | cons j l ih => exact ih (r.put i j (r.get i (s j)))

theorem shift_eq (r : Rings) (i : Level) (m lo : ℤ) :
    ∃ queue below, r.shift i m lo = ⟨r.face, r.back, r.sz, queue, below⟩ :=
  foldl_put_eq (· - 1) (downTo m lo) r i

/-- `r'` is what `remove(i, p)` makes of `r` when ring `i` has several entries, the one at index
`m` is `p`, and the array has been changed to that of `r₁`. -/
structure Removes (r r₁ : Rings) (i : Level) (m : ℤ) : Prop where
  eq : ∃ queue below, r₁ = ⟨r.face, r.back, r.sz, queue, below⟩
  /-- The entries before the one at `m` have moved up by one place. -/
  moved : ∀ k, k < rank NPROC r.face[i] m →
    r₁.get i (place NPROC r.face[i] (k + 1)) =
      r.get i (place NPROC r.face[i] k)
  kept : ∀ k, rank NPROC r.face[i] m < k →
    k < CircularBuffer.size NPROC r.face[i] r.back[i] →
    r₁.get i (place NPROC r.face[i] k) =
      r.get i (place NPROC r.face[i] k)
  others : ∀ (i' : Level) (j' : ℤ), i' ≠ i → 0 ≤ j' ∧ j' < NPROC → r₁.get i' j' = r.get i' j'

/-- The array does not change when the first entry is removed. -/
theorem Removes.refl (r : Rings) (i : Level) : r.Removes r i r.face[i] := by
  refine ⟨⟨r.queue, r.below, rfl⟩, fun k hk => ?_, fun _ _ _ => rfl, fun _ _ _ _ => rfl⟩
  simp [rank] at hk

section

variable (hv : r.ValidAt i)
include hv

/-- The loop for an entry that is not beyond the end of the array. -/
theorem Removes.shift (hne : r.face[i] ≠ -1)
    (hm : Occupied NPROC r.face[i] r.back[i] m) (hfirst : r.face[i] ≤ m) :
    r.Removes (r.shift i m (r.face[i] + 1)) i m := by
  have hN := cast_NPROC
  have hbounds := occupied_bounds hv hm
  have hvi := hv
  unfold ValidAt CircularBuffer.Valid at hvi
  have hrank : (rank NPROC r.face[i] m : ℤ) = m - r.face[i] := by
    rw [rank, if_pos hfirst]
    omega
  refine ⟨shift_eq r i m (r.face[i] + 1), fun k hk => ?_, fun k hk hsize => ?_,
    fun i' j' hi' hj' => ?_⟩
  · have hplace : place NPROC r.face[i] (k + 1) = r.face[i] + k + 1 ∧
        place NPROC r.face[i] k = r.face[i] + k := by
      unfold place
      split_ifs <;> omega
    rw [get_shift (by omega) (by omega) (by omega), if_pos ⟨rfl, by omega, by omega⟩]
    congr 1
    omega
  · have hj := occupied_bounds hv (CircularBuffer.occupied_place hv hsize)
    have hplace : ¬ (r.face[i] + 1 ≤ place NPROC r.face[i] k ∧
        place NPROC r.face[i] k ≤ m) := by
      unfold CircularBuffer.size place at *
      split_ifs at * <;> omega
    rw [get_shift (by omega) (by omega) hj, if_neg fun h => hplace h.2]
  · rw [get_shift (by omega) (by omega) hj', if_neg fun h => hi' h.1]

/-- The loops for an entry beyond the end of the array. -/
theorem Removes.shiftAround (hm : Occupied NPROC r.face[i] r.back[i] m) (hwrap : m < r.face[i]) :
    r.Removes ((r.shiftAround i m).shift i (NPROC - 1) (r.face[i] + 1)) i m := by
  have hN := cast_NPROC
  have hbounds := occupied_bounds hv hm
  have hvi := hv
  unfold ValidAt CircularBuffer.Valid at hvi
  have hback : m ≤ r.back[i] ∧ r.back[i] < r.face[i] := by
    unfold Occupied at hm
    omega
  have hrank : (rank NPROC r.face[i] m : ℤ) = m - r.face[i] + NPROC := by
    rw [rank, if_neg (by omega)]
    omega
  have heq : ∃ queue below, (r.shiftAround i m).shift i (NPROC - 1) (r.face[i] + 1) =
      ⟨r.face, r.back, r.sz, queue, below⟩ := by
    obtain ⟨queue, below, haround⟩ := foldl_put_eq (before NPROC) (downTo m 0) r i
    rw [shiftAround_eq, haround]
    exact shift_eq ..
  refine ⟨heq, fun k hk => ?_, fun k hk hsize => ?_, fun i' j' hi' hj' => ?_⟩
  -- an entry moves within the upper part, or within the wrapped part or from one to the other
  · by_cases hlow : r.face[i] + k + 1 < NPROC
    · have hplace : place NPROC r.face[i] (k + 1) = r.face[i] + k + 1 ∧
          place NPROC r.face[i] k = r.face[i] + k := by
        unfold place
        split_ifs <;> omega
      rw [get_shift (by omega) (by omega) (by omega), if_pos ⟨rfl, by omega, by omega⟩,
        get_shiftAround (by omega) (by omega), if_neg (by omega)]
      congr 1
      omega
    · have hplace : place NPROC r.face[i] (k + 1) = r.face[i] + k + 1 - NPROC ∧
          place NPROC r.face[i] k =
            before NPROC (r.face[i] + k + 1 - NPROC) := by
        unfold place before
        split_ifs <;> omega
      rw [get_shift (by omega) (by omega) (by omega), if_neg (by omega),
        get_shiftAround (by omega) (by omega), if_pos ⟨rfl, by omega⟩, hplace.1, hplace.2]
  · have hplace : place NPROC r.face[i] k = r.face[i] + k - NPROC := by
      unfold place
      split_ifs <;> omega
    have hj : place NPROC r.face[i] k ≤ r.back[i] := by
      unfold CircularBuffer.size at hsize
      split_ifs at hsize <;> omega
    rw [get_shift (by omega) (by omega) (by omega), if_neg (by omega),
      get_shiftAround (by omega) (by omega), if_neg (by omega)]
  · rw [get_shift (by omega) (by omega) hj', if_neg fun h => hi' h.1,
      get_shiftAround (by omega) hj', if_neg fun h => hi' h.1]

/-- What `remove` does to a ring that holds `p`. -/
theorem remove_cases (hp : some p ∈ r.live i) : r.face[i] = r.back[i] ∧ r.remove i p = r.clear i ∨
    r.face[i] ≠ r.back[i] ∧ ∃ m r₁, Occupied NPROC r.face[i] r.back[i] m ∧
      r.get i m = some p ∧ r.Removes r₁ i m ∧ r.remove i p = r₁.advance i := by
  have hN := cast_NPROC
  obtain ⟨j, hj, hget⟩ := (mem_live hv).mp hp
  have hne := hj.1
  by_cases hone : r.face[i] = r.back[i]
  · exact .inl ⟨hone, by rw [remove, if_pos hone, clear]⟩
  refine .inr ⟨hone, ?_⟩
  have hvi := hv
  unfold ValidAt CircularBuffer.Valid at hvi
  unfold Occupied at hj
  unfold remove
  dsimp only
  rw [if_neg hone]
  by_cases hle : r.face[i] ≤ r.back[i]
  · rw [if_pos hle]
    split
    -- the search must find `p`
    next hnone =>
      have := List.find?_eq_none.mp hnone j (mem_upTo.mpr (by omega))
      simp [hget] at this
    next m hm =>
      have hmp : r.get i m = some p := by simpa using List.find?_some hm
      have hin := mem_upTo.mp (List.mem_of_find?_eq_some hm)
      have hocc : Occupied NPROC r.face[i] r.back[i] m := ⟨hne, .inl ⟨hle, hin⟩⟩
      split
      next hfirst => exact ⟨m, r, hocc, hmp, hfirst ▸ .refl r i, rfl⟩
      · exact ⟨m, _, hocc, hmp, .shift hv hne hocc hin.1, rfl⟩
  · rw [if_neg hle]
    split
    next hnone =>
      -- of a wrapped ring, `remove` searches the upper part first
      obtain ⟨hlow, hhigh⟩ := Option.or_eq_none_iff.mp hnone
      by_cases hfirst : r.face[i] ≤ j
      · have := List.find?_eq_none.mp hlow j (mem_upTo.mpr (by omega))
        simp [hget] at this
      · have := List.find?_eq_none.mp hhigh j (mem_upTo.mpr (by omega))
        simp [hget] at this
    next m hm =>
      have hfound : r.get i m = some p ∧ (r.face[i] ≤ m ∧ m < NPROC ∨ 0 ≤ m ∧ m ≤ r.back[i]) := by
        rcases Option.or_eq_some_iff.mp hm with hlow | ⟨-, hhigh⟩
        · have hin := mem_upTo.mp (List.mem_of_find?_eq_some hlow)
          exact ⟨by simpa using List.find?_some hlow, .inl (by omega)⟩
        · exact ⟨by simpa using List.find?_some hhigh,
            .inr (mem_upTo.mp (List.mem_of_find?_eq_some hhigh))⟩
      have hocc : Occupied NPROC r.face[i] r.back[i] m :=
        ⟨hne, .inr ⟨by omega, hfound.2⟩⟩
      split
      next hfirst => exact ⟨m, r, hocc, hfound.1, hfirst ▸ .refl r i, rfl⟩
      · split
        next hgt => exact ⟨m, _, hocc, hfound.1, .shift hv hne hocc (by omega), rfl⟩
        next hlt => exact ⟨m, _, hocc, hfound.1, .shiftAround hv hocc (by omega), rfl⟩

/-- `remove` erases the entry. -/
theorem live_remove (hnodup : (r.live i).Nodup) (hp : some p ∈ r.live i) :
    (r.remove i p).live i = (r.live i).erase (some p) := by
  rcases remove_cases hv hp with ⟨hone, hremove⟩ | ⟨hne, m, r₁, hm, hget, hmoves, hremove⟩
  · obtain ⟨j, hj, -⟩ := (mem_live hv).mp hp
    have hlive : r.live i = [r.get i r.face[i]] := by
      obtain ⟨hface, -⟩ := hv.bounds hj.1
      rw [live, ← hone]
      exact CircularBuffer.live_single hface.1 hface.2
    rw [hremove, live_clear, hlive]
    rw [hlive, List.mem_singleton] at hp
    rw [hp, List.erase_cons_head]
  · have hrank := CircularBuffer.rank_lt_size hv hm
    have herase : (r₁.advance i).live i =
        (r.live i).eraseIdx (rank NPROC r.face[i] m) := by
      have hkept : r₁.face[i] = r.face[i] ∧ r₁.back[i] = r.back[i] := by
        obtain ⟨queue, below, rfl⟩ := hmoves.eq
        exact ⟨rfl, rfl⟩
      rw [live, face_advance, if_pos rfl]
      change CircularBuffer.live NPROC (r₁.get i) _ r₁.back[i] = _
      rw [hkept.1, hkept.2, face_succ hv hm.1]
      exact CircularBuffer.live_eraseIdx hm.1 hne hv hrank hmoves.moved hmoves.kept
    have hlt : rank NPROC r.face[i] m < (r.live i).length := by
      rwa [live, CircularBuffer.length_live]
    -- the entries are distinct, so erasing at the place of `p` is erasing `p`
    have hentry : (r.live i)[rank NPROC r.face[i] m] = some p := by
      rw [← hget]
      exact (CircularBuffer.getElem_live hlt).trans
        (congrArg (r.get i) (CircularBuffer.place_rank hv hm))
    rw [hremove, herase, ← hentry, hnodup.erase_getElem]

end

/-- The rings other than `i` are the same in `r'` as in `r`, with their counters and their part of
the array. -/
def SameBut (i : Level) (r r' : Rings) : Prop :=
  ∀ k, k ≠ i → r'.face[k] = r.face[k] ∧ r'.back[k] = r.back[k] ∧ r'.sz[k] = r.sz[k] ∧
    ∀ j : ℤ, 0 ≤ j ∧ j < NPROC → r'.get k j = r.get k j

theorem SameBut.live_eq (h : SameBut i r r') (hi' : i' ≠ i) (hv : r.ValidAt i') :
    r'.live i' = r.live i' := by
  obtain ⟨hface, hback, -, hget⟩ := h i' hi'
  rw [live, hface, hback]
  exact CircularBuffer.live_congr hv fun j hj => hget j (occupied_bounds hv hj)

theorem sameBut_pop (r : Rings) (a : Level) : SameBut a r (r.pop a).2 := by
  intro k hk
  unfold pop
  split_ifs <;> refine ⟨?_, ?_, ?_, fun _ _ => rfl⟩ <;> simp only [getElem_set_level, if_neg hk]

theorem sameBut_remove (hv : r.ValidAt i) (hp : some p ∈ r.live i) :
    SameBut i r (r.remove i p) := by
  intro k hk
  rcases remove_cases hv hp with ⟨-, hremove⟩ | ⟨-, m, r₁, -, -, hmoves, hremove⟩
  · rw [hremove]
    unfold clear
    refine ⟨?_, ?_, rfl, fun _ _ => rfl⟩ <;> simp only [getElem_set_level, if_neg hk]
  · rw [hremove, face_advance, if_neg hk]
    have hothers (j : ℤ) := hmoves.others k j hk
    obtain ⟨queue, below, rfl⟩ := hmoves.eq
    exact ⟨rfl, rfl, rfl, hothers⟩

theorem live_remove_of_ne (hv : r.Valid) (hp : some p ∈ r.live i) (hi' : i' ≠ i) :
    (r.remove i p).live i' = r.live i' :=
  (sameBut_remove (hv i) hp).live_eq hi' (hv i')

/-- The indices of the ring from which an entry is erased. -/
theorem face_back_remove (hv : r.ValidAt i) (hp : some p ∈ r.live i) :
    r.face[i] = r.back[i] ∧ (r.remove i p).face[i] = -1 ∧ (r.remove i p).back[i] = -1 ∨
    r.face[i] ≠ r.back[i] ∧ (r.remove i p).face[i] = place NPROC r.face[i] 1 ∧
      (r.remove i p).back[i] = r.back[i] := by
  rcases remove_cases hv hp with ⟨hone, hremove⟩ | ⟨hne, m, r₁, hm, hget, hmoves, hremove⟩
  · refine .inl ⟨hone, ?_, ?_⟩ <;> rw [hremove, clear] <;> simp only [getElem_set_level, if_true]
  · refine .inr ⟨hne, ?_, ?_⟩
    · obtain ⟨queue, below, rfl⟩ := hmoves.eq
      rw [hremove, face_advance, if_pos rfl, ← face_succ hv hm.1]
    · obtain ⟨queue, below, rfl⟩ := hmoves.eq
      rw [hremove]
      rfl

theorem validAt_remove (hv : r.ValidAt i) (hp : some p ∈ r.live i) : (r.remove i p).ValidAt i := by
  unfold ValidAt
  rcases face_back_remove hv hp with ⟨-, hface, hback⟩ | ⟨-, hface, hback⟩
  · exact .inl ⟨hface, hback⟩
  · obtain ⟨j, hj, -⟩ := (mem_live hv).mp hp
    obtain ⟨hf, hb⟩ := hv.bounds hj.1
    rw [hface, hback]
    exact .inr ⟨place_bounds hf.1 hf.2, hb⟩

theorem valid_remove (hv : r.Valid) (hp : some p ∈ r.live i) : (r.remove i p).Valid := by
  intro k
  by_cases hk : k = i
  · subst hk
    exact validAt_remove (hv k) hp
  · obtain ⟨hface, hback, -⟩ := sameBut_remove (hv i) hp k hk
    rw [hface, hback]
    exact hv k

/-! ## `pop` and `remove` as list operations -/

theorem validAt_pop (hv : r.ValidAt a) : (r.pop a).2.ValidAt a := by
  unfold ValidAt pop
  split_ifs with hempty hlast
  · exact hv
  · obtain ⟨hface, hback⟩ := hv.bounds hempty
    simp only [getElem_set_level, if_true]
    rw [face_succ hv hempty]
    exact .inr ⟨place_bounds hface.1 hface.2, hback⟩
  · simp only [getElem_set_level, if_true]
    exact .inl ⟨rfl, rfl⟩

/-- `pop` on the list of a ring; of an empty ring it returns the null pointer. -/
theorem pop_eq_head_tail (hv : r.ValidAt a) :
    (r.pop a).1 = (r.live a).head?.join ∧ (r.pop a).2.live a = (r.live a).tail := by
  by_cases hne : r.face[a] = -1
  · rw [live_eq_nil hne, pop, if_pos hne]
    exact ⟨rfl, live_eq_nil hne⟩
  · rw [live_pop hv hne]
    exact ⟨rfl, rfl⟩

/-- Wherever a ring of distinct entries starts and whether or not it wraps around, `pop` takes the
head of the list and `remove` deletes one process of it. The other rings stay as they are. -/
theorem pop_remove_refine (r : Rings) (i : Level) (hv : r.ValidAt i) (hnodup : (r.live i).Nodup) :
    ((r.pop i).1 = (r.live i).head?.join ∧ (r.pop i).2.live i = (r.live i).tail ∧
      (r.pop i).2.ValidAt i ∧ SameBut i r (r.pop i).2) ∧
    ∀ p, some p ∈ r.live i →
      (r.remove i p).live i = (r.live i).erase (some p) ∧
        (r.remove i p).ValidAt i ∧ SameBut i r (r.remove i p) := by
  obtain ⟨hhead, htail⟩ := pop_eq_head_tail hv
  refine ⟨⟨hhead, htail, validAt_pop hv, sameBut_pop r i⟩, fun p hp => ?_⟩
  exact ⟨live_remove hv hnodup hp, validAt_remove hv hp, sameBut_remove hv hp⟩

/-- Ring `0` holds the processes `2, 0, 1` in the places `62`, `63` and `0`. -/
def wrapped : Rings :=
  let r := ((empty none).put 0 62 (some 2)).put 0 63 (some 0) |>.put 0 0 (some 1)
  { r with face := r.face.set 0 62, back := r.back.set 0 0 }

/-- `wrapped` from which the process in the wrapped part is removed: the other two move up. -/
theorem pop_remove_refine_wrapped :
    wrapped.ValidAt 0 ∧ wrapped.live 0 = [some 2, some 0, some 1] ∧
      (wrapped.pop 0).1 = some 2 ∧ (wrapped.pop 0).2.live 0 = [some 0, some 1] ∧
      (wrapped.remove 0 1).live 0 = [some 2, some 0] := by
  have hv : wrapped.ValidAt 0 := .inr (by decide +kernel)
  have hlive : wrapped.live 0 = [some 2, some 0, some 1] := by decide +kernel
  obtain ⟨⟨hhead, htail, -⟩, hremove⟩ := pop_remove_refine wrapped 0 hv (by rw [hlive]; decide)
  refine ⟨hv, hlive, hhead.trans (by rw [hlive]; rfl), htail.trans (by rw [hlive]; rfl), ?_⟩
  exact (hremove 1 (by rw [hlive]; decide)).1.trans (by rw [hlive]; rfl)

end Rings

end Xv6
