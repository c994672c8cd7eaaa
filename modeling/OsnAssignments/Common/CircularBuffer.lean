import Mathlib.Data.List.Nodup
import OsnAssignments.Common.Loop

/-!
# Circular buffers

A circular buffer of capacity `N` keeps its entries in an array, from index `face` to index `back`
and, if `back < face`, around the end of the array. Both indices are `-1` when it is empty.

`live` lists the entries in order, `Occupied` says which indices hold them. Writing behind `back`
appends to the list, moving `face` drops its head, and moving the entries before the `m`-th up by
one place before that drops the `m`-th entry instead.
-/

namespace CircularBuffer

variable {α : Type*} {N : ℕ} {buf buf' : ℤ → α} {face back j : ℤ}

/-- The buffer is empty, or both indices are in the array. -/
def Valid (N : ℕ) (face back : ℤ) : Prop :=
  face = -1 ∧ back = -1 ∨ (0 ≤ face ∧ face < N) ∧ 0 ≤ back ∧ back < N

instance : Decidable (Valid N face back) :=
  inferInstanceAs (Decidable (_ ∨ _))

/-- The number of entries. -/
def size (N : ℕ) (face back : ℤ) : ℕ :=
  if face = -1 then 0
  else if face ≤ back then (back - face + 1).toNat
  else (back - face + 1 + N).toNat

/-- The index `k` places after `face`. -/
def place (N : ℕ) (face : ℤ) (k : ℕ) : ℤ :=
  if face + k < N then face + k else face + k - N

/-- The entries, first to last. -/
def live (N : ℕ) (buf : ℤ → α) (face back : ℤ) : List α :=
  (List.range (size N face back)).map fun k => buf (place N face k)

/-- The index `j` holds an entry. -/
def Occupied (N : ℕ) (face back j : ℤ) : Prop :=
  face ≠ -1 ∧ (face ≤ back ∧ face ≤ j ∧ j ≤ back ∨
    back < face ∧ (face ≤ j ∧ j < N ∨ 0 ≤ j ∧ j ≤ back))

/-- How many places after `face` the index `j` is. -/
def rank (N : ℕ) (face j : ℤ) : ℕ :=
  if face ≤ j then (j - face).toNat else (j - face + N).toNat

/-- The index before `j`. -/
def before (N : ℕ) (j : ℤ) : ℤ :=
  if j = 0 then N - 1 else j - 1

/-! ## Indices -/

theorem Valid.back_eq (hv : Valid N face back) (h : face = -1) : back = -1 := by
  unfold Valid at hv
  omega

theorem Valid.bounds (hv : Valid N face back) (h : face ≠ -1) :
    (0 ≤ face ∧ face < N) ∧ 0 ≤ back ∧ back < N :=
  hv.resolve_left fun hempty => h hempty.1

theorem emod_succ (h0 : 0 ≤ j) (h : j < N) : (j + 1) % (N : ℤ) = place N j 1 := by
  unfold place
  split
  next hlt => exact Int.emod_eq_of_lt (by omega) (by omega)
  next hge =>
    obtain rfl : j = N - 1 := by omega
    simp

theorem place_bounds (h0 : 0 ≤ j) (h : j < N) : 0 ≤ place N j 1 ∧ place N j 1 < N := by
  unfold place
  split <;> omega

theorem size_le (hv : Valid N face back) : size N face back ≤ N := by
  unfold size Valid at *
  split_ifs <;> omega

/-- A buffer is full when `back` is just before `face`. -/
theorem size_eq_iff (h : face ≠ -1) (hv : Valid N face back) :
    size N face back = N ↔ face = back + 1 ∨ face = 0 ∧ back = (N : ℤ) - 1 := by
  unfold size Valid at *
  split_ifs <;> omega

section

variable (hv : Valid N face back)
include hv

theorem occupied_place {k : ℕ} (hk : k < size N face back) :
    Occupied N face back (place N face k) := by
  unfold size place Occupied Valid at *
  split_ifs at * <;> omega

theorem rank_lt_size (hj : Occupied N face back j) : rank N face j < size N face back := by
  unfold size rank Occupied Valid at *
  split_ifs <;> omega

theorem place_rank (hj : Occupied N face back j) : place N face (rank N face j) = j := by
  unfold place rank Occupied Valid at *
  split_ifs at * <;> omega

end

/-- The place behind `back` is free unless the buffer is full. -/
theorem not_occupied_place_back (h : face ≠ -1) (hv : Valid N face back)
    (hroom : size N face back < N) : ¬ Occupied N face back (place N back 1) := by
  unfold size place Occupied Valid at *
  split_ifs at * <;> omega

theorem occupied_bounds (hv : Valid N face back) (hj : Occupied N face back j) : 0 ≤ j ∧ j < N := by
  unfold Occupied Valid at *
  omega

/-! ## Entries -/

@[simp]
theorem length_live : (live N buf face back).length = size N face back := by
  simp [live]

@[simp]
theorem live_empty : live N buf (-1) back = [] := by
  simp [live, size]

theorem getElem_live {k : ℕ} (hk : k < (live N buf face back).length) :
    (live N buf face back)[k] = buf (place N face k) := by
  simp [live]

theorem mem_live (hv : Valid N face back) {x : α} :
    x ∈ live N buf face back ↔ ∃ j, Occupied N face back j ∧ buf j = x := by
  rw [live, List.mem_map]
  constructor
  · rintro ⟨k, hk, rfl⟩
    exact ⟨_, occupied_place hv (List.mem_range.mp hk), rfl⟩
  · rintro ⟨j, hj, rfl⟩
    exact ⟨rank N face j, List.mem_range.mpr (rank_lt_size hv hj), by rw [place_rank hv hj]⟩

theorem live_congr (hv : Valid N face back) (h : ∀ j, Occupied N face back j → buf' j = buf j) :
    live N buf' face back = live N buf face back := by
  refine List.map_congr_left fun k hk => ?_
  exact h _ (occupied_place hv (List.mem_range.mp hk))

/-- A buffer of one entry. -/
theorem live_single (h0 : 0 ≤ face) (h : face < N) : live N buf face face = [buf face] := by
  have hsize : size N face face = 1 := by
    unfold size
    split_ifs <;> omega
  have hplace : place N face 0 = face := by
    unfold place
    split_ifs <;> omega
  rw [live, hsize]
  simp [hplace]

/-- Writing behind `back` appends. -/
theorem live_push (h : face ≠ -1) (hv : Valid N face back) (hroom : size N face back < N)
    (hkeep : ∀ j, Occupied N face back j → buf' j = buf j) :
    live N buf' face (place N back 1) = live N buf face back ++ [buf' (place N back 1)] := by
  have hsize : size N face (place N back 1) = size N face back + 1 := by
    unfold size place Valid at *
    split_ifs at * <;> omega
  have hlast : place N face (size N face back) = place N back 1 := by
    unfold size place Valid at *
    split_ifs at * <;> omega
  rw [live, hsize, List.range_succ, List.map_append, List.map_singleton, hlast]
  exact congrArg (· ++ _) (live_congr hv hkeep)

/-- The first entry and the rest. -/
theorem live_cons (h : face ≠ -1) (hne : face ≠ back) (hv : Valid N face back) :
    live N buf face back = buf face :: live N buf (place N face 1) back := by
  have hsize : size N face back = size N (place N face 1) back + 1 := by
    unfold size place Valid at *
    split_ifs at * <;> omega
  have hfirst : place N face 0 = face := by
    unfold place Valid at *
    split_ifs <;> omega
  have hrest (k : ℕ) (hk : k < size N (place N face 1) back) :
      place N face (k + 1) = place N (place N face 1) k := by
    unfold size place Valid at *
    split_ifs at * <;> omega
  rw [live, hsize, List.range_succ_eq_map, List.map_cons, hfirst, List.map_map]
  refine congrArg _ (List.map_congr_left fun k hk => ?_)
  exact congrArg buf (hrest k (List.mem_range.mp hk))

/-- Moving the entries before the `m`-th up by one place, and `face` with them, drops the `m`-th
entry. -/
theorem live_eraseIdx (h : face ≠ -1) (hne : face ≠ back) (hv : Valid N face back) {m : ℕ}
    (hm : m < size N face back)
    (hmoved : ∀ k, k < m → buf' (place N face (k + 1)) = buf (place N face k))
    (hkept : ∀ k, m < k → k < size N face back → buf' (place N face k) = buf (place N face k)) :
    live N buf' (place N face 1) back = (live N buf face back).eraseIdx m := by
  have hlen : (live N buf face back).length = size N face back := length_live
  have hcons : live N buf' face back = buf' face :: live N buf' (place N face 1) back :=
    live_cons h hne hv
  -- the new buffer is the tail of one that starts at the old `face`
  have htail (k : ℕ) (hk : k < (live N buf' (place N face 1) back).length) :
      (live N buf' (place N face 1) back)[k] = buf' (place N face (k + 1)) := by
    have hk' : k + 1 < (live N buf' face back).length := by
      rw [hcons]
      exact Nat.succ_lt_succ hk
    rw [← getElem_live hk']
    simp [hcons]
  have hsize : size N (place N face 1) back + 1 = size N face back := by
    have := congrArg List.length hcons
    simpa using this.symm
  refine List.ext_getElem ?_ fun k hk hk' => ?_
  · rw [List.length_eraseIdx_of_lt (by omega), length_live, hlen]
    omega
  · rw [htail k hk, List.getElem_eraseIdx]
    rw [length_live] at hk
    split
    -- before the `m`-th, what is read has been moved there; after it, nothing has moved
    next hlt => rw [hmoved k hlt, getElem_live]
    next hge => rw [hkept (k + 1) (by omega) (by omega), getElem_live]

end CircularBuffer
