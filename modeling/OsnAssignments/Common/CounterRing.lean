import Mathlib

/-!
# Rings indexed by counters that wrap

A ring of `N` cells with two counters of `w` bits, the number of elements that have been taken and
the number that have been put, each of which wraps. An index is a counter modulo `N`; if `N` divides
`2 ^ w`, it does not notice the wrap. The ring holds `wr - r` elements (`contents`), at most `N`.
-/

namespace CounterRing

variable {α : Type*} {w N : ℕ} {r wr : BitVec w}

/-! ## Counters -/

/-- The number of elements in the ring. -/
def pending (r wr : BitVec w) : ℕ :=
  (wr - r).toNat

theorem pending_eq_zero_iff : pending r wr = 0 ↔ r = wr := by
  have hzero : (wr - r).toNat = (0#w).toNat ↔ wr - r = 0#w := BitVec.toNat_inj
  rw [BitVec.toNat_zero] at hzero
  rw [pending, hzero]
  constructor
  · intro h
    exact (sub_eq_zero.mp h).symm
  · rintro rfl
    exact BitVec.sub_self r

/-- The number of the next element to be put, up to the wrap. -/
theorem add_pending : (r.toNat + pending r wr) % 2 ^ w = wr.toNat := by
  have hsum : r + (wr - r) = wr := by ring
  calc (r.toNat + (wr - r).toNat) % 2 ^ w = (r + (wr - r)).toNat := (BitVec.toNat_add ..).symm
    _ = wr.toNat := by rw [hsum]

theorem pending_lt : pending r wr < 2 ^ w :=
  (wr - r).isLt

/-- The test for a full ring. -/
theorem pending_eq_iff (hlt : N < 2 ^ w) : pending r wr = N ↔ wr = r + BitVec.ofNat w N := by
  have hN : (BitVec.ofNat w N).toNat = N := by
    rw [BitVec.toNat_ofNat, Nat.mod_eq_of_lt hlt]
  constructor
  · intro h
    have hsub : wr - r = BitVec.ofNat w N := BitVec.eq_of_toNat_eq (h.trans hN.symm)
    rw [← hsub]
    ring
  · rintro rfl
    have hsub : r + BitVec.ofNat w N - r = BitVec.ofNat w N := by ring
    rw [pending, hsub, hN]

theorem toNat_one_of_lt (h : 1 < 2 ^ w) : (1 : BitVec w).toNat = 1 :=
  Nat.mod_eq_of_lt h

theorem pending_put (h : pending r wr + 1 < 2 ^ w) : pending r (wr + 1) = pending r wr + 1 := by
  have hsub : wr + 1 - r = (wr - r) + 1 := by ring
  rw [pending, hsub, BitVec.toNat_add, toNat_one_of_lt (by omega)]
  exact Nat.mod_eq_of_lt h

theorem pending_take (h : r ≠ wr) : pending (r + 1) wr + 1 = pending r wr := by
  have hpos : pending r wr ≠ 0 := mt pending_eq_zero_iff.mp h
  have hlt : pending r wr < 2 ^ w := pending_lt
  have hlt' : pending (r + 1) wr < 2 ^ w := pending_lt
  have hsub : wr - r = (wr - (r + 1)) + 1 := by ring
  have hsum : pending r wr = (pending (r + 1) wr + 1) % 2 ^ w := by
    rw [pending, hsub, BitVec.toNat_add, toNat_one_of_lt (by omega)]
    rfl
  -- the sum does not reach `2 ^ w`, or the ring would be empty
  have hne : pending (r + 1) wr + 1 ≠ 2 ^ w := by
    intro heq
    rw [heq, Nat.mod_self] at hsum
    exact hpos hsum
  rw [hsum, Nat.mod_eq_of_lt (by omega)]

theorem pending_sub_one : pending r (wr - 1) = pending (r + 1) wr := by
  have hsub : wr - 1 - r = wr - (r + 1) := by ring
  rw [pending, pending, hsub]

/-- A counter between the other two splits the distance. -/
theorem pending_add {m : BitVec w} (h : pending r m ≤ pending r wr) :
    pending r m + pending m wr = pending r wr := by
  have hsub : wr - m = (wr - r) - (m - r) := by ring
  have hdist : pending m wr = pending r wr - pending r m := by
    rw [pending, hsub]
    exact BitVec.toNat_sub_of_le h
  omega

/-! ## Cells -/

variable [NeZero N] {data : Fin N → α}

/-- The cell of the element with number `k`. -/
def cell (N : ℕ) [NeZero N] (k : ℕ) : Fin N :=
  Fin.ofNat N k

/-- The wrap of a counter does not change the cell. -/
theorem cell_congr (hN : N ∣ 2 ^ w) {k m : ℕ} (h : k % 2 ^ w = m % 2 ^ w) :
    cell N k = cell N m := by
  apply Fin.ext
  have hmod : k ≡ m [MOD 2 ^ w] := h
  exact hmod.of_dvd hN

/-- Fewer than `N` steps lead to another cell. -/
theorem cell_ne {k m : ℕ} (hlt : k < m) (hN : m < k + N) : cell N k ≠ cell N m := by
  intro heq
  have hmod : k ≡ m [MOD N] := congrArg Fin.val heq
  have hdvd : N ∣ m - k := (Nat.modEq_iff_dvd' hlt.le).mp hmod
  exact absurd (Nat.le_of_dvd (by omega) hdvd) (by omega)

/-- The elements in the ring, the oldest first. -/
def contents (data : Fin N → α) (r wr : BitVec w) : List α :=
  (List.range (pending r wr)).map fun k => data (cell N (r.toNat + k))

theorem length_contents : (contents data r wr).length = pending r wr := by
  rw [contents, List.length_map, List.length_range]

/-- The elements up to a counter between the other two. -/
theorem contents_eq_take {m : BitVec w} (h : pending r m ≤ pending r wr) :
    contents data r m = (contents data r wr).take (pending r m) := by
  rw [contents, contents, ← List.map_take, List.take_range, min_eq_left h]

/-- Putting an element into a ring that is not full. -/
theorem contents_put (hN : N ∣ 2 ^ w) (h : pending r wr < N)
    (hput : pending r (wr + 1) = pending r wr + 1) (x : α) :
    contents (Function.update data (cell N wr.toNat) x) r (wr + 1) = contents data r wr ++ [x] := by
  have hcell : cell N wr.toNat = cell N (r.toNat + pending r wr) := by
    refine cell_congr hN ?_
    rw [add_pending, Nat.mod_eq_of_lt wr.isLt]
  rw [contents, hput, List.range_succ, List.map_append, List.map_singleton, hcell,
    Function.update_self]
  congr 1
  refine List.map_congr_left fun k hk => Function.update_of_ne ?_ _ _
  have hk := List.mem_range.mp hk
  exact cell_ne (by omega) (by omega)

/-- Taking an element from a ring that is not empty. -/
theorem contents_take (hN : N ∣ 2 ^ w) (h : r ≠ wr) :
    contents data r wr = data (cell N r.toNat) :: contents data (r + 1) wr := by
  have htake := pending_take h
  have hlt : pending r wr < 2 ^ w := pending_lt
  rw [contents, ← htake, List.range_succ_eq_map, List.map_cons, List.map_map]
  refine congrArg (data (cell N r.toNat) :: ·) (List.map_congr_left fun k _ => congrArg data ?_)
  refine cell_congr hN ?_
  rw [BitVec.toNat_add, toNat_one_of_lt (by omega), Nat.mod_add_mod]
  congr 1
  omega

/-- The element put last, which can be taken back. -/
theorem contents_unput (hN : N ∣ 2 ^ w) (h : r ≠ wr) :
    contents data r wr = contents data r (wr - 1) ++ [data (cell N (wr - 1).toNat)] := by
  have hlast : pending r wr = pending r (wr - 1) + 1 := by
    rw [pending_sub_one, pending_take h]
  have hcell : cell N (r.toNat + pending r (wr - 1)) = cell N (wr - 1).toNat := by
    refine cell_congr hN ?_
    rw [add_pending, Nat.mod_eq_of_lt (wr - 1).isLt]
  rw [contents, hlast, List.range_succ, List.map_append, List.map_singleton, hcell]
  rfl

end CounterRing
