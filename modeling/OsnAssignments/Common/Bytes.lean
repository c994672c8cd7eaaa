import Mathlib.Data.Nat.Bitwise
import Mathlib.Logic.Function.Basic
import Mathlib.Tactic.Common

/-!
# Numbers in a memory of bytes

A memory is a function from addresses to bytes. `getLE m o w` is the number that the `w` bytes from
address `o` on hold, the lowest byte first, and `putLE m o v w` is the memory after storing `v`
there. `getBit` and `setBit` do the same for single bits, and `overlay` puts a list of bytes into a
memory.
-/

namespace Bytes

open Function

variable {m : Mem} {k o v : ℕ}

/-- A memory. -/
abbrev Mem := ℕ → UInt8

/-- The number in the `w` bytes from address `o` on. -/
def getLE (m : Mem) (o : ℕ) : ℕ → ℕ
  | 0 => 0
  | w + 1 => (m o).toNat + 256 * getLE m (o + 1) w

/-- Store the number `v` in the `w` bytes from address `o` on. -/
def putLE (m : Mem) (o v : ℕ) : ℕ → Mem
  | 0 => m
  | w + 1 => update (putLE m (o + 1) (v / 256) w) o (UInt8.ofNat v)

/-- A number is read from the bytes that it covers. -/
theorem getLE_congr {m' : Mem} {w : ℕ} (h : ∀ k, o ≤ k → k < o + w → m k = m' k) :
    getLE m o w = getLE m' o w := by
  induction w generalizing o with
  | zero => rfl
  | succ w ih =>
    rw [getLE, getLE, h o (Nat.le_refl o) (by omega), ih fun k hk hk' => h k (by omega) (by omega)]

theorem getLE_lt (m : Mem) (o w : ℕ) : getLE m o w < 256 ^ w := by
  induction w generalizing o with
  | zero => simp [getLE]
  | succ w ih =>
    have hbyte : (m o).toNat < 256 := (m o).toNat_lt
    have hrest := ih (o + 1)
    rw [getLE, Nat.pow_succ]
    omega

/-- A store does not change the bytes in front of it and behind it. -/
theorem putLE_of_notMem {w : ℕ} (h : k < o ∨ o + w ≤ k) : putLE m o v w k = m k := by
  induction w generalizing o v with
  | zero => rfl
  | succ w ih =>
    rw [putLE, update_of_ne (by omega), ih (by omega)]

/-- What is stored is read back. -/
theorem getLE_putLE (m : Mem) (o v w : ℕ) : getLE (putLE m o v w) o w = v % 256 ^ w := by
  induction w generalizing o v with
  | zero => simp [getLE, Nat.mod_one]
  | succ w ih =>
    have hrest : getLE (putLE m o v (w + 1)) (o + 1) w = v / 256 % 256 ^ w := by
      rw [← ih (o + 1) (v / 256)]
      refine getLE_congr fun k hk _ => ?_
      rw [putLE, update_of_ne (by omega)]
    have hbyte : (putLE m o v (w + 1) o).toNat = v % 256 := by
      rw [putLE, update_self, UInt8.toNat_ofNat']
    rw [getLE, hrest, hbyte, Nat.pow_succ, Nat.mul_comm (256 ^ w), Nat.mod_mul]

theorem getLE_putLE_of_lt {w : ℕ} (h : v < 256 ^ w) : getLE (putLE m o v w) o w = v := by
  rw [getLE_putLE, Nat.mod_eq_of_lt h]

/-- A store elsewhere does not change a number. -/
theorem getLE_putLE_of_disjoint {o' w w' : ℕ} (h : o' + w' ≤ o ∨ o + w ≤ o') :
    getLE (putLE m o' v w') o w = getLE m o w :=
  getLE_congr fun _ _ _ => putLE_of_notMem (by omega)

@[simp]
theorem getLE_zero (o w : ℕ) : getLE (fun _ => 0) o w = 0 := by
  induction w generalizing o with
  | zero => rfl
  | succ w ih => simp [getLE, ih]

/-! ## Storing several numbers -/

section Fields

variable {ι : Type*} {pos val : ι → ℕ} {w : ℕ}

/-- Storing several numbers does not change the bytes that none of them covers. -/
theorem foldl_putLE_of_notMem {l : List ι} (h : ∀ i ∈ l, k < pos i ∨ pos i + w ≤ k)
    (m : Mem) : l.foldl (fun m i => putLE m (pos i) (val i) w) m k = m k := by
  induction l generalizing m with
  | nil => rfl
  | cons a l ih =>
    rw [List.foldl_cons, ih (fun i hi => h i (List.mem_cons_of_mem a hi)),
      putLE_of_notMem (h a List.mem_cons_self)]

/-- Each of several numbers that are stored side by side is read back. -/
theorem getLE_foldl_putLE {l : List ι} (hnodup : l.Nodup)
    (hdisj : ∀ i j, i ≠ j → pos i + w ≤ pos j ∨ pos j + w ≤ pos i) {i : ι} (hi : i ∈ l)
    (hval : val i < 256 ^ w) (m : Mem) :
    getLE (l.foldl (fun m i => putLE m (pos i) (val i) w) m) (pos i) w = val i := by
  induction l generalizing m with
  | nil => exact absurd hi List.not_mem_nil
  | cons a l ih =>
    obtain ⟨hnot, hnodup'⟩ := List.nodup_cons.mp hnodup
    rw [List.foldl_cons]
    by_cases hmem : i ∈ l
    · exact ih hnodup' hmem _
    · -- `i` is the first one, and the others do not touch it
      have hia : i = a := (List.mem_cons.mp hi).resolve_right hmem
      subst hia
      have hrest : ∀ k, pos i ≤ k → k < pos i + w →
          l.foldl (fun m i => putLE m (pos i) (val i) w) (putLE m (pos i) (val i) w) k =
            putLE m (pos i) (val i) w k := by
        intro k hk hk'
        refine foldl_putLE_of_notMem (fun j hj => ?_) _
        have hne : i ≠ j := fun heq => hnot (heq ▸ hj)
        have := hdisj i j hne
        omega
      rw [getLE_congr hrest, getLE_putLE_of_lt hval]

end Fields

/-! ## Bits -/

/-- The byte in which bit `i` is set. -/
def bitMask (i : ℕ) : UInt8 :=
  1 <<< UInt8.ofNat (i % 8)

/-- Bit `i` of a memory: `(m[i / 8] & (1 << (i % 8))) != 0`. -/
def getBit (m : Mem) (i : ℕ) : Bool :=
  m (i / 8) &&& bitMask i != 0

/-- Set bit `i`: `m[i / 8] |= 1 << (i % 8)`. -/
def setBit (m : Mem) (i : ℕ) : Mem :=
  update m (i / 8) (m (i / 8) ||| bitMask i)

theorem toNat_bitMask (i : ℕ) : (bitMask i).toNat = 2 ^ (i % 8) := by
  have hall : ∀ k : Fin 8, ((1 : UInt8) <<< UInt8.ofNat k).toNat = 2 ^ (k : ℕ) := by decide
  exact hall ⟨i % 8, Nat.mod_lt i (by decide)⟩

theorem and_bitMask_ne_zero (b : UInt8) (i : ℕ) :
    (b &&& bitMask i != 0) = b.toNat.testBit (i % 8) := by
  have hiff : b &&& bitMask i = 0 ↔ b.toNat &&& 2 ^ (i % 8) = 0 := by
    rw [← UInt8.toNat_inj, UInt8.toNat_and, toNat_bitMask]
    rfl
  rw [Nat.and_two_pow] at hiff
  cases hbit : b.toNat.testBit (i % 8) with
  | false | true => simp [hiff, hbit]

/-- Setting a bit changes that bit and no other. -/
theorem getBit_setBit (m : Mem) (i j : ℕ) :
    getBit (setBit m i) j = (decide (i = j) || getBit m j) := by
  unfold getBit setBit
  by_cases hbyte : j / 8 = i / 8
  · rw [hbyte, update_self, and_bitMask_ne_zero, and_bitMask_ne_zero, UInt8.toNat_or,
      Nat.testBit_or, toNat_bitMask, Nat.testBit_two_pow, Bool.or_comm]
    congr 1
    exact decide_eq_decide.mpr ⟨fun h => by omega, fun h => by rw [h]⟩
  · have hne : i ≠ j := fun h => hbyte (by rw [h])
    rw [update_of_ne hbyte]
    simp [hne]

/-! ## Copying bytes -/

/-- The memory after `memmove` of the bytes `data` to address `o`. -/
def overlay (m : Mem) (o : ℕ) (data : List UInt8) : Mem :=
  fun k => if o ≤ k then data.getD (k - o) (m k) else m k

theorem overlay_of_notMem {data : List UInt8}
    (h : k < o ∨ o + data.length ≤ k) : overlay m o data k = m k := by
  unfold overlay
  split_ifs with hk
  · rw [List.getD_eq_default _ _ (by omega)]
  · rfl

theorem overlay_of_mem {i : ℕ} {data : List UInt8} (h : i < data.length) :
    overlay m o data (o + i) = data[i] := by
  unfold overlay
  rw [if_pos (Nat.le_add_right o i), Nat.add_sub_cancel_left, List.getD_eq_getElem _ _ h]

end Bytes
