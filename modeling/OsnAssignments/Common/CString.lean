import Mathlib.Logic.Function.Basic
import Mathlib.Tactic.Common

/-!
# Strings in memory

A buffer is a map from addresses to bytes, and a string is the bytes from its address up to the next
zero byte. The module introduces

* `At buf p l`: the bytes `l` stand at `p`, with the rules for writes beside them;
* `string` and `bytes`: reading a string, and a number of bytes;
* `strchr`: the search of the C library, within a bound.
-/

namespace CString

open Function

/-- Memory; a pointer into it is an address. -/
abbrev Buffer := ℕ → UInt8

variable {buf : Buffer} {p q k : ℕ} {l l' : List UInt8} {b : UInt8}

/-! ## Bytes at an address -/

/-- The bytes `l` stand in the buffer from `p` on. -/
def At (buf : Buffer) : ℕ → List UInt8 → Prop
  | _, [] => True
  | p, b :: l => buf p = b ∧ At buf (p + 1) l

theorem at_append : At buf p (l ++ l') ↔ At buf p l ∧ At buf (p + l.length) l' := by
  induction l generalizing p with
  | nil => simp [At]
  | cons b l ih =>
    rw [List.cons_append, At, At, ih, and_assoc, List.length_cons, Nat.add_right_comm,
      Nat.add_assoc]

/-- The bytes stand at their places. -/
theorem at_of_getElem? (h : ∀ i < l.length, l[i]? = some (buf (p + i))) : At buf p l := by
  induction l generalizing p with
  | nil => trivial
  | cons b l ih =>
    refine ⟨(Option.some.inj (h 0 (Nat.zero_lt_succ _))).symm, ih fun i hi => ?_⟩
    have hnext := h (i + 1) (Nat.succ_lt_succ hi)
    rw [List.getElem?_cons_succ] at hnext
    rw [hnext, Nat.add_right_comm, Nat.add_assoc]

theorem At.congr {buf' : Buffer} (h : At buf p l)
    (heq : ∀ i, p ≤ i → i < p + l.length → buf' i = buf i) : At buf' p l := by
  induction l generalizing p with
  | nil => trivial
  | cons b l ih =>
    rw [List.length_cons] at heq
    refine ⟨(heq p (Nat.le_refl p) (by omega)).trans h.1, ih h.2 fun i hi hi' => ?_⟩
    exact heq i (by omega) (by omega)

/-- Writing in front of or behind the bytes. -/
theorem At.update (h : At buf p l) (hq : q < p ∨ p + l.length ≤ q) : At (update buf q b) p l :=
  h.congr fun i hi hi' => update_of_ne (by omega) _ _

theorem at_update_self : At (update buf p b) p [b] :=
  ⟨update_self .., trivial⟩

/-- The `n` bytes at `s`. -/
def bytes (buf : Buffer) (s n : ℕ) : List UInt8 :=
  (List.range n).map fun i => buf (s + i)

theorem bytes_eq (h : At buf p l) : bytes buf p l.length = l := by
  induction l generalizing p with
  | nil => rfl
  | cons b l ih =>
    have hrest := ih h.2
    rw [bytes] at hrest ⊢
    rw [List.length_cons, List.range_succ_eq_map, List.map_cons, List.map_map]
    refine congrArg₂ _ h.1 (Eq.trans (List.map_congr_left fun i _ => ?_) hrest)
    rw [comp_apply, Nat.succ_eq_add_one, Nat.add_right_comm, Nat.add_assoc]

/-! ## Strings -/

/-- `strchr(s, c)`, on a string that ends within `k` bytes. -/
def strchr (buf : Buffer) (c : UInt8) : ℕ → ℕ → Option ℕ
  | 0, _ => none
  | k + 1, s => if buf s = 0 then none else if buf s = c then some s else strchr buf c k (s + 1)

/-- The string at `s`, which ends within `k` bytes. -/
def string (buf : Buffer) : ℕ → ℕ → List UInt8
  | 0, _ => []
  | k + 1, s => if buf s = 0 then [] else buf s :: string buf k (s + 1)

theorem string_eq (h : At buf p (l ++ [0])) (h0 : 0 ∉ l) (hk : l.length < k) :
    string buf k p = l := by
  induction l generalizing p k with
  | nil =>
    obtain ⟨k, rfl⟩ := Nat.exists_eq_succ_of_ne_zero (Nat.ne_of_gt hk)
    rw [string, h.1, if_pos rfl]
  | cons b l ih =>
    obtain ⟨k, rfl⟩ := Nat.exists_eq_succ_of_ne_zero (Nat.ne_of_gt (Nat.zero_lt_of_lt hk))
    rw [List.mem_cons, not_or] at h0
    rw [string, h.1, if_neg (Ne.symm h0.1), ih h.2 h0.2 (Nat.lt_of_succ_lt_succ hk)]

/-- A string that fills the bytes it may take has no zero at its end. -/
theorem string_length_eq (h : At buf p l) (h0 : 0 ∉ l) : string buf l.length p = l := by
  induction l generalizing p with
  | nil => rfl
  | cons b l ih =>
    rw [List.mem_cons, not_or] at h0
    rw [List.length_cons, string, h.1, if_neg (Ne.symm h0.1), ih h.2 h0.2]

end CString
