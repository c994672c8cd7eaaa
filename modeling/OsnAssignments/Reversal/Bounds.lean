import OsnAssignments.Reversal.Correct

/-!
# The buffers of the program that reverses

The buffers `str` and `srev` of `Q1.c` have `buf` bytes each. An iteration on a chunk of `x` bytes
uses the indices below `x` of both, and then the index `x` of `srev`, for a terminating zero byte.
Every chunk but the last one of the file has `buf` bytes.
-/

namespace Reversal

open Loop Function

variable {n : ℕ}

/-- `reverseInto` with the indices of `str` and `srev` that it uses. -/
def reverseTrace (str srev : Buffer) (x : ℤ) : (Buffer × ℕ) × List ℕ :=
  (downTo (x - 1) 0).foldl
    (fun s i => ((update s.1.1 s.1.2 (str i.toNat), s.1.2 + 1), s.2 ++ [i.toNat, s.1.2]))
    ((srev, 0), [])

/-- The loop that records its indices, started with any record. -/
theorem foldl_trace (str : Buffer) (l : List ℤ) (s : Buffer × ℕ) (used : List ℕ) :
    (l.foldl (fun s i => ((update s.1.1 s.1.2 (str i.toNat), s.1.2 + 1),
        s.2 ++ [i.toNat, s.1.2])) (s, used)).1 =
      l.foldl (fun s i => (update s.1 s.2 (str i.toNat), s.2 + 1)) s := by
  induction l generalizing s used with
  | nil => rfl
  | cons i l ih =>
    rw [List.foldl_cons, List.foldl_cons]
    exact ih _ _

/-- Recording the indices changes nothing else. -/
theorem reverseTrace_fst (str srev : Buffer) (x : ℤ) :
    (reverseTrace str srev x).1 = reverseInto str srev x :=
  foldl_trace str _ _ _

/-- The loop on a chunk of `n` bytes uses indices below `n` only. -/
theorem lt_of_mem_reverseTrace {str srev : Buffer} {i : ℕ}
    (h : i ∈ (reverseTrace str srev n).2) : i < n := by
  -- before the iteration with the index `j - 1`, the variable `y` is `n - j`
  have hloop (j : ℕ) (hj : j ≤ n) (srev : Buffer) (used : List ℕ) (hused : ∀ i ∈ used, i < n) :
      ∀ i ∈ ((downTo ((j : ℤ) - 1) 0).foldl
        (fun s i => ((update s.1.1 s.1.2 (str i.toNat), s.1.2 + 1),
          s.2 ++ [i.toNat, s.1.2])) ((srev, n - j), used)).2, i < n := by
    induction j generalizing srev used with
    | zero =>
      rw [downTo_eq_nil (by simp)]
      exact hused
    | succ j ih =>
      have hlast : ((j + 1 : ℕ) : ℤ) - 1 = j := by omega
      rw [hlast, downTo_eq_cons (by omega), List.foldl_cons]
      have hy : n - (j + 1) + 1 = n - j := by omega
      simp only [hy, Int.toNat_natCast]
      refine ih (by omega) _ _ fun i hi => ?_
      simp only [List.mem_append, List.mem_cons, List.not_mem_nil, or_false] at hi
      rcases hi with hi | rfl | rfl
      · exact hused i hi
      · omega
      · omega
  have hstart := hloop n le_rfl srev [] nofun
  rw [Nat.sub_self] at hstart
  exact hstart i h

namespace Reverser

variable {buf k : ℕ} {bytes : List UInt8} {s : Reverser}

/-- One iteration of the loop with the indices of `str` and `srev` that it uses: those that `read`
fills, those of the loop, that of the zero byte, and those that `write` reads. -/
def bodyTrace (buf : ℕ) (s : Reverser) : (Reverser × Bool) × List ℕ :=
  let filled := List.range (s.fd.ahead s.x).length
  let (fd, str) := s.fd.read s.str s.x
  let ((srev, y), reversed) := reverseTrace str s.srev s.x
  let srev := update srev y 0
  let fd2 := s.fd2.write srev s.x
  let used := filled ++ reversed ++ [y] ++ List.range s.x.toNat
  if (fd.lseek 0 .seekCur).2 - s.x - buf < 0 then
    (({ fd, fd2, str, srev, x := s.x }, true), used)
  else
    (({ fd := (fd.lseek (-s.x - buf) .seekCur).1, fd2, str, srev, x := buf }, false), used)

/-- Recording the indices changes nothing else. -/
theorem bodyTrace_fst (buf : ℕ) (s : Reverser) : (bodyTrace buf s).1 = body buf s := by
  unfold bodyTrace body
  dsimp only
  rw [← reverseTrace_fst]
  split_ifs <;> rfl

/-- All indices of an iteration are below `buf`. -/
def InBounds (buf : ℕ) (s : Reverser) : Prop :=
  ∀ i ∈ (bodyTrace buf s).2, i < buf

/-- The zero byte is the access that decides. -/
theorem inBounds_iff (h : AtChunk buf bytes k n s.fd s.x) : s.InBounds buf ↔ n < buf := by
  have hy : (reverseTrace (s.fd.read s.str s.x).2 s.srev s.x).1.2 = n := by
    rw [reverseTrace_fst, h.x_eq, reverseInto_snd]
  have hused : (bodyTrace buf s).2 = List.range (s.fd.ahead s.x).length ++
      (reverseTrace (s.fd.read s.str s.x).2 s.srev s.x).2 ++ [n] ++ List.range n := by
    unfold bodyTrace
    dsimp only
    rw [hy, h.x_eq, Int.toNat_natCast]
    split_ifs <;> rfl
  unfold InBounds
  rw [hused]
  constructor
  · intro hall
    exact hall n (by simp)
  · intro hlt i hi
    simp only [List.mem_append, List.mem_range, List.mem_singleton] at hi
    have hle : i ≤ n := by
      rcases hi with ((hi | hi) | hi) | hi
      · have hahead : (s.fd.ahead s.x).length ≤ n := by simp [File.ahead, h.x_eq]
        omega
      · rw [h.x_eq] at hi
        exact (lt_of_mem_reverseTrace hi).le
      · exact hi.le
      · exact hi.le
    omega

/-- After an iteration that does not end the loop the program is in front of a full chunk. -/
theorem atChunk_body (hbuf : 0 < buf) (h : AtChunk buf bytes (k + 1) n s.fd s.x) :
    (body buf s).2 = false ∧ AtChunk buf bytes k buf (body buf s).1.fd (body buf s).1.x := by
  have htest := mt (h.lseek_lt_zero_iff hbuf s.str).mp (Nat.succ_ne_zero k)
  have hprev := h.prev s.str
  unfold body
  dsimp only
  rw [if_neg htest]
  exact ⟨rfl, hprev⟩

/-- An iteration on the first chunk of the file ends the loop. -/
theorem body_first (hbuf : 0 < buf) (h : AtChunk buf bytes 0 n s.fd s.x) :
    (body buf s).2 = true := by
  have htest := (h.lseek_lt_zero_iff hbuf s.str).mpr rfl
  unfold body
  dsimp only
  rw [if_pos htest]

/-- For every file that is not empty and every chunk size, the accesses to `str` and `srev` stay
inside the buffers on every iteration exactly if the file is shorter than a chunk. -/
theorem buffers_inBounds_iff (hbuf : 0 < buf) (hbytes : 1 ≤ bytes.length) (str srev : Buffer) :
    (∀ fuel, breakLoopAll (body buf) (InBounds buf) fuel (start buf bytes str srev)) ↔
      bytes.length < buf := by
  have hne : bytes ≠ [] := List.ne_nil_of_length_pos hbytes
  have hstart : bytes ≠ [] ∨ 1 < buf := .inl hne
  obtain ⟨k, n, hlen, hchunk⟩ := AtChunk.start (f := (((File.opened bytes).lseek 0 .seekEnd).1.lseek
    (-1) .seekEnd).1) hstart (by simp [File.opened])
  have hchunk :
      AtChunk buf bytes k n (start buf bytes str srev).fd (start buf bytes str srev).x := by
    simpa [start, File.lseek_seekEnd, File.opened] using hchunk
  constructor
  · intro hall
    cases k with
    | zero =>
      have hlt := (inBounds_iff hchunk).mp (hall 1).1
      omega
    | succ k =>
      -- the second iteration is on a full chunk
      obtain ⟨hgo, hnext⟩ := atChunk_body hbuf hchunk
      have hlt := (inBounds_iff hnext).mp ((hall 2).2 hgo).1
      omega
  · intro hlt fuel
    have hk : k = 0 := by
      by_contra hk
      have hle : 1 * buf ≤ k * buf := Nat.mul_le_mul_right buf (by omega)
      omega
    subst hk
    cases fuel with
    | zero => trivial
    | succ fuel =>
      refine ⟨(inBounds_iff hchunk).mpr (by omega), fun hgo => ?_⟩
      exact absurd (hgo.symm.trans (body_first hbuf hchunk)) Bool.false_ne_true

/-- Three bytes in a buffer of four. -/
theorem buffers_inBounds_three :
    [1, 2, 3].length < 4 ∧ ∀ fuel,
      breakLoopAll (body 4) (InBounds 4) fuel (start 4 [1, 2, 3] (fun _ => 0) fun _ => 0) :=
  ⟨by decide, (buffers_inBounds_iff (by decide) (by decide) (fun _ => 0) fun _ => 0).mpr
    (by decide)⟩

/-- Two bytes in a buffer of two: the zero byte goes to `srev[2]`. -/
theorem not_inBounds :
    2 ∈ (bodyTrace 2 (start 2 [1, 2] (fun _ => 0) fun _ => 0)).2 ∧
      ¬ ∀ fuel, breakLoopAll (body 2) (InBounds 2) fuel
        (start 2 [1, 2] (fun _ => 0) fun _ => 0) := by
  have hmem : 2 ∈ (bodyTrace 2 (start 2 [1, 2] (fun _ => 0) fun _ => 0)).2 := by decide
  exact ⟨hmem, fun hall => absurd ((hall 1).1 2 hmem) (by decide)⟩

end Reverser

end Reversal
