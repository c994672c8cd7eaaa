import Mathlib.Data.List.TakeDrop
import OsnAssignments.Reversal.Model

/-!
# Reversing and checking agree

Both programs walk through a file from its last chunk to its first. `AtChunk` says where they are in
front of an iteration. The invariant of `Q1.c` is that the output holds the reverse of what lies
behind the current chunk, and that of `Q2.c` that the new file agrees with it so far.

An empty file has no last chunk: `(z - 1) / buf` is then `-1 / buf`, which is `0` unless
`buf = 1`. With `buf = 1` both programs take the file for one with a chunk of one byte.
-/

namespace Reversal

open Loop Function

/-! ## Buffers -/

/-- The loop that reverses a chunk writes `str[n - 1], …, str[0]` from `srev[y]` on. -/
theorem foldl_reverse (str : Buffer) (n : ℕ) (srev : Buffer) (y : ℕ) :
    (downTo ((n : ℤ) - 1) 0).foldl
        (fun s i => (update s.1 s.2 (str i.toNat), s.2 + 1)) (srev, y) =
      (fun k => if y ≤ k ∧ k < y + n then str (n - 1 - (k - y)) else srev k, y + n) := by
  induction n generalizing srev y with
  | zero =>
    rw [downTo_eq_nil (by simp), List.foldl_nil]
    refine Prod.ext (funext fun k => ?_) rfl
    exact (if_neg (by omega)).symm
  | succ n ih =>
    have hlast : ((n + 1 : ℕ) : ℤ) - 1 = n := by omega
    rw [hlast, downTo_eq_cons (by omega), List.foldl_cons, ih]
    refine Prod.ext (funext fun k => ?_) (by simp only; omega)
    simp only [Int.toNat_natCast]
    rcases lt_trichotomy k y with hk | rfl | hk
    · rw [if_neg (by omega), if_neg (by omega), update_of_ne (by omega)]
    · rw [if_neg (by omega), if_pos (by omega), update_self]
      congr 1
      omega
    · by_cases hend : k < y + 1 + n
      · rw [if_pos (by omega), if_pos (by omega)]
        congr 1
        omega
      · rw [if_neg (by omega), if_neg (by omega), update_of_ne (by omega)]

theorem reverseInto_snd (str srev : Buffer) (n : ℕ) : (reverseInto str srev n).2 = n := by
  rw [reverseInto, foldl_reverse, Nat.zero_add]

theorem reverseInto_fst {str srev : Buffer} {n k : ℕ} (hk : k < n) :
    (reverseInto str srev n).1 k = str (n - 1 - k) := by
  rw [reverseInto, foldl_reverse]
  simp [hk]

/-- The first `n` bytes of `srev` are those of `str`, reversed. -/
theorem map_reverseInto (str srev : Buffer) (n : ℕ) :
    (List.range n).map (reverseInto str srev n).1 = ((List.range n).map str).reverse := by
  apply List.ext_getElem
  · simp
  · intro k hk _
    have hk : k < n := by simpa using hk
    simp [reverseInto_fst hk]

/-! ## Files -/

namespace File

variable {f : File}

/-- A file that has the bytes asked for fills the buffer with them. -/
theorem map_read {n : ℕ} (h : f.offset + n ≤ f.bytes.length) (buf : Buffer) :
    (List.range n).map (f.read buf n).2 = f.ahead n := by
  have hlen : (f.ahead n).length = n := by simp [ahead]; omega
  apply List.ext_getElem
  · simp [hlen]
  · intro k hk hk'
    simp [read, hk']

theorem read_offset {n : ℕ} (h : f.offset + n ≤ f.bytes.length) (buf : Buffer) :
    (f.read buf n).1.offset = f.offset + n := by
  have hlen : (f.ahead n).length = n := by simp [ahead]; omega
  rw [read, hlen]

/-- A write at the end of a file appends. -/
theorem write_bytes (h : f.offset = f.bytes.length) (buf : Buffer) (n : ℕ) :
    (f.write buf n).bytes = f.bytes ++ (List.range n).map buf := by
  have htake : f.bytes.takeD f.bytes.length 0 = f.bytes := by
    rw [List.takeD_eq_take _ le_rfl, List.take_length]
  simp [write, h, htake]

theorem write_offset (f : File) (buf : Buffer) (n : ℕ) : (f.write buf n).offset = f.offset + n := by
  simp [write]

@[simp]
theorem lseek_bytes (f : File) (offset : ℤ) (whence : Whence) :
    (f.lseek offset whence).1.bytes = f.bytes := by
  unfold lseek
  dsimp only
  split_ifs <;> rfl

/-- An offset inside the file or behind it is accepted. -/
theorem lseek_seekCur {offset : ℤ} {n : ℕ} (h : (f.offset : ℤ) + offset = n) :
    f.lseek offset .seekCur = ({ f with offset := n }, (n : ℤ)) := by
  rw [lseek]
  simp only [h]
  rw [if_neg (by omega), Int.toNat_natCast]

theorem lseek_seekSet (f : File) (n : ℕ) :
    f.lseek n .seekSet = ({ f with offset := n }, (n : ℤ)) := by
  rw [lseek, if_neg (by omega), Int.toNat_natCast]

theorem lseek_seekEnd (f : File) :
    f.lseek 0 .seekEnd = ({ f with offset := f.bytes.length }, (f.bytes.length : ℤ)) := by
  rw [lseek]
  simp only [Int.add_zero]
  rw [if_neg (by omega), Int.toNat_natCast]

end File

/-! ## Walking backwards -/

/-- The file is in front of its chunk number `k`, which has `x` bytes, namely `n`. -/
structure AtChunk (buf : ℕ) (bytes : List UInt8) (k n : ℕ) (f : File) (x : ℤ) : Prop where
  bytes_eq : f.bytes = bytes
  offset_eq : f.offset = k * buf
  x_eq : x = n
  le_length : k * buf + n ≤ bytes.length

namespace AtChunk

variable {buf k n : ℕ} {bytes : List UInt8} {f : File} {x : ℤ}

section

variable (h : AtChunk buf bytes k n f x)
include h

/-- The bytes from the chunk on are those of the chunk and those behind it. -/
theorem ahead_append : f.ahead n ++ bytes.drop (k * buf + n) = bytes.drop (k * buf) := by
  rw [File.ahead, h.bytes_eq, h.offset_eq, Int.toNat_natCast, ← List.drop_drop,
    List.take_append_drop]

theorem inFile : f.offset + n ≤ f.bytes.length := by
  rw [h.bytes_eq, h.offset_eq]
  exact h.le_length

/-- Behind the chunk the test for the start of the file says whether this was the first chunk. -/
theorem lseek_lt_zero_iff (hbuf : 0 < buf) (str : Buffer) :
    ((f.read str x).1.lseek 0 .seekCur).2 - x - buf < 0 ↔ k = 0 := by
  have hoffset : (f.read str x).1.offset = k * buf + n := by
    rw [h.x_eq, File.read_offset h.inFile, h.offset_eq]
  rw [File.lseek_seekCur (by rw [hoffset, Int.add_zero]), h.x_eq]
  constructor
  · intro hneg
    by_contra hk
    have hle : 1 * buf ≤ k * buf := Nat.mul_le_mul_right buf (by omega)
    simp only at hneg
    omega
  · rintro rfl
    simp only
    omega

end

/-- From behind a chunk the program goes to the chunk before it, which is a full one. -/
theorem prev (h : AtChunk buf bytes (k + 1) n f x) (str : Buffer) :
    AtChunk buf bytes k buf ((f.read str x).1.lseek (-x - buf) .seekCur).1 buf := by
  have hmul : (k + 1) * buf = k * buf + buf := Nat.succ_mul k buf
  have hoffset : (f.read str x).1.offset = (k + 1) * buf + n := by
    rw [h.x_eq, File.read_offset h.inFile, h.offset_eq]
  have htarget : ((f.read str x).1.offset : ℤ) + (-x - buf) = (k * buf : ℕ) := by
    rw [hoffset, h.x_eq, hmul]
    omega
  have hlength := h.le_length
  rw [File.lseek_seekCur htarget]
  exact ⟨h.bytes_eq, rfl, rfl, by omega⟩

/-- Before the loop, the file is in front of its last chunk. -/
theorem start (h : bytes ≠ [] ∨ 1 < buf) (hf : f.bytes = bytes) :
    ∃ k n, k * buf + n = bytes.length ∧
      AtChunk buf bytes k n (f.lseek (lastChunk bytes.length buf) .seekSet).1
        (bytes.length - lastChunk bytes.length buf) := by
  obtain ⟨k, n, hlen, hlast⟩ :
      ∃ k n : ℕ, k * buf + n = bytes.length ∧ lastChunk bytes.length buf = (k * buf : ℕ) := by
    cases hz : bytes.length with
    | zero =>
      -- `-1 / buf` is rounded towards zero
      have hbuf' : 1 < buf := h.resolve_left fun hne => hne (List.length_eq_zero_iff.mp hz)
      have hdiv : (-1 : ℤ).tdiv buf = 0 := by
        rw [Int.neg_tdiv, Int.tdiv_eq_zero_of_lt (by omega) (by omega), Int.neg_zero]
      exact ⟨0, 0, by omega, by simp [lastChunk, hdiv]⟩
    | succ z =>
      have hdiv : ((z + 1 : ℕ) - 1 : ℤ).tdiv buf = (z / buf : ℕ) := by
        have hpred : ((z + 1 : ℕ) - 1 : ℤ) = (z : ℕ) := by omega
        rw [hpred, Int.ofNat_tdiv]
      have hle : z / buf * buf ≤ z := Nat.div_mul_le_self z buf
      refine ⟨z / buf, z + 1 - z / buf * buf, by omega, ?_⟩
      rw [lastChunk, hdiv, Int.natCast_mul]
  refine ⟨k, n, hlen, ?_⟩
  rw [hlast, File.lseek_seekSet]
  exact ⟨hf, rfl, by omega, by omega⟩

end AtChunk

/-! ## The program that reverses -/

namespace Reverser

variable {buf k : ℕ} {bytes : List UInt8} {s : Reverser}

/-- In front of an iteration the output holds the reverse of what lies behind the chunk. -/
def Inv (buf : ℕ) (bytes : List UInt8) (k : ℕ) (s : Reverser) : Prop :=
  ∃ n, AtChunk buf bytes k n s.fd s.x ∧ s.fd2.bytes = (bytes.drop (k * buf + n)).reverse ∧
    s.fd2.offset = s.fd2.bytes.length

/-- The bytes that an iteration writes are those of the chunk, reversed. -/
theorem map_srev {n : ℕ} (h : AtChunk buf bytes k n s.fd s.x) :
    (List.range n).map (update (reverseInto (s.fd.read s.str s.x).2 s.srev s.x).1
      (reverseInto (s.fd.read s.str s.x).2 s.srev s.x).2 0) = (s.fd.ahead n).reverse := by
  rw [h.x_eq, reverseInto_snd, ← File.map_read h.inFile s.str, ← map_reverseInto]
  refine List.map_congr_left fun i hi => update_of_ne ?_ _ _
  exact Nat.ne_of_lt (List.mem_range.mp hi)

/-- After an iteration the output holds the reverse of the file from the chunk on. -/
theorem fd2_body (h : Inv buf bytes k s) :
    (body buf s).1.fd2.bytes = (bytes.drop (k * buf)).reverse ∧
      (body buf s).1.fd2.offset = (body buf s).1.fd2.bytes.length := by
  obtain ⟨n, hchunk, hout, hend⟩ := h
  have hfd2 : (body buf s).1.fd2 = s.fd2.write
      (update (reverseInto (s.fd.read s.str s.x).2 s.srev s.x).1
        (reverseInto (s.fd.read s.str s.x).2 s.srev s.x).2 0) n := by
    unfold body
    dsimp only
    split_ifs <;> rw [hchunk.x_eq]
  have hbytes : (body buf s).1.fd2.bytes = (bytes.drop (k * buf)).reverse := by
    rw [hfd2, File.write_bytes hend, map_srev hchunk, hout, ← List.reverse_append,
      hchunk.ahead_append]
  refine ⟨hbytes, ?_⟩
  rw [hfd2, File.write_offset, File.write_bytes hend, hend]
  simp

/-- An iteration on the first chunk ends the loop; any other one goes on to the chunk before. -/
theorem body_cases (hbuf : 0 < buf) (h : Inv buf bytes k s) :
    ((body buf s).2 = true ∧ (body buf s).1.fd2.bytes = bytes.reverse) ∨
      ((body buf s).2 = false ∧ ∃ m < k, Inv buf bytes m (body buf s).1) := by
  obtain ⟨hbytes, hend⟩ := fd2_body h
  obtain ⟨n, hchunk, -⟩ := h
  have hiff := hchunk.lseek_lt_zero_iff hbuf s.str
  cases k with
  | zero =>
    refine .inl ⟨?_, by simpa using hbytes⟩
    unfold body
    dsimp only
    rw [if_pos (hiff.mpr rfl)]
  | succ k =>
    have htest := mt hiff.mp (Nat.succ_ne_zero k)
    refine .inr ⟨?_, k, Nat.lt_succ_self k, buf, ?_, ?_, hend⟩
    · unfold body
      dsimp only
      rw [if_neg htest]
    · have hprev := hchunk.prev s.str
      unfold body
      dsimp only
      rwa [if_neg htest]
    · rw [hbytes, Nat.succ_mul]

/-- Unless an empty file is read in chunks of one byte, the program ends, and has written the bytes
of the file in reverse order. -/
theorem exists_main (hbuf : 0 < buf) (h : bytes ≠ [] ∨ 1 < buf) (str srev : Buffer) :
    ∃ fuel, main buf bytes str srev fuel = some bytes.reverse := by
  obtain ⟨k, n, hlen, hchunk⟩ := AtChunk.start (f := (((File.opened bytes).lseek 0 .seekEnd).1.lseek
    (-1) .seekEnd).1) h (by simp [File.opened])
  have hstart : Inv buf bytes k (start buf bytes str srev) := by
    refine ⟨n, ?_, ?_, ?_⟩
    · simpa [start, File.lseek_seekEnd, File.opened] using hchunk
    · rw [hlen, List.drop_length]
      simp [start, File.opened]
    · simp [start, File.opened, File.lseek]
  obtain ⟨fuel, s, hrun, hout⟩ := exists_breakLoop (body buf)
    (Q := fun s => s.fd2.bytes = bytes.reverse) (fun _ _ => body_cases hbuf) hstart
  exact ⟨fuel, by rw [main, hrun, Option.map_some, hout]⟩

/-- On an empty file with `buf = 1` the program writes one byte, the one that `str` holds. -/
theorem main_nil_one (str srev : Buffer) (fuel : ℕ) :
    main 1 [] str srev (fuel + 1) = some [str 0] := by
  rfl

end Reverser

/-! ## The program that checks -/

namespace Checker

variable {buf k : ℕ} {newBytes oldBytes : List UInt8} {s : Checker}

/-- In front of an iteration the new file agrees so far with the reverse of the old one, and the
next bytes of it belong to the chunk. -/
def Inv (buf : ℕ) (newBytes oldBytes : List UInt8) (k : ℕ) (s : Checker) : Prop :=
  ∃ n, AtChunk buf oldBytes k n s.old s.x ∧ s.ne.bytes = newBytes ∧
    s.ne.offset + (k * buf + n) = oldBytes.length ∧
    newBytes.take s.ne.offset = (oldBytes.drop (k * buf + n)).reverse ∧ s.f = false

/-- The loop that compares the two buffers. -/
theorem any_ne_eq_false_iff {srev str2 : Buffer} {n : ℕ} :
    ((upTo 0 ((n : ℤ) - 1)).any fun i => srev i.toNat != str2 i.toNat) = false ↔
      (List.range n).map srev = (List.range n).map str2 := by
  rw [List.map_inj_left]
  simp only [List.any_eq_false, mem_upTo, bne_iff_ne, ne_eq, not_not, List.mem_range]
  constructor
  · intro h i hi
    simpa using h i ⟨by omega, by omega⟩
  · intro h i hi
    exact h i.toNat (by omega)

/-- The comparison of one iteration: the next bytes of the new file are those of the chunk,
reversed. -/
theorem compare_iff {n : ℕ} (hchunk : AtChunk buf oldBytes k n s.old s.x)
    (hne : s.ne.offset + n ≤ s.ne.bytes.length) :
    ((upTo 0 (s.x - 1)).any fun i => (reverseInto (s.old.read s.str s.x).2 s.srev s.x).1 i.toNat !=
      (s.ne.read s.str2 s.x).2 i.toNat) = false ↔ s.ne.ahead n = (s.old.ahead n).reverse := by
  rw [hchunk.x_eq, any_ne_eq_false_iff, map_reverseInto, File.map_read hchunk.inFile,
    File.map_read hne, eq_comm]

/-- The iteration decides whether the new file agrees with the reverse of the old one up to the end
of the chunk. -/
theorem take_iff {n : ℕ} (hchunk : AtChunk buf oldBytes k n s.old s.x)
    (hagree : newBytes.take s.ne.offset = (oldBytes.drop (k * buf + n)).reverse)
    (hbytes : s.ne.bytes = newBytes) :
    newBytes.take (s.ne.offset + n) = (oldBytes.drop (k * buf)).reverse ↔
      s.ne.ahead n = (s.old.ahead n).reverse := by
  have hahead : s.ne.ahead n = (newBytes.drop s.ne.offset).take n := by
    rw [File.ahead, hbytes, Int.toNat_natCast]
  rw [List.take_add, hagree, ← hchunk.ahead_append, List.reverse_append,
    List.append_right_inj, hahead]

/-- An iteration finds a difference; or it is on the first chunk and the files agree; or it goes on
to the chunk before. -/
theorem body_cases (hbuf : 0 < buf) (hlen : newBytes.length = oldBytes.length)
    (h : Inv buf newBytes oldBytes k s) :
    ((body buf s).2 = true ∧ ((body buf s).1.f = false ↔ newBytes = oldBytes.reverse)) ∨
      ((body buf s).2 = false ∧ ∃ m < k, Inv buf newBytes oldBytes m (body buf s).1) := by
  obtain ⟨n, hchunk, hbytes, hoffset, hagree, hf⟩ := h
  have hne : s.ne.offset + n ≤ s.ne.bytes.length := by rw [hbytes]; omega
  have hcompare := compare_iff hchunk hne
  have htake := take_iff hchunk hagree hbytes
  have hiff := hchunk.lseek_lt_zero_iff hbuf s.str
  by_cases hsame : s.ne.ahead n = (s.old.ahead n).reverse
  · have hnone := hcompare.mpr hsame
    have hagree' := htake.mpr hsame
    cases k with
    | zero =>
      -- the first chunk reaches to the end of the new file
      have hall : newBytes = oldBytes.reverse := by
        have hend : s.ne.offset + n = newBytes.length := by omega
        rwa [hend, List.take_length, Nat.zero_mul, List.drop_zero] at hagree'
      left
      unfold body
      dsimp only
      rw [hnone, if_neg (by simp), if_pos (hiff.mpr rfl)]
      exact ⟨rfl, iff_of_true hf hall⟩
    | succ k =>
      have htest := mt hiff.mp (Nat.succ_ne_zero k)
      have hprev := hchunk.prev s.str
      have hread : (s.ne.read s.str2 s.x).1.offset = s.ne.offset + n := by
        rw [hchunk.x_eq, File.read_offset hne]
      have hmul : (k + 1) * buf = k * buf + buf := Nat.succ_mul k buf
      right
      unfold body
      dsimp only
      rw [hnone, if_neg (by simp), if_neg htest]
      refine ⟨rfl, k, Nat.lt_succ_self k, buf, hprev, hbytes, ?_, ?_, hf⟩
      · rw [hread]
        omega
      · rw [hread, hagree', hmul]
  · have hsome := (Bool.not_eq_false _).mp (mt hcompare.mp hsame)
    left
    unfold body
    dsimp only
    rw [if_pos hsome]
    refine ⟨rfl, iff_of_false (by simp) fun hall => hsame (htake.mp ?_)⟩
    -- if the whole files agree, so do the parts that this iteration has reached
    have hdrop : s.ne.offset + n = oldBytes.length - k * buf := by omega
    rw [hall, hdrop, List.reverse_drop]

/-- On readable files the program ends, and reports that the contents are reversed exactly if they
are, unless empty files are read in chunks of one byte. -/
theorem exists_main (hbuf : 0 < buf) (h : oldBytes ≠ [] ∨ 1 < buf) (str srev str2 : Buffer) :
    ∃ fuel, main buf newBytes oldBytes true true str srev str2 fuel =
      some (if newBytes = oldBytes.reverse then .yes else .no) := by
  have hmain (fuel : ℕ) : main buf newBytes oldBytes true true str srev str2 fuel =
      if newBytes.length ≠ oldBytes.length then some .no
      else (breakLoop (body buf) fuel (start buf newBytes oldBytes str srev str2)).map
        fun s => report s.f := by
    have hsize : ((oldBytes.length : ℤ) ≠ newBytes.length) = (newBytes.length ≠ oldBytes.length) :=
      propext ⟨fun h => by omega, fun h => by omega⟩
    rw [main, if_pos (by decide), File.lseek_seekEnd, File.lseek_seekEnd]
    simp only [File.opened, hsize]
    rfl
  by_cases hlen : newBytes.length = oldBytes.length
  · obtain ⟨k, n, hsize, hchunk⟩ := AtChunk.start (f := (((File.opened oldBytes).lseek 0
      .seekEnd).1.lseek (-1) .seekEnd).1) h (by simp [File.opened])
    have hne : (start buf newBytes oldBytes str srev str2).ne.offset = 0 := by
      simp [start, File.lseek]
    have hstart : Inv buf newBytes oldBytes k (start buf newBytes oldBytes str srev str2) := by
      refine ⟨n, ?_, by simp [start, File.opened], ?_, ?_, rfl⟩
      · simpa [start, File.lseek_seekEnd, File.opened] using hchunk
      · rw [hne, Nat.zero_add, hsize]
      · rw [hne, hsize, List.drop_length, List.take_zero, List.reverse_nil]
    obtain ⟨fuel, s, hrun, hf⟩ := exists_breakLoop (body buf)
      (Q := fun s => s.f = false ↔ newBytes = oldBytes.reverse)
      (fun _ _ => body_cases hbuf hlen) hstart
    refine ⟨fuel, ?_⟩
    rw [hmain, if_neg (not_not.mpr hlen), hrun, Option.map_some, report]
    by_cases hrev : newBytes = oldBytes.reverse
    · simp [hf.mpr hrev, hrev]
    · simp [(Bool.not_eq_false _).mp (mt hf.mp hrev), hrev]
  · -- files of different sizes are not read
    have hrev : newBytes ≠ oldBytes.reverse := fun heq => hlen (by rw [heq, List.length_reverse])
    exact ⟨0, by rw [hmain, if_pos hlen, if_neg hrev]⟩

end Checker

/-! ## Both programs -/

/-- `Q1.c` with chunks of `buf` bytes ends and writes the bytes of its input in reverse order,
unless the input is empty and `buf = 1`; and `Q2.c` on two readable files ends and reports that the
contents are reversed if and only if they are. -/
theorem reverses_iff {buf : ℕ} (hbuf : 0 < buf) (bytes : List UInt8) (str srev : Buffer) :
    ((∃ fuel, Reverser.main buf bytes str srev fuel = some bytes.reverse) ↔
      (bytes ≠ [] ∨ 1 < buf)) ∧
    ∀ (newBytes oldBytes : List UInt8) (str srev str2 : Buffer),
      ∃ fuel, Checker.main BUF newBytes oldBytes true true str srev str2 fuel =
        some (if newBytes = oldBytes.reverse then .yes else .no) := by
  refine ⟨⟨?_, fun h => Reverser.exists_main hbuf h str srev⟩, ?_⟩
  · rintro ⟨fuel, hmain⟩
    by_contra hnot
    obtain ⟨hnil, hone⟩ : bytes = [] ∧ ¬1 < buf := by simpa using hnot
    obtain rfl : buf = 1 := by omega
    subst hnil
    cases fuel with
    | zero => simp [Reverser.main, breakLoop] at hmain
    | succ fuel => simp [Reverser.main_nil_one] at hmain
  · intro newBytes oldBytes str srev str2
    exact Checker.exists_main (by decide) (.inr (by decide)) str srev str2

/-- Three bytes in chunks of two. -/
theorem reverses_three :
    ∃ fuel, Reverser.main 2 [1, 2, 3] (fun _ => 0) (fun _ => 0) fuel = some [3, 2, 1] :=
  ((reverses_iff (by decide) [1, 2, 3] (fun _ => 0) (fun _ => 0)).1).mpr (.inr (by decide))

/-- With `buf = 1`, the output for an empty input has one byte. -/
theorem not_reverses :
    Reverser.main 1 [] (fun _ => 0) (fun _ => 0) 1 = some [0] ∧
      ¬∃ fuel, Reverser.main 1 [] (fun _ => 0) (fun _ => 0) fuel = some [].reverse := by
  refine ⟨rfl, ?_⟩
  rintro ⟨fuel, hmain⟩
  cases fuel with
  | zero => simp [Reverser.main, breakLoop] at hmain
  | succ fuel => simp [Reverser.main_nil_one] at hmain

end Reversal
