import Mathlib
import OsnAssignments.Common.Delimited
import OsnAssignments.Grep.Model

/-!
# grep and the pieces in which its input arrives

`scan_spec` and `pass_spec` say what one round of `grep` does in terms of lists: the bytes left over
and the new piece are some lines and a rest, in which no newline can be found; the matching lines
are written, and the rest is left over, unless no line was found at all. In that case `grep` throws
the bytes away. `grep_iff` draws the consequence.
-/

namespace Grep

open CString Delimited Function

/-! ## Strings in the buffer -/

variable {buf : Buffer} {p s k : ℕ} {l r : List UInt8} {b : UInt8}
variable {piece : List UInt8}

/-- A line that can be found: it contains neither a newline nor a zero byte. -/
def Clean (l : List UInt8) : Prop :=
  newline ∉ l ∧ 0 ∉ l

/-- In front of every newline stands a zero byte. -/
def Stuck (r : List UInt8) : Prop :=
  ∀ l x, r = l ++ newline :: x → 0 ∈ l

theorem newline_ne_zero : newline ≠ 0 := by
  decide

theorem Clean.of_cons (h : Clean (b :: l)) : b ≠ newline ∧ b ≠ 0 ∧ Clean l := by
  obtain ⟨hnl, h0⟩ := h
  rw [List.mem_cons, not_or] at hnl h0
  exact ⟨Ne.symm hnl.1, Ne.symm h0.1, hnl.2, h0.2⟩

theorem stuck_nil : Stuck [] := by
  intro l x h
  simp at h

theorem stuck_cons : Stuck (b :: r) ↔ b = 0 ∨ b ≠ newline ∧ Stuck r := by
  constructor
  · intro h
    by_cases hb : b = 0
    · exact .inl hb
    · refine .inr ⟨fun hnl => ?_, fun l x hr => ?_⟩
      · have := h [] r (by rw [hnl]; rfl)
        cases this
      · have := h (b :: l) x (by rw [hr]; rfl)
        exact (List.mem_cons.mp this).resolve_left (Ne.symm hb)
  · intro h l x hr
    cases l with
    | nil =>
      obtain ⟨rfl, -⟩ := List.cons.inj hr
      rcases h with h | h
      · exact absurd h newline_ne_zero
      · exact absurd rfl h.1
    | cons a l =>
      obtain ⟨rfl, htail⟩ := List.cons.inj hr
      rcases h with rfl | ⟨-, h⟩
      · exact List.mem_cons_self
      · exact List.mem_cons_of_mem _ (h l x htail)

theorem line_or_stuck (r : List UInt8) : (∃ l x, r = l ++ newline :: x ∧ Clean l) ∨ Stuck r := by
  induction r with
  | nil => exact .inr stuck_nil
  | cons b r ih =>
    by_cases h0 : b = 0
    · exact .inr (stuck_cons.mpr (.inl h0))
    by_cases hnl : b = newline
    · subst hnl
      exact .inl ⟨[], r, rfl, by simp [Clean]⟩
    rcases ih with ⟨l, x, rfl, hl⟩ | hr
    · refine .inl ⟨b :: l, x, rfl, ?_, ?_⟩
      · exact fun h => (List.mem_cons.mp h).elim (fun h => hnl h.symm) hl.1
      · exact fun h => (List.mem_cons.mp h).elim (fun h => h0 h.symm) hl.2
    · exact .inr (stuck_cons.mpr (.inr ⟨hnl, hr⟩))

/-- Without zero bytes, a rest in which no newline can be found has none. -/
theorem Stuck.newline_notMem (h : Stuck r) (h0 : 0 ∉ r) : newline ∉ r := by
  intro hmem
  obtain ⟨l, x, rfl⟩ := List.append_of_mem hmem
  exact h0 (List.mem_append_left _ (h l x rfl))

theorem strchr_of_line {x : List UInt8} (h : At buf p (l ++ newline :: x)) (hl : Clean l)
    (hk : l.length < k) : strchr buf newline k p = some (p + l.length) := by
  induction l generalizing p k with
  | nil =>
    obtain ⟨k, rfl⟩ := Nat.exists_eq_succ_of_ne_zero (Nat.ne_of_gt hk)
    rw [strchr, h.1, if_neg newline_ne_zero, if_pos rfl]
    rfl
  | cons b l ih =>
    obtain ⟨hnl, h0, hl⟩ := hl.of_cons
    obtain ⟨k, rfl⟩ := Nat.exists_eq_succ_of_ne_zero (Nat.ne_of_gt (Nat.zero_lt_of_lt hk))
    rw [strchr, h.1, if_neg h0, if_neg hnl, ih h.2 hl (Nat.lt_of_succ_lt_succ hk), List.length_cons,
      add_right_comm, add_assoc]

theorem strchr_of_stuck (h : At buf p (r ++ [0])) (hr : Stuck r) (hk : r.length < k) :
    strchr buf newline k p = none := by
  induction r generalizing p k with
  | nil =>
    obtain ⟨k, rfl⟩ := Nat.exists_eq_succ_of_ne_zero (Nat.ne_of_gt hk)
    rw [strchr, h.1, if_pos rfl]
  | cons b r ih =>
    obtain ⟨k, rfl⟩ := Nat.exists_eq_succ_of_ne_zero (Nat.ne_of_gt (Nat.zero_lt_of_lt hk))
    rw [strchr, h.1]
    split_ifs with h0 hnl
    · rfl
    · exact absurd hnl ((stuck_cons.mp hr).resolve_left h0).1
    · exact ih h.2 ((stuck_cons.mp hr).resolve_left h0).2 (Nat.lt_of_succ_lt_succ hk)

theorem fill_of_lt {i : ℕ} (hi : i < s) : fill buf s piece i = buf i := by
  induction piece generalizing buf s with
  | nil => rfl
  | cons b piece ih =>
    rw [fill, ih (Nat.lt_succ_of_lt hi), update_of_ne hi.ne]

theorem at_fill (piece : List UInt8) : At (fill buf s piece) s piece := by
  induction piece generalizing buf s with
  | nil => trivial
  | cons b piece ih =>
    refine ⟨?_, ih⟩
    rw [fill, fill_of_lt (Nat.lt_succ_self s), update_self]

theorem memmove_of_lt {i d n : ℕ} (hi : i < d) : memmove buf d s n i = buf i := by
  induction n generalizing buf d s with
  | zero => rfl
  | succ n ih => rw [memmove, ih (Nat.lt_succ_of_lt hi), update_of_ne hi.ne]

theorem at_memmove {d : ℕ} (h : At buf s l) (hd : d ≤ s) : At (memmove buf d s l.length) d l := by
  induction l generalizing buf d s with
  | nil => trivial
  | cons b l ih =>
    rw [List.length_cons, memmove]
    refine ⟨?_, ih (h.2.update (.inl (Nat.lt_succ_of_le hd))) (Nat.succ_le_succ hd)⟩
    rw [memmove_of_lt (Nat.lt_succ_self d), update_self, h.1]

/-! ## One round of grep -/

/-- The lines that match. -/
def matching (pattern : List UInt8) (ls : List (List UInt8)) : List (List UInt8) :=
  ls.filter (matchRe pattern)

/-- The inner loop writes the matching ones of the lines it finds, and stops where it finds none. -/
theorem scan_spec (pattern : List UInt8) {rest : List UInt8} (h : At buf p (rest ++ [0]))
    (hsize : rest.length < bufsize) (hk : rest.length < k) :
    ∃ ls r, rest = join newline ls ++ r ∧ (∀ l ∈ ls, Clean l) ∧ Stuck r ∧
      (scan pattern k p buf).1 = p + (join newline ls).length ∧
      (scan pattern k p buf).2.2 = join newline (matching pattern ls) ∧
      At (scan pattern k p buf).2.1 (p + (join newline ls).length) r := by
  induction k generalizing p buf rest with
  | zero => exact absurd hk (Nat.not_lt_zero _)
  | succ k ih =>
    rcases line_or_stuck rest with ⟨l, x, rfl, hl⟩ | hr
    · rw [List.append_assoc, List.cons_append] at h
      rw [List.length_append, List.length_cons] at hsize hk
      obtain ⟨hline, -, hrest⟩ := at_append.mp h
      have hstring : string (update buf (p + l.length) 0) bufsize p = l :=
        string_eq (at_append.mpr ⟨hline.update (.inr le_rfl), at_update_self⟩) hl.2 (by omega)
      -- the writes to the place of the newline are behind the new pointer
      have hone (b : UInt8) :
          At (update buf (p + l.length) b) (p + l.length + 1) (x ++ [0]) :=
        hrest.update (.inl (Nat.lt_succ_self _))
      have hclean (ls : List (List UInt8)) (hls : ∀ l ∈ ls, Clean l) :
          ∀ l' ∈ l :: ls, Clean l' := by
        rintro l' (_ | ⟨_, hl'⟩)
        · exact hl
        · exact hls l' hl'
      have hlen (ls : List (List UInt8)) : p + l.length + 1 + (join newline ls).length =
          p + (join newline (l :: ls)).length := by
        rw [join_cons, List.length_append, List.length_cons]
        omega
      rw [scan, strchr_of_line h hl (by omega)]
      dsimp only
      rw [hstring]
      split_ifs with hmatch
      · rw [update_idem]
        obtain ⟨ls, r, rfl, hls, hr, hp, hout, hat⟩ := ih (hone newline) (by omega) (by omega)
        have hwritten : bytes (update buf (p + l.length) newline) p
            (p + l.length + 1 - p) = l ++ [newline] := by
          have hsub : p + l.length + 1 - p = (l ++ [newline]).length := by
            rw [List.length_append, List.length_singleton]
            omega
          rw [hsub]
          exact bytes_eq (at_append.mpr ⟨hline.update (.inr le_rfl), at_update_self⟩)
        refine ⟨l :: ls, r, ?_, hclean ls hls, hr, hp.trans (hlen ls), ?_, ?_⟩
        · rw [join_cons, List.append_assoc, List.cons_append]
        · dsimp only
          rw [hwritten, hout, matching, matching, List.filter_cons_of_pos hmatch, join_cons,
            List.append_assoc]
          rfl
        · rw [← hlen]
          exact hat
      · obtain ⟨ls, r, rfl, hls, hr, hp, hout, hat⟩ := ih (hone 0) (by omega) (by omega)
        refine ⟨l :: ls, r, ?_, hclean ls hls, hr, hp.trans (hlen ls), ?_, ?_⟩
        · rw [join_cons, List.append_assoc, List.cons_append]
        · rw [hout, matching, matching, List.filter_cons_of_neg hmatch]
        · rw [← hlen]
          exact hat
    · rw [scan, strchr_of_stuck h hr hsize]
      exact ⟨[], rest, rfl, nofun, hr, rfl, rfl, (at_append.mp h).1⟩

/-- The first bytes of the buffer are left over from the reads so far. -/
def State.Holds (g : State) (left : List UInt8) : Prop :=
  g.m = left.length ∧ At g.buf 0 left

/-- What a round does with the bytes left over and a new piece. -/
structure Passes (pattern left piece out left' : List UInt8) (ls : List (List UInt8))
    (r : List UInt8) : Prop where
  split : left ++ piece = join newline ls ++ r
  clean : ∀ l ∈ ls, Clean l
  stuck : Stuck r
  out_eq : out = join newline (matching pattern ls)
  /-- Without a line, everything is thrown away. -/
  left_eq : left' = if ls = [] then [] else r

theorem Passes.length_le {pattern left out left' : List UInt8} {ls : List (List UInt8)}
    (h : Passes pattern left piece out left' ls r) : left'.length ≤ r.length := by
  rw [h.left_eq]
  split_ifs
  · exact Nat.zero_le _
  · exact le_rfl

theorem pass_spec (pattern : List UInt8) {g : State} {left : List UInt8} (h : g.Holds left)
    (hlen : piece.length ≤ g.request) (hpiece : piece ≠ []) :
    ∃ left' ls r, Passes pattern left piece (g.pass pattern piece).2 left' ls r ∧
      (g.pass pattern piece).1.Holds left' := by
  obtain ⟨hm, hat⟩ := h
  have hpos : 0 < piece.length := List.length_pos_iff.mpr hpiece
  have hsize : (left ++ piece).length < bufsize := by
    rw [List.length_append, ← hm]
    unfold State.request at hlen
    omega
  have hm' : g.m + piece.length = (left ++ piece).length := by rw [hm, List.length_append]
  -- the bytes left over, those read behind them, and the zero byte at the end
  have hbuf : At (update (fill g.buf g.m piece) (g.m + piece.length) 0) 0
      ((left ++ piece) ++ [0]) := by
    refine at_append.mpr ⟨at_append.mpr ⟨?_, ?_⟩, ?_⟩
    · refine (hat.congr fun i _ hi => fill_of_lt ?_).update (.inr ?_) <;> omega
    · rw [zero_add, ← hm]
      exact (at_fill piece).update (.inr le_rfl)
    · rw [zero_add, ← hm']
      exact at_update_self
  obtain ⟨ls, r, hsplit, hclean, hstuck, hp, hout, hrest⟩ := scan_spec pattern hbuf hsize hsize
  rw [zero_add] at hp hrest
  refine ⟨if ls = [] then [] else r, ls, r, ⟨hsplit, hclean, hstuck, ?_, rfl⟩, ?_⟩
  · rw [State.pass, ← hout]
    dsimp only
    split_ifs <;> rfl
  · have hlen' : g.m + piece.length = (join newline ls).length + r.length := by
      rw [hm', hsplit, List.length_append]
    rw [State.pass]
    dsimp only
    rw [hp]
    by_cases hls : ls = []
    · subst hls
      rw [if_pos rfl]
      exact ⟨rfl, trivial⟩
    · have hne : (join newline ls).length ≠ 0 := fun h0 =>
        hls (eq_nil_of_join_eq_nil (List.length_eq_zero_iff.mp h0))
      have hsub : g.m + piece.length - (join newline ls).length = r.length := by omega
      rw [if_neg hls, if_neg hne, if_pos (by omega), hsub]
      exact ⟨rfl, at_memmove hrest (Nat.zero_le _)⟩

/-! ## All pieces -/

section Runs

variable {pattern left : List UInt8} {cut : List (List UInt8)} {g : State}

theorem run_cons (piece : List UInt8) : g.run pattern (piece :: cut) =
    (g.pass pattern piece).2 ++ (g.pass pattern piece).1.run pattern cut := rfl

/-- If every piece brings a newline and no byte is zero, `grep` writes the matching ones of the
lines that it has read. -/
theorem run_of_newlines (h : g.Holds left) (hserved : g.Served pattern cut) (hleft : newline ∉ left)
    (h0 : 0 ∉ left ++ cut.flatten) (hnl : ∀ piece ∈ cut, newline ∈ piece) :
    ∃ ls r, left ++ cut.flatten = join newline ls ++ r ∧ (∀ l ∈ ls, newline ∉ l) ∧ newline ∉ r ∧
      g.run pattern cut = join newline (matching pattern ls) := by
  induction cut generalizing g left with
  | nil => exact ⟨[], left, by simp, nofun, hleft, rfl⟩
  | cons piece cut ih =>
    obtain ⟨hpiece, hlen, hserved⟩ := hserved
    obtain ⟨left', ls, r, hpass, hg'⟩ := pass_spec pattern h hlen hpiece
    rw [List.flatten_cons, ← List.append_assoc, hpass.split, List.append_assoc] at h0 ⊢
    have h0' : 0 ∉ r ++ cut.flatten := fun hmem => h0 (List.mem_append_right _ hmem)
    have hr : newline ∉ r :=
      hpass.stuck.newline_notMem fun hmem => h0' (List.mem_append_left _ hmem)
    -- the newline of the piece has been found
    have hls : ls ≠ [] := by
      rintro rfl
      have hsplit : left ++ piece = r := hpass.split
      exact hr (hsplit ▸ List.mem_append_right _ (hnl piece List.mem_cons_self))
    have hleft' : left' = r := by rw [hpass.left_eq, if_neg hls]
    subst hleft'
    obtain ⟨ls', r', hsplit, hls', hr', hrun⟩ :=
      ih hg' hserved hr h0' fun piece hp => hnl piece (List.mem_cons_of_mem _ hp)
    refine ⟨ls ++ ls', r', ?_, ?_, hr', ?_⟩
    · rw [hsplit, join_append, List.append_assoc]
    · intro l hl
      rcases List.mem_append.mp hl with hl | hl
      · exact (hpass.clean l hl).1
      · exact hls' l hl
    · rw [run_cons, hrun, hpass.out_eq, matching, matching, matching, List.filter_append,
        join_append]

theorem matchRe_nil (text : List UInt8) : matchRe [] text = true := by
  cases text <;> simp [matchRe, matchLoop, matchhere]

theorem matching_nil (ls : List (List UInt8)) : matching [] ls = ls :=
  List.filter_eq_self.mpr fun l _ => matchRe_nil l

/-- With the empty pattern, `grep` writes at most the bytes it has read, and no zero byte. -/
theorem run_nil_le (h : g.Holds left) (hserved : g.Served [] cut) :
    (g.run [] cut).length ≤ (left ++ cut.flatten).length ∧ 0 ∉ g.run [] cut := by
  induction cut generalizing g left with
  | nil => exact ⟨Nat.zero_le _, List.not_mem_nil⟩
  | cons piece cut ih =>
    obtain ⟨hpiece, hlen, hserved⟩ := hserved
    obtain ⟨left', ls, r, hpass, hg'⟩ := pass_spec [] h hlen hpiece
    obtain ⟨hle, h0⟩ := ih hg' hserved
    have hleft' := hpass.length_le
    rw [List.flatten_cons, ← List.append_assoc, hpass.split, run_cons, hpass.out_eq, matching_nil]
    simp only [List.length_append] at hle ⊢
    refine ⟨by omega, fun hmem => ?_⟩
    rcases List.mem_append.mp hmem with hmem | hmem
    · rcases mem_of_mem_join hmem with hnl | ⟨l, hl, hmem⟩
      · exact newline_ne_zero hnl.symm
      · exact (hpass.clean l hl).2 hmem
    · exact h0 hmem

/-- With the empty pattern, `grep` writes all bytes only if every piece brings a newline. -/
theorem newlines_of_run_nil (h : g.Holds left) (hserved : g.Served [] cut) (hleft : newline ∉ left)
    (h0 : 0 ∉ left ++ cut.flatten) (hlen : (g.run [] cut).length = (left ++ cut.flatten).length) :
    ∀ piece ∈ cut, newline ∈ piece := by
  induction cut generalizing g left with
  | nil => exact nofun
  | cons piece cut ih =>
    obtain ⟨hpiece, hreq, hserved⟩ := hserved
    obtain ⟨left', ls, r, hpass, hg'⟩ := pass_spec [] h hreq hpiece
    obtain ⟨hle, -⟩ := run_nil_le hg' hserved
    rw [List.flatten_cons, ← List.append_assoc] at hlen h0
    rw [run_cons, hpass.out_eq, matching_nil] at hlen
    have hpos : 0 < piece.length := List.length_pos_iff.mpr hpiece
    -- bytes that are thrown away are missing in the output
    have hls : ls ≠ [] := by
      rintro rfl
      rw [hpass.left_eq, if_pos rfl] at hle
      simp only [join_nil, List.nil_append, List.length_append] at hlen hle
      omega
    have hleft' : left' = r := by rw [hpass.left_eq, if_neg hls]
    subst hleft'
    have hmem : newline ∈ left ++ piece := by
      rw [hpass.split]
      exact List.mem_append_left _ (delimiter_mem_join hls)
    rw [hpass.split, List.append_assoc] at h0 hlen
    have h0' : 0 ∉ left' ++ cut.flatten := fun hmem => h0 (List.mem_append_right _ hmem)
    have hr : newline ∉ left' :=
      hpass.stuck.newline_notMem fun hmem => h0' (List.mem_append_left _ hmem)
    have hlen' : (State.run [] (g.pass [] piece).1 cut).length = (left' ++ cut.flatten).length := by
      simp only [List.length_append] at hlen ⊢
      omega
    rintro x (_ | ⟨_, hx⟩)
    · exact (List.mem_append.mp hmem).resolve_left hleft
    · exact ih hg' hserved hr h0' hlen' x hx

end Runs

/-- For lines that all end in a newline, and reads that each return at least one byte and no more
than asked for, `grep` writes the matching lines in order, for every pattern, exactly if every read
brings a newline and no byte is zero. -/
theorem grep_iff (lines : List (List UInt8)) (hlines : ∀ l ∈ lines, newline ∉ l) (buf : Buffer)
    (cut : List (List UInt8)) (hcut : cut.flatten = lines.flatMap (· ++ [newline]))
    (hserved : ∀ pattern, Served pattern buf cut) :
    (∀ pattern, grep pattern buf cut = matchingLines pattern lines) ↔
      (∀ piece ∈ cut, newline ∈ piece) ∧ 0 ∉ cut.flatten := by
  have hstart : State.Holds ⟨0, buf⟩ [] := ⟨rfl, trivial⟩
  constructor
  · intro h
    -- every line matches the empty pattern
    have hall : grep [] buf cut = cut.flatten := by
      rw [h [], hcut, matchingLines, List.filter_eq_self.mpr fun l _ => matchRe_nil _]
    have h0 : 0 ∉ cut.flatten := hall ▸ (run_nil_le hstart (hserved [])).2
    have hlen := congrArg List.length hall
    exact ⟨newlines_of_run_nil hstart (hserved []) List.not_mem_nil h0 hlen, h0⟩
  · rintro ⟨hnl, h0⟩ pattern
    obtain ⟨ls, r, hsplit, hls, hr, hrun⟩ :=
      run_of_newlines hstart (hserved pattern) List.not_mem_nil h0 hnl
    have hjoin : join newline ls ++ r = join newline lines ++ [] := by
      rw [← hsplit, List.append_nil]
      exact hcut
    obtain ⟨rfl, -⟩ := join_append_inj hls hlines hr List.not_mem_nil hjoin
    rw [grep, hrun, matchingLines]
    refine congrArg (join newline) (List.filter_congr fun l hl => ?_)
    -- without zero bytes the string of a line is the line
    have hline : 0 ∉ l := fun hmem => h0 (by
      rw [hcut]
      exact List.mem_flatMap.mpr ⟨l, hl, List.mem_append_left _ hmem⟩)
    rw [List.takeWhile_eq_self_iff.mpr fun b hb => ?_]
    exact decide_eq_true fun hb0 => hline (hb0 ▸ hb)

/-- Two lines arrive in two pieces, each of which brings a newline. -/
theorem grep_iff_two : grep [98] (fun _ => 0) [[97, 10, 98], [99, 10]] = [98, 99, 10] := by
  have hserved (pattern : List UInt8) : Served pattern (fun _ => 0) [[97, 10, 98], [99, 10]] := by
    refine ⟨by decide, by decide, by decide, ?_, trivial⟩
    have hstart : State.Holds ⟨0, fun _ => 0⟩ [] := ⟨rfl, trivial⟩
    have hrequest : ([97, 10, 98] : List UInt8).length ≤ State.request ⟨0, fun _ => 0⟩ := by decide
    obtain ⟨left, ls, r, hpass, hm, -⟩ := pass_spec pattern hstart hrequest (by decide)
    have hlen := congrArg List.length hpass.split
    have hle := hpass.length_le
    rw [List.length_append] at hlen
    rw [State.request, hm]
    simp [bufsize] at hlen ⊢
    omega
  have hgrep := grep_iff [[97], [98, 99]] (by decide) (fun _ => 0) [[97, 10, 98], [99, 10]]
    (by decide) hserved
  exact (hgrep.mpr (by decide) [98]).trans (by decide)

/-- The line `ab` arrives in two pieces. The first one is thrown away, and the rest does not match
the pattern `a`; in one piece it is found. -/
theorem not_grep : Served [97] (fun _ => 0) [[97], [98, 10]] ∧
    grep [97] (fun _ => 0) [[97], [98, 10]] = [] ∧
    grep [97] (fun _ => 0) [[97, 98, 10]] = [97, 98, 10] ∧
    matchingLines [97] [[97, 98]] = [97, 98, 10] := by
  refine ⟨⟨by decide, by decide, by decide, ?_, trivial⟩, by decide +kernel, by decide +kernel,
    by decide⟩
  decide +kernel

end Grep
