import OsnAssignments.Concert.Safety

/-!
# Signals

Two ways in which the signals of `perf_ends` miss those they are meant for.

A singer that has joined a performance waits for the signal of its host. It is sent only if some
artist has raised its flag, and lost if the singer has not reached `pthread_cond_wait`.

An artist that waits for a stage is signalled only if it is one of the first two with a raised
flag, and flags are never lowered, not even by artists that have left.
-/

namespace Concert

variable {S : Setup}

/-! ## Singers that have joined -/

/-- A call of `perf_ends` that reaches the singer on the stage. If the artist is no singer, some
other artist has raised its flag; and a singer that has joined is blocked by now. -/
def ReachesSinger (z : State S × Label S) : Prop :=
  ∀ curr, z.2.1 = (curr, .perfEnds) →
    (S.instrument curr ≠ 's' → ∃ i, z.1.Flagged curr i) ∧
    ∀ s, (z.1.artists s).pc ≠ .joined curr ∧ (z.1.artists s).pc ≠ .settling curr

instance decidableReachesSinger (z : State S × Label S) : Decidable (ReachesSinger z) :=
  inferInstanceAs (Decidable (∀ _, _ → (_ → _) ∧ ∀ _, _ ∧ _))

namespace State

/-- Every performer on a stage who can be joined is performing, and so is the host of every
singer. -/
structure Attended (σ : State S) : Prop where
  hosts : ∀ x i, (σ.stages x).performers0 = some i → S.instrument i ≠ 's' →
    (σ.artists i).pc = .performing
  beside : ∀ s host, (σ.artists s).pc.Beside host → (σ.artists host).pc = .performing

namespace Attended

variable {σ σ' : State S} {curr : S.ArtistId} {a : Action} {e : Event S} {x : S.StageId}

theorem initial : (State.initial S).Attended :=
  ⟨by simp [State.initial], by simp [State.initial, Pc.Beside]⟩

section

variable (h : σ.Attended)
include h

/-- Threads may move as long as the stages stay as they are. -/
theorem of_moves (hstages : σ'.stages = σ.stages)
    (hmoves : ∀ i, (σ.artists i).pc.Moves (σ'.artists i).pc) : σ'.Attended := by
  refine ⟨fun x i hi hother => ?_, fun s host hs => ?_⟩
  · rw [hstages] at hi
    exact (hmoves i).performing_iff.mpr (h.hosts x i hi hother)
  · exact (hmoves host).performing_iff.mpr (h.beside s host ((hmoves s).beside_of hs))

theorem take (curr : S.ArtistId) (x : S.StageId) : (σ.take curr x).Attended := by
  have hself : ((σ.take curr x).artists curr).pc = .performing := by rw [artists_take_self]
  have hothers (i : S.ArtistId) (hi : i ≠ curr) :
      ((σ.take curr x).artists i).pc = (σ.artists i).pc := by rw [artists_take_of_ne hi]
  refine ⟨fun y i hi hother => ?_, fun s host hs => ?_⟩
  · rcases eq_or_ne i curr with rfl | hne
    · exact hself
    · rw [hothers i hne]
      refine h.hosts y i ?_ hother
      -- the only slot that changes is the one `curr` takes
      rcases eq_or_ne y x with rfl | hy
      · rw [stages_take_self] at hi
        exact absurd (Option.some.inj hi).symm hne
      · rwa [stages_take_of_ne hy] at hi
  · rcases eq_or_ne s curr with rfl | hne
    · simp [hself, Pc.Beside] at hs
    · rw [hothers s hne] at hs
      rcases eq_or_ne host curr with rfl | hne'
      · exact hself
      · rw [hothers host hne']
        exact h.beside s host hs

theorem join {host : S.ArtistId} (hpc : (σ.artists curr).pc = .entering)
    (hhost : (σ.stages x).performers0 = some host) (hother : S.instrument host ≠ 's') :
    (σ.join curr host x).Attended := by
  have hself : ((σ.join curr host x).artists curr).pc = .joined host := by
    rw [State.join, artists_modifyArtist_self]
  have hothers (i : S.ArtistId) (hi : i ≠ curr) :
      ((σ.join curr host x).artists i).pc = (σ.artists i).pc := (artists_join_of_ne hi).2.1
  have hslots (y : S.StageId) :
      ((σ.join curr host x).stages y).performers0 = (σ.stages y).performers0 := by
    rcases eq_or_ne y x with rfl | hy
    · rw [stages_join_self]
    · rw [stages_join_of_ne hy]
  -- `curr` was not performing before
  have hkeep (i : S.ArtistId) (hi : (σ.artists i).pc = .performing) :
      ((σ.join curr host x).artists i).pc = .performing := by
    rw [hothers i fun heq => by simp [heq, hpc] at hi]
    exact hi
  refine ⟨fun y i hi hother' => ?_, fun s host' hs => ?_⟩
  · rw [hslots y] at hi
    exact hkeep i (h.hosts y i hi hother')
  · rcases eq_or_ne s curr with rfl | hne
    · obtain rfl : host = host' := by simpa [hself, Pc.Beside] using hs
      exact hkeep host (h.hosts x host hhost hother)
    · rw [hothers s hne] at hs
      exact hkeep host' (h.beside s host' hs)

/-- A call of `perf_ends` that reaches the singer on the stage. -/
theorem vacate (hsafe : σ.Safe) (hpc : (σ.artists curr).pc = .performing)
    (hx : (σ.artists curr).stageAssigned = some x)
    (hflag : S.instrument curr ≠ 's' → ∃ i, σ.Flagged curr i)
    (hblocked : ∀ s, (σ.artists s).pc ≠ .joined curr ∧ (σ.artists s).pc ≠ .settling curr) :
    (σ.vacate curr x).Attended := by
  have hkeep (i : S.ArtistId) (hi : i ≠ curr) (hperf : (σ.artists i).pc = .performing) :
      ((σ.vacate curr x).artists i).pc = .performing :=
    (moves_vacate hi).performing_iff.mpr hperf
  refine ⟨fun y i hi hother => ?_, fun s host hs => ?_⟩
  · rcases eq_or_ne i curr with rfl | hne
    · -- the stage of `curr` has been cleared, and it was on no other
      have hclear := hflag hother
      simp only [State.vacate, if_pos hclear] at hi
      rcases eq_or_ne y x with rfl | hy
      · simp at hi
      · rw [Function.update_of_ne hy] at hi
        have hassigned := ((hsafe.stage y).first i hi).1
        exact absurd (Option.mem_unique hassigned hx) hy
    · refine hkeep i hne (h.hosts y i ?_ hother)
      simp only [State.vacate] at hi
      split at hi
      · rcases eq_or_ne y x with rfl | hy
        · simp at hi
        · rwa [Function.update_of_ne hy] at hi
      · exact hi
  · have hne : s ≠ curr := by
      rintro rfl
      simp [State.vacate, Pc.Beside] at hs
    have hbeside := (moves_vacate (x := x) hne).beside_of hs
    have hperf := h.beside s host hbeside
    rcases eq_or_ne host curr with rfl | hne'
    · -- a singer blocked next to `curr` has just been signalled
      obtain ⟨y, hassigned, hended | ⟨-, hy₀, hy₁⟩⟩ := (hsafe.artist s).beside host hbeside
      · rw [hpc] at hended
        cases hended
      obtain rfl : y = x :=
        Option.some.inj (((hsafe.stage y).first host hy₀).1.symm.trans hx)
      obtain ⟨host', hhost', -, hother⟩ := (hsafe.stage y).pair s hy₁
      obtain rfl := Option.mem_unique hy₀ hhost'
      have hsignalled : σ.Signalled host y s := .inr ⟨hflag hother, hy₁⟩
      have hsinging : (σ.artists s).pc = .singing host := by
        rcases hbeside with hj | hj | hj
        · exact absurd hj (hblocked s).1
        · exact absurd hj (hblocked s).2
        · exact hj
      simp [State.vacate, hne, hsignalled, Artist.signal, hsinging, Pc.signal, Pc.Beside] at hs
    · exact hkeep host hne' hperf

/-- The steps that meet the condition keep every host performing. -/
theorem move (hsafe : σ.Safe) (hmove : Move σ curr a e σ')
    (hreach : ReachesSinger (σ, ((curr, a), e))) : σ'.Attended := by
  cases hmove with
  | take => exact h.take _ _
  | join hpc hhost _ _ hother => exact h.join hpc hhost hother
  | block hpc => exact h.of_moves rfl (moves_modifyArtist (by rw [hpc]; exact .block))
  | timeout hpc => exact h.of_moves rfl (moves_modifyArtist (by rw [hpc]; exact .timeout))
  | wake => exact h.of_moves rfl (moves_modifyArtist (.signal _))
  | lookup hpc => exact h.of_moves rfl (moves_modifyArtist (by rw [hpc]; exact .lookup _))
  | condWait hpc => exact h.of_moves rfl (moves_modifyArtist (by rw [hpc]; exact .condWait _))
  | perfEnds hpc hx =>
    obtain ⟨hflag, hblocked⟩ := hreach curr rfl
    exact h.vacate hsafe hpc hx hflag hblocked

end

theorem of_run {hist : List (State S × Label S)} (hrun : (concert S).Run hist σ)
    (hreach : ∀ z ∈ hist, ReachesSinger z) : σ.Attended := by
  induction hrun with
  | init h =>
    rw [show _ = State.initial S from h]
    exact .initial
  | @step _ σ σ' l hrun hstep ih =>
    obtain ⟨⟨curr, a⟩, e⟩ := l
    have hbefore := ih fun z hz => hreach z (List.mem_cons_of_mem _ hz)
    exact hbefore.move (.of_run hrun) (move_of_step hstep) (hreach _ List.mem_cons_self)

end Attended

end State

section Run

variable {hist : List (State S × Label S)} {σ : State S}

/-- Until its host's `perf_ends` runs, a singer that has joined finds the host in `performers[0]`.
If every `perf_ends` of the run reaches the singer, the host performs until the singer leaves. -/
theorem singer_attended (hrun : (concert S).Run hist σ) :
    (∀ s host, (σ.artists s).pc.Beside host → ∃ x, (σ.artists s).stageAssigned = some x ∧
      ((σ.artists host).pc = .performing → (σ.stages x).performers .first = some host)) ∧
    ((∀ z ∈ hist, ReachesSinger z) → ∀ s host, (σ.artists s).pc.Beside host →
      (σ.artists host).pc = .performing ∧ ∃ x, (σ.artists s).stageAssigned = some x ∧
        (σ.stages x).performers .first = some host) := by
  have hsafe : σ.Safe := .of_run hrun
  have hfirst (s host : S.ArtistId) (hs : (σ.artists s).pc.Beside host) :
      ∃ x, (σ.artists s).stageAssigned = some x ∧
        ((σ.artists host).pc = .performing → (σ.stages x).performers .first = some host) := by
    -- the record is lost only when the host's `perf_ends` clears the stage
    obtain ⟨x, hx, hended | ⟨-, hx₀, -⟩⟩ := (hsafe.artist s).beside host hs
    · refine ⟨x, hx, fun hperf => ?_⟩
      rw [hended] at hperf
      cases hperf
    · exact ⟨x, hx, fun _ => hx₀⟩
  refine ⟨hfirst, fun hreach s host hs => ?_⟩
  have hperf := (State.Attended.of_run hrun hreach).beside s host hs
  obtain ⟨x, hx, hrec⟩ := hfirst s host hs
  exact ⟨hperf, x, hx, hrec hperf⟩

/-- A pianist, a singer, a violinist and another singer, and an acoustic stage. -/
abbrev evening : Setup where
  noOfArtists := 4
  noOfAstages := 1
  noOfEstages := 0
  instrument i := if i.val = 0 then 'p' else if i.val = 2 then 'v' else 's'

/-- The artist of `evening` with index `i` modulo four. -/
def evening.artist (i : ℕ) : evening.ArtistId :=
  ⟨i % 4, Nat.mod_lt i (Nat.succ_pos 3)⟩

/-- The first singer is blocked next to the pianist when the pianist ends; the violinist waits, and
takes the stage with the second singer. -/
def program : List (evening.ArtistId × Action) :=
  [(evening.artist 0, .artistWait), (evening.artist 1, .artistWait), (evening.artist 1, .lookup),
    (evening.artist 1, .condWait), (evening.artist 2, .artistWait), (evening.artist 0, .perfEnds),
    (evening.artist 2, .artistWait), (evening.artist 3, .artistWait)]

/-- The second singer finds the violinist. -/
theorem singer_attended_program :
    ∃ hist σ, (concert evening).Run hist σ ∧
      (∃ z ∈ hist, z.2.1 = (evening.artist 0, .perfEnds)) ∧
      (σ.artists (evening.artist 3)).pc.Beside (evening.artist 2) ∧
      (σ.artists (evening.artist 2)).pc = .performing := by
  obtain ⟨hist, σ, hrun, hσ⟩ := exists_run program
    (fun hist σ => decide ((∃ z ∈ hist, z.2.1 = (evening.artist 0, .perfEnds)) ∧
      (∀ z ∈ hist, ReachesSinger z) ∧
      (σ.artists (evening.artist 3)).pc.Beside (evening.artist 2))) (by decide +kernel)
  obtain ⟨hends, hreach, hbeside⟩ := of_decide_eq_true hσ
  exact ⟨hist, σ, hrun, hends, hbeside, ((singer_attended hrun).2 hreach _ _ hbeside).1⟩

/-- The pianist ends before the singer has read `performers[0]`. -/
def interrupted : List (evening.ArtistId × Action) :=
  [(evening.artist 0, .artistWait), (evening.artist 1, .artistWait),
    (evening.artist 2, .artistWait), (evening.artist 0, .perfEnds), (evening.artist 1, .lookup),
    (evening.artist 1, .condWait)]

/-- The singer reads `-1` for its host, and blocks after the host's `perf_ends` has returned. -/
theorem not_singer_attended :
    ∃ hist σ, (concert evening).Run hist σ ∧
      (∃ z ∈ hist, z.2 = ((evening.artist 1, .lookup), .lookup none)) ∧
      (σ.artists (evening.artist 1)).pc = .singing (evening.artist 0) ∧
      (σ.artists (evening.artist 0)).pc = .done := by
  obtain ⟨hist, σ, hrun, hσ⟩ := exists_run interrupted
    (fun hist σ => decide ((∃ z ∈ hist, z.2 = ((evening.artist 1, .lookup), .lookup none)) ∧
      (σ.artists (evening.artist 1)).pc = .singing (evening.artist 0) ∧
      (σ.artists (evening.artist 0)).pc = .done)) (by decide +kernel)
  exact ⟨hist, σ, hrun, of_decide_eq_true hσ⟩

end Run

/-! ## Artists that wait for a stage -/

/-- The artist `w` could use the stage `x`. -/
def Setup.CanUse (S : Setup) (w : S.ArtistId) (x : S.StageId) : Prop :=
  S.stageReq w = 2 ∨ S.stageReq w = 0 ∧ S.stagetype x = .a ∨ S.stageReq w = 1 ∧ S.stagetype x = .e

instance decidableCanUse (w : S.ArtistId) (x : S.StageId) : Decidable (S.CanUse w x) :=
  inferInstanceAs (Decidable (_ ∨ _ ∧ _ ∨ _ ∧ _))

namespace State

/-- The number of raised flags, other than that of `curr`, in front of `w`. -/
def flagsBefore (σ : State S) (curr w : S.ArtistId) : ℕ :=
  (List.finRange _).countP fun i => i < w ∧ σ.Flagged curr i

theorem mem_firstFlagged {σ : State S} {curr w : S.ArtistId} :
    w ∈ σ.firstFlagged curr ↔ σ.Flagged curr w ∧ σ.flagsBefore curr w < 2 := by
  have hsorted := List.pairwise_lt_finRange S.noOfArtists
  have hmem := Loop.mem_take_filter_iff (P := σ.Flagged curr) (m := 2) (a := w) hsorted
  simpa [firstFlagged, flagsBefore] using hmem

end State

section Run

variable {hist : List (State S × Label S)} {σ σ' : State S} {curr : S.ArtistId} {x : S.StageId}
  {signalled : List S.ArtistId}

/-- A call of `perf_ends` signals an artist that is blocked and could use the stage exactly if there
is such an artist with at most one raised flag in front of it. -/
theorem hands_over_iff (hrun : (concert S).Run hist σ)
    (hstep : (concert S).step σ ((curr, .perfEnds), .ended x signalled) σ') :
    (∃ w ∈ signalled, (σ.artists w).pc = .blocked ∧ S.CanUse w x) ↔
      ∃ w, (σ.artists w).pc = .blocked ∧ S.CanUse w x ∧ σ.flagsBefore curr w ≤ 1 := by
  have hsafe : σ.Safe := .of_run hrun
  have hmove : State.Move σ curr .perfEnds (.ended x signalled) σ' := State.move_of_step hstep
  obtain ⟨hpc, hsignalled⟩ : (σ.artists curr).pc = .performing ∧
      ∀ j, j ∈ signalled ↔ σ.Signalled curr x j := by
    cases hmove with
    | perfEnds hpc hx hsignalled => exact ⟨hpc, hsignalled⟩
  constructor
  · rintro ⟨w, hw, hblocked, huse⟩
    refine ⟨w, hblocked, huse, ?_⟩
    rcases (hsignalled w).mp hw with hfirst | ⟨-, hsecond⟩
    · exact Nat.le_of_lt_succ (State.mem_firstFlagged.mp hfirst).2
    · -- the singer on the stage does not wait for a stage
      have hplace := ((hsafe.stage x).second w hsecond).2
      simp [hblocked, Pc.Beside] at hplace
  · rintro ⟨w, hblocked, huse, hfew⟩
    -- an artist that is blocked has its flag up, so that only the flags in front of it matter
    have hne : w ≠ curr := by
      rintro rfl
      rw [hpc] at hblocked
      cases hblocked
    have hflag : σ.Flagged curr w := ⟨hne, (hsafe.artist w).flag hblocked⟩
    have hfirst := State.mem_firstFlagged.mpr ⟨hflag, Nat.lt_succ_of_le hfew⟩
    exact ⟨w, (hsignalled w).mpr (.inl hfirst), hblocked, huse⟩

/-- The second pianist, who waits, is signalled at the end of the first performance. -/
theorem hands_over_rivals :
    ∃ hist σ σ' x signalled, (concert rivals).Run hist σ ∧
      (concert rivals).step σ ((winner, .perfEnds), .ended x signalled) σ' ∧
      ∃ w ∈ signalled, (σ.artists w).pc = .blocked ∧ rivals.CanUse w x := by
  obtain ⟨hist, σ, hrun, hσ⟩ := exists_run (S := rivals)
    [(winner, .artistWait), (loser, .artistWait)]
    (fun _ σ => (σ.perfEnds winner).any fun r : State rivals × Event rivals =>
      decide (∃ x, r.2 = .ended x [loser] ∧ (σ.artists loser).pc = .blocked ∧
        rivals.CanUse loser x ∧ σ.flagsBefore winner loser ≤ 1)) (by decide +kernel)
  obtain ⟨⟨σ', e⟩, hstep, hσ⟩ := (Option.any_eq_true _ _).mp hσ
  obtain ⟨x, rfl, hneeds⟩ := of_decide_eq_true hσ
  exact ⟨hist, σ, σ', x, [loser], hrun, hstep, (hands_over_iff hrun hstep).mpr ⟨loser, hneeds⟩⟩

/-- Four violinists, and an acoustic stage. -/
abbrev quartet : Setup where
  noOfArtists := 4
  noOfAstages := 1
  noOfEstages := 0
  instrument _ := 'v'

/-- The violinist with index `i` modulo four. -/
def quartet.artist (i : ℕ) : quartet.ArtistId :=
  ⟨i % 4, Nat.mod_lt i (Nat.succ_pos 3)⟩

/-- While the third violinist performs, the first two wait and leave; then the fourth waits. -/
def staleFlags : List (quartet.ArtistId × Action) :=
  [(quartet.artist 2, .artistWait), (quartet.artist 0, .artistWait), (quartet.artist 0, .timeout),
    (quartet.artist 1, .artistWait), (quartet.artist 1, .timeout), (quartet.artist 3, .artistWait)]

/-- Both signals go to artists that have left. -/
theorem not_hands_over :
    ∃ hist σ σ' x signalled, (concert quartet).Run hist σ ∧
      (concert quartet).step σ ((quartet.artist 2, .perfEnds), .ended x signalled) σ' ∧
      (σ'.stages x).performers .first = none ∧
      (∃ w, (σ.artists w).pc = .blocked ∧ quartet.CanUse w x) ∧
      ¬ ∃ w ∈ signalled, (σ.artists w).pc = .blocked := by
  obtain ⟨hist, σ, hrun, hσ⟩ := exists_run staleFlags
    (fun _ σ => (σ.perfEnds (quartet.artist 2)).any fun r : State quartet × Event quartet =>
      decide (∃ x, r.2 = .ended x [quartet.artist 0, quartet.artist 1] ∧
        (r.1.stages x).performers .first = none ∧
        (∃ w, (σ.artists w).pc = .blocked ∧ quartet.CanUse w x) ∧
        ¬ ∃ w ∈ [quartet.artist 0, quartet.artist 1], (σ.artists w).pc = .blocked))
    (by decide +kernel)
  obtain ⟨⟨σ', e⟩, hstep, hσ⟩ := (Option.any_eq_true _ _).mp hσ
  obtain ⟨x, rfl, hfreed, hneeds, hmissed⟩ := of_decide_eq_true hσ
  exact ⟨hist, σ, σ', x, _, hrun, hstep, hfreed, hneeds, hmissed⟩

end Run

end Concert
