import OsnAssignments.Concert.Model

/-!
# What each step of an artist does

`State.Move` lists the steps once, so that invariants are proved by its cases. `perf_ends` is
described by its outcome (`State.vacate`): its loop signals the first two flagged artists and the
singer on the stage, and clears the stage, but does nothing if there is no flagged artist.
-/

namespace Concert

open Function

variable {S : Setup}

/-! ## Frame lemmas -/

namespace State

variable (σ : State S) (i : S.ArtistId) (x : S.StageId)

@[simp]
theorem artists_modifyArtist_self (f : Artist S → Artist S) :
    (σ.modifyArtist i f).artists i = f (σ.artists i) :=
  update_self ..

@[simp]
theorem stages_modifyArtist (f : Artist S → Artist S) : (σ.modifyArtist i f).stages = σ.stages :=
  rfl

@[simp]
theorem artists_modifyStage (f : Stage S → Stage S) : (σ.modifyStage x f).artists = σ.artists :=
  rfl

@[simp]
theorem stages_modifyStage_self (f : Stage S → Stage S) :
    (σ.modifyStage x f).stages x = f (σ.stages x) :=
  update_self ..

@[simp]
theorem stages_setPc (pc : Pc S) : (σ.setPc i pc).stages = σ.stages :=
  rfl

@[simp]
theorem stages_signal : (σ.signal i).stages = σ.stages :=
  rfl

variable {σ i x}
variable {y : S.StageId}

theorem artists_modifyArtist_of_ne {j : S.ArtistId} (h : j ≠ i) (f : Artist S → Artist S) :
    (σ.modifyArtist i f).artists j = σ.artists j :=
  update_of_ne h ..

theorem stages_modifyStage_of_ne (h : y ≠ x) (f : Stage S → Stage S) :
    (σ.modifyStage x f).stages y = σ.stages y :=
  update_of_ne h ..

/-! ### Taking a stage and joining a performance -/

variable {curr host : S.ArtistId}

theorem artists_take_self : (σ.take curr x).artists curr =
    { σ.artists curr with stageAssigned := some x, pc := .performing } :=
  artists_modifyArtist_self ..

theorem artists_take_of_ne (hi : i ≠ curr) : (σ.take curr x).artists i = σ.artists i := by
  rw [take, artists_modifyArtist_of_ne hi, artists_modifyStage]

theorem stages_take_self : (σ.take curr x).stages x = ⟨some curr, (σ.stages x).performers1⟩ := by
  rw [take, stages_modifyArtist, stages_modifyStage_self]

theorem stages_take_of_ne (hy : y ≠ x) : (σ.take curr x).stages y = σ.stages y := by
  rw [take, stages_modifyArtist, stages_modifyStage_of_ne hy]

theorem artists_join_self (hne : host ≠ curr) : (σ.join curr host x).artists curr =
    { σ.artists curr with stageAssigned := some x, pc := .joined host } := by
  rw [join, artists_modifyArtist_self, artists_modifyArtist_of_ne hne.symm, artists_modifyStage]

/-- The record of the host changes, but only in `imp_flag`. -/
theorem artists_join_of_ne (hi : i ≠ curr) :
    ((σ.join curr host x).artists i).stageAssigned = (σ.artists i).stageAssigned ∧
      ((σ.join curr host x).artists i).pc = (σ.artists i).pc ∧
      ((σ.join curr host x).artists i).waiting = (σ.artists i).waiting := by
  rw [join, artists_modifyArtist_of_ne hi]
  rcases eq_or_ne i host with rfl | hih
  · rw [artists_modifyArtist_self]
    exact ⟨rfl, rfl, rfl⟩
  · rw [artists_modifyArtist_of_ne hih]
    exact ⟨rfl, rfl, rfl⟩

theorem stages_join_self :
    (σ.join curr host x).stages x = ⟨(σ.stages x).performers0, some curr⟩ := by
  rw [join, stages_modifyArtist, stages_modifyArtist, stages_modifyStage_self]

theorem stages_join_of_ne (hy : y ≠ x) : (σ.join curr host x).stages y = σ.stages y := by
  rw [join, stages_modifyArtist, stages_modifyArtist, stages_modifyStage_of_ne hy]

end State

theorem Pc.signal_signal (pc : Pc S) : pc.signal.signal = pc.signal := by
  cases pc <;> rfl

theorem Pc.signal_ne_blocked (pc : Pc S) : pc.signal ≠ .blocked := by
  cases pc <;> simp [Pc.signal]

/-! ## What `perf_ends` does -/

/-- The record of an artist after a signal. -/
def Artist.signal (a : Artist S) : Artist S :=
  { a with pc := a.pc.signal }

theorem Artist.signal_signal (a : Artist S) : a.signal.signal = a.signal := by
  simp [Artist.signal, Pc.signal_signal]

theorem State.artists_signal (σ : State S) (i j : S.ArtistId) :
    (σ.signal i).artists j = if j = i then (σ.artists j).signal else σ.artists j := by
  by_cases h : j = i
  · subst h
    simp [State.signal, Artist.signal]
  · rw [if_neg h]
    exact State.artists_modifyArtist_of_ne h _

namespace State

/-- The artist `i` has raised its flag and is not the one whose performance ends. -/
def Flagged (σ : State S) (curr i : S.ArtistId) : Prop :=
  i ≠ curr ∧ (σ.artists i).waiting = true

instance decidableFlagged (σ : State S) (curr i : S.ArtistId) : Decidable (σ.Flagged curr i) :=
  inferInstanceAs (Decidable (_ ∧ _))

/-- The first two artists with a raised flag. -/
def firstFlagged (σ : State S) (curr : S.ArtistId) : List S.ArtistId :=
  ((List.finRange _).filter fun i => σ.Flagged curr i).take 2

/-- The artists that `perf_ends` signals: the first two with a raised flag, and the singer on the
stage, unless no flag is raised. -/
def Signalled (σ : State S) (curr : S.ArtistId) (x : S.StageId) (j : S.ArtistId) : Prop :=
  j ∈ σ.firstFlagged curr ∨ (∃ i, σ.Flagged curr i) ∧ (σ.stages x).performers1 = some j

instance decidableSignalled (σ : State S) (curr : S.ArtistId) (x : S.StageId) (j : S.ArtistId) :
    Decidable (σ.Signalled curr x j) :=
  inferInstanceAs (Decidable (_ ∨ _ ∧ _))

theorem firstFlagged_eq_nil_iff {σ : State S} {curr : S.ArtistId} :
    σ.firstFlagged curr = [] ↔ ¬ ∃ i, σ.Flagged curr i := by
  simp [firstFlagged, List.filter_eq_nil_iff]

end State

namespace Release

open State

/-- The four branches of the loop of `perf_ends` do the same. -/
theorem body_eq (curr : S.ArtistId) (x : S.StageId) (r : Release S) (i : S.ArtistId) :
    r.body curr x i =
      if r.num < 2 ∧ r.state.Flagged curr i then r.handOver x i else r := by
  unfold body
  simp only [ite_self]
  rfl

section

variable (x : S.StageId)

theorem artists_handOver (r : Release S) (i j : S.ArtistId) : (r.handOver x i).state.artists j =
      if j = i ∨ (r.state.stages x).performers1 = some j then (r.state.artists j).signal
      else r.state.artists j := by
  unfold handOver
  cases hsinger : (r.state.stages x).performers1 with
  | none => simp [hsinger, artists_signal]
  | some s =>
    simp only [stages_signal, stages_modifyStage_self, hsinger, artists_modifyStage,
      artists_signal, Option.some.injEq]
    -- an artist that is signalled twice is as after one signal
    rcases eq_or_ne j i with rfl | hi <;> rcases eq_or_ne j s with rfl | hs
    · simp [Artist.signal_signal]
    · simp [hs]
    · simp [hi]
    · simp [hi, hs, hs.symm]

theorem stages_handOver (r : Release S) (i : S.ArtistId) :
    (r.handOver x i).state.stages = update r.state.stages x ⟨none, none⟩ := by
  unfold handOver
  cases hsinger : (r.state.stages x).performers1 with
  | none | some => simp [hsinger, modifyStage, signal, modifyArtist]

theorem mem_signalled_handOver (r : Release S) (i j : S.ArtistId) : j ∈ (r.handOver x i).signalled ↔
      j ∈ r.signalled ∨ j = i ∨ (r.state.stages x).performers1 = some j := by
  simp [handOver]

/-- The loop over the artists that are signalled. -/
theorem foldl_handOver (l : List S.ArtistId) (r : Release S) :
    ((l.foldl (handOver x) r).state.stages =
        if l = [] then r.state.stages else update r.state.stages x ⟨none, none⟩) ∧
      (∀ j, (l.foldl (handOver x) r).state.artists j =
        if j ∈ l ∨ l ≠ [] ∧ (r.state.stages x).performers1 = some j
        then (r.state.artists j).signal else r.state.artists j) ∧
      ∀ j, j ∈ (l.foldl (handOver x) r).signalled ↔
        j ∈ r.signalled ∨ j ∈ l ∨ l ≠ [] ∧ (r.state.stages x).performers1 = some j := by
  induction l generalizing r with
  | nil => simp
  | cons i l ih =>
    -- after the first iteration the stage is empty, and the others find no singer
    obtain ⟨hstages, hartists, hsignalled⟩ := ih (r.handOver x i)
    have hempty : ((r.handOver x i).state.stages x).performers1 = none := by
      rw [stages_handOver, update_self]
    rw [hempty] at hartists hsignalled
    rw [List.foldl_cons]
    refine ⟨?_, fun j => ?_, fun j => ?_⟩
    · rw [hstages, stages_handOver]
      simp
    · rw [hartists, artists_handOver]
      by_cases hj : j ∈ l
      · by_cases hi : j = i ∨ (r.state.stages x).performers1 = some j
        · simp [hj, hi, Artist.signal_signal]
        · simp [hj, hi]
      · simp [hj]
    · rw [hsignalled, mem_signalled_handOver]
      simp only [List.mem_cons, reduceCtorEq, and_false, or_false, ne_eq, not_false_eq_true,
        true_and]
      tauto

end

theorem flagged_handOver (curr : S.ArtistId) (x : S.StageId) (r : Release S) (i j : S.ArtistId) :
    (r.handOver x i).state.Flagged curr j ↔ r.state.Flagged curr j := by
  unfold Flagged
  rw [artists_handOver]
  split <;> rfl

/-- The loop of `perf_ends` is the loop over the first two artists with a raised flag. -/
theorem foldl_body (curr : S.ArtistId) (x : S.StageId) (σ : State S) :
    (List.finRange _).foldl (body curr x) ⟨σ, 0, []⟩ =
      (σ.firstFlagged curr).foldl (handOver x) ⟨σ, 0, []⟩ := by
  have hbody : body curr x = fun r i =>
      if r.num < 2 ∧ r.state.Flagged curr i then r.handOver x i else r := by
    funext r i
    exact body_eq curr x r i
  rw [hbody]
  exact Loop.foldl_capped Release.num (fun r i => r.state.Flagged curr i) (fun _ _ => rfl)
    (flagged_handOver curr x) _ _

end Release

namespace State

/-- The state after `perf_ends` by `curr` on stage `x`. -/
def vacate (σ : State S) (curr : S.ArtistId) (x : S.StageId) : State S where
  artists j :=
    let a := if σ.Signalled curr x j then (σ.artists j).signal else σ.artists j
    if j = curr then { a with pc := .done } else a
  stages :=
    if ∃ i, σ.Flagged curr i then update σ.stages x ⟨none, none⟩ else σ.stages

theorem perfEnds_eq {σ : State S} {curr : S.ArtistId} {x : S.StageId}
    (hpc : (σ.artists curr).pc = .performing) (hx : (σ.artists curr).stageAssigned = some x) :
    ∃ signalled, σ.perfEnds curr = some (σ.vacate curr x, .ended x signalled) ∧
      ∀ j, j ∈ signalled ↔ σ.Signalled curr x j := by
  have hnil : σ.firstFlagged curr ≠ [] ↔ ∃ i, σ.Flagged curr i := by
    rw [ne_eq, firstFlagged_eq_nil_iff, not_not]
  obtain ⟨hstages, hartists, hsignalled⟩ :=
    Release.foldl_handOver x (σ.firstFlagged curr) ⟨σ, 0, []⟩
  simp only [hnil] at hartists hsignalled
  replace hartists := fun j => (hartists j).trans
    (if_congr (Iff.rfl : _ ↔ σ.Signalled curr x j) rfl rfl)
  have hstate :
      ((σ.firstFlagged curr).foldl (Release.handOver x) ⟨σ, 0, []⟩).state.setPc curr .done =
        σ.vacate curr x := by
    apply State.ext
    · funext j
      by_cases hj : j = curr
      · subst hj
        rw [setPc, artists_modifyArtist_self, hartists]
        simp [vacate]
      · rw [setPc, artists_modifyArtist_of_ne hj, hartists]
        simp [vacate, hj]
    · rw [stages_setPc, hstages]
      by_cases hflag : ∃ i, σ.Flagged curr i
      · simp [vacate, hflag, hnil.mpr hflag]
      · simp [vacate, hflag, firstFlagged_eq_nil_iff.mpr hflag]
  refine ⟨((σ.firstFlagged curr).foldl (Release.handOver x) ⟨σ, 0, []⟩).signalled, ?_, ?_⟩
  · unfold perfEnds
    simp only [hpc, hx]
    rw [Release.foldl_body, hstate]
  · intro j
    rw [hsignalled]
    simp [Signalled]

/-! ## What a step does -/

/-- The steps of the artist `curr`. -/
inductive Move (σ : State S) (curr : S.ArtistId) : Action → Event S → State S → Prop
  | take {x : S.StageId} (hpc : (σ.artists curr).pc = .entering) (hsuits : σ.Suits curr x)
      (hfree : (σ.stages x).performers0 = none) :
      Move σ curr .artistWait .silent (σ.take curr x)
  | join {x : S.StageId} {host : S.ArtistId} (hpc : (σ.artists curr).pc = .entering)
      (hhost : (σ.stages x).performers0 = some host) (hfree : (σ.stages x).performers1 = none)
      (hsinger : S.instrument curr = 's') (hother : S.instrument host ≠ 's') :
      Move σ curr .artistWait .silent (σ.join curr host x)
  | block (hpc : (σ.artists curr).pc = .entering) (hnone : ∀ x, ¬ σ.Suits curr x) :
      Move σ curr .artistWait .silent
        (σ.modifyArtist curr fun a => { a with waiting := true, pc := .blocked })
  | timeout (hpc : (σ.artists curr).pc = .blocked) :
      Move σ curr .timeout .silent (σ.setPc curr .left)
  | wake : Move σ curr .wake .silent (σ.signal curr)
  | lookup {x : S.StageId} {host : S.ArtistId} (hpc : (σ.artists curr).pc = .joined host)
      (hx : (σ.artists curr).stageAssigned = some x) :
      Move σ curr .lookup (.lookup (σ.stages x).performers0) (σ.setPc curr (.settling host))
  | condWait {host : S.ArtistId} (hpc : (σ.artists curr).pc = .settling host) :
      Move σ curr .condWait .silent (σ.setPc curr (.singing host))
  | perfEnds {x : S.StageId} {signalled : List S.ArtistId}
      (hpc : (σ.artists curr).pc = .performing) (hx : (σ.artists curr).stageAssigned = some x)
      (hsignalled : ∀ j, j ∈ signalled ↔ σ.Signalled curr x j) :
      Move σ curr .perfEnds (.ended x signalled) (σ.vacate curr x)

variable {σ σ' : State S} {curr : S.ArtistId} {a : Action} {e : Event S}

/-- A stage that suits an artist and is not free is one where the artist can join. -/
theorem Suits.canJoin {x : S.StageId} {host : S.ArtistId} (h : σ.Suits curr x)
    (hhost : (σ.stages x).performers0 = some host) :
    (σ.stages x).performers1 = none ∧ S.instrument curr = 's' ∧ S.instrument host ≠ 's' := by
  unfold Suits at h
  rw [hhost] at h
  split_ifs at h
  · cases h.2
  · cases h.2
  · obtain ⟨hfree, hjoin | hnone⟩ := h
    · obtain ⟨host', hmem, hsinger, hother⟩ := hjoin
      rw [hhost, Option.mem_some] at hmem
      subst hmem
      exact ⟨hfree, hsinger, hother⟩
    · cases hnone

theorem move_of_artistWait (h : σ.artistWait curr = some (σ', e)) :
    Move σ curr .artistWait e σ' := by
  obtain ⟨hpc, h⟩ := Transition.guard_bind_eq_some.mp h
  cases hfind : (List.finRange _).find? fun i => σ.Suits curr i with
  | none =>
    rw [hfind] at h
    cases h
    refine .block hpc fun x => ?_
    simpa using List.find?_eq_none.mp hfind x (List.mem_finRange x)
  | some x =>
    have hsuits : σ.Suits curr x := Loop.of_find?_eq_some hfind
    rw [hfind] at h
    cases hhost : (σ.stages x).performers0 with
    | none =>
      simp only [hhost] at h
      cases h
      exact .take hpc hsuits hhost
    | some =>
      simp only [hhost] at h
      cases h
      obtain ⟨hfree, hsinger, hother⟩ := hsuits.canJoin hhost
      exact .join hpc hhost hfree hsinger hother

/-- The step function makes the moves of its artist, and no others. -/
theorem move_of_step (h : σ.step (curr, a) = some (σ', e)) : Move σ curr a e σ' := by
  cases a with
  | artistWait => exact move_of_artistWait h
  | timeout =>
    obtain ⟨hpc, h⟩ := Transition.guard_bind_eq_some.mp h
    cases h
    exact .timeout hpc
  | wake =>
    cases h
    exact .wake
  | lookup =>
    change σ.lookup curr = _ at h
    unfold lookup at h
    split at h
    next host x hpc hx =>
      cases h
      exact .lookup hpc hx
    · cases h
  | condWait =>
    change σ.condWait curr = _ at h
    unfold condWait at h
    split at h
    next host hpc =>
      cases h
      exact .condWait hpc
    · cases h
  | perfEnds =>
    change σ.perfEnds curr = _ at h
    have hstart : ∃ x, (σ.artists curr).pc = .performing ∧
        (σ.artists curr).stageAssigned = some x := by
      unfold perfEnds at h
      split at h
      next x hpc hx => exact ⟨x, hpc, hx⟩
      · cases h
    obtain ⟨x, hpc, hx⟩ := hstart
    obtain ⟨signalled, heq, hsignalled⟩ := perfEnds_eq hpc hx
    rw [heq] at h
    cases h
    exact .perfEnds hpc hx hsignalled

end State

end Concert
