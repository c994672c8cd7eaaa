import OsnAssignments.Concert.Moves

/-!
# Who is recorded on which stage

The invariant `State.Safe` relates the slots of the stages to the places of the threads. The safety
of the allocation follows from it, and the condition under which `perf_ends` frees the stage.
-/

namespace Concert

variable {S : Setup}

/-- The singer has joined `host` and has not left the stage. -/
def Pc.Beside (pc : Pc S) (host : S.ArtistId) : Prop :=
  pc = .joined host ∨ pc = .settling host ∨ pc = .singing host

instance decidableBeside (pc : Pc S) (host : S.ArtistId) : Decidable (pc.Beside host) :=
  inferInstanceAs (Decidable (_ ∨ _ ∨ _))

/-- The moves of a thread that do not depend on the stages. -/
inductive Pc.Moves : Pc S → Pc S → Prop
  | refl (pc : Pc S) : Moves pc pc
  | block : Moves .entering .blocked
  | wake : Moves .blocked .entering
  | timeout : Moves .blocked .left
  | lookup (host : S.ArtistId) : Moves (.joined host) (.settling host)
  | condWait (host : S.ArtistId) : Moves (.settling host) (.singing host)
  | sung (host : S.ArtistId) : Moves (.singing host) .done

namespace Pc.Moves

variable {pc pc' : Pc S} {host : S.ArtistId}

theorem signal (pc : Pc S) : pc.Moves pc.signal := by
  cases pc with
  | blocked => exact .wake
  | singing host => exact .sung host
  | _ => exact .refl _

variable (h : pc.Moves pc')
include h

theorem performing_iff : pc' = .performing ↔ pc = .performing := by
  cases h <;> simp

theorem done (hpc : pc = .done) : pc' = .done := by
  cases h <;> first | exact hpc | cases hpc

theorem beside (hpc : pc.Beside host) : pc'.Beside host ∨ pc' = .done := by
  unfold Beside at hpc ⊢
  cases h <;> simp_all

theorem beside_of (hpc : pc'.Beside host) : pc.Beside host := by
  unfold Beside at hpc ⊢
  cases h <;> simp_all

end Pc.Moves

namespace State

/-- The performers recorded on stage `x` suit each other and the stage, and their threads are on
it. -/
structure StageSafe (σ : State S) (x : S.StageId) : Prop where
  /-- A second performer is a singer next to a performer who is not. -/
  pair : ∀ s, (σ.stages x).performers1 = some s →
    ∃ host, (σ.stages x).performers0 = some host ∧ S.instrument s = 's' ∧ S.instrument host ≠ 's'
  acoustic : ∀ i, (σ.stages x).performers0 = some i → S.stageReq i = 0 → S.stagetype x = .a
  electric : ∀ i, (σ.stages x).performers0 = some i → S.stageReq i = 1 → S.stagetype x = .e
  first : ∀ i, (σ.stages x).performers0 = some i → (σ.artists i).stageAssigned = some x ∧
    ((σ.artists i).pc = .performing ∨ (σ.artists i).pc = .done)
  second : ∀ s, (σ.stages x).performers1 = some s → (σ.artists s).stageAssigned = some x ∧
    ((∃ host, (σ.artists s).pc.Beside host) ∨ (σ.artists s).pc = .done)

/-- The thread of artist `i` is where its stage and its flag say. -/
structure ArtistSafe (σ : State S) (i : S.ArtistId) : Prop where
  performing : (σ.artists i).pc = .performing →
    ∃ x, (σ.artists i).stageAssigned = some x ∧ (σ.stages x).performers0 = some i
  /-- A singer stays next to its host until the host's performance ends. -/
  beside : ∀ host, (σ.artists i).pc.Beside host → ∃ x, (σ.artists i).stageAssigned = some x ∧
    ((σ.artists host).pc = .done ∨ (σ.artists host).pc = .performing ∧
      (σ.stages x).performers0 = some host ∧ (σ.stages x).performers1 = some i)
  flag : (σ.artists i).pc = .blocked → (σ.artists i).waiting = true

variable {σ σ' : State S} {curr i : S.ArtistId} {a : Action} {e : Event S} {x : S.StageId}

theorem moves_modifyArtist {f : Artist S → Artist S}
    (hmoves : (σ.artists curr).pc.Moves (f (σ.artists curr)).pc) (i : S.ArtistId) :
    (σ.artists i).pc.Moves ((σ.modifyArtist curr f).artists i).pc := by
  rcases eq_or_ne i curr with rfl | hi
  · rw [artists_modifyArtist_self]
    exact hmoves
  · rw [artists_modifyArtist_of_ne hi]
    exact .refl _

/-- The threads that `perf_ends` signals move, and the others stay, except the one that ends. -/
theorem moves_vacate (hi : i ≠ curr) : (σ.artists i).pc.Moves ((σ.vacate curr x).artists i).pc := by
  simp only [vacate, if_neg hi]
  split
  · exact .signal _
  · exact .refl _

/-- The slots of `x` are as before, and the performers in them are still on it. -/
theorem StageSafe.of_stages_eq (h : σ.StageSafe x) (hx : σ'.stages x = σ.stages x)
    (hfirst : ∀ i, (σ.stages x).performers0 = some i → (σ'.artists i).stageAssigned = some x ∧
      ((σ'.artists i).pc = .performing ∨ (σ'.artists i).pc = .done))
    (hsecond : ∀ s, (σ.stages x).performers1 = some s → (σ'.artists s).stageAssigned = some x ∧
      ((∃ host, (σ'.artists s).pc.Beside host) ∨ (σ'.artists s).pc = .done)) : σ'.StageSafe x := by
  refine ⟨?_, ?_, ?_, ?_, ?_⟩
  all_goals rw [hx]
  · exact h.pair
  · exact h.acoustic
  · exact h.electric
  · exact hfirst
  · exact hsecond

/-- The slots of `x` are as before, and the performers in them have moved at most. -/
theorem StageSafe.of_moves (h : σ.StageSafe x) (hx : σ'.stages x = σ.stages x)
    (hassigned : ∀ i, (σ.stages x).performers0 = some i ∨ (σ.stages x).performers1 = some i →
      (σ'.artists i).stageAssigned = (σ.artists i).stageAssigned)
    (hmoves : ∀ i, (σ.stages x).performers0 = some i ∨ (σ.stages x).performers1 = some i →
      (σ.artists i).pc.Moves (σ'.artists i).pc) : σ'.StageSafe x := by
  apply h.of_stages_eq hx
  · intro i hi
    obtain ⟨hassign, hpc⟩ := h.first i hi
    refine ⟨(hassigned i (.inl hi)).trans hassign, ?_⟩
    have hmove := hmoves i (.inl hi)
    exact hpc.imp hmove.performing_iff.mpr hmove.done
  · intro s hs
    obtain ⟨hassign, hpc⟩ := h.second s hs
    refine ⟨(hassigned s (.inr hs)).trans hassign, ?_⟩
    have hmove := hmoves s (.inr hs)
    rcases hpc with ⟨host, hpc⟩ | hpc
    · exact (hmove.beside hpc).imp_left fun h => ⟨host, h⟩
    · exact .inr (hmove.done hpc)

/-- The thread of `i` has moved at most, and its host stays where it is or ends. -/
theorem ArtistSafe.of_moves (h : σ.ArtistSafe i)
    (hassigned : (σ'.artists i).stageAssigned = (σ.artists i).stageAssigned)
    (hmoves : (σ.artists i).pc.Moves (σ'.artists i).pc)
    (hflag : (σ'.artists i).pc = .blocked → (σ'.artists i).waiting = true)
    (hslot : ∀ x, (σ.stages x).performers0 = some i → (σ'.stages x).performers0 = some i)
    (hdone : ∀ host, (σ.artists host).pc = .done → (σ'.artists host).pc = .done)
    (hhost : ∀ x host, (σ.artists host).pc = .performing → (σ.stages x).performers0 = some host →
      (σ.stages x).performers1 = some i → (σ'.artists host).pc = .done ∨
        (σ'.artists host).pc = .performing ∧ (σ'.stages x).performers0 = some host ∧
          (σ'.stages x).performers1 = some i) : σ'.ArtistSafe i := by
  refine ⟨fun hpc => ?_, fun host hpc => ?_, hflag⟩
  · obtain ⟨x, hassign, hx⟩ := h.performing (hmoves.performing_iff.mp hpc)
    exact ⟨x, hassigned.trans hassign, hslot x hx⟩
  · obtain ⟨x, hassign, hpc'⟩ := h.beside host (hmoves.beside_of hpc)
    refine ⟨x, hassigned.trans hassign, ?_⟩
    rcases hpc' with hpc' | ⟨hpc', hx₀, hx₁⟩
    · exact .inl (hdone host hpc')
    · exact hhost x host hpc' hx₀ hx₁

/-- The slots of the stages and the places of the threads fit each other. -/
structure Safe (σ : State S) : Prop where
  stage : ∀ x, σ.StageSafe x
  artist : ∀ i, σ.ArtistSafe i

namespace Safe

theorem initial : (State.initial S).Safe := by
  refine ⟨fun x => ⟨?_, ?_, ?_, ?_, ?_⟩, fun i => ⟨?_, ?_, ?_⟩⟩
  all_goals simp [State.initial, Pc.Beside]

section

variable (h : σ.Safe)
include h

/-- Threads may move as long as the stages stay as they are. -/
theorem of_moves (hstages : σ'.stages = σ.stages)
    (hassigned : ∀ i, (σ'.artists i).stageAssigned = (σ.artists i).stageAssigned)
    (hmoves : ∀ i, (σ.artists i).pc.Moves (σ'.artists i).pc)
    (hflag : ∀ i, (σ'.artists i).pc = .blocked → (σ'.artists i).waiting = true) : σ'.Safe := by
  refine ⟨fun x => ?_, fun i => ?_⟩
  · exact (h.stage x).of_moves (congrFun hstages x) (fun i _ => hassigned i) fun i _ => hmoves i
  · refine (h.artist i).of_moves (hassigned i) (hmoves i) (hflag i) (fun x hx => ?_)
      (fun host => (hmoves host).done) fun x host hpc hx₀ hx₁ => .inr ?_
    · rwa [hstages]
    · rw [hstages]
      exact ⟨(hmoves host).performing_iff.mpr hpc, hx₀, hx₁⟩

/-- One thread may move. -/
theorem modifyArtist {f : Artist S → Artist S}
    (hassigned : (f (σ.artists curr)).stageAssigned = (σ.artists curr).stageAssigned)
    (hmoves : (σ.artists curr).pc.Moves (f (σ.artists curr)).pc)
    (hflag : (f (σ.artists curr)).pc = .blocked → (f (σ.artists curr)).waiting = true) :
    (σ.modifyArtist curr f).Safe := by
  refine h.of_moves rfl (fun i => ?_) (moves_modifyArtist hmoves) (fun i => ?_)
  all_goals rcases eq_or_ne i curr with rfl | hi
  · rw [artists_modifyArtist_self, hassigned]
  · rw [artists_modifyArtist_of_ne hi]
  · rw [artists_modifyArtist_self]
    exact hflag
  · rw [artists_modifyArtist_of_ne hi]
    exact (h.artist i).flag

/-- One artist enters or leaves a stage. The others keep their places, and those on the stage their
slots, unless their host leaves. -/
theorem of_change (curr : S.ArtistId) (x : S.StageId) (hstage : σ'.StageSafe x)
    (hartist : σ'.ArtistSafe curr)
    (hothers : ∀ i, i ≠ curr → (σ'.artists i).stageAssigned = (σ.artists i).stageAssigned ∧
      (σ'.artists i).pc = (σ.artists i).pc ∧ (σ'.artists i).waiting = (σ.artists i).waiting)
    (hdone : (σ.artists curr).pc = .done → (σ'.artists curr).pc = .done)
    (hstages : ∀ y, y ≠ x → σ'.stages y = σ.stages y) (habsent : ∀ y, y ≠ x →
      (σ.stages y).performers0 ≠ some curr ∧ (σ.stages y).performers1 ≠ some curr)
    (hfirst : ∀ i, i ≠ curr → (σ.stages x).performers0 = some i →
      (σ'.stages x).performers0 = some i)
    (hsecond : ∀ i host, host ≠ curr → (σ.stages x).performers0 = some host →
      (σ.stages x).performers1 = some i → (σ'.stages x).performers1 = some i)
    (hhost : (σ.artists curr).pc = .performing → (σ'.artists curr).pc = .done) : σ'.Safe := by
  refine ⟨fun y => ?_, fun i => ?_⟩
  · rcases eq_or_ne y x with rfl | hy
    · exact hstage
    · -- the performers on another stage are other artists
      have hne (i : S.ArtistId)
          (hi : (σ.stages y).performers0 = some i ∨ (σ.stages y).performers1 = some i) :
          i ≠ curr := by
        rintro rfl
        exact hi.elim (habsent y hy).1 (habsent y hy).2
      refine (h.stage y).of_moves (hstages y hy) (fun i hi => (hothers i (hne i hi)).1)
        fun i hi => ?_
      rw [(hothers i (hne i hi)).2.1]
      exact .refl _
  · rcases eq_or_ne i curr with rfl | hi
    · exact hartist
    · obtain ⟨hassigned, hpc, hwaiting⟩ := hothers i hi
      refine (h.artist i).of_moves hassigned (by rw [hpc]; exact .refl _) ?_ (fun y hy => ?_)
        (fun host hended => ?_) fun y host hperf hy₀ hy₁ => ?_
      · rw [hpc, hwaiting]
        exact (h.artist i).flag
      · rcases eq_or_ne y x with rfl | hne
        · exact hfirst i hi hy
        · rwa [hstages y hne]
      · rcases eq_or_ne host curr with rfl | hne
        · exact hdone hended
        · rwa [(hothers host hne).2.1]
      · rcases eq_or_ne host curr with rfl | hne
        · exact .inl (hhost hperf)
        · refine .inr ⟨by rwa [(hothers host hne).2.1], ?_⟩
          rcases eq_or_ne y x with rfl | hne'
          · exact ⟨hfirst host hne hy₀, hsecond i host hne hy₀ hy₁⟩
          · rw [hstages y hne']
            exact ⟨hy₀, hy₁⟩

/-- An artist that is looking for a stage is recorded on none. -/
theorem not_recorded (hpc : (σ.artists curr).pc = .entering) (x : S.StageId) :
    (σ.stages x).performers0 ≠ some curr ∧ (σ.stages x).performers1 ≠ some curr := by
  constructor
  · intro hx
    have hplace := ((h.stage x).first curr hx).2
    simp [hpc] at hplace
  · intro hx
    have hplace := ((h.stage x).second curr hx).2
    simp [hpc, Pc.Beside] at hplace

/-- A free stage has no second performer. -/
theorem free (hx : (σ.stages x).performers0 = none) : (σ.stages x).performers1 = none := by
  cases hs : (σ.stages x).performers1 with
  | none => rfl
  | some s =>
    obtain ⟨host, hhost, -⟩ := (h.stage x).pair s hs
    rw [hx] at hhost
    cases hhost

/-- An artist takes a free stage of a type that suits it. -/
theorem take (hpc : (σ.artists curr).pc = .entering) (hsuits : σ.Suits curr x)
    (hfree : (σ.stages x).performers0 = none) : (σ.take curr x).Safe := by
  have hself : (σ.take curr x).artists curr =
      { σ.artists curr with stageAssigned := some x, pc := .performing } := artists_take_self
  -- `performers[1]` of a free stage is free, so that `curr` is alone on it
  have hx : (σ.take curr x).stages x = ⟨some curr, none⟩ := by
    rw [stages_take_self, h.free hfree]
  refine h.of_change curr x ?_ ?_ (fun i hi => ?_) (by simp [hpc]) (fun y hy => ?_)
    (fun y _ => h.not_recorded hpc y) (by simp [hfree]) (by simp [hfree]) (by simp [hpc])
  · refine ⟨by simp [hx], fun i hi hreq => ?_, fun i hi hreq => ?_, fun i hi => ?_, by simp [hx]⟩
    · obtain rfl : curr = i := by simpa [hx] using hi
      rw [Suits, if_pos hreq] at hsuits
      exact hsuits.1
    · obtain rfl : curr = i := by simpa [hx] using hi
      rw [Suits, if_neg (by omega), if_pos hreq] at hsuits
      exact hsuits.1
    · obtain rfl : curr = i := by simpa [hx] using hi
      rw [hself]
      exact ⟨rfl, .inl rfl⟩
  · refine ⟨fun _ => ⟨x, by rw [hself], by rw [hx]⟩, ?_, ?_⟩
    all_goals simp [hself, Pc.Beside]
  · rw [artists_take_of_ne hi]
    exact ⟨rfl, rfl, rfl⟩
  · exact stages_take_of_ne hy

/-- A singer joins a performer who is not one. -/
theorem join {host : S.ArtistId} (hpc : (σ.artists curr).pc = .entering)
    (hhost : (σ.stages x).performers0 = some host) (hfree : (σ.stages x).performers1 = none)
    (hsinger : S.instrument curr = 's') (hother : S.instrument host ≠ 's') :
    (σ.join curr host x).Safe := by
  have hne : host ≠ curr := fun heq => (h.not_recorded hpc x).1 (heq ▸ hhost)
  have hself : (σ.join curr host x).artists curr =
      { σ.artists curr with stageAssigned := some x, pc := .joined host } := artists_join_self hne
  have hx : (σ.join curr host x).stages x = ⟨some host, some curr⟩ := by
    rw [stages_join_self, hhost]
  refine h.of_change curr x ?_ ?_ (fun i hi => artists_join_of_ne hi)
    (by simp [hpc]) (fun y hy => stages_join_of_ne hy) (fun y _ => h.not_recorded hpc y)
    (by simp [hx, hhost]) (by simp [hfree]) (by simp [hpc])
  · have hsafe := h.stage x
    obtain ⟨hassigned, hpc', -⟩ : ((σ.join curr host x).artists host).stageAssigned = _ ∧
        ((σ.join curr host x).artists host).pc = _ ∧ _ := artists_join_of_ne hne
    refine ⟨fun s hs => ?_, fun i hi => ?_, fun i hi => ?_, fun i hi => ?_, fun s hs => ?_⟩
    · obtain rfl : curr = s := by simpa [hx] using hs
      exact ⟨host, by rw [hx], hsinger, hother⟩
    · exact hsafe.acoustic i (by simpa [hx, hhost] using hi)
    · exact hsafe.electric i (by simpa [hx, hhost] using hi)
    · obtain rfl : host = i := by simpa [hx] using hi
      rw [hassigned, hpc']
      exact hsafe.first host hhost
    · obtain rfl : curr = s := by simpa [hx] using hs
      rw [hself]
      exact ⟨rfl, .inl ⟨host, .inl rfl⟩⟩
  · refine ⟨by simp [hself], fun host' hbeside => ?_, by simp [hself]⟩
    obtain rfl : host = host' := by simpa [hself, Pc.Beside] using hbeside
    refine ⟨x, by rw [hself], ?_⟩
    rw [(artists_join_of_ne hne).2.1, hx]
    -- the host may be one whose performance is over and who was not taken off the stage
    have hplace := ((h.stage x).first host hhost).2
    exact hplace.symm.imp_right fun hperf => ⟨hperf, rfl, rfl⟩

/-- The stage that a performing artist is assigned has it as first performer. -/
theorem performers0_eq (hpc : (σ.artists curr).pc = .performing)
    (hx : (σ.artists curr).stageAssigned = some x) : (σ.stages x).performers0 = some curr := by
  obtain ⟨y, hassigned, hy⟩ := (h.artist curr).performing hpc
  obtain rfl : x = y := Option.mem_unique hx hassigned
  exact hy

/-- An artist ends its performance; the stage is cleared or stays as it is. -/
theorem leave (hpc : (σ.artists curr).pc = .performing)
    (hx : (σ.artists curr).stageAssigned = some x)
    (hartists : σ'.artists = (σ.setPc curr .done).artists)
    (hstages : ∀ y, y ≠ x → σ'.stages y = σ.stages y)
    (hcleared : σ'.stages x = ⟨none, none⟩ ∨ σ'.stages x = σ.stages x) : σ'.Safe := by
  have hself : σ'.artists curr = { σ.artists curr with pc := .done } := by
    rw [hartists]
    exact artists_modifyArtist_self ..
  have hothers (i : S.ArtistId) (hi : i ≠ curr) : σ'.artists i = σ.artists i := by
    rw [hartists]
    exact artists_modifyArtist_of_ne hi _
  have hrec := h.performers0_eq hpc hx
  -- `curr` is recorded on `x` only, as first performer
  have hsecond (y : S.StageId) : (σ.stages y).performers1 ≠ some curr := by
    intro hy
    have hplace := ((h.stage y).second curr hy).2
    simp [hpc, Pc.Beside] at hplace
  have hfirst (y : S.StageId) (hy : y ≠ x) : (σ.stages y).performers0 ≠ some curr := by
    intro hrec'
    have hassigned := ((h.stage y).first curr hrec').1
    exact hy (Option.mem_unique hassigned hx)
  refine h.of_change curr x ?_ ?_ (fun i hi => ?_) (fun _ => by rw [hself]) hstages
    (fun y hy => ⟨hfirst y hy, hsecond y⟩) (fun i hi hi' => ?_) (fun i host hhost hhost' => ?_)
    fun _ => by rw [hself]
  · rcases hcleared with hclear | hkeep
    · refine ⟨?_, ?_, ?_, ?_, ?_⟩
      all_goals simp [hclear]
    · -- nobody was waiting: `curr` stays recorded although its performance is over
      apply (h.stage x).of_stages_eq hkeep
      · intro i hi
        obtain rfl : curr = i := Option.mem_unique hrec hi
        rw [hself]
        exact ⟨hx, .inr rfl⟩
      · intro s hs
        rw [hothers s fun heq => hsecond x (heq ▸ hs)]
        exact (h.stage x).second s hs
  · refine ⟨?_, ?_, ?_⟩
    all_goals simp [hself, Pc.Beside]
  · rw [hothers i hi]
    exact ⟨rfl, rfl, rfl⟩
  · exact absurd (Option.mem_unique hi' hrec) hi
  · exact absurd (Option.mem_unique hhost' hrec) hhost

/-- `perf_ends`. -/
theorem vacate (hpc : (σ.artists curr).pc = .performing)
    (hx : (σ.artists curr).stageAssigned = some x) : (σ.vacate curr x).Safe := by
  -- first `curr` leaves, and its stage is cleared if somebody waits
  have hleft : State.Safe ⟨(σ.setPc curr .done).artists, (σ.vacate curr x).stages⟩ := by
    refine h.leave hpc hx rfl (fun y hy => ?_) ?_
    · simp only [State.vacate]
      split
      · exact Function.update_of_ne hy ..
      · rfl
    · simp only [State.vacate]
      split
      · exact .inl (Function.update_self ..)
      · exact .inr rfl
  -- then the signals wake artists
  have hself : (σ.vacate curr x).artists curr = (σ.setPc curr .done).artists curr := by
    rw [setPc, artists_modifyArtist_self]
    simp only [State.vacate, if_true]
    split <;> rfl
  have hother (i : S.ArtistId) (hi : i ≠ curr) : (σ.setPc curr .done).artists i = σ.artists i :=
    artists_modifyArtist_of_ne hi _
  refine hleft.of_moves rfl (fun i => ?_) (fun i => ?_) (fun i => ?_)
  all_goals rcases eq_or_ne i curr with rfl | hi
  · rw [hself]
  · simp only [hother i hi, State.vacate, if_neg hi]
    split <;> rfl
  · rw [hself]
    exact .refl _
  · rw [hother i hi]
    exact moves_vacate hi
  · rw [hself]
    exact (hleft.artist i).flag
  · simp only [State.vacate, if_neg hi]
    split
    · exact fun hpc => absurd hpc (Pc.signal_ne_blocked _)
    · exact (h.artist i).flag

/-- Every step keeps the invariant. -/
theorem move (hmove : Move σ curr a e σ') : σ'.Safe := by
  cases hmove with
  | take hpc hsuits hfree => exact h.take hpc hsuits hfree
  | join hpc hhost hfree hsinger hother => exact h.join hpc hhost hfree hsinger hother
  | block hpc => exact h.modifyArtist rfl (by rw [hpc]; exact .block) fun _ => rfl
  | timeout hpc => exact h.modifyArtist rfl (by rw [hpc]; exact .timeout) (by simp)
  | wake => exact h.modifyArtist rfl (.signal _) fun hpc => absurd hpc (Pc.signal_ne_blocked _)
  | lookup hpc => exact h.modifyArtist rfl (by rw [hpc]; exact .lookup _) (by simp)
  | condWait hpc => exact h.modifyArtist rfl (by rw [hpc]; exact .condWait _) (by simp)
  | perfEnds hpc hx => exact h.vacate hpc hx

end

theorem of_run {hist : List (State S × Label S)} (hrun : (concert S).Run hist σ) : σ.Safe := by
  induction hrun with
  | init h =>
    rw [show _ = State.initial S from h]
    exact .initial
  | @step _ σ σ' l hrun hstep ih =>
    obtain ⟨⟨curr, a⟩, e⟩ := l
    exact ih.move (move_of_step hstep)

end Safe

end State

/-! ## Safety of the allocation -/

/-- The indices `0` and `1` of `performers`. -/
inductive Part
  | first
  | second
  deriving DecidableEq, Repr

/-- `performers[k]`. -/
def Stage.performers (s : Stage S) : Part → Option S.ArtistId
  | .first => s.performers0
  | .second => s.performers1

theorem Stage.performers_eq_some_iff {s : Stage S} {k : Part} {i : S.ArtistId} :
    s.performers k = some i ↔
      k = .first ∧ s.performers0 = some i ∨ k = .second ∧ s.performers1 = some i := by
  cases k <;> simp [Stage.performers]

theorem Setup.stageReq_of_b {i : S.ArtistId} (h : S.instrument i = 'b') : S.stageReq i = 1 := by
  simp [Setup.stageReq, h]

theorem Setup.stageReq_of_v {i : S.ArtistId} (h : S.instrument i = 'v') : S.stageReq i = 0 := by
  simp [Setup.stageReq, h]

section Run

variable {hist : List (State S × Label S)} {σ : State S}

/-- In every state of every run a second performer is a singer next to a performer who is not, `b`
players are on electric and `v` players on acoustic stages, and no artist is in two slots. -/
theorem allocation_safe (hrun : (concert S).Run hist σ) :
    (∀ x s, (σ.stages x).performers .second = some s →
      ∃ host, (σ.stages x).performers .first = some host ∧ S.instrument s = 's' ∧
        S.instrument host ≠ 's') ∧
    (∀ x k i, (σ.stages x).performers k = some i →
      (S.instrument i = 'b' → S.stagetype x = .e) ∧ (S.instrument i = 'v' → S.stagetype x = .a)) ∧
    ∀ x k y l i, (σ.stages x).performers k = some i → (σ.stages y).performers l = some i →
      x = y ∧ k = l := by
  have hsafe : σ.Safe := .of_run hrun
  refine ⟨fun x s => (hsafe.stage x).pair s, fun x k i hi => ?_, fun x k y l i hx hy => ?_⟩
  · rcases Stage.performers_eq_some_iff.mp hi with ⟨-, hi⟩ | ⟨-, hi⟩
    · exact ⟨fun hb => (hsafe.stage x).electric i hi (S.stageReq_of_b hb),
        fun hv => (hsafe.stage x).acoustic i hi (S.stageReq_of_v hv)⟩
    · -- a second performer plays neither
      obtain ⟨-, -, hs, -⟩ := (hsafe.stage x).pair i hi
      simp [hs]
  · rw [Stage.performers_eq_some_iff] at hx hy
    -- whichever slot an artist is in, the stage is the one it was assigned
    have hassigned (z : S.StageId) (m : Part)
        (hz : m = .first ∧ (σ.stages z).performers0 = some i ∨
          m = .second ∧ (σ.stages z).performers1 = some i) :
        (σ.artists i).stageAssigned = some z :=
      hz.elim (fun h => ((hsafe.stage z).first i h.2).1) fun h => ((hsafe.stage z).second i h.2).1
    obtain rfl : x = y := Option.some.inj ((hassigned x k hx).symm.trans (hassigned y l hy))
    -- in both slots of a stage it would be a singer and not be one
    have hnot : ¬ ((σ.stages x).performers0 = some i ∧ (σ.stages x).performers1 = some i) := by
      rintro ⟨h₀, h₁⟩
      obtain ⟨host, hhost, hs, hother⟩ := (hsafe.stage x).pair i h₁
      obtain rfl := Option.mem_unique h₀ hhost
      exact hother hs
    refine ⟨rfl, ?_⟩
    rcases hx with ⟨rfl, hx⟩ | ⟨rfl, hx⟩ <;> rcases hy with ⟨rfl, hy⟩ | ⟨rfl, hy⟩
    · rfl
    · exact absurd ⟨hx, hy⟩ hnot
    · exact absurd ⟨hy, hx⟩ hnot
    · rfl

/-- A pianist and a singer, and an acoustic stage. -/
abbrev duet : Setup where
  noOfArtists := 2
  noOfAstages := 1
  noOfEstages := 0
  instrument i := if i.val = 0 then 'p' else 's'

/-- The pianist of `duet`. -/
def pianist : duet.ArtistId :=
  ⟨0, Nat.zero_lt_two⟩

/-- The singer of `duet`. -/
def singer : duet.ArtistId :=
  ⟨1, Nat.one_lt_two⟩

/-- The stage of `duet`. -/
def podium : duet.StageId :=
  ⟨0, Nat.zero_lt_one⟩

/-- The singer joins the pianist, and then no one is in two slots. -/
theorem allocation_safe_duet :
    ∃ hist σ, (concert duet).Run hist σ ∧ (σ.stages podium).performers .second = some singer ∧
      ∀ x k y l i, (σ.stages x).performers k = some i → (σ.stages y).performers l = some i →
        x = y ∧ k = l := by
  obtain ⟨hist, σ, hrun, hσ⟩ := exists_run (S := duet)
    [(pianist, .artistWait), (singer, .artistWait)]
    (fun _ σ => decide ((σ.stages podium).performers .second = some singer)) (by decide +kernel)
  exact ⟨hist, σ, hrun, of_decide_eq_true hσ, (allocation_safe hrun).2.2⟩

/-! ## Freeing the stage -/

/-- In every state of every run, an artist whose performance ends can call `perf_ends`, and this
frees its stage exactly if some other artist has raised its flag. -/
theorem perfEnds_frees_iff (hrun : (concert S).Run hist σ) {curr : S.ArtistId}
    (hpc : (σ.artists curr).pc = .performing) :
    ∃ x signalled σ', (σ.artists curr).stageAssigned = some x ∧
      σ.perfEnds curr = some (σ', .ended x signalled) ∧
      (((σ'.stages x).performers .first = none ∧ (σ'.stages x).performers .second = none) ↔
        ∃ i, i ≠ curr ∧ (σ.artists i).waiting = true) := by
  have hsafe : σ.Safe := .of_run hrun
  obtain ⟨x, hx, hrec⟩ := (hsafe.artist curr).performing hpc
  obtain ⟨signalled, heq, -⟩ := State.perfEnds_eq hpc hx
  refine ⟨x, signalled, σ.vacate curr x, hx, heq, ?_⟩
  -- the stage is cleared inside the branch that sends a signal
  by_cases hflag : ∃ i, σ.Flagged curr i
  · have hstage : (σ.vacate curr x).stages x = ⟨none, none⟩ := by
      simp [State.vacate, hflag]
    rw [hstage]
    exact iff_of_true ⟨rfl, rfl⟩ hflag
  · have hstage : (σ.vacate curr x).stages = σ.stages := by
      simp [State.vacate, hflag]
    rw [hstage]
    refine iff_of_false (fun hnone => ?_) hflag
    exact absurd (hrec.symm.trans hnone.1) (by simp)

/-- Two pianists, and an acoustic stage. -/
abbrev rivals : Setup where
  noOfArtists := 2
  noOfAstages := 1
  noOfEstages := 0
  instrument _ := 'p'

/-- The first and the second pianist of `rivals`. -/
def winner : rivals.ArtistId :=
  ⟨0, Nat.zero_lt_two⟩

@[inherit_doc winner]
def loser : rivals.ArtistId :=
  ⟨1, Nat.one_lt_two⟩

/-- While the second pianist waits, the end of the first performance frees the stage. -/
theorem perfEnds_frees_rivals :
    ∃ hist σ x signalled σ', (concert rivals).Run hist σ ∧
      σ.perfEnds winner = some (σ', .ended x signalled) ∧
      (σ'.stages x).performers .first = none ∧ (σ'.stages x).performers .second = none := by
  obtain ⟨hist, σ, hrun, hσ⟩ := exists_run (S := rivals)
    [(winner, .artistWait), (loser, .artistWait)]
    (fun _ σ => decide ((σ.artists winner).pc = .performing ∧ (σ.artists loser).waiting = true))
    (by decide +kernel)
  obtain ⟨hpc, hwaiting⟩ := of_decide_eq_true hσ
  obtain ⟨x, signalled, σ', -, heq, hiff⟩ := perfEnds_frees_iff hrun hpc
  exact ⟨hist, σ, x, signalled, σ', hrun, heq, hiff.mpr ⟨loser, by decide, hwaiting⟩⟩

/-- If nobody has had to wait, the stage stays occupied. -/
theorem not_perfEnds_frees :
    ∃ hist σ x signalled σ', (concert rivals).Run hist σ ∧
      (σ.artists winner).pc = .performing ∧ σ.perfEnds winner = some (σ', .ended x signalled) ∧
      (σ'.stages x).performers .first = some winner := by
  obtain ⟨hist, σ, hrun, hσ⟩ := exists_run (S := rivals) [(winner, .artistWait)]
    (fun _ σ => (σ.perfEnds winner).any fun r : State rivals × Event rivals =>
      decide ((σ.artists winner).pc = .performing ∧
        ∃ x, r.2 = .ended x [] ∧ (r.1.stages x).performers .first = some winner))
    (by decide +kernel)
  obtain ⟨⟨σ', e⟩, hends, hσ⟩ := (Option.any_eq_true _ _).mp hσ
  obtain ⟨hpc, x, rfl, hfirst⟩ := of_decide_eq_true hσ
  exact ⟨hist, σ, x, [], σ', hrun, hpc, hends, hfirst⟩

end Run

end Concert
