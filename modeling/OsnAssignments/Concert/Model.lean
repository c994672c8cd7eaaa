import OsnAssignments.Common.Loop
import OsnAssignments.Common.Transition

/-!
# Artists and stages

The threads of `q3/Q3.c`, one for each artist: `artist_wait`, in which an artist looks for a stage
and performs, joins a performance or waits, and `perf_ends`, which vacates a stage.

`step` performs one piece of one thread: a critical section of `mut`, or what the thread does
between two of them that another thread can observe. An artist in `pthread_cond_timedwait` or
`pthread_cond_wait` is woken by a signal, and may be woken without one; in `pthread_cond_timedwait`
it may time out at any moment. A condition variable belongs to one artist, so a signal to an artist
that is not blocked is lost.

The time a performance takes is not modelled, and neither are the printed texts, the t-shirts and
the coordinators.
-/

namespace Concert

/-- `stagetype`. -/
inductive StageType
  | a
  | e
  deriving DecidableEq, Repr

/-- The input of `main`: the numbers of artists and of stages of either type, and what the artists
play. -/
structure Setup where
  noOfArtists : ℕ
  noOfAstages : ℕ
  noOfEstages : ℕ
  instrument : Fin noOfArtists → Char

namespace Setup

variable (S : Setup)

/-- An index into `artists`. -/
abbrev ArtistId := Fin S.noOfArtists

/-- An index into `stages`. -/
abbrev StageId := Fin (S.noOfAstages + S.noOfEstages)

/-- `stages[i]->stagetype`, as `main` sets it. -/
def stagetype (i : S.StageId) : StageType :=
  if i < S.noOfAstages then .a else .e

/-- `artists[i]->stage_req`, as `main` sets it: `0` for an acoustic stage, `1` for an electric one,
`2` for either. The memory that `shareMem` returns is zero. -/
def stageReq (i : S.ArtistId) : ℕ :=
  -- the tests of `main`, in order; an instrument that none of them names leaves zero
  let req := 0
  let req :=
    if S.instrument i = 'p' ∨ S.instrument i = 'g' ∨ S.instrument i = 's' then 2 else req
  let req := if S.instrument i = 'b' then 1 else req
  if S.instrument i = 'v' then 0 else req

end Setup

/-- Where the thread of an artist is. -/
inductive Pc (S : Setup)
  /-- About to call `artist_wait`, for the first time or after a signal. -/
  | entering
  /-- Blocked in `pthread_cond_timedwait`. -/
  | blocked
  /-- Performing, alone or as a host, before `perf_ends`. -/
  | performing
  /-- Recorded next to `host`; before the line that reads `performers[0]` without the lock. -/
  | joined (host : S.ArtistId)
  /-- Before `pthread_mutex_lock(&mut2)`. -/
  | settling (host : S.ArtistId)
  /-- Blocked in `pthread_cond_wait`. -/
  | singing (host : S.ArtistId)
  /-- The performance is over. -/
  | done
  /-- The artist has left because of impatience. -/
  | left
  deriving DecidableEq, Repr

/-- The thread after `pthread_cond_signal` on its condition variable. -/
def Pc.signal {S : Setup} : Pc S → Pc S
  | .blocked => .entering
  | .singing _ => .done
  | pc => pc

/-- `struct artist`, with the place of its thread. -/
structure Artist (S : Setup) where
  /-- `stage_assigned`; `none` is `-1`. -/
  stageAssigned : Option S.StageId
  /-- Whether `imp_flag` is `1`. -/
  impFlag : Bool
  /-- Whether `waiting` is `1`. -/
  waiting : Bool
  pc : Pc S
  deriving DecidableEq, Repr

/-- `struct stage`; `none` is `-1`. -/
structure Stage (S : Setup) where
  /-- `performers[0]`. -/
  performers0 : Option S.ArtistId
  /-- `performers[1]`. -/
  performers1 : Option S.ArtistId
  deriving DecidableEq, Repr

/-- The shared memory. -/
@[ext]
structure State (S : Setup) where
  artists : S.ArtistId → Artist S
  stages : S.StageId → Stage S

/-- A piece of the code of an artist's thread. -/
inductive Action
  /-- `artist_wait`: the critical section of `mut`. -/
  | artistWait
  /-- `pthread_cond_timedwait` times out. -/
  | timeout
  /-- A wait returns without a signal. -/
  | wake
  /-- A singer that has joined reads `performers[0]`. -/
  | lookup
  /-- `pthread_mutex_lock(&mut2)` and `pthread_cond_wait`. -/
  | condWait
  /-- `perf_ends`. -/
  | perfEnds
  deriving DecidableEq, Repr

/-- What a piece of code did. -/
inductive Event (S : Setup)
  | silent
  /-- The value of `performers[0]` that indexes `artists` in the line that a singer prints. -/
  | lookup (p : Option S.ArtistId)
  /-- `perf_ends` on stage `x` has signalled these artists. -/
  | ended (x : S.StageId) (signalled : List S.ArtistId)
  deriving DecidableEq, Repr

namespace State

variable {S : Setup}

/-- Change the record of artist `i`. -/
def modifyArtist (σ : State S) (i : S.ArtistId) (f : Artist S → Artist S) : State S :=
  { σ with artists := Function.update σ.artists i (f (σ.artists i)) }

/-- Change the record of stage `x`. -/
def modifyStage (σ : State S) (x : S.StageId) (f : Stage S → Stage S) : State S :=
  { σ with stages := Function.update σ.stages x (f (σ.stages x)) }

/-- Set where the thread of artist `i` is. -/
def setPc (σ : State S) (i : S.ArtistId) (pc : Pc S) : State S :=
  σ.modifyArtist i fun a => { a with pc := pc }

/-- `pthread_cond_signal(&artists[i]->hmm)`. -/
def signal (i : S.ArtistId) (σ : State S) : State S :=
  -- a signal to a thread that is not blocked is lost
  σ.modifyArtist i fun a => { a with pc := a.pc.signal }

/-! ## Looking for a stage -/

/-- The test for joining the performance on stage `i`: `curr` is a singer, and the performer is
there and not a singer. -/
def CanJoin (σ : State S) (curr : S.ArtistId) (i : S.StageId) : Prop :=
  ∃ host ∈ (σ.stages i).performers0, S.instrument curr = 's' ∧ S.instrument host ≠ 's'

instance decidableCanJoin (σ : State S) (curr : S.ArtistId) (i : S.StageId) :
    Decidable (σ.CanJoin curr i) :=
  inferInstanceAs (Decidable (∃ host ∈ (σ.stages i).performers0, _))

/-- The test at which the loop of `artist_wait` stops, in the three branches on `stage_req`. -/
def Suits (σ : State S) (curr : S.ArtistId) (i : S.StageId) : Prop :=
  if S.stageReq curr = 0 then S.stagetype i = .a ∧ (σ.stages i).performers0 = none
  else if S.stageReq curr = 1 then S.stagetype i = .e ∧ (σ.stages i).performers0 = none
  else
    -- the third branch serves singers and the artists that can use either kind of stage
    (σ.stages i).performers1 = none ∧ (σ.CanJoin curr i ∨ (σ.stages i).performers0 = none)

instance decidableSuits (σ : State S) (curr : S.ArtistId) (i : S.StageId) :
    Decidable (σ.Suits curr i) := by
  unfold Suits
  infer_instance

/-- `curr` takes the free stage `i`. -/
def take (σ : State S) (curr : S.ArtistId) (i : S.StageId) : State S :=
  (σ.modifyStage i fun s => { s with performers0 := some curr }).modifyArtist curr
    fun a => { a with stageAssigned := some i, pc := .performing }

/-- The singer `curr` joins `host` on stage `i`. -/
def join (σ : State S) (curr host : S.ArtistId) (i : S.StageId) : State S :=
  let σ := σ.modifyStage i fun s => { s with performers1 := some curr }
  -- the host will perform for two seconds more
  let σ := σ.modifyArtist host fun a => { a with impFlag := true }
  σ.modifyArtist curr fun a => { a with stageAssigned := some i, pc := .joined host }

/-- The critical section of `artist_wait`. The artist takes the first stage that suits it, or joins
the performer there; without such a stage it raises its flag and blocks. -/
def artistWait (σ : State S) (curr : S.ArtistId) : Option (State S × Event S) := do
  guard ((σ.artists curr).pc = .entering)
  match (List.finRange _).find? fun i => σ.Suits curr i with
  | none =>
    return (σ.modifyArtist curr fun a => { a with waiting := true, pc := .blocked }, .silent)
  | some i =>
    match (σ.stages i).performers0 with
    | none => return (σ.take curr i, .silent)
    | some host => return (σ.join curr host i, .silent)

/-- `pthread_cond_timedwait` returns `ETIMEDOUT`. -/
def timeout (σ : State S) (curr : S.ArtistId) : Option (State S × Event S) := do
  guard ((σ.artists curr).pc = .blocked)
  return (σ.setPc curr .left, .silent)

/-- A wait returns without a signal. -/
def wake (σ : State S) (curr : S.ArtistId) : Option (State S × Event S) :=
  some (σ.signal curr, .silent)

/-- The line in which a singer prints the name of `artists[performers[0]]`. -/
def lookup (σ : State S) (curr : S.ArtistId) : Option (State S × Event S) :=
  match (σ.artists curr).pc, (σ.artists curr).stageAssigned with
  | .joined host, some i =>
    some (σ.setPc curr (.settling host), .lookup (σ.stages i).performers0)
  | _, _ => none

/-- A singer that has joined blocks on its condition variable. -/
def condWait (σ : State S) (curr : S.ArtistId) : Option (State S × Event S) :=
  match (σ.artists curr).pc with
  | .settling host => some (σ.setPc curr (.singing host), .silent)
  | _ => none

end State

/-! ## Vacating a stage -/

/-- The variables of `perf_ends`, with the artists it has signalled. -/
structure Release (S : Setup) where
  state : State S
  num : ℕ
  signalled : List S.ArtistId

namespace Release

variable {S : Setup}

/-- The body that the four branches of `perf_ends` share: signal artist `i`, clear the stage, and
signal the singer that has joined. -/
def handOver (x : S.StageId) (r : Release S) (i : S.ArtistId) : Release S :=
  let σ := r.state.signal i
  let σ := σ.modifyStage x fun s => { s with performers0 := none }
  -- from the second call on both places are empty, and only the signal is left
  let singer := (σ.stages x).performers1
  let σ :=
    match singer with
    | none => σ
    | some s => σ.signal s
  { state := σ.modifyStage x fun s => { s with performers1 := none }
    num := r.num + 1
    signalled := r.signalled ++ i :: singer.toList }

/-- One iteration of the loop of `perf_ends`. -/
def body (curr : S.ArtistId) (x : S.StageId) (r : Release S) (i : S.ArtistId) : Release S :=
  if r.num < 2 ∧ i ≠ curr ∧ (r.state.artists i).waiting = true then
    -- the four branches differ in their tests only; the last one takes every artist, also one that
    -- cannot use the stage
    if r.num = 0 ∧ S.stageReq i = 0 ∧ S.stagetype x = .a then r.handOver x i
    else if r.num = 0 ∧ S.stageReq i = 1 ∧ S.stagetype x = .e then r.handOver x i
    else if S.stageReq i = 2 ∧ r.num = 0 ∧ S.instrument i ≠ 's' then r.handOver x i
    else r.handOver x i
  else r

end Release

namespace State

variable {S : Setup}

/-- `perf_ends`, which an artist calls at the end of its performance. -/
def perfEnds (σ : State S) (curr : S.ArtistId) : Option (State S × Event S) :=
  match (σ.artists curr).pc, (σ.artists curr).stageAssigned with
  | .performing, some x =>
    let r := (List.finRange _).foldl (Release.body curr x) ⟨σ, 0, []⟩
    some (r.state.setPc curr .done, .ended x r.signalled)
  | _, _ => none

/-- Perform one piece of the code of one artist. -/
def step (σ : State S) (l : S.ArtistId × Action) : Option (State S × Event S) :=
  match l.2 with
  | .artistWait => σ.artistWait l.1
  | .timeout => σ.timeout l.1
  | .wake => σ.wake l.1
  | .lookup => σ.lookup l.1
  | .condWait => σ.condWait l.1
  | .perfEnds => σ.perfEnds l.1

/-- The state in which `main` starts the threads. -/
def initial (S : Setup) : State S where
  artists _ := { stageAssigned := none, impFlag := false, waiting := false, pc := .entering }
  stages _ := { performers0 := none, performers1 := none }

end State

/-- The label of a step: the artist, the piece of code, and what it did. -/
abbrev Label (S : Setup) := (S.ArtistId × Action) × Event S

/-- The concert. -/
def concert (S : Setup) : Transition.System (State S) (Label S) :=
  Transition.ofFun (fun σ => σ = .initial S) State.step

/-- What is found after executing actions from the start is found at the end of some run. -/
theorem exists_run {S : Setup} (as : List (S.ArtistId × Action))
    (P : List (State S × Label S) → State S → Bool)
    (h : (Transition.exec State.step [] (.initial S) as).any (fun r => P r.1 r.2) = true) :
    ∃ hist σ, (concert S).Run hist σ ∧ P hist σ = true :=
  Transition.exists_run_of_exec_any rfl h

end Concert
