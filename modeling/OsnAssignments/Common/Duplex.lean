import OsnAssignments.Common.Transition

/-!
# Two machines joined by two channels

Each side is an `Endpoint`: it takes steps of its own, some of which send a message, or is blocked
in a receive with a size limit. A channel is the list of the messages under way, oldest first.
How a receive takes bytes out of a channel is a parameter of the system (`Delivery`):

* `byMessage`: a receive takes exactly the bytes of one send;
* `byStream`: a receive takes any non-empty number of bytes up to its limit, so that messages may
  be split and merged. The boundaries between messages are then invisible to the sides.
-/

namespace Duplex

open Transition

variable {n : ℕ}

/-- One side of a connection that carries lists over `α`, with states in `S`. -/
structure Endpoint (α S : Type) where
  /-- The step that the side takes on its own, with the message it sends, if it sends one. -/
  act : S → Option (S × Option (List α))
  /-- The size limit of the receive that the side is blocked in, if it is blocked in one. -/
  limit : S → Option ℕ
  /-- What the side does with what it receives. -/
  receive : S → List α → S

/-- The two sides and the messages under way in both directions, oldest first. -/
structure State (α A B : Type) where
  left : A
  right : B
  toLeft : List (List α)
  toRight : List (List α)

/-- A side takes a step of its own, or receives `n` bytes. -/
inductive Action
  | left
  | right
  | leftRead (n : ℕ)
  | rightRead (n : ℕ)
deriving DecidableEq

/-! ## Channels -/

section Channel

variable {α : Type}

/-- What a receive of `n` bytes with the size limit `k` takes out of a channel, and what it leaves
there; `none` if no such receive is possible. -/
abbrev Delivery (α : Type) :=
  (k n : ℕ) → List (List α) → Option (List α × List (List α))

/-- A receive takes exactly one message. -/
def byMessage : Delivery α
  | _, _, [] => none
  | _, n, m :: rest => if m.length = n then some (m, rest) else none

/-- The messages, or what is left of them, after the first `n` bytes are gone. -/
def dropBytes : List (List α) → ℕ → List (List α)
  | [], _ => []
  | m :: rest, n =>
    if n < m.length then m.drop n :: rest
    else if n = m.length then rest
    else dropBytes rest (n - m.length)

/-- A receive takes any non-empty initial part of the bytes under way, up to its limit. -/
def byStream : Delivery α
  | k, n, c =>
    if 0 < n ∧ n ≤ k ∧ n ≤ c.flatten.length then some (c.flatten.take n, dropBytes c n) else none

/-- Where a receive over a stream takes as many bytes as the first message has, it takes that
message. -/
theorem byMessage_of_byStream {k : ℕ} {c : List (List α)} {r : List α × List (List α)}
    (h : byStream k n c = some r) (hwhole : c.head?.map List.length = some n) :
    byMessage k n c = some r := by
  obtain ⟨m, rest, rfl, rfl⟩ : ∃ m rest, c = m :: rest ∧ m.length = n := by
    cases c with
    | nil => simp at hwhole
    | cons m rest => exact ⟨m, rest, rfl, by simpa using hwhole⟩
  have hr : (m, rest) = r := by
    have := (Option.ite_none_right_eq_some.mp h).2
    simpa [dropBytes] using this
  simp [byMessage, hr]

end Channel

/-! ## The joint system -/

section Joint

variable {α A B : Type}

namespace State

/-- The same state seen from the other side. -/
def swap (s : State α A B) : State α B A :=
  ⟨s.right, s.left, s.toRight, s.toLeft⟩

variable (L : Endpoint α A) (R : Endpoint α B) (deliver : Delivery α)

/-- The left side takes a step of its own. -/
def actLeft (s : State α A B) : Option (State α A B) :=
  (L.act s.left).map fun r =>
    { s with left := r.1, toRight := s.toRight ++ r.2.toList }

/-- The left side, blocked in a receive, receives `n` bytes. -/
def readLeft (s : State α A B) (n : ℕ) : Option (State α A B) :=
  (L.limit s.left).bind fun k =>
    (deliver k n s.toLeft).map fun r =>
      { s with left := L.receive s.left r.1, toLeft := r.2 }

/-- One step of the joint system. -/
def step (s : State α A B) : Action → Option (State α A B)
  | .left => s.actLeft L
  | .right => (s.swap.actLeft R).map swap
  | .leftRead n => s.readLeft L deliver n
  | .rightRead n => (s.swap.readLeft R deliver n).map swap

/-- Both sides are blocked in a receive and nothing is under way. -/
def Deadlocked (s : State α A B) : Prop :=
  (L.limit s.left).isSome ∧ (R.limit s.right).isSome ∧ s.toLeft = [] ∧ s.toRight = []

instance instDecidableDeadlocked [DecidableEq α] (s : State α A B) : Decidable (s.Deadlocked L R) :=
  inferInstanceAs (Decidable (_ ∧ _ ∧ _ ∧ _))

/-- If the action is a receive, then it takes as many bytes as the first message has. -/
def Whole (s : State α A B) : Action → Prop
  | .leftRead n => s.toLeft.head?.map List.length = some n
  | .rightRead n => s.toRight.head?.map List.length = some n
  | .left | .right => True

instance instDecidableWhole (s : State α A B) (a : Action) : Decidable (s.Whole a) :=
  match a with
  | .leftRead _ => inferInstanceAs (Decidable (_ = _))
  | .rightRead _ => inferInstanceAs (Decidable (_ = _))
  | .left | .right => inferInstanceAs (Decidable True)

end State

variable (L : Endpoint α A) (R : Endpoint α B) (start : State α A B)

/-- The system of two sides over channels of a given kind, from a given state. -/
def joint (deliver : Delivery α) : System (State α A B) (Action × Unit) :=
  ofFun (· = start) fun s a => (s.step L R deliver a).map fun s' => (s', ())

variable {L R start} {hist : List (State α A B × (Action × Unit))} {s : State α A B}

/-- What an execution finds is found at the end of some run. -/
theorem exists_run {deliver : Delivery α} (as : List Action)
    (P : List (State α A B × (Action × Unit)) → State α A B → Bool)
    (h : (exec (fun s a => (State.step L R deliver s a).map fun s' => (s', ())) [] start as).any
      (fun r => P r.1 r.2) = true) :
    ∃ hist s, (joint L R start deliver).Run hist s ∧ P hist s = true :=
  exists_run_of_exec_any rfl h

theorem joint_step_iff {deliver : Delivery α} {l : Action × Unit} {s' : State α A B} :
    (joint L R start deliver).step s l s' ↔ s.step L R deliver l.1 = some s' := by
  constructor
  · intro h
    obtain ⟨s₁, hs, heq⟩ := Option.map_eq_some_iff.mp h
    obtain rfl : s₁ = s' := congrArg Prod.fst heq
    exact hs
  · intro h
    exact Option.map_eq_some_iff.mpr ⟨s', h, rfl⟩

/-- A receive over messages takes the first message of the channel. -/
theorem State.readLeft_byMessage_iff {s' : State α A B} : s.readLeft L byMessage n = some s' ↔
      (L.limit s.left).isSome ∧ ∃ m rest, s.toLeft = m :: rest ∧ m.length = n ∧
        s' = { s with left := L.receive s.left m, toLeft := rest } := by
  unfold readLeft
  cases hlimit : L.limit s.left with
  | none => simp
  | some =>
    cases hchannel : s.toLeft with
    | nil => simp [byMessage]
    | cons m =>
      by_cases hm : m.length = n
      · simp [byMessage, hm, eq_comm]
      · simp [byMessage, hm]

/-- What a step over messages can do: a side takes a step of its own, or receives the first message
of its channel. -/
inductive Move (L : Endpoint α A) (R : Endpoint α B) (s : State α A B) :
    Action → State α A B → Prop
  | left {a : A} {m : Option (List α)} : L.act s.left = some (a, m) →
      Move L R s .left { s with left := a, toRight := s.toRight ++ m.toList }
  | right {b : B} {m : Option (List α)} : R.act s.right = some (b, m) →
      Move L R s .right { s with right := b, toLeft := s.toLeft ++ m.toList }
  | leftRead {m : List α} {rest : List (List α)} : (L.limit s.left).isSome →
      s.toLeft = m :: rest →
      Move L R s (.leftRead m.length) { s with left := L.receive s.left m, toLeft := rest }
  | rightRead {m : List α} {rest : List (List α)} : (R.limit s.right).isSome →
      s.toRight = m :: rest →
      Move L R s (.rightRead m.length) { s with right := R.receive s.right m, toRight := rest }

theorem move_of_step {l : Action × Unit} {s' : State α A B}
    (hstep : (joint L R start byMessage).step s l s') : Move L R s l.1 s' := by
  replace hstep := joint_step_iff.mp hstep
  -- The moves of the right side are moves of the left one in the swapped state.
  cases ha : l.1 with
  | left =>
    rw [ha] at hstep
    obtain ⟨⟨a, m⟩, hact, rfl⟩ := Option.map_eq_some_iff.mp hstep
    exact .left hact
  | right =>
    rw [ha] at hstep
    obtain ⟨s₁, h, rfl⟩ := Option.map_eq_some_iff.mp hstep
    obtain ⟨⟨b, m⟩, hact, rfl⟩ := Option.map_eq_some_iff.mp h
    exact .right hact
  | leftRead =>
    rw [ha] at hstep
    obtain ⟨hlimit, m, rest, hm, rfl, rfl⟩ := State.readLeft_byMessage_iff.mp hstep
    exact .leftRead hlimit hm
  | rightRead =>
    rw [ha] at hstep
    obtain ⟨s₁, h, rfl⟩ := Option.map_eq_some_iff.mp hstep
    obtain ⟨hlimit, m, rest, hm, rfl, rfl⟩ := State.readLeft_byMessage_iff.mp h
    exact .rightRead hlimit hm

/-- Where no step over messages is possible, no side can take a step of its own, and none that waits
has a message to receive. -/
theorem State.of_stopped (h : ∀ a, s.step L R byMessage a = none) :
    L.act s.left = none ∧ R.act s.right = none ∧
      ((L.limit s.left).isSome → s.toLeft = []) ∧ ((R.limit s.right).isSome → s.toRight = []) := by
  -- A side that waits and has a message could receive all of it.
  have hread {A B : Type} {L : Endpoint α A} {s : State α A B} {m : List α}
      {rest : List (List α)} (hlimit : (L.limit s.left).isSome) (hm : s.toLeft = m :: rest) :
      s.readLeft L byMessage m.length ≠ none :=
    Option.ne_none_iff_exists'.mpr ⟨_, readLeft_byMessage_iff.mpr ⟨hlimit, m, rest, hm, rfl, rfl⟩⟩
  refine ⟨?_, ?_, ?_, ?_⟩
  · exact Option.map_eq_none_iff.mp (h .left)
  · exact Option.map_eq_none_iff.mp (Option.map_eq_none_iff.mp (h .right))
  · intro hlimit
    cases hm : s.toLeft with
    | nil => rfl
    | cons m => exact absurd (h (.leftRead m.length)) (hread hlimit hm)
  · intro hlimit
    cases hm : s.toRight with
    | nil => rfl
    | cons m =>
      have hnone := Option.map_eq_none_iff.mp (h (.rightRead m.length))
      exact absurd hnone (hread (s := s.swap) hlimit hm)

/-- A receive that takes one whole message does the same over streams and over messages. -/
theorem State.readLeft_byMessage_of_byStream {s' : State α A B}
    (h : s.readLeft L byStream n = some s') (hwhole : s.toLeft.head?.map List.length = some n) :
    s.readLeft L byMessage n = some s' := by
  obtain ⟨k, hk, h⟩ := Option.bind_eq_some_iff.mp h
  obtain ⟨r, hr, rfl⟩ := Option.map_eq_some_iff.mp h
  simp [readLeft, hk, byMessage_of_byStream hr hwhole]

/-- A run over streams in which every receive takes one whole message is a run over messages. -/
theorem run_byMessage_of_whole (hrun : (joint L R start byStream).Run hist s)
    (hwhole : ∀ x ∈ hist, x.1.Whole x.2.1) : (joint L R start byMessage).Run hist s := by
  induction hrun with
  | init h => exact .init h
  | @step hist s s' l hr hs ih =>
    have hlast : s.Whole l.1 := hwhole (s, l) List.mem_cons_self
    refine .step (ih fun x hx => hwhole x (List.mem_cons_of_mem _ hx)) (joint_step_iff.mpr ?_)
    replace hs := joint_step_iff.mp hs
    -- Only receives depend on the kind of channel.
    cases ha : l.1 with
    | left | right =>
      rw [ha] at hs
      exact hs
    | leftRead =>
      rw [ha] at hs hlast
      exact State.readLeft_byMessage_of_byStream hs hlast
    | rightRead =>
      rw [ha] at hs hlast
      obtain ⟨s₁, h, rfl⟩ := Option.map_eq_some_iff.mp hs
      exact Option.map_eq_some_iff.mpr ⟨s₁, State.readLeft_byMessage_of_byStream h hlast, rfl⟩

end Joint

end Duplex
