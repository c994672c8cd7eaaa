import Mathlib
import OsnAssignments.FileTransfer.Sides

/-!
# The client and the server in step

As long as every receive takes one whole message and no data is taken for a word of the protocol,
each side knows where the other one is. `Phase` lists the pairs of positions that then occur, with
what is under way between them: at most one message, except that the client does not wait for the
server to read `end` and may have sent the next command by then.

Every step leads to a phase with fewer steps left, so that no session goes on for ever.
-/

namespace FileTransfer

open Duplex

variable {m : List Byte} {t : Token}

/-- In this step the client takes data for the end of the file: the server is waiting for the
acknowledgement of a chunk, and `buffer2` reads `end` or `Invalid` once the chunk is in it. -/
def mistaken (s : State) : Action → Bool
  | .leftRead _ =>
    match s.right.pc, s.toLeft with
    | .awaitOki _ _, m :: _ => Client.endsFile (overlay m s.left.buffer2)
    | _, _ => false
  | _ => false

section Steps

variable (files : Files)

/-! ## Counting steps -/

/-- At most so many steps send what is left of a file from `pos` on, and its end: four for each
chunk, and a chunk has at least one byte. -/
def chunkSteps (content : List Byte) (pos : ℕ) : ℕ :=
  4 * (content.length - pos) + 2

/-- The steps from the sending of a name to the end of its file, or to its refusal. -/
def askSteps (t : Token) : ℕ :=
  match files t.bytes with
  | none => 3
  | some content => 5 + chunkSteps content 0

/-- The steps for the names that are left, and for the `end` that follows them. -/
def namesSteps (ts : List Token) : ℕ :=
  2 + (ts.map fun t => 1 + askSteps files t).sum

/-- The steps for the names of a command, if it is a `get`. -/
def commandSteps (t : Token) (ts : List Token) : ℕ :=
  if t.bytes = getWord then namesSteps files ts else 0

/-- The steps for a line. -/
def lineSteps : List Token → ℕ
  | [] => 1
  | t :: ts => 4 + commandSteps files t ts

/-- The steps for all lines. -/
def linesSteps (lines : List (List Token)) : ℕ :=
  (lines.map (lineSteps files)).sum

end Steps

theorem namesSteps_cons (files : Files) (t : Token) (ts : List Token) :
    namesSteps files (t :: ts) = 1 + askSteps files t + namesSteps files ts := by
  simp only [namesSteps, List.map_cons, List.sum_cons]
  omega

theorem linesSteps_cons (files : Files) (line : List Token) (lines : List (List Token)) :
    linesSteps files (line :: lines) = lineSteps files line + linesSteps files lines := by
  simp [linesSteps]

/-- A chunk takes four steps. -/
theorem chunkSteps_lt (content : List Byte) (pos : ℕ) (h : Server.nextChunk content pos ≠ []) :
    chunkSteps content (pos + (Server.nextChunk content pos).length) + 4 ≤
      chunkSteps content pos := by
  have hpos : 0 < (Server.nextChunk content pos).length := List.length_pos_iff.mpr h
  have hle : (Server.nextChunk content pos).length ≤ content.length - pos := by
    simp only [Server.nextChunk, List.length_take, List.length_drop]
    omega
  simp only [chunkSteps]
  omega

/-! ## The phases of a session -/

/-- The server has read everything up to `rest`, or everything but the `end` in front of `rest`. -/
def Settled (s : Server) (toServer rest : List (List Byte)) : Prop :=
  (s.pc = .top ∧ toServer = rest) ∨ (s.pc = .name ∧ toServer = terminated endWord :: rest)

theorem Settled.act_eq_none {s : Server} {toServer rest : List (List Byte)}
    (h : Settled s toServer rest) : s.act = none := by
  rcases h with ⟨hs, -⟩ | ⟨hs, -⟩
  · simp [Server.act, hs]
  · simp [Server.act, hs]

/-- The client has written `data` to the file `t`; it has not opened the file as long as there is
no data. -/
def Client.Written (c : Client) (t : Token) (opened : Bool) (data : List Byte) : Prop :=
  if opened then c.files t.bytes = some data else data = []

/-- The states in which the two sides are in step: client, server, the messages on the way to the
server and to the client, and a bound on the steps that the exchange still takes. -/
inductive Phase (files : Files) :
    Client → Server → List (List Byte) → List (List Byte) → ℕ → Prop
  -- Between commands.
  | idle {c s up} : c.pc = .prompt → Settled s up [] → Phase files c s up [] up.length
  | exited {c s} : c.pc = .exited → s.pc = .exited → Phase files c s [] [] 0
  -- A command and its acknowledgement.
  | sent {c s t ts up} : c.pc = .ack t ts → Settled s up [t.bytes] →
      Phase files c s up [] (up.length + 2 + commandSteps files t ts)
  | acking {c s t ts} : c.pc = .ack t ts → s.pc = .acking t.bytes →
      Phase files c s [] [] (2 + commandSteps files t ts)
  | acked {c s t ts} : c.pc = .ack t ts → s.pc = Server.afterAck t.bytes →
      Phase files c s [] [terminated okWord] (1 + commandSteps files t ts)
  -- A name and the reply to it.
  | names {c s ts} : c.pc = .names ts → s.pc = .name →
      Phase files c s [] [] (namesSteps files ts)
  | asked {c s t ts} : c.pc = .reply t ts → s.pc = .name →
      Phase files c s [terminated t.bytes] [] (askSteps files t + namesSteps files ts)
  | refusing {c s t ts} : c.pc = .reply t ts → s.pc = .refuse → files t.bytes = none →
      Phase files c s [] [] (2 + namesSteps files ts)
  | refused {c s t ts} : c.pc = .reply t ts → s.pc = .name → files t.bytes = none →
      Phase files c s [] [terminated invalidWord] (1 + namesSteps files ts)
  | special {c s t ts} : c.pc = .reply t ts → s.pc = .special → Phase files c s [] [] 0
  | sizing {c s t ts f} : c.pc = .reply t ts → s.pc = .size f → files t.bytes = some f →
      Phase files c s [] [] (4 + chunkSteps f 0 + namesSteps files ts)
  | sized {c s t ts f} : c.pc = .reply t ts → s.pc = .awaitOk f → files t.bytes = some f →
      Phase files c s [] [terminated (decimal f.length)] (3 + chunkSteps f 0 + namesSteps files ts)
  | oking {c s t ts f} : c.pc = .ok t ts → s.pc = .awaitOk f → files t.bytes = some f →
      Phase files c s [] [] (2 + chunkSteps f 0 + namesSteps files ts)
  | oked {c s t ts f} : c.pc = .chunk t ts false → s.pc = .awaitOk f → files t.bytes = some f →
      Phase files c s [terminated okWord] [] (1 + chunkSteps f 0 + namesSteps files ts)
  -- The chunks of the file `f` up to `pos`, the next chunk, and the end of the file.
  | sending {c s t ts f opened pos} : c.pc = .chunk t ts opened → s.pc = .file f pos →
      files t.bytes = some f → c.Written t opened (f.take pos) →
      Phase files c s [] [] (chunkSteps f pos + namesSteps files ts)
  | chunked {c s t ts f opened pos} : c.pc = .chunk t ts opened →
      s.pc = .awaitOki f (pos + (Server.nextChunk f pos).length) →
      files t.bytes = some f → c.Written t opened (f.take pos) →
      Phase files c s [] [Server.nextChunk f pos]
        (3 + chunkSteps f (pos + (Server.nextChunk f pos).length) + namesSteps files ts)
  | okiing {c s t ts f opened pos} :
      c.pc = .oki t ts opened (Server.nextChunk f pos).length →
      s.pc = .awaitOki f (pos + (Server.nextChunk f pos).length) →
      files t.bytes = some f → c.Written t opened (f.take pos) →
      c.buffer2.take (Server.nextChunk f pos).length = Server.nextChunk f pos →
      Phase files c s [] []
        (2 + chunkSteps f (pos + (Server.nextChunk f pos).length) + namesSteps files ts)
  | okied {c s t ts f pos} : c.pc = .chunk t ts true → s.pc = .awaitOki f pos →
      files t.bytes = some f → c.Written t true (f.take pos) →
      Phase files c s [terminated okiWord] [] (1 + chunkSteps f pos + namesSteps files ts)
  | ending {c s t ts f opened} : c.pc = .chunk t ts opened → s.pc = .name →
      files t.bytes = some f → c.Written t opened f →
      Phase files c s [] [terminated endWord] (1 + namesSteps files ts)

namespace Phase

variable {files : Files} {c c' : Client} {s s' : Server} {up down : List (List Byte)} {n : ℕ}
variable {ts : List Token} {special : List Byte → Bool}

/-! ### Where the server is when the client is about to act or has exited -/

section

variable (h : Phase files c s up down n)
include h

theorem of_prompt (hpc : c.pc = .prompt) : Settled s up [] ∧ down = [] ∧ n = up.length := by
  cases h <;> simp_all

theorem of_exited (hpc : c.pc = .exited) : s.pc = .exited := by
  cases h <;> simp_all

theorem of_names (hpc : c.pc = .names ts) :
    s.pc = .name ∧ up = [] ∧ down = [] ∧ n = namesSteps files ts := by
  cases h <;> simp_all

theorem of_ok (hpc : c.pc = .ok t ts) :
    ∃ f, s.pc = .awaitOk f ∧ files t.bytes = some f ∧ up = [] ∧ down = [] ∧
      n = 2 + chunkSteps f 0 + namesSteps files ts := by
  cases h <;> simp_all

theorem of_oki {opened : Bool} {m : ℕ} (hpc : c.pc = .oki t ts opened m) :
    ∃ f pos, s.pc = .awaitOki f (pos + m) ∧ files t.bytes = some f ∧
      c.Written t opened (f.take pos) ∧ c.buffer2.take m = Server.nextChunk f pos ∧
      m = (Server.nextChunk f pos).length ∧ up = [] ∧ down = [] ∧
      n = 2 + chunkSteps f (pos + m) + namesSteps files ts := by
  cases h with
  | @okiing t ts f opened pos h₁ h₂ h₃ h₄ h₅ =>
    rw [h₁] at hpc
    cases hpc
    exact ⟨f, pos, h₂, h₃, h₄, h₅, rfl, rfl, rfl, rfl⟩
  | _ => simp_all

/-! ### Each step leads to a phase with fewer steps left -/

theorem move {m : Option (List Byte)} (hmove : c.Move c' m) :
    ∃ n', linesSteps files c'.lines + n' < linesSteps files c.lines + n ∧
      Phase files c' s (up ++ m.toList) down n' := by
  cases hmove with
  | @blank rest hpc hlines =>
    obtain ⟨hs, rfl, rfl⟩ := h.of_prompt hpc
    refine ⟨up.length, ?_, by simpa using Phase.idle rfl hs⟩
    show linesSteps files rest + up.length < linesSteps files c.lines + up.length
    rw [hlines, linesSteps_cons, lineSteps]
    omega
  | @command t ts rest hpc hlines =>
    obtain ⟨hs, rfl, rfl⟩ := h.of_prompt hpc
    refine ⟨_, ?_, .sent rfl (hs.imp ?_ ?_)⟩
    · rw [hlines, linesSteps_cons, lineSteps, Option.toList_some, List.length_append,
        List.length_singleton]
      show linesSteps files rest + _ < _
      omega
    · rintro ⟨htop, rfl⟩
      exact ⟨htop, rfl⟩
    · rintro ⟨hname, rfl⟩
      exact ⟨hname, rfl⟩
  | finish hpc =>
    obtain ⟨hs, rfl, rfl, rfl⟩ := h.of_names hpc
    refine ⟨_, ?_, .idle rfl (.inr ⟨hs, rfl⟩)⟩
    simp [namesSteps]
  | name hpc =>
    obtain ⟨hs, rfl, rfl, rfl⟩ := h.of_names hpc
    refine ⟨_, Nat.add_lt_add_left ?_ _, .asked rfl hs⟩
    rw [namesSteps_cons]
    omega
  | ok hpc =>
    obtain ⟨f, hs, hf, rfl, rfl, rfl⟩ := h.of_ok hpc
    refine ⟨_, Nat.add_lt_add_left ?_ _, .oked rfl hs hf⟩
    omega
  | @oki t ts opened k hpc =>
    obtain ⟨f, pos, hs, hf, hwritten, hbuffer, rfl, rfl, rfl, rfl⟩ := h.of_oki hpc
    refine ⟨_, Nat.add_lt_add_left ?_ _, .okied rfl hs hf ?_⟩
    · omega
    -- The first chunk replaces what the file held, the others are appended.
    rw [Server.take_add_nextChunk]
    cases opened with
    | false =>
      have hnil : f.take pos = [] := by simpa [Client.Written] using hwritten
      simp [Client.Written, Client.store, hbuffer, hnil]
    | true =>
      have hsome : c.files t.bytes = some (f.take pos) := by
        simpa [Client.Written] using hwritten
      simp [Client.Written, Client.store, hbuffer, hsome]

theorem act {m : Option (List Byte)} (hact : s.act = some (s', m)) :
    ∃ n' < n, Phase files c s' up (down ++ m.toList) n' := by
  cases h with
  | acking hc hs =>
    obtain ⟨rfl, rfl⟩ : _ = s' ∧ some (terminated okWord) = m := by
      simpa [Server.act, hs] using hact
    exact ⟨_, by omega, .acked hc rfl⟩
  | refusing hc hs hf =>
    obtain ⟨rfl, rfl⟩ : _ = s' ∧ some (terminated invalidWord) = m := by
      simpa [Server.act, hs] using hact
    exact ⟨_, by omega, .refused hc rfl hf⟩
  | @sizing _ _ f hc hs hf =>
    obtain ⟨rfl, rfl⟩ : _ = s' ∧ some (terminated (decimal f.length)) = m := by
      simpa [Server.act, hs] using hact
    exact ⟨_, by omega, .sized hc rfl hf⟩
  | @sending _ ts f _ pos hc hs hf hwritten =>
    cases hnext : Server.nextChunk f pos with
    | nil =>
      obtain ⟨rfl, rfl⟩ : _ = s' ∧ some (terminated endWord) = m := by
        simpa [Server.act, hs, hnext] using hact
      rw [Server.take_eq_self_of_nextChunk_eq_nil hnext] at hwritten
      refine ⟨_, ?_, .ending hc rfl hf hwritten⟩
      rw [chunkSteps]
      omega
    | cons b chunk =>
      obtain ⟨rfl, rfl⟩ : _ = s' ∧ some (b :: chunk) = m := by
        simpa [Server.act, hs, hnext] using hact
      have hlt := chunkSteps_lt f pos (by simp [hnext])
      rw [← hnext]
      refine ⟨_, ?_, .chunked hc (by simp [hnext]) hf hwritten⟩
      omega
  -- In the other phases it is the client's turn, or the server has a message to read.
  | idle hc hs | sent hc hs => simp [hs.act_eq_none] at hact
  | acked hc hs => simp [Server.act_eq_none_of_afterAck hs] at hact
  | _ => simp_all [Server.act]

end

/-- The client reads a message, and does not take data for the end of a file. -/
theorem clientRead (h : Phase files c s up (m :: down) n)
    (hclear : ∀ f pos, s.pc = .awaitOki f pos → Client.endsFile (overlay m c.buffer2) = false) :
    ∃ n' < n, Phase files (c.receive m) s up down n' := by
  cases h with
  | @acked t ts hc hs =>
    rw [Server.afterAck, t.cstring_bytes] at hs
    by_cases hexit : t.bytes = exitWord
    · rw [if_neg (hexit.trans_ne exitWord_ne_getWord), if_pos hexit] at hs
      exact ⟨0, by omega, .exited (by simp [Client.receive, hc, hexit]) hs⟩
    · rw [if_neg hexit] at hs
      by_cases hget : t.bytes = getWord
      · rw [if_pos hget] at hs
        refine ⟨namesSteps files ts, ?_, .names ?_ hs⟩
        · rw [commandSteps, if_pos hget]
          omega
        · simp only [Client.receive, hc, if_neg hexit, if_pos hget]
      · rw [if_neg hget] at hs
        refine ⟨0, by omega, .idle ?_ (.inl ⟨hs, rfl⟩)⟩
        simp [Client.receive, hc, hget, hexit]
  | @refused t ts hc hs =>
    have hword := cstring_overlay_terminated (w := invalidWord) (by decide) c.buffer2
    refine ⟨namesSteps files ts, by omega, .names ?_ hs⟩
    simp [Client.receive, hc, hword]
  | @sized t ts f hc hs hf =>
    have hword := cstring_overlay_terminated (zero_notMem_decimal f.length) c.buffer2
    refine ⟨2 + chunkSteps f 0 + namesSteps files ts, by omega, .oking (t := t) ?_ hs hf⟩
    simp [Client.receive, hc, hword, decimal_ne_invalidWord]
  | @chunked t ts f opened pos hc hs hf hwritten =>
    have hread : c.receive (Server.nextChunk f pos) =
        { c with
          pc := .oki t ts opened (Server.nextChunk f pos).length
          buffer2 := overlay (Server.nextChunk f pos) c.buffer2 } := by
      simp [Client.receive, hc, hclear _ _ hs]
    rw [hread]
    exact ⟨_, by omega, .okiing rfl hs hf hwritten (by simp [overlay])⟩
  | @ending t ts f opened hc hs =>
    have hword := cstring_overlay_terminated (w := endWord) (by decide) c.buffer2
    refine ⟨namesSteps files ts, by omega, .names ?_ hs⟩
    simp [Client.receive, hc, Client.endsFile, hword]

/-- The server reads a message. -/
theorem serverRead (h : Phase files c s (m :: up) down n)
    (hnames : ∀ t ∈ c.pc.pending, t.bytes ≠ endWord ∧ t.bytes.length < Server.nameSize) :
    ∃ n' < n, Phase files c (s.receive files special m) up down n' := by
  cases h with
  | idle hc hs =>
    obtain ⟨hname, heq⟩ : s.pc = .name ∧ m :: up = [terminated endWord] := by
      simpa [Settled] using hs
    cases heq
    exact ⟨0, by simp, .idle hc (.inl ⟨s.receive_end hname, rfl⟩)⟩
  | sent hc hs =>
    rcases hs with ⟨htop, heq⟩ | ⟨hname, heq⟩
    · cases heq
      refine ⟨_, ?_, .acking hc (by simp [Server.receive, htop])⟩
      simp only [List.length_singleton]
      omega
    · cases heq
      refine ⟨_, ?_, .sent hc (.inl ⟨s.receive_end hname, rfl⟩)⟩
      simp only [List.length_cons, List.length_nil]
      omega
  | @asked t ts hc hs =>
    obtain ⟨hend, hshort⟩ := hnames t (by simp [hc, Client.Pc.pending])
    have hword := cstring_overlay_terminated t.zero_notMem s.buffer2
    rw [askSteps]
    by_cases hspecial : special t.bytes = true
    · refine ⟨0, by split <;> omega, .special hc ?_⟩
      simp [Server.receive, hs, Server.takeName, hword, hend, Nat.not_le.mpr hshort, hspecial]
    cases hf : files t.bytes with
    | none =>
      refine ⟨2 + namesSteps files ts, ?_, .refusing hc ?_ hf⟩
      · show _ < 3 + namesSteps files ts
        omega
      · simp [Server.receive, hs, Server.takeName, hword, hend, Nat.not_le.mpr hshort, hspecial, hf]
    | some f =>
      refine ⟨4 + chunkSteps f 0 + namesSteps files ts, ?_, .sizing hc ?_ hf⟩
      · show _ < 5 + chunkSteps f 0 + namesSteps files ts
        omega
      · simp [Server.receive, hs, Server.takeName, hword, hend, Nat.not_le.mpr hshort, hspecial, hf]
  | @oked t ts f hc hs hf =>
    refine ⟨chunkSteps f 0 + namesSteps files ts, by omega, .sending hc ?_ hf ?_⟩
    · simp [Server.receive, hs]
    · simp [Client.Written]
  | @okied t ts f pos hc hs hf hwritten =>
    refine ⟨chunkSteps f pos + namesSteps files ts, by omega, .sending hc ?_ hf hwritten⟩
    simp [Server.receive, hs]

/-! ### What each step leaves behind -/

/-- A file that the client finishes with has arrived. -/
theorem delivered (h : Phase files c s up (m :: down) n)
    (hclear : ∀ f pos, s.pc = .awaitOki f pos → Client.endsFile (overlay m c.buffer2) = false)
    {u : Token} (hu : u ∈ c.pc.pending) (hdone : u ∉ (c.receive m).pc.pending) :
    c.Delivered files u := by
  cases h with
  | @acked t ts hc =>
    exfalso
    apply hdone
    obtain ⟨hget, hu⟩ : t.bytes = getWord ∧ u ∈ ts := by
      simpa [hc, Client.Pc.pending, FileTransfer.names] using hu
    have hexit : t.bytes ≠ exitWord := hget.trans_ne exitWord_ne_getWord.symm
    simpa only [Client.receive, hc, if_neg hexit, if_pos hget, Client.Pc.pending] using hu
  | @refused t ts hc hs hf =>
    have hword := cstring_overlay_terminated (w := invalidWord) (by decide) c.buffer2
    obtain rfl : u = t := by
      have hts : u ∉ ts := by simpa [Client.receive, hc, hword, Client.Pc.pending] using hdone
      simpa [hc, Client.Pc.pending, hts] using hu
    intro f hsome
    simp [hf] at hsome
  | @sized t ts f hc =>
    exfalso
    apply hdone
    have hword := cstring_overlay_terminated (zero_notMem_decimal f.length) c.buffer2
    simpa [Client.receive, hc, hword, decimal_ne_invalidWord, Client.Pc.pending] using hu
  | @chunked t ts f opened pos hc hs =>
    exfalso
    apply hdone
    simpa [Client.receive, hc, hclear _ _ hs, Client.Pc.pending] using hu
  | @ending t ts f opened hc hs hf hwritten =>
    have hword := cstring_overlay_terminated (w := endWord) (by decide) c.buffer2
    obtain rfl : u = t := by
      have hts : u ∉ ts := by
        simpa [Client.receive, hc, Client.endsFile, hword, Client.Pc.pending] using hdone
      simpa [hc, Client.Pc.pending, hts] using hu
    intro f' hsome hne
    obtain rfl : f = f' := Option.mem_unique hf hsome
    -- The file was opened, since there was data.
    cases opened with
    | false => exact absurd hwritten hne
    | true => exact hwritten

/-- What the server tries to open is the name that the client is waiting for a reply to. -/
theorem asked_of_serverRead (h : Phase files c s (m :: up) down n)
    {name : List Byte} (hn : name ∈ (s.receive files special m).asked) :
    name ∈ s.asked ∨ ∃ t ∈ c.pc.pending, t.bytes = name := by
  rcases Server.mem_asked_receive hn with hold | ⟨hpc, rfl, hend⟩
  · exact .inl hold
  -- A message that the server reads as a name is the word that ends the names, or a name.
  have hmsg : m ≠ terminated endWord := by
    rintro rfl
    exact hend (cstring_overlay_terminated (by decide) s.buffer2)
  cases h with
  | idle hc hs | sent hc hs =>
    exact absurd (by simpa [Settled, hpc] using hs : m = _ ∧ up = _).1 hmsg
  | @asked t ts hc =>
    have hword := cstring_overlay_terminated t.zero_notMem s.buffer2
    exact .inr ⟨t, by simp [hc, Client.Pc.pending], hword.symm⟩
  | oked hc hs | okied hc hs => simp [hpc] at hs

/-! ### Where a session stops -/

/-- When nothing is under way, one of the sides is not waiting for a message. -/
theorem limit_eq_none (h : Phase files c s [] [] n) : c.limit = none ∨ s.limit = none := by
  cases h with
  | sent hc hs => simp [Settled] at hs
  | _ => simp_all [Client.limit, Server.limit]

variable (h : Phase files c s up down n)
include h

/-- When the server has exited, the client has, or has only to read the acknowledgement. -/
theorem of_server_exited (hpc : s.pc = .exited) : c.pc = .exited ∨ down ≠ [] := by
  cases h with
  | exited hc => exact .inl hc
  | acked => exact .inr (List.cons_ne_nil _ _)
  | _ => simp_all [Settled]

theorem not_overrun : c.pc ≠ .overrun ∧ s.pc ≠ .overrun := by
  cases h with
  | idle hc hs | sent hc hs => rcases hs with ⟨hs, -⟩ | ⟨hs, -⟩ <;> simp [hc, hs]
  | acked hc hs =>
    rw [hc, hs, Server.afterAck]
    split_ifs <;> simp
  | _ => simp_all

/-- When no side has anything to do and the server has opened a regular file or none, the lines are
used up and both sides are at the top of their loops, or both have exited. -/
theorem of_stopped (hspecial : s.pc ≠ .special) (hc : c.act = none) (hs : s.act = none)
    (hdown : c.limit.isSome → down = []) (hup : s.limit.isSome → up = []) :
    (c.pc = .prompt ∧ c.lines = [] ∧ s.pc = .top ∧ up = [] ∧ down = []) ∨
      (c.pc = .exited ∧ s.pc = .exited) := by
  obtain ⟨hoverrun, hoverrun'⟩ := h.not_overrun
  rcases Client.of_act_eq_none hc hoverrun with hwait | ⟨hprompt, hlines⟩ | hexited
  · -- The client waits, so nothing is on the way to it.
    obtain rfl := hdown hwait
    rcases Server.of_act_eq_none hs hoverrun' hspecial with hwait' | hexited'
    · obtain rfl := hup hwait'
      rcases h.limit_eq_none with hnone | hnone
      · simp [hnone] at hwait
      · simp [hnone] at hwait'
    · have hexited : c.pc = .exited := (h.of_server_exited hexited').resolve_right (by simp)
      exact .inr ⟨hexited, hexited'⟩
  · -- The client has no line left; a server that waits for a name has `end` to read.
    obtain ⟨hsettled, rfl, -⟩ := h.of_prompt hprompt
    rcases hsettled with ⟨htop, rfl⟩ | ⟨hname, rfl⟩
    · exact .inl ⟨hprompt, hlines, htop, rfl, rfl⟩
    · exact absurd (hup (by simp [Server.limit, hname])) (List.cons_ne_nil _ _)
  · exact .inr ⟨hexited, h.of_exited hexited⟩

end Phase

/-! ## The invariant -/

/-- The two sides are in step, what has been asked for has arrived, and at most `n` steps are
left. -/
structure InStep (S : Setup) (s : State) (n : ℕ) : Prop where
  phase : ∃ k, linesSteps S.serverFiles s.left.lines + k ≤ n ∧
    Phase S.serverFiles s.left s.right s.toRight s.toLeft k
  orderly : s.left.Orderly
  kept : s.left.Kept S.serverFiles
  tried : s.right.Tried S.special
  asked : ∀ name ∈ s.right.asked, ∃ t ∈ s.left.requested, t.bytes = name

namespace InStep

variable {S : Setup} {hist : List (State × (Action × Unit))} {s : State} {n : ℕ}

theorem start (hlines : ∀ line ∈ S.lines, Proper line) :
    InStep S S.start (linesSteps S.serverFiles S.lines) where
  phase := ⟨0, Nat.le_refl _, .idle rfl (.inl ⟨rfl, rfl⟩)⟩
  orderly := ⟨hlines, by simp [Setup.start, Client.start, Client.Pc.pending],
    by simp [Setup.start, Client.start, Client.Pc.pending]⟩
  kept := by
    intro t ht
    simp [Setup.start, Client.start, Client.requested] at ht
  tried h := by cases h
  asked := by simp [Setup.start, Server.start]

/-- The two sides stay in step in every step over messages that takes no data for the end of a
file. -/
theorem step {a : Action} {s' : State} (h : InStep S s n)
    (hclear : mistaken s a = false) (hmove : Move Setup.client S.server s a s') :
    ∃ n' < n, InStep S s' n' := by
  obtain ⟨k, hk, hphase⟩ := h.phase
  cases hmove with
  | @left c' m hact =>
    have hmove : s.left.Move c' m := h.orderly.move hact
    obtain ⟨k', hlt, hphase'⟩ := hphase.move hmove
    refine ⟨linesSteps S.serverFiles c'.lines + k', by omega,
      ⟨k', Nat.le_refl _, hphase'⟩, h.orderly.of_move hmove, h.kept.move hmove, h.tried, ?_⟩
    intro name hname
    obtain ⟨t, ht, rfl⟩ := h.asked name hname
    exact ⟨t, Client.mem_requested_of_move hmove ht, rfl⟩
  | right hact =>
    obtain ⟨k', hlt, hphase'⟩ := hphase.act hact
    obtain ⟨hasked, hspecial⟩ := Server.asked_of_act hact
    refine ⟨linesSteps S.serverFiles s.left.lines + k', by omega,
      ⟨k', Nat.le_refl _, hphase'⟩, h.orderly, h.kept, fun hpc => absurd hpc hspecial, ?_⟩
    intro name hname
    rw [hasked] at hname
    exact h.asked name hname
  | @leftRead m rest _ hm =>
    rw [hm] at hphase
    have hdata (f : List Byte) (pos : ℕ) (hs : s.right.pc = .awaitOki f pos) :
        Client.endsFile (overlay m s.left.buffer2) = false := by
      simpa [mistaken, hs, hm] using hclear
    obtain ⟨k', hlt, hphase'⟩ := hphase.clientRead hdata
    obtain ⟨pc, buffer2, heq, -⟩ := s.left.receive_eq m
    refine ⟨linesSteps S.serverFiles s.left.lines + k', by omega,
      ⟨k', ?_, hphase'⟩, h.orderly.receive m, ?_, h.tried, ?_⟩
    · have hlines : (s.left.receive m).lines = s.left.lines := by rw [heq]
      have hsteps : linesSteps S.serverFiles (s.left.receive m).lines + k' =
          linesSteps S.serverFiles s.left.lines + k' := by rw [hlines]
      exact Nat.le_of_eq hsteps
    · apply h.kept.receive
      intro t ht hdone
      exact hphase.delivered hdata ht hdone
    · intro name hname
      obtain ⟨t, ht, rfl⟩ := h.asked name hname
      refine ⟨t, ?_, rfl⟩
      show t ∈ (s.left.receive m).requested
      rw [heq]
      exact ht
  | @rightRead m rest _ hm =>
    rw [hm] at hphase
    obtain ⟨k', hlt, hphase'⟩ := hphase.serverRead h.orderly.proper
    refine ⟨linesSteps S.serverFiles s.left.lines + k', by omega,
      ⟨k', Nat.le_refl _, hphase'⟩, h.orderly, h.kept, h.tried.receive m, ?_⟩
    intro name hname
    rcases hphase.asked_of_serverRead hname with hold | ⟨t, ht, rfl⟩
    · exact h.asked name hold
    · exact ⟨t, h.orderly.requested t ht, rfl⟩

/-- The two sides are in step at the end of every run over messages in which the lines are proper
and no data is taken for the end of a file, and the length of such runs is bounded. -/
theorem of_run (hrun : (S.session byMessage).Run hist s) (hlines : ∀ line ∈ S.lines, Proper line)
    (hclear : ∀ x ∈ hist, mistaken x.1 x.2.1 = false) : ∃ n, InStep S s n ∧
      hist.length + n ≤ linesSteps S.serverFiles S.lines := by
  apply Transition.System.Run.rankedInvariant
    (G := fun s l => mistaken s l.1 = false) ?_ ?_ hrun hclear
  · rintro s rfl
    exact start hlines
  · intro s l s' n h hstep hs
    exact h.step hstep (move_of_step hs)

/-- At the prompt, every file asked for has arrived. -/
theorem delivered (h : InStep S s n) (hpc : s.left.pc = .prompt)
    {line : List Token} (hline : line ∈ s.left.typed) (ht : t ∈ names line) :
    s.left.Delivered S.serverFiles t := by
  apply h.kept t
  · exact List.mem_flatMap.mpr ⟨line, hline, ht⟩
  · simp [hpc, Client.Pc.pending]

end InStep

end FileTransfer
