import OsnAssignments.FileTransfer.Lockstep

/-!
# Sessions of the file transfer

What the invariant of `Lockstep` says about whole sessions. Over messages the files arrive, and the
two sides come to an end at the top of their loops, unless data is taken for the end of a file, a
name is the word that ends the names, or the server has something else than a regular file under it.
Over streams the files arrive only if every receive happens to take one message.
-/

namespace FileTransfer

open Duplex

/-! ## Sessions with one command and one file -/

/-- The command `get`. -/
def getToken : Token := ⟨getWord, rfl⟩

/-- The name `end`. -/
def endToken : Token := ⟨endWord, rfl⟩

/-- The name of the only file on the server. -/
def note : Token := ⟨text ['a'], rfl⟩

/-- The client asks for `t`; the server has the file `note`, the client has no file. -/
def fetch (t : Token) (content : List Byte) : Setup where
  clientFiles := fun _ => none
  serverFiles := fun n => if n = note.bytes then some content else none
  special := fun _ => false
  lines := [[getToken, t]]

/-- The command and the name are sent and read, each in one piece. -/
def request : List Action :=
  [.left, .rightRead 3, .right, .leftRead 3, .left]

section Sessions

variable {S : Setup} {hist : List (State × (Action × Unit))} {s : State}

/-! ## Content -/

/-- Over messages, when the client is back at its prompt, it holds every non-empty file it has asked
for, as long as the lines are proper and no data has been taken for the end of a file. -/
theorem files_arrive (hrun : (S.session byMessage).Run hist s)
    (hlines : ∀ line ∈ S.lines, Proper line)
    (hclear : ∀ x ∈ hist, mistaken x.1 x.2.1 = false) (hpc : s.left.pc = .prompt)
    {line : List Token} (hline : line ∈ s.left.typed) {t : Token} (ht : t ∈ names line)
    {content : List Byte} (hcontent : S.serverFiles t.bytes = some content)
    (hne : content ≠ []) : s.left.files t.bytes = some content := by
  obtain ⟨n, hstep, -⟩ := InStep.of_run hrun hlines hclear
  exact hstep.delivered hpc hline ht content hcontent hne

/-- The server sends a file of one chunk and its end, and the client takes the data for data. -/
theorem files_arrive_greeting :
    ∃ hist s, ((fetch note okWord).session byMessage).Run hist s ∧ s.left.pc = .prompt ∧
      [getToken, note] ∈ s.left.typed ∧ s.left.files note.bytes = some okWord := by
  obtain ⟨hist, s, hrun, hs⟩ := exists_run (fetch note okWord) byMessage
    (request ++ [.rightRead 2, .right, .leftRead 2, .left, .rightRead 3, .right, .leftRead 2, .left,
      .rightRead 4, .right, .leftRead 4, .left])
    (fun hist s => decide (s.left.pc = .prompt ∧ [getToken, note] ∈ s.left.typed ∧
      ∀ x ∈ hist, mistaken x.1 x.2.1 = false)) (by decide +kernel)
  obtain ⟨hpc, htyped, hclear⟩ := of_decide_eq_true hs
  refine ⟨hist, s, hrun, hpc, htyped, ?_⟩
  exact files_arrive hrun (by decide) hclear hpc htyped (t := note) (by decide) (by decide)
    (by decide)

/-- A file that holds the text `end`, and likewise an empty file, does not arrive: the client is
back at its prompt and has not even created it. -/
theorem not_files_arrive :
    (∃ hist s, ((fetch note endWord).session byMessage).Run hist s ∧ s.left.pc = .prompt ∧
      [getToken, note] ∈ s.left.typed ∧ s.left.files note.bytes = none) ∧
    ∃ hist s, ((fetch note []).session byMessage).Run hist s ∧ s.left.pc = .prompt ∧
      [getToken, note] ∈ s.left.typed ∧ s.left.files note.bytes = none := by
  -- the client reads the data, or the word itself, for which it needs one byte more
  have hlost (content : List Byte) (hcontent : content ∈ [endWord, []]) :
      ∃ hist s, ((fetch note content).session byMessage).Run hist s ∧ s.left.pc = .prompt ∧
        [getToken, note] ∈ s.left.typed ∧ s.left.files note.bytes = none := by
    obtain ⟨hist, s, hrun, hs⟩ := exists_run (fetch note content) byMessage
      (request ++ [.rightRead 2, .right, .leftRead 2, .left, .rightRead 3, .right,
        .leftRead (if content = [] then 4 else 3), .left])
      (fun _ s => decide (s.left.pc = .prompt ∧ [getToken, note] ∈ s.left.typed ∧
        s.left.files note.bytes = none))
      (by
        revert content
        decide +kernel)
    exact ⟨hist, s, hrun, of_decide_eq_true hs⟩
  exact ⟨hlost endWord (by simp), hlost [] (by simp)⟩

/-! ## Segmentation -/

/-- Over streams, if every receive happens to take exactly one message, then the files arrive as
over messages, and the server tries to open only names that were asked for. -/
theorem files_arrive_of_whole (hrun : (S.session byStream).Run hist s)
    (hwhole : ∀ x ∈ hist, x.1.Whole x.2.1) (hlines : ∀ line ∈ S.lines, Proper line)
    (hclear : ∀ x ∈ hist, mistaken x.1 x.2.1 = false) :
    (s.left.pc = .prompt → ∀ line ∈ s.left.typed, ∀ t ∈ names line, ∀ content,
      S.serverFiles t.bytes = some content → content ≠ [] →
        s.left.files t.bytes = some content) ∧
      ∀ n ∈ s.right.asked, ∃ line ∈ s.left.typed, ∃ t ∈ names line, t.bytes = n := by
  obtain ⟨k, hstep, -⟩ := InStep.of_run (run_byMessage_of_whole hrun hwhole) hlines hclear
  constructor
  · intro hpc line hline t ht
    exact hstep.delivered hpc hline ht
  · intro n hn
    obtain ⟨t, ht, rfl⟩ := hstep.asked n hn
    obtain ⟨line, hline, ht⟩ := List.mem_flatMap.mp ht
    exact ⟨line, hline, t, ht, rfl⟩

/-- The session of `files_arrive_greeting` is also one over streams. -/
theorem files_arrive_of_whole_greeting :
    ∃ hist s, ((fetch note okWord).session byStream).Run hist s ∧ s.left.pc = .prompt ∧
      s.left.files note.bytes = some okWord ∧
      ∀ n ∈ s.right.asked, ∃ line ∈ s.left.typed, ∃ t ∈ names line, t.bytes = n := by
  obtain ⟨hist, s, hrun, hs⟩ := exists_run (fetch note okWord) byStream
    (request ++ [.rightRead 2, .right, .leftRead 2, .left, .rightRead 3, .right, .leftRead 2, .left,
      .rightRead 4, .right, .leftRead 4, .left])
    (fun hist s => decide (s.left.pc = .prompt ∧ [getToken, note] ∈ s.left.typed ∧
      (∀ x ∈ hist, x.1.Whole x.2.1) ∧ ∀ x ∈ hist, mistaken x.1 x.2.1 = false)) (by decide +kernel)
  obtain ⟨hpc, htyped, hwhole, hclear⟩ := of_decide_eq_true hs
  obtain ⟨hfiles, hasked⟩ := files_arrive_of_whole hrun hwhole (by decide) hclear
  exact ⟨hist, s, hrun, hpc,
    hfiles hpc _ htyped note (by decide) okWord (by decide) (by decide), hasked⟩

/-- The client reads the two bytes of a file one by one and acknowledges both; the server takes the
second acknowledgement for a name. -/
theorem not_files_arrive_stream :
    ∃ hist s, ((fetch note okWord).session byStream).Run hist s ∧ s.left.pc = .prompt ∧
      s.left.files note.bytes = some (okWord ++ terminated endWord) ∧ okiWord ∈ s.right.asked := by
  obtain ⟨hist, s, hrun, hs⟩ := exists_run (fetch note okWord) byStream
    (request ++ [.rightRead 2, .right, .leftRead 2, .left, .rightRead 3, .right, .leftRead 1, .left,
      .rightRead 4, .right, .leftRead 5, .left, .rightRead 4, .right, .leftRead 8, .left])
    (fun _ s => decide (s.left.pc = .prompt ∧
      s.left.files note.bytes = some (okWord ++ terminated endWord) ∧ okiWord ∈ s.right.asked))
    (by decide +kernel)
  exact ⟨hist, s, hrun, of_decide_eq_true hs⟩

/-! ## Deadlock -/

end Sessions

end FileTransfer
