import OsnAssignments.FileTransfer.Model

/-!
# Each side on its own

Facts about the client and about the server that do not depend on where the other side is. Lines
are `Proper` if their names cannot be mistaken; `Client.Orderly` says that the names that the client
has not finished with come from proper lines, and `Client.Kept` that the files that it has finished
with have arrived.
-/

namespace FileTransfer

open Duplex

/-! ## Strings in a buffer -/

theorem cstring_append {w : List Byte} (hw : 0 ∉ w) (rest : List Byte) :
    cstring (w ++ rest) = w ++ cstring rest := by
  apply List.takeWhile_append_of_pos
  intro b hb
  apply decide_eq_true
  rintro rfl
  exact hw hb

/-- A string that is read with the NUL that ends it is found in the buffer, whatever the buffer held
before. -/
theorem cstring_overlay_terminated {w : List Byte} (hw : 0 ∉ w) (buffer : List Byte) :
    cstring (overlay (terminated w) buffer) = w := by
  rw [overlay, terminated, List.append_assoc, cstring_append hw]
  simp [cstring]

theorem Token.ext_bytes {t u : Token} (h : t.bytes = u.bytes) : t = u := by
  cases t
  cases u
  cases h
  rfl

theorem Token.zero_notMem (t : Token) : 0 ∉ t.bytes := by
  intro hzero
  have hall : ∀ b ∈ t.bytes, separators.contains b = false := by
    simpa using (Bool.and_eq_true_iff.mp t.isToken).2
  simpa [separators] using hall 0 hzero

theorem Token.cstring_bytes (t : Token) : cstring t.bytes = t.bytes := by
  simpa [cstring] using cstring_append t.zero_notMem []

/-- The bytes of a number are digits. -/
theorem toNat_of_mem_decimal {z : ℕ} {b : Byte} (hb : b ∈ decimal z) :
    48 ≤ b.toNat ∧ b.toNat ≤ 57 := by
  obtain ⟨c, hc, rfl⟩ := List.mem_map.mp hb
  have hdigit : 48 ≤ c.toNat ∧ c.toNat ≤ 57 := by
    have h := Nat.isDigit_of_mem_toDigits (by decide) (by decide) hc
    simpa [Char.isDigit, UInt32.le_iff_toNat_le] using h
  have hval : c.toNat.toUInt8.toNat = c.toNat := by
    simp
    omega
  rw [hval]
  exact hdigit

theorem zero_notMem_decimal (z : ℕ) : 0 ∉ decimal z := by
  intro hzero
  have := toNat_of_mem_decimal hzero
  simp at this

/-- A size is never taken for a refusal. -/
theorem decimal_ne_invalidWord (z : ℕ) : decimal z ≠ invalidWord := by
  intro heq
  have hI : 73 ∈ decimal z := by
    rw [heq]
    decide
  have := toNat_of_mem_decimal hI
  simp at this

theorem exitWord_ne_getWord : exitWord ≠ getWord := by
  decide

/-! ## Chunks -/

namespace Server

variable {s : Server}

theorem take_add_nextChunk (content : List Byte) (pos : ℕ) :
    content.take (pos + (nextChunk content pos).length) =
      content.take pos ++ nextChunk content pos := by
  rw [List.take_add, nextChunk]
  simp

/-- Nothing is left to read when the offset is behind the end of the file. -/
theorem take_eq_self_of_nextChunk_eq_nil {content : List Byte} {pos : ℕ}
    (h : nextChunk content pos = []) : content.take pos = content := by
  have hdrop : content.drop pos = [] := by
    simpa [nextChunk, chunkSize] using h
  exact List.take_of_length_le (List.drop_eq_nil_iff.mp hdrop)

/-- Once it has acknowledged a command, the server waits or has exited. -/
theorem act_eq_none_of_afterAck {buffer : List Byte} (hpc : s.pc = afterAck buffer) :
    s.act = none := by
  unfold afterAck at hpc
  unfold act
  split_ifs at hpc <;> rw [hpc]

/-- The word that ends the names takes the server back to the top of its loop. -/
theorem receive_end {files : Files} {special : List Byte → Bool} (s : Server)
    (hpc : s.pc = .name) : (s.receive files special (terminated endWord)).pc = .top := by
  have hword := cstring_overlay_terminated (w := endWord) (by decide) s.buffer2
  have hshort : endWord.length < nameSize := by decide
  simp [receive, hpc, takeName, hword, Nat.not_le.mpr hshort]

theorem asked_of_act {s' : Server} {m : Option (List Byte)} (h : s.act = some (s', m)) :
    s'.asked = s.asked ∧ s'.pc ≠ .special := by
  unfold act at h
  cases hpc : s.pc with
  | acking buffer =>
    obtain ⟨rfl, -⟩ : _ = s' ∧ _ = m := by simpa [hpc] using h
    refine ⟨rfl, ?_⟩
    show afterAck buffer ≠ .special
    unfold afterAck
    split_ifs <;> simp
  | refuse | size =>
    obtain ⟨rfl, -⟩ : _ = s' ∧ _ = m := by simpa [hpc] using h
    exact ⟨rfl, by simp⟩
  | file content pos =>
    cases hnext : nextChunk content pos with
    | nil | cons =>
      obtain ⟨rfl, -⟩ : _ = s' ∧ _ = m := by simpa [hpc, hnext] using h
      exact ⟨rfl, by simp⟩
  | _ => simp [hpc] at h

/-- A server that takes no step of its own is waiting or has exited. -/
theorem of_act_eq_none (h : s.act = none) (hoverrun : s.pc ≠ .overrun)
    (hspecial : s.pc ≠ .special) : s.limit.isSome ∨ s.pc = .exited := by
  unfold act at h
  unfold limit
  cases hpc : s.pc with
  | file content pos => cases hnext : nextChunk content pos <;> simp [hpc, hnext] at h
  | _ => simp_all

variable {files : Files} {special : List Byte → Bool} {msg n : List Byte}

/-- The server records the string it finds where it waits for a name, unless it is `end`. -/
theorem mem_asked_receive (h : n ∈ (s.receive files special msg).asked) :
    n ∈ s.asked ∨ s.pc = .name ∧ n = cstring (overlay msg s.buffer2) ∧ n ≠ endWord := by
  unfold receive at h
  cases hpc : s.pc with
  | name =>
    rw [hpc] at h
    simp only [takeName] at h
    split_ifs at h with hlong hend
    · exact .inl h
    · exact .inl h
    · rcases List.mem_cons.mp h with rfl | h
      · exact .inr ⟨rfl, rfl, hend⟩
      · exact .inl h
    · cases hfile : files (cstring (overlay msg s.buffer2)) with
      | none | some =>
        simp only [hfile, List.mem_cons] at h
        rcases h with rfl | h
        · exact .inr ⟨rfl, rfl, hend⟩
        · exact .inl h
  | _ =>
    rw [hpc] at h
    exact .inl h

/-- What a server has opened that is not a regular file is among the names it has tried. -/
def Tried (special : List Byte → Bool) (s : Server) : Prop :=
  s.pc = .special → ∃ n ∈ s.asked, special n = true

theorem Tried.receive (h : s.Tried special) (msg : List Byte) :
    (s.receive files special msg).Tried special := by
  unfold Server.receive
  cases hpc : s.pc with
  | name =>
    unfold takeName
    dsimp only
    split_ifs with hlong hend hspecial
    · exact fun h => by cases h
    · exact fun h => by cases h
    · exact fun _ => ⟨_, List.mem_cons_self, hspecial⟩
    · cases files (cstring (overlay msg s.buffer2)) <;> exact fun h => by cases h
  | acking | refuse | size | file | special | exited | overrun => exact h
  | _ => exact fun h => by cases h

end Server

/-! ## Proper lines -/

/-- A line that `t` has room for and whose names are not `end` and fit into the server's `name`. -/
def Proper (line : List Token) : Prop :=
  line.length < Client.maxTokens ∧
    ∀ t ∈ names line, t.bytes ≠ endWord ∧ t.bytes.length < Server.nameSize

instance instDecidableProper (line : List Token) : Decidable (Proper line) :=
  inferInstanceAs (Decidable (_ ∧ _))

/-! ## The names that the client has still to deal with -/

namespace Client

/-- The names that the client has not finished with. -/
def Pc.pending : Pc → List Token
  | .ack t ts => FileTransfer.names (t :: ts)
  | .names ts => ts
  | .reply t ts | .ok t ts | .chunk t ts _ | .oki t ts _ _ => t :: ts
  | .prompt | .exited | .overrun => []

/-- The names asked for so far. -/
def requested (c : Client) : List Token :=
  c.typed.flatMap FileTransfer.names

/-- The lines still to come are proper, and the names in hand come from proper lines. -/
structure Orderly (c : Client) : Prop where
  lines : ∀ line ∈ c.lines, Proper line
  requested : ∀ t ∈ c.pc.pending, t ∈ c.requested
  proper : ∀ t ∈ c.pc.pending, t.bytes ≠ endWord ∧ t.bytes.length < Server.nameSize

/-- A step that types no line and takes up no name keeps the client orderly. -/
theorem Orderly.of_subset {c c' : Client} (h : c.Orderly) (hlines : c'.lines = c.lines)
    (htyped : c'.typed = c.typed) (hpending : ∀ t ∈ c'.pc.pending, t ∈ c.pc.pending) :
    c'.Orderly where
  lines := hlines ▸ h.lines
  requested t ht := by
    rw [Client.requested, htyped]
    exact h.requested t (hpending t ht)
  proper t ht := h.proper t (hpending t ht)

/-- What a client with proper lines can do on its own. -/
inductive Move (c : Client) : Client → Option (List Byte) → Prop
  | blank {rest : List (List Token)} : c.pc = .prompt → c.lines = [] :: rest →
      Move c { c with pc := .prompt, lines := rest, typed := [] :: c.typed } none
  | command {t : Token} {ts : List Token} {rest : List (List Token)} : c.pc = .prompt →
      c.lines = (t :: ts) :: rest →
      Move c { c with
        pc := .ack t ts, buffer2 := [], lines := rest, typed := (t :: ts) :: c.typed }
        (some t.bytes)
  | finish : c.pc = .names [] → Move c { c with pc := .prompt } (some (terminated endWord))
  | name {t : Token} {ts : List Token} : c.pc = .names (t :: ts) →
      Move c { c with pc := .reply t ts } (some (terminated t.bytes))
  | ok {t : Token} {ts : List Token} : c.pc = .ok t ts →
      Move c { c with pc := .chunk t ts false } (some (terminated okWord))
  | oki {t : Token} {ts : List Token} {opened : Bool} {m : ℕ} : c.pc = .oki t ts opened m →
      Move c { c with pc := .chunk t ts true, files := c.store t opened (c.buffer2.take m) }
        (some (terminated okiWord))

variable {c c' : Client} {m : Option (List Byte)}

theorem Orderly.move (h : c.Orderly) (hact : c.act = some (c', m)) : c.Move c' m := by
  unfold act at hact
  cases hpc : c.pc with
  | prompt =>
    rw [hpc] at hact
    match hlines : c.lines with
    | [] => simp [hlines] at hact
    | [] :: rest =>
      obtain ⟨rfl, rfl⟩ : _ = c' ∧ none = m := by simpa [hlines] using hact
      exact .blank hpc hlines
    | (t :: ts) :: rest =>
      -- A proper line leaves room in the array of tokens.
      have hroom : (t :: ts).length < maxTokens := by
        refine (h.lines (t :: ts) ?_).1
        simp [hlines]
      obtain ⟨rfl, rfl⟩ : _ = c' ∧ some t.bytes = m := by
        simpa only [hlines, if_pos hroom, Option.some.injEq, Prod.mk.injEq] using hact
      exact .command hpc hlines
  | names ts =>
    rw [hpc] at hact
    cases ts with
    | nil =>
      obtain ⟨rfl, rfl⟩ : _ = c' ∧ some (terminated endWord) = m := by simpa using hact
      exact .finish hpc
    | cons t =>
      obtain ⟨rfl, rfl⟩ : _ = c' ∧ some (terminated t.bytes) = m := by simpa using hact
      exact .name hpc
  | ok =>
    rw [hpc] at hact
    obtain ⟨rfl, rfl⟩ : _ = c' ∧ some (terminated okWord) = m := by simpa using hact
    exact .ok hpc
  | oki t =>
    rw [hpc] at hact
    -- A name that fits into the server's `name` can be shown by the client.
    have hshown : t.bytes.length ≤ maxShown := by
      have hshort := (h.proper t (by simp [hpc, Pc.pending])).2
      rw [Server.nameSize] at hshort
      rw [maxShown]
      omega
    obtain ⟨rfl, rfl⟩ : _ = c' ∧ some (terminated okiWord) = m := by
      simpa only [if_pos hshown, Option.some.injEq, Prod.mk.injEq] using hact
    exact .oki hpc
  | ack | reply | chunk | exited | overrun => simp [hpc] at hact

/-- A client that takes no step of its own is waiting, has no line to read or has exited. -/
theorem of_act_eq_none (h : c.act = none) (hoverrun : c.pc ≠ .overrun) :
    c.limit.isSome ∨ c.pc = .prompt ∧ c.lines = [] ∨ c.pc = .exited := by
  unfold act at h
  unfold limit
  cases hpc : c.pc with
  | prompt =>
    rw [hpc] at h
    match hlines : c.lines with
    | [] => simp
    | [] :: rest => simp [hlines] at h
    | (t :: ts) :: rest =>
      simp only [hlines] at h
      split_ifs at h
  | names ts => cases ts <;> simp [hpc] at h
  | oki =>
    simp only [hpc] at h
    split_ifs at h
  | _ => simp_all

theorem Orderly.of_move (h : c.Orderly) (hmove : c.Move c' m) : c'.Orderly := by
  cases hmove with
  | @blank rest hpc hlines =>
    refine ⟨fun line hline => h.lines line ?_, ?_, ?_⟩
    · rw [hlines]
      exact List.mem_cons_of_mem _ hline
    · simp [Pc.pending]
    · simp [Pc.pending]
  | @command t ts rest hpc hlines =>
    have hproper : Proper (t :: ts) := h.lines _ (by simp [hlines])
    refine ⟨fun line hline => h.lines line ?_, ?_, hproper.2⟩
    · rw [hlines]
      exact List.mem_cons_of_mem _ hline
    · intro u hu
      exact List.mem_flatMap.mpr ⟨t :: ts, List.mem_cons_self, hu⟩
  | finish => exact h.of_subset rfl rfl (by simp [Pc.pending])
  | name hpc | ok hpc | oki hpc => exact h.of_subset rfl rfl (by simp [hpc, Pc.pending])

/-! ### Receiving -/

/-- Receiving changes only the position and the buffer, and takes up no new name. -/
theorem receive_eq (c : Client) (msg : List Byte) :
    ∃ pc buffer2, c.receive msg = { c with pc := pc, buffer2 := buffer2 } ∧
      ∀ t ∈ pc.pending, t ∈ c.pc.pending := by
  unfold receive
  cases hpc : c.pc with
  | ack t ts =>
    by_cases hexit : t.bytes = exitWord
    · exact ⟨.exited, c.buffer2, if_pos hexit, by simp [Pc.pending]⟩
    · by_cases hget : t.bytes = getWord
      · exact ⟨.names ts, c.buffer2, (if_neg hexit).trans (if_pos hget),
          by simp [Pc.pending, FileTransfer.names, hget]⟩
      · exact ⟨.prompt, c.buffer2, (if_neg hexit).trans (if_neg hget), by simp [Pc.pending]⟩
  | reply t ts =>
    by_cases hinvalid : cstring (overlay msg c.buffer2) = invalidWord
    · exact ⟨.names ts, overlay msg c.buffer2, if_pos hinvalid, by simp +contextual [Pc.pending]⟩
    · exact ⟨.ok t ts, overlay msg c.buffer2, if_neg hinvalid, by simp [Pc.pending]⟩
  | chunk t ts opened =>
    by_cases hend : endsFile (overlay msg c.buffer2) = true
    · exact ⟨.names ts, overlay msg c.buffer2, if_pos hend, by simp +contextual [Pc.pending]⟩
    · exact ⟨.oki t ts opened msg.length, overlay msg c.buffer2, if_neg hend,
        by simp [Pc.pending]⟩
  | _ => exact ⟨c.pc, c.buffer2, rfl, by simp [hpc]⟩

theorem Orderly.receive (h : c.Orderly) (msg : List Byte) : (c.receive msg).Orderly := by
  obtain ⟨pc, buffer2, heq, hpending⟩ := c.receive_eq msg
  rw [heq]
  exact h.of_subset rfl rfl hpending

end Client

/-! ## What has arrived -/

namespace Client

/-- The client's file `t` is the server's, unless the server has none or an empty one. -/
def Delivered (files : Files) (c : Client) (t : Token) : Prop :=
  ∀ f, files t.bytes = some f → f ≠ [] → c.files t.bytes = some f

/-- Every file asked for has arrived, apart from those that the client has not finished with. -/
def Kept (files : Files) (c : Client) : Prop :=
  ∀ t ∈ c.requested, t ∉ c.pc.pending → c.Delivered files t

variable {files : Files} {c c' : Client} {m : Option (List Byte)}

theorem mem_requested_of_move (hmove : c.Move c' m) {t : Token} (ht : t ∈ c.requested) :
    t ∈ c'.requested := by
  cases hmove with
  | blank | command => simpa [requested] using Or.inr ht
  | finish | name | ok | oki => exact ht

theorem Kept.move (h : c.Kept files) (hmove : c.Move c' m) : c'.Kept files := by
  intro u hu hpending f hf hne
  cases hmove with
  | blank hpc =>
    refine h u ?_ (by simp [hpc, Pc.pending]) f hf hne
    simpa [requested, FileTransfer.names] using hu
  | @command t ts rest hpc =>
    -- The names of the new line are all pending, so `u` comes from an earlier one.
    refine h u ?_ (by simp [hpc, Pc.pending]) f hf hne
    have hcases : u ∈ FileTransfer.names (t :: ts) ∨ u ∈ c.requested := by
      simpa [requested] using hu
    exact hcases.resolve_left hpending
  | finish hpc => exact h u hu (by simp [hpc, Pc.pending]) f hf hne
  | name hpc | ok hpc => exact h u hu (by simpa [hpc, Pc.pending] using hpending) f hf hne
  | @oki t ts opened n hpc =>
    -- Only the file in hand is written to.
    have hne_t : u.bytes ≠ t.bytes := by
      intro heq
      apply hpending
      rw [Token.ext_bytes heq]
      exact List.mem_cons_self
    have hold := h u hu (by simpa [hpc, Pc.pending] using hpending) f hf hne
    simpa [store, Function.update_of_ne hne_t] using hold

/-- Receiving keeps the files that have arrived, if those that the client finishes with have. -/
theorem Kept.receive {msg : List Byte} (h : c.Kept files)
    (hdone : ∀ t ∈ c.pc.pending, t ∉ (c.receive msg).pc.pending → c.Delivered files t) :
    (c.receive msg).Kept files := by
  obtain ⟨pc, buffer2, heq, -⟩ := c.receive_eq msg
  rw [heq] at hdone ⊢
  intro t ht hpending
  by_cases hold : t ∈ c.pc.pending
  · exact hdone t hold hpending
  · exact h t ht hold

end Client

end FileTransfer
