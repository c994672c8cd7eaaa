import Mathlib
import OsnAssignments.Common.CounterRing
import OsnAssignments.Common.Transition

/-!
# The console's line discipline

`consoleintr` and `consoleread` of `console.c`, called by interrupts and by any number of processes.
A piece of code runs while `cons.lock` is held, between the start of a call, its sleeps and its end.

`Text` is the line discipline without the ring: the text that has been committed, of which readers
have taken a first part, and the line that is being edited. `Shows` relates it to the three indices
of `input`. What is echoed on the screen, and `procdump` after the interrupt, are left out. A
character is a byte, as `kbdgetc` and `uartgetc` return it.
-/

namespace Xv6.Console

open Transition CounterRing Function

/-- `INPUT_BUF`. -/
def INPUT_BUF : ℕ := 128

instance : NeZero INPUT_BUF := ⟨by decide⟩

/-- The character `'\n'`. -/
def newline : UInt8 := 10

/-- The character `'\r'`. -/
def carriageReturn : UInt8 := 13

/-- The character `'\x7f'`. -/
def delete : UInt8 := 0x7f

/-- `C(x)`: the character of the key `x` with the control key. -/
def control (x : UInt8) : UInt8 :=
  x - 64

/-- `C('D')`. -/
def ctrlD : UInt8 := control 68

/-- `C('H')`. -/
def ctrlH : UInt8 := control 72

/-- `C('P')`. -/
def ctrlP : UInt8 := control 80

/-- `C('U')`. -/
def ctrlU : UInt8 := control 85

/-! ## The code -/

/-- The variable `input`. -/
structure Input where
  buf : Fin INPUT_BUF → UInt8
  /-- Read index. -/
  r : BitVec 32
  /-- Write index. -/
  w : BitVec 32
  /-- Edit index. -/
  e : BitVec 32

namespace Input

/-- `input.buf[i % INPUT_BUF]`. -/
def get (x : Input) (i : BitVec 32) : UInt8 :=
  x.buf (Fin.ofNat INPUT_BUF i.toNat)

/-- The loop that kills a line, in at most `k` rounds. -/
def killLine : ℕ → Input → Input
  | 0, x => x
  | k + 1, x =>
    if x.e ≠ x.w ∧ x.get (x.e - 1) ≠ newline then killLine k { x with e := x.e - 1 } else x

/-- The `default` branch of `consoleintr`, for a character that has room. -/
def type (x : Input) (c : UInt8) : Input × Bool :=
  let c := if c = carriageReturn then newline else c
  let x := { x with buf := update x.buf (Fin.ofNat INPUT_BUF x.e.toNat) c, e := x.e + 1 }
  if c = newline ∨ c = ctrlD ∨ x.e = x.r + BitVec.ofNat 32 INPUT_BUF then
    ({ x with w := x.e }, true)
  else (x, false)

/-- A round of the loop of `consoleintr`: what the character does, and whether it wakes readers. -/
def key (x : Input) (c : UInt8) : Input × Bool :=
  if c = ctrlP then (x, false)
  -- every round brings `e` nearer to `w`
  else if c = ctrlU then (x.killLine (x.e - x.w).toNat, false)
  else if c = ctrlH ∨ c = delete then (if x.e ≠ x.w then { x with e := x.e - 1 } else x, false)
  else if c ≠ 0 ∧ (x.e - x.r).toNat < INPUT_BUF then x.type c
  else (x, false)

/-- Why the loop of `consoleread` has stopped. -/
inductive Stop
  | ended
  /-- There is nothing to read, and the process has been killed. -/
  | killed
  /-- There is nothing to read; the process is about to sleep. -/
  | sleep

/-- The loop of `consoleread` with room for `n` bytes of `target`, until it ends or sleeps: the
bytes copied out, whether a `C('D')` has been consumed, and why the loop has stopped. -/
def readLoop (killed : Bool) (target : ℤ) : ℕ → Input → Input × List UInt8 × Bool × Stop
  | 0, x => (x, [], false, .ended)
  | n + 1, x =>
    if x.r = x.w then (x, [], false, if killed then .killed else .sleep)
    else
      let c := x.get x.r
      let x := { x with r := x.r + 1 }
      if c = ctrlD then
        if (n + 1 : ℤ) < target then ({ x with r := x.r - 1 }, [], false, .ended)
        else (x, [], true, .ended)
      else if c = newline then (x, [c], false, .ended)
      else
        let (x, bytes, mark, stop) := readLoop killed target n x
        (x, c :: bytes, mark, stop)

end Input

/-- Where a process is with respect to the console. -/
inductive Activity
  | idle
  /-- In `consoleread`, in `sleep`, with room for `n` of `target` bytes behind the bytes that it has
  stored at `dst`. -/
  | read (target n : ℤ) (dst : List UInt8)

/-- A process that calls `consoleread`. -/
structure Proc where
  killed : Bool
  /-- `SLEEPING` on `&input.r`; nobody has woken the process yet. -/
  asleep : Bool
  activity : Activity

variable {ι : Type} [DecidableEq ι]

/-- The console and the processes `ι`. -/
structure State (ι : Type) where
  input : Input
  proc : ι → Proc

/-- The `C('D')` that a piece of `consoleread` may have consumed. -/
def marks (mark : Bool) : List UInt8 :=
  if mark then [ctrlD] else []

/-- What a piece of `consoleread` did: the bytes it copied out, whether it consumed a `C('D')`, all
bytes at `dst`, and the value that the call returned. -/
inductive Event
  | silent
  | read (bytes : List UInt8) (mark : Bool) (dst : List UInt8) (ret : Option ℤ)
  deriving DecidableEq

namespace State

/-- `wakeup(&input.r)`. -/
def wakeup (σ : State ι) : State ι :=
  { σ with proc := fun t => { σ.proc t with asleep := false } }

/-- What one character does in `consoleintr`. -/
def key (σ : State ι) (c : UInt8) : State ι :=
  let (x, wakes) := σ.input.key c
  let σ := { σ with input := x }
  if wakes then σ.wakeup else σ

/-- The process `t` sleeps, or returns from its call and is `idle`. -/
def goTo (t : ι) (activity : Activity) (asleep : Bool) (σ : State ι) : State ι :=
  { σ with proc := update σ.proc t ⟨(σ.proc t).killed, asleep, activity⟩ }

/-- A piece of `consoleread`, from the test of its loop on. -/
def consoleread (t : ι) (target n : ℤ) (dst : List UInt8) (σ : State ι) : State ι × Event :=
  let (x, bytes, mark, stop) := σ.input.readLoop (σ.proc t).killed target n.toNat
  let σ := { σ with input := x }
  let n := n - bytes.length
  let dst := dst ++ bytes
  match stop with
  | .ended => (σ.goTo t .idle false, .read bytes mark dst (some (target - n)))
  | .killed => (σ.goTo t .idle false, .read bytes mark dst (some (-1)))
  | .sleep => (σ.goTo t (.read target n dst) true, .read bytes mark dst none)

/-- `kill`: the process is marked, and woken up if it sleeps. -/
def kill (t : ι) (σ : State ι) : State ι :=
  { σ with proc := update σ.proc t ⟨true, false, (σ.proc t).activity⟩ }

end State

/-- What can happen to the console. -/
inductive Action (ι : Type)
  /-- `consoleintr`, for which `getc` returns these characters. -/
  | intr (cs : List UInt8)
  /-- `consoleread(ip, dst, n)`. -/
  | read (t : ι) (n : ℤ)
  /-- `sleep` returns in process `t`. -/
  | resume (t : ι)
  | kill (t : ι)

namespace State

/-- Perform one piece of code. -/
def step (σ : State ι) : Action ι → Option (State ι × Event)
  | .intr cs => some (cs.foldl key σ, .silent)
  | .read t n =>
    match (σ.proc t).activity with
    | .idle => some (σ.consoleread t n n [])
    | .read .. => none
  | .resume t =>
    if (σ.proc t).asleep then none
    else
      match (σ.proc t).activity with
      | .idle => none
      | .read target n dst => some (σ.consoleread t target n dst)
  | .kill t => some (σ.kill t, .silent)

def Initial (σ : State ι) : Prop :=
  σ.input.r = 0 ∧ σ.input.w = 0 ∧ σ.input.e = 0 ∧ ∀ t, (σ.proc t).activity = .idle

end State

/-- The console as the processes `ι` use it. -/
def system (ι : Type) [DecidableEq ι] : System (State ι) (Action ι × Event) :=
  ofFun State.Initial State.step

/-! ## The line discipline -/

/-- The text typed so far, after editing. -/
structure Text where
  /-- The committed text that readers have taken, with the marks of end of file. -/
  taken : List UInt8
  /-- The committed text that no reader has taken. -/
  unread : List UInt8
  /-- The line that is being edited. -/
  line : List UInt8

namespace Text

/-- All the text that has been committed. -/
def committed (t : Text) : List UInt8 :=
  t.taken ++ t.unread

/-- A character is added to the line; a newline, an end of file or a full buffer commits it. -/
def type (t : Text) (c : UInt8) : Text :=
  let c := if c = carriageReturn then newline else c
  let line := t.line ++ [c]
  if c = newline ∨ c = ctrlD ∨ t.unread.length + line.length = INPUT_BUF then
    ⟨t.taken, t.unread ++ line, []⟩
  else { t with line := line }

/-- What a character does to the text. -/
def key (t : Text) (c : UInt8) : Text :=
  if c = ctrlP then t
  else if c = ctrlU then { t with line := t.line.rdropWhile (· ≠ newline) }
  else if c = ctrlH ∨ c = delete then { t with line := t.line.dropLast }
  else if c ≠ 0 ∧ t.unread.length + t.line.length < INPUT_BUF then t.type c
  else t

/-- Readers take `l` from the front of the committed text. -/
def take (t : Text) (l : List UInt8) : Text :=
  ⟨t.taken ++ l, t.unread.drop l.length, t.line⟩

variable {t : Text}

/-- No character removes committed text. -/
theorem prefix_key (t : Text) (c : UInt8) :
    (t.key c).taken = t.taken ∧ t.unread <+: (t.key c).unread := by
  unfold key type
  dsimp only
  split_ifs <;> first | exact ⟨rfl, List.prefix_rfl⟩ | exact ⟨rfl, List.prefix_append ..⟩

theorem prefix_keys (cs : List UInt8) (t : Text) :
    (cs.foldl key t).taken = t.taken ∧ t.unread <+: (cs.foldl key t).unread := by
  induction cs generalizing t with
  | nil => exact ⟨rfl, List.prefix_rfl⟩
  | cons c cs ih =>
    obtain ⟨htaken, hunread⟩ := prefix_key t c
    obtain ⟨htaken', hunread'⟩ := ih (t.key c)
    exact ⟨htaken'.trans htaken, hunread.trans hunread'⟩

/-- Taking from the front leaves the committed text as it is. -/
theorem committed_take {l : List UInt8} (h : l <+: t.unread) :
    (t.take l).committed = t.committed := by
  obtain ⟨rest, hrest⟩ := h
  rw [committed, committed, take, ← hrest, List.drop_left, List.append_assoc]

end Text

/-! ## The ring of the console -/

namespace Input

/-- The bytes between the read and the write index. -/
def unread (x : Input) : List UInt8 :=
  contents x.buf x.r x.w

/-- The ring holds the text that has not been taken: first what is committed, then the line. -/
structure Shows (x : Input) (t : Text) : Prop where
  contents : contents x.buf x.r x.e = t.unread ++ t.line
  write : pending x.r x.w = t.unread.length
  bounded : t.unread.length + t.line.length ≤ INPUT_BUF

/-- The indices wrap at a multiple of the size of the ring. -/
theorem INPUT_BUF_dvd : INPUT_BUF ∣ 2 ^ 32 := by
  decide

namespace Shows

variable {x : Input} {t : Text} {c : UInt8} {taken unread line : List UInt8}

section

variable (h : x.Shows t)
include h

theorem edit : pending x.r x.e = t.unread.length + t.line.length := by
  have hlen : (CounterRing.contents x.buf x.r x.e).length = pending x.r x.e := length_contents
  rw [← hlen, h.contents, List.length_append]

theorem ordered : pending x.r x.w ≤ pending x.r x.e := by
  rw [h.edit, h.write]
  exact Nat.le_add_right ..

theorem unread_eq : x.unread = t.unread := by
  rw [Input.unread, contents_eq_take h.ordered, h.write, h.contents, List.take_left]

theorem read_eq_iff : x.r = x.w ↔ t.unread = [] := by
  rw [← pending_eq_zero_iff, h.write, List.length_eq_zero_iff]

/-- The length of the line that is being edited. -/
theorem length_line : pending x.w x.e = t.line.length := by
  have hsum := pending_add h.ordered
  rw [h.write, h.edit] at hsum
  omega

theorem edit_eq_iff : x.e = x.w ↔ t.line = [] := by
  rw [eq_comm, ← pending_eq_zero_iff, h.length_line, List.length_eq_zero_iff]

theorem full_iff : x.e = x.r + BitVec.ofNat 32 INPUT_BUF ↔
    t.unread.length + t.line.length = INPUT_BUF := by
  have hlt : INPUT_BUF < 2 ^ 32 := by decide
  rw [← pending_eq_iff hlt, h.edit]

end

/-- The last character of the line, which `e--` removes. -/
theorem erase (h : x.Shows ⟨taken, unread, line ++ [c]⟩) :
    { x with e := x.e - 1 }.Shows ⟨taken, unread, line⟩ ∧ x.get (x.e - 1) = c := by
  have hne : x.r ≠ x.e := by
    rw [Ne, ← pending_eq_zero_iff, h.edit]
    simp
  have hlast : CounterRing.contents x.buf x.r x.e = _ := contents_unput INPUT_BUF_dvd hne
  rw [h.contents, ← List.append_assoc] at hlast
  obtain ⟨hinit, hc⟩ := List.append_inj' hlast rfl
  have hbounded := h.bounded
  rw [List.length_append] at hbounded
  exact ⟨⟨hinit.symm, h.write, by dsimp only at hbounded ⊢; omega⟩, (List.cons.inj hc).1.symm⟩

section

variable (h : x.Shows ⟨taken, unread, line⟩)
include h

theorem killLine :
    (x.killLine line.length).Shows ⟨taken, unread, line.rdropWhile (· ≠ newline)⟩ := by
  induction line using List.reverseRecOn generalizing x with
  | nil => exact h
  | append_singleton line c ih =>
    obtain ⟨herase, hlast⟩ := h.erase
    have hne : x.e ≠ x.w := fun heq => by simpa using h.edit_eq_iff.mp heq
    rw [List.length_append, List.length_singleton, Input.killLine, List.rdropWhile_concat, hlast]
    by_cases hc : c = newline
    · simpa [hc] using h
    · simpa [hc, hne] using ih herase

theorem put (hroom : unread.length + line.length < INPUT_BUF) (c : UInt8) : { x with
      buf := update x.buf (Fin.ofNat INPUT_BUF x.e.toNat) c, e := x.e + 1 }.Shows
        ⟨taken, unread, line ++ [c]⟩ := by
  have hlt : INPUT_BUF + 1 < 2 ^ 32 := by decide
  have hedit : pending x.r x.e < INPUT_BUF := h.edit ▸ hroom
  have hput : pending x.r (x.e + 1) = pending x.r x.e + 1 :=
    pending_put (lt_trans (Nat.succ_lt_succ hedit) hlt)
  refine ⟨?_, h.write, ?_⟩
  · rw [← List.append_assoc, ← h.contents]
    exact contents_put INPUT_BUF_dvd hedit hput c
  · rw [List.length_append]
    exact hroom

theorem commit : { x with w := x.e }.Shows ⟨taken, unread ++ line, []⟩ where
  contents := by rw [List.append_nil]; exact h.contents
  write := by rw [List.length_append]; exact h.edit
  bounded := by rw [List.length_append]; exact h.bounded

end

theorem type (h : x.Shows t) (hroom : t.unread.length + t.line.length < INPUT_BUF) (c : UInt8) :
    (x.type c).1.Shows (t.type c) := by
  unfold Input.type Text.type
  generalize (if c = carriageReturn then newline else c) = c
  have hput := h.put hroom c
  have hfull := hput.full_iff
  dsimp only at hfull
  simp only [hfull]
  split_ifs
  · exact hput.commit
  · exact hput

/-- What `consoleintr` does with a character, it does to the text. -/
theorem key (h : x.Shows t) (c : UInt8) : (x.key c).1.Shows (t.key c) := by
  have hedit : (x.e - x.r).toNat = t.unread.length + t.line.length := h.edit
  have hline : (x.e - x.w).toNat = t.line.length := h.length_line
  unfold Input.key Text.key
  rw [hedit, hline]
  split_ifs with hP hU hH hne hroom
  · exact h
  · exact h.killLine
  · obtain ⟨taken, unread, line⟩ := t
    obtain rfl | ⟨line, c', rfl⟩ := line.eq_nil_or_concat'
    · exact absurd (h.edit_eq_iff.mpr rfl) hne
    · rw [List.dropLast_concat]
      exact h.erase.1
  · have hnil := h.edit_eq_iff.mp (not_not.mp hne)
    rw [hnil, List.dropLast_nil, ← hnil]
    exact h
  · exact h.type hroom.2 c
  · exact h

/-- The first character of the committed text, which `r++` takes. -/
theorem advance (h : x.Shows ⟨taken, c :: unread, line⟩) :
    { x with r := x.r + 1 }.Shows ⟨taken ++ [c], unread, line⟩ ∧ x.get x.r = c := by
  have hne : x.r ≠ x.e := by
    rw [Ne, ← pending_eq_zero_iff, h.edit]
    simp
  have hne' : x.r ≠ x.w := fun heq => by simpa using h.read_eq_iff.mp heq
  have hfirst : CounterRing.contents x.buf x.r x.e = _ := contents_take INPUT_BUF_dvd hne
  rw [h.contents, List.cons_append] at hfirst
  obtain ⟨hc, hrest⟩ := List.cons.inj hfirst
  have hwrite := pending_take hne'
  have hbounded := h.bounded
  rw [h.write, List.length_cons] at hwrite
  rw [List.length_cons] at hbounded
  dsimp only at hwrite hbounded
  exact ⟨⟨hrest.symm, by dsimp only; omega, by dsimp only; omega⟩, hc.symm⟩

/-- The loop of `consoleread` takes from the front of the committed text: the bytes it copies out,
which are not `C('D')`, and at most one `C('D')` behind them. -/
theorem readLoop {killed mark : Bool} {target : ℤ} {n : ℕ} {x' : Input} {bytes : List UInt8}
    {stop : Stop} (h : x.Shows t) (hloop : x.readLoop killed target n = (x', bytes, mark, stop)) :
    x'.Shows (t.take (bytes ++ marks mark)) ∧ bytes ++ marks mark <+: t.unread ∧
      ctrlD ∉ bytes := by
  have hstay : x.Shows (t.take ([] ++ marks false)) := by
    simpa [Text.take, marks] using h
  induction n generalizing x t bytes with
  | zero =>
    cases hloop
    exact ⟨hstay, List.nil_prefix, List.not_mem_nil⟩
  | succ n ih =>
    rw [Input.readLoop] at hloop
    by_cases hempty : x.r = x.w
    · rw [if_pos hempty] at hloop
      cases hloop
      exact ⟨hstay, List.nil_prefix, List.not_mem_nil⟩
    rw [if_neg hempty] at hloop
    obtain ⟨taken, unread, line⟩ := t
    obtain ⟨c, unread, rfl⟩ := List.exists_cons_of_ne_nil (mt h.read_eq_iff.mpr hempty)
    obtain ⟨hnext, hc⟩ := h.advance
    dsimp only at hloop
    rw [hc] at hloop
    split_ifs at hloop with heof hless hline
    · -- the mark is put back
      have hback : x.r + 1 - 1 = x.r := by ring
      rw [hback] at hloop
      cases hloop
      exact ⟨hstay, List.nil_prefix, List.not_mem_nil⟩
    · cases hloop
      rw [heof] at hnext ⊢
      exact ⟨hnext, List.prefix_append [ctrlD] unread, List.not_mem_nil⟩
    · cases hloop
      refine ⟨hnext, List.prefix_append [c] unread, ?_⟩
      rw [List.mem_singleton]
      exact Ne.symm heof
    · rcases hrest : { x with r := x.r + 1 }.readLoop killed target n with ⟨y, bytes', mark', stop'⟩
      rw [hrest] at hloop
      cases hloop
      obtain ⟨hshows, htaken, hnot⟩ := ih hnext hrest (by simpa [Text.take, marks] using hnext)
      refine ⟨?_, (List.cons_prefix_cons).mpr ⟨rfl, htaken⟩, ?_⟩
      · simpa [Text.take] using hshows
      · rw [List.mem_cons, not_or]
        exact ⟨Ne.symm heof, hnot⟩

end Shows

end Input

/-! ## Runs -/

/-- The characters that an action feeds to `consoleintr`. -/
def Action.keys : Action ι → List UInt8
  | .intr cs => cs
  | _ => []

/-- The bytes at `dst` of an unfinished call. -/
def Activity.dst : Activity → List UInt8
  | .idle => []
  | .read _ _ dst => dst

namespace Event

/-- The bytes that a step copies out. -/
def copied : Event → List UInt8
  | .read bytes _ _ _ => bytes
  | .silent => []

/-- What a step takes from the committed text. -/
def consumed : Event → List UInt8
  | .read bytes mark _ _ => bytes ++ marks mark
  | .silent => []

/-- The value that a call returns. -/
def ret : Event → Option ℤ
  | .read _ _ _ ret => ret
  | .silent => none

/-- The bytes that a call returns: as many from `dst` as its value says. -/
def returned : Event → List UInt8
  | .read _ _ dst (some ret) => dst.take ret.toNat
  | .read _ _ _ none => []
  | .silent => []

end Event

/-- The bytes of the events along a run. -/
def along (f : Event → List UInt8) : List (State ι × (Action ι × Event)) → List UInt8
  | [] => []
  | (_, l) :: hist => along f hist ++ f l.2

/-- What a step does to the text. -/
def Text.next (t : Text) (l : Action ι × Event) : Text :=
  (l.1.keys.foldl Text.key t).take l.2.consumed

/-- The text along a run. -/
def text : List (State ι × (Action ι × Event)) → Text
  | [] => ⟨[], [], []⟩
  | (_, l) :: hist => (text hist).next l

variable {hist : List (State ι × (Action ι × Event))} {σ σ' : State ι} {a : Action ι} {e : Event}
variable {t u : ι} {target n : ℤ} {dst : List UInt8} {x : Text}

/-- Process `t` is about to perform a piece of `consoleread`. -/
inductive Reads (σ : State ι) : Action ι → ι → ℤ → ℤ → List UInt8 → Prop
  | start {t : ι} {n : ℤ} (h : (σ.proc t).activity = .idle) : Reads σ (.read t n) t n n []
  | resume {t : ι} {target n : ℤ} {dst : List UInt8}
      (h : (σ.proc t).activity = .read target n dst) : Reads σ (.resume t) t target n dst

omit [DecidableEq ι] in
theorem Reads.keys (h : Reads σ a t target n dst) : a.keys = [] := by
  cases h <;> rfl

theorem step_cases (hstep : σ.step a = some (σ', e)) :
    (∃ cs, a = .intr cs ∧ e = .silent ∧ σ' = cs.foldl State.key σ) ∨
      (∃ t target n dst, Reads σ a t target n dst ∧ σ.consoleread t target n dst = (σ', e)) ∨
      ∃ t, a = .kill t ∧ e = .silent ∧ σ' = σ.kill t := by
  cases a with
  | intr cs =>
    cases hstep
    exact .inl ⟨cs, rfl, rfl, rfl⟩
  | read t n =>
    rw [State.step] at hstep
    split at hstep
    next hidle => exact .inr (.inl ⟨t, n, n, [], .start hidle, Option.some.inj hstep⟩)
    · cases hstep
  | resume t =>
    rw [State.step] at hstep
    split at hstep
    · cases hstep
    split at hstep
    · cases hstep
    next target n dst hread =>
      exact .inr (.inl ⟨t, target, n, dst, .resume hread, Option.some.inj hstep⟩)
  | kill t =>
    cases hstep
    exact .inr (.inr ⟨t, rfl, rfl, rfl⟩)

omit [DecidableEq ι] in
theorem shows_keys (cs : List UInt8) (h : σ.input.Shows x) :
    (cs.foldl State.key σ).input.Shows (cs.foldl Text.key x) ∧
      ∀ t, ((cs.foldl State.key σ).proc t).activity = (σ.proc t).activity := by
  induction cs generalizing σ x with
  | nil => exact ⟨h, fun _ => rfl⟩
  | cons c cs ih =>
    have hkey : (σ.key c).input = (σ.input.key c).1 ∧
        ∀ t, ((σ.key c).proc t).activity = (σ.proc t).activity := by
      unfold State.key
      dsimp only
      split_ifs <;> exact ⟨rfl, fun _ => rfl⟩
    obtain ⟨hshows, hact⟩ := ih (hkey.1 ▸ h.key c)
    exact ⟨hshows, fun t => (hact t).trans (hkey.2 t)⟩

/-- How a piece of `consoleread` ends, and what it reports. -/
theorem consoleread_eq (hstep : σ.consoleread t target n dst = (σ', e)) :
    ∃ bytes mark ret, e = .read bytes mark (dst ++ bytes) ret ∧
      (∀ u ≠ t, σ'.proc u = σ.proc u) ∧
      (ret = some (target - (n - bytes.length)) ∧ (σ'.proc t).activity = .idle ∨
        ret = some (-1) ∧ (σ'.proc t).activity = .idle ∨
        ret = none ∧ (σ'.proc t).activity = .read target (n - bytes.length) (dst ++ bytes)) := by
  unfold State.consoleread at hstep
  rcases hloop : σ.input.readLoop (σ.proc t).killed target n.toNat with ⟨y, bytes, mark, stop⟩
  rw [hloop] at hstep
  have hothers (activity : Activity) (asleep : Bool) (u : ι) (hu : u ≠ t) :
      ({ σ with input := y }.goTo t activity asleep).proc u = σ.proc u := update_of_ne hu ..
  have hself (activity : Activity) (asleep : Bool) :
      (({ σ with input := y }.goTo t activity asleep).proc t).activity = activity := by
    simp [State.goTo]
  cases stop <;> cases hstep
  · exact ⟨bytes, mark, _, rfl, hothers _ _, .inl ⟨rfl, hself _ _⟩⟩
  · exact ⟨bytes, mark, _, rfl, hothers _ _, .inr (.inl ⟨rfl, hself _ _⟩)⟩
  · exact ⟨bytes, mark, _, rfl, hothers _ _, .inr (.inr ⟨rfl, hself _ _⟩)⟩

/-- A piece of `consoleread` takes from the front of the committed text. -/
theorem shows_consoleread (h : σ.input.Shows x) (hstep : σ.consoleread t target n dst = (σ', e)) :
    σ'.input.Shows (x.take e.consumed) ∧ e.consumed <+: x.unread ∧
      e.copied = e.consumed.filter (· ≠ ctrlD) := by
  unfold State.consoleread at hstep
  rcases hloop : σ.input.readLoop (σ.proc t).killed target n.toNat with ⟨y, bytes, mark, stop⟩
  obtain ⟨hshows, htaken, hnot⟩ := h.readLoop hloop
  have hfilter : bytes = (bytes ++ marks mark).filter (· ≠ ctrlD) := by
    have hbytes : bytes.filter (· ≠ ctrlD) = bytes :=
      List.filter_eq_self.mpr fun b hb => decide_eq_true fun heq => hnot (heq ▸ hb)
    rw [List.filter_append, hbytes]
    cases mark <;> simp [marks]
  rw [hloop] at hstep
  cases stop <;> cases hstep <;> exact ⟨hshows, htaken, hfilter⟩

/-- Every step does to the ring what it does to the text. -/
theorem shows_step (h : σ.input.Shows x) (hstep : σ.step a = some (σ', e)) :
    σ'.input.Shows (x.next (a, e)) ∧ (a.keys = [] → e.consumed <+: x.unread) ∧
      e.copied = e.consumed.filter (· ≠ ctrlD) := by
  have htake (y : Text) : y.take [] = y := by simp [Text.take]
  obtain ⟨cs, rfl, rfl, rfl⟩ | ⟨t, target, n, dst, hreads, hread⟩ | ⟨t, rfl, rfl, rfl⟩ :=
    step_cases hstep
  · refine ⟨?_, fun _ => List.nil_prefix, rfl⟩
    rw [Text.next, Event.consumed, htake]
    exact (shows_keys cs h).1
  · obtain ⟨hshows, htaken, hfilter⟩ := shows_consoleread h hread
    rw [Text.next, hreads.keys]
    exact ⟨hshows, fun _ => htaken, hfilter⟩
  · refine ⟨?_, fun _ => List.nil_prefix, rfl⟩
    rw [Text.next, Event.consumed, htake]
    exact h

theorem shows_of_run (hrun : (system ι).Run hist σ) : σ.input.Shows (text hist) ∧
      along Event.copied hist = (text hist).taken.filter (· ≠ ctrlD) := by
  induction hrun with
  | @init σ h =>
    obtain ⟨hr, hw, he, -⟩ := h
    refine ⟨⟨?_, ?_, Nat.zero_le _⟩, rfl⟩
    · rw [hr, he]
      rfl
    · rw [hr, hw]
      rfl
  | @step hist σ σ' l hrun hstep ih =>
    obtain ⟨hshows, -, hfilter⟩ := shows_step ih.1 hstep
    refine ⟨hshows, ?_⟩
    rw [along, ih.2, hfilter, text, Text.next, Text.take, (Text.prefix_keys _ _).1,
      List.filter_append]

/-! ## Calls that do not overlap -/

/-- The step does not begin a read while another read is unfinished, and it does not end a read
because its process has been killed. -/
structure Apart (σ : State ι) (l : Action ι × Event) : Prop where
  start : ∀ t n, l.1 = .read t n → ∀ u, (σ.proc u).activity = .idle
  alive : l.2.ret ≠ some (-1)

/-- What the calls have returned, with the bytes of an unfinished call, is what has been copied. -/
structure Accounted (hist : List (State ι × (Action ι × Event))) (σ : State ι) : Prop where
  length : ∀ t target n dst, (σ.proc t).activity = .read target n dst →
    (dst.length : ℤ) = target - n
  unique : ∀ t, (σ.proc t).activity ≠ .idle → ∀ u ≠ t, (σ.proc u).activity = .idle
  returned : ∀ t, (∀ u ≠ t, (σ.proc u).activity = .idle) →
    along Event.returned hist ++ (σ.proc t).activity.dst = along Event.copied hist

namespace Accounted

omit [DecidableEq ι] in
/-- A step that is no part of a read. -/
theorem silent (h : Accounted hist σ) (hact : ∀ t, (σ'.proc t).activity = (σ.proc t).activity) :
    Accounted ((σ, a, .silent) :: hist) σ' where
  length t := by rw [hact t]; exact h.length t
  unique t ht u hu := by rw [hact u]; exact h.unique t (hact t ▸ ht) u hu
  returned t ht := by
    have hkeep := h.returned t fun u hu => hact u ▸ ht u hu
    simpa [along, Event.returned, Event.copied, hact t] using hkeep

omit [DecidableEq ι] in
/-- At most one process is reading. -/
theorem of_others (hothers : ∀ u ≠ t, (σ.proc u).activity = .idle)
    (hlen : ∀ target n dst, (σ.proc t).activity = .read target n dst →
      (dst.length : ℤ) = target - n)
    (hret : along Event.returned hist ++ (σ.proc t).activity.dst = along Event.copied hist) :
    Accounted hist σ := by
  refine ⟨fun u target n dst hu => ?_, fun u hu v hv => ?_, fun u hu => ?_⟩
  · by_cases hut : u = t
    · exact hlen target n dst (hut ▸ hu)
    · exact absurd ((hothers u hut).symm.trans hu) (by simp)
  · have hut : u = t := not_not.mp (mt (hothers u) hu)
    exact hothers v (hut ▸ hv)
  · by_cases hut : u = t
    · rw [hut]
      exact hret
    · rw [hu t (Ne.symm hut)] at hret
      rw [hothers u hut]
      exact hret

/-- A piece of `consoleread` in the only process that is reading. -/
theorem consoleread (h : Accounted hist σ) (hothers : ∀ u ≠ t, (σ.proc u).activity = .idle)
    (hlen : (dst.length : ℤ) = target - n) (hdst : (σ.proc t).activity.dst = dst)
    (hstep : σ.consoleread t target n dst = (σ', e)) (halive : e.ret ≠ some (-1)) :
    Accounted ((σ, a, e) :: hist) σ' := by
  have hcopied := h.returned t hothers
  rw [hdst] at hcopied
  obtain ⟨bytes, mark, ret, rfl, hproc, hend⟩ := consoleread_eq hstep
  have hlen' : ((dst ++ bytes).length : ℤ) = target - (n - bytes.length) := by
    rw [List.length_append]
    push_cast
    omega
  have hothers' (u : ι) (hu : u ≠ t) : (σ'.proc u).activity = .idle := by
    rw [hproc u hu, hothers u hu]
  rcases hend with ⟨rfl, hidle⟩ | ⟨hkilled, -⟩ | ⟨rfl, hsleep⟩
  · refine of_others hothers' (by simp [hidle]) ?_
    rw [hidle, along, along, Event.returned, ← hlen', Int.toNat_natCast, List.take_length,
      Activity.dst, Event.copied, List.append_nil, ← List.append_assoc, hcopied]
  · exact absurd hkilled halive
  · refine of_others hothers' (fun _ _ _ hact => ?_) ?_
    · cases hsleep.symm.trans hact
      exact hlen'
    · rw [hsleep, along, along, Event.returned, Activity.dst, Event.copied, List.append_nil,
        ← List.append_assoc, hcopied]

theorem of_run (hrun : (system ι).Run hist σ) (hapart : ∀ x ∈ hist, Apart x.1 x.2) :
    Accounted hist σ := by
  induction hrun with
  | @init σ h =>
    have hidle := h.2.2.2
    refine ⟨fun t _ _ _ ht => ?_, fun t ht => absurd (hidle t) ht, fun t _ => ?_⟩
    · exact absurd ((hidle t).symm.trans ht) (by simp)
    · rw [hidle t]
      rfl
  | @step hist σ σ' l hrun hstep ih =>
    obtain ⟨a, e⟩ := l
    have hlast := hapart _ List.mem_cons_self
    have hinv := ih fun x hx => hapart x (List.mem_cons_of_mem _ hx)
    obtain ⟨cs, rfl, rfl, rfl⟩ | ⟨t, target, n, dst, hreads, hread⟩ | ⟨t, rfl, rfl, rfl⟩ :=
      step_cases hstep
    · exact hinv.silent (shows_keys cs (shows_of_run hrun).1).2
    · cases hreads with
      | start hidle =>
        have hall := hlast.start _ _ rfl
        refine hinv.consoleread (fun u _ => hall u) (by simp) ?_ hread hlast.alive
        rw [hidle]
        rfl
      | resume hact =>
        have hothers := hinv.unique t (by simp [hact])
        refine hinv.consoleread hothers (hinv.length t _ _ _ hact) ?_ hread hlast.alive
        rw [hact]
        rfl
    · refine hinv.silent fun u => ?_
      by_cases hu : u = t <;> simp [State.kill, hu]

end Accounted

/-- The console in every run: the indices stay in order modulo `2 ^ 32`, no interrupt removes
committed text, and what readers copy out is the committed text in order, without the consumed
`C('D')`; reads that do not overlap and are not ended by a kill return it. -/
theorem console_discipline (hrun : (system ι).Run hist σ) :
    ((σ.input.w - σ.input.r).toNat ≤ (σ.input.e - σ.input.r).toNat ∧
      (σ.input.e - σ.input.r).toNat ≤ INPUT_BUF) ∧
    (∀ cs σ' e, σ.step (.intr cs) = some (σ', e) → σ.input.unread <+: σ'.input.unread) ∧
    ((text hist).unread = σ.input.unread ∧
      along Event.copied hist = (text hist).taken.filter (· ≠ ctrlD) ∧
      ∀ a σ' e, σ.step a = some (σ', e) → a.keys = [] →
        (text ((σ, a, e) :: hist)).committed = (text hist).committed) ∧
    ((∀ x ∈ hist, Apart x.1 x.2) → ∀ t, (∀ u ≠ t, (σ.proc u).activity = .idle) →
      along Event.returned hist ++ (σ.proc t).activity.dst =
        (text hist).taken.filter (· ≠ ctrlD)) := by
  obtain ⟨hshows, hcopied⟩ := shows_of_run hrun
  refine ⟨⟨hshows.ordered, hshows.edit.trans_le hshows.bounded⟩, fun cs σ' e hstep => ?_,
    ⟨hshows.unread_eq.symm, hcopied, fun a σ' e hstep hkeys => ?_⟩, fun hapart t hothers => ?_⟩
  · cases hstep
    rw [hshows.unread_eq, (shows_keys cs hshows).1.unread_eq]
    exact (Text.prefix_keys cs _).2
  · obtain ⟨-, htaken, -⟩ := shows_step hshows hstep
    rw [text, Text.next, hkeys]
    exact Text.committed_take (htaken hkeys)
  · rw [← hcopied]
    exact (Accounted.of_run hrun hapart).returned t hothers

/-- The console after booting, with one process. -/
def booted : State Unit where
  input := ⟨fun _ => 0, 0, 0, 0⟩
  proc := fun _ => ⟨false, false, .idle⟩

/-- What is found after executing actions on the console is found at the end of some run. -/
theorem exists_run (as : List (Action Unit))
    (P : List (State Unit × (Action Unit × Event)) → State Unit → Bool)
    (h : (exec State.step [] booted as).any (fun r => P r.1 r.2) = true) :
    ∃ hist σ, (system Unit).Run hist σ ∧ P hist σ = true :=
  exists_run_of_exec_any ⟨rfl, rfl, rfl, fun _ => rfl⟩ h

/-- A process waits for a line; `b`, a backspace, `a` and a newline are typed. -/
theorem console_discipline_line :
    ∃ (hist : List (State Unit × (Action Unit × Event))) (σ : State Unit),
      (system Unit).Run hist σ ∧ (text hist).committed = [97, newline] ∧
        along Event.copied hist = [97, newline] := by
  obtain ⟨hist, σ, hrun, hσ⟩ := exists_run
    [.read () 10, .intr [98, ctrlH, 97], .intr [carriageReturn], .resume ()]
    (fun hist σ => decide ((text hist).taken = [97, newline] ∧ (text hist).unread = []))
    (by decide +kernel)
  obtain ⟨htaken, hunread⟩ := of_decide_eq_true hσ
  obtain ⟨-, -, ⟨-, hcopied, -⟩, -⟩ := console_discipline hrun
  refine ⟨hist, σ, hrun, ?_, ?_⟩
  · rw [Text.committed, htaken, hunread]
    rfl
  · rw [hcopied, htaken]
    rfl

/-- A process has copied out a full buffer, waits for more, and is killed: its call returns `-1`,
and no call returns the text. -/
theorem not_all_returned :
    ∃ (hist : List (State Unit × (Action Unit × Event))) (σ : State Unit),
      (system Unit).Run hist σ ∧ (text hist).committed = List.replicate INPUT_BUF 97 ∧
        (σ.input.r = σ.input.w ∧ (σ.proc ()).activity.dst = []) ∧
        along Event.returned hist = [] := by
  obtain ⟨hist, σ, hrun, hσ⟩ := exists_run
    [.intr (List.replicate INPUT_BUF 97), .read () 200, .kill (), .resume ()]
    (fun hist σ => decide ((text hist).committed = List.replicate INPUT_BUF 97 ∧
      (σ.input.r = σ.input.w ∧ (σ.proc ()).activity.dst = []) ∧ along Event.returned hist = []))
    (by decide +kernel)
  exact ⟨hist, σ, hrun, of_decide_eq_true hσ⟩

end Xv6.Console
