import OsnAssignments.Xv6.Dispatch

/-!
# Free entries and process identifiers

`showps`, `preempt`, `kill` and `set_priority` tell a process by its `pid`, and `allocproc` tells a
free entry by its `state`. The two agree as long as no `fork` fails half-way: the failure paths of
`allocproc` and `fork` make the entry `UNUSED` and leave its `pid` and `killed`, and `allocproc`
does not clear `killed` either.
-/

namespace Xv6

open Transition

namespace Core

variable {n : ℕ} {s s' : Core n} {b : Build} {l : Label n} {p : Slot}

/-- What one step does to the identity of an entry, if no call fails in it and the pid it hands
out is not `0`. -/
theorem Step.identity (h : s.Inv) (hstep : Step b s l s') (hfails : l.1.2.fails = false)
    (hpid : ∀ p, l.2 = .alloc p → int32 s.nextpid ≠ 0)
    (hp : (s.procs p).pid = 0 ↔ (s.procs p).state = .unused) :
    (s'.procs p).pid = 0 ↔ (s'.procs p).state = .unused := by
  have hlife := hstep.life h p
  obtain ⟨⟨c, a⟩, e⟩ := l
  generalize s'.procs p = t at hlife
  cases hlife with
  | keep he ht => rw [ht.pid, ht.state.eq_unused_iff, hp]
  | alloc => exact iff_of_false (hpid p rfl) (by simp [Task.allocate])
  | abandon ha => exact absurd ha (by simp [hfails])
  | dispatch hstate | exit hstate => simpa [hstate] using hp
  | reap => simp [Task.reap]
  | kill =>
    dsimp only
    split
    next hsleep => simpa [hsleep] using hp
    · exact hp
  | fault | charge => exact hp

end Core

namespace Kernel

variable {n : ℕ} {b : Build} {hist : List (Kernel n × Label n)} {σ σ' : Kernel n}

/-- No call that `fork` or `userinit` makes fails in this step, and a pid it hands out is not
`0`. -/
def IdentityClean (σ : Kernel n) (l : Label n) : Prop :=
  l.1.2.fails = false ∧ ∀ p, l.2 = .alloc p → int32 σ.nextpid ≠ 0

/-- In every run without failing calls and without a `nextpid` that has wrapped to `0`, the
entries with `pid` `0` are the free ones. -/
theorem pid_eq_zero_iff_unused (hrun : (kernel b n).Run hist σ)
    (hclean : ∀ x ∈ hist, IdentityClean x.1 x.2) (p : Slot) :
    (σ.proc p).pid = 0 ↔ (σ.proc p).state = .unused := by
  induction hrun with
  | init h =>
    obtain ⟨below, rfl⟩ := h
    simp [initial, proc, Proc.zero]
  | step hrun hstep ih =>
    have hrest := ih fun x hx => hclean x (List.mem_cons_of_mem _ hx)
    obtain ⟨hfails, hpid⟩ := hclean _ List.mem_cons_self
    exact (step_core hstep).identity (inv_core hrun) hfails hpid hrest

/-- A run with a `fork` that succeeds. -/
theorem pid_eq_zero_iff_unused_fork :
    ∃ (hist : List (Kernel 0 × Label 0)) (σ : Kernel 0), (kernel .pbs 0).Run hist σ ∧
      (σ.proc 1).pid = 2 ∧ ∀ p, (σ.proc p).pid = 0 ↔ (σ.proc p).state = .unused := by
  obtain ⟨hist, σ, hrun, hσ⟩ := exists_run (n := 0) .pbs (startInit ++ forkOn 0)
    (fun hist σ => decide ((σ.proc 1).pid = 2 ∧
      ∀ x ∈ hist, x.2.1.2.fails = false ∧ int32 x.1.nextpid ≠ 0)) (by decide +kernel)
  obtain ⟨hpid, hclean⟩ := of_decide_eq_true hσ
  exact ⟨hist, σ, hrun, hpid,
    pid_eq_zero_iff_unused hrun fun x hx => ⟨(hclean x hx).1, fun _ _ => (hclean x hx).2⟩⟩

/-- When `kalloc` fails in `fork`, a free entry keeps its pid. -/
theorem not_pid_eq_zero_iff_unused :
    ¬ ∀ (hist : List (Kernel 0 × Label 0)) (σ : Kernel 0), (kernel .pbs 0).Run hist σ →
      σ.lock = none → ∀ p, (σ.proc p).pid = 0 ↔ (σ.proc p).state = .unused := by
  intro hall
  obtain ⟨hist, σ, hrun, hσ⟩ := exists_run (n := 0) .pbs
    (startInit ++ onCpu 0 [.fork, .kalloc false])
    (fun _ σ => decide (σ.lock = none ∧ (σ.proc 1).pid = 2 ∧ (σ.proc 1).state = .unused))
    (by decide +kernel)
  obtain ⟨hlock, hpid, hstate⟩ := of_decide_eq_true hσ
  have := (hall hist σ hrun hlock 1).mpr hstate
  rw [hpid] at this
  cases this

/-! ## The targets of `kill` and `set_priority` -/

/-- `kill(pid)` and `set_priority(x, pid)` return `-1` and change nothing, unless an entry in use
has that pid. -/
def MissesFree (b : Build) (σ : Kernel n) (pid : ℤ) : Prop :=
  (∀ p, (σ.proc p).state ≠ .unused → (σ.proc p).pid ≠ pid) →
    σ.killTable b pid = (σ, -1) ∧ ∀ x, σ.setPriorityTable x pid = (σ, -1)

theorem findPid_eq_none_iff {pid : ℤ} : σ.findPid pid = none ↔ ∀ p, (σ.proc p).pid ≠ pid := by
  refine ⟨fun h p => findPid_eq_none h p, fun h => ?_⟩
  exact List.find?_eq_none.mpr fun p _ => by simpa using h p

/-- The entry found is the first with the pid. -/
theorem findPid_eq_some_of_first {pid : ℤ} {p : Slot} (hp : (σ.proc p).pid = pid)
    (hfirst : ∀ i < p, (σ.proc i).pid ≠ pid) : σ.findPid pid = some p := by
  cases hfind : σ.findPid pid with
  | none => exact absurd hp (findPid_eq_none_iff.mp hfind p)
  | some q =>
    obtain ⟨hq, hqfirst⟩ := findPid_eq_some hfind
    rcases lt_trichotomy q p with hlt | rfl | hgt
    · exact absurd hq (hfirst q hlt)
    · rfl
    · exact absurd hp (hqfirst p hgt)

/-- The calls miss as they should exactly if an entry in use has the pid, or no entry has it:
they are led astray by a free entry with that pid. -/
theorem missesFree_iff (pid : ℤ) : MissesFree b σ pid ↔
      (∃ p, (σ.proc p).state ≠ .unused ∧ (σ.proc p).pid = pid) ∨
        ∀ p, (σ.proc p).pid ≠ pid := by
  constructor
  · intro h
    by_cases hlive : ∃ p, (σ.proc p).state ≠ .unused ∧ (σ.proc p).pid = pid
    · exact .inl hlive
    · right
      obtain ⟨hkill, -⟩ := h fun p hp hpid => hlive ⟨p, hp, hpid⟩
      -- a call that finds an entry returns `0`
      rw [← findPid_eq_none_iff]
      cases hfind : σ.findPid pid with
      | none => rfl
      | some =>
        have hret := congrArg Prod.snd hkill
        rw [killTable, hfind] at hret
        cases hret
  · rintro (⟨p, hp, hpid⟩ | hnone) hfree
    · exact absurd hpid (hfree p hp)
    · have hfind := findPid_eq_none_iff.mpr hnone
      refine ⟨?_, fun x => ?_⟩
      · rw [killTable, hfind]
      · rw [setPriorityTable, hfind]

/-- Since `allocproc` last took the entry `p`, a `kill` was aimed at its pid, or it faulted. -/
def markedSince (p : Slot) : List (Kernel n × Label n) → Bool
  | [] => false
  | (σ, l) :: hist =>
    match l.2 with
    | .alloc q => q ≠ p && markedSince p hist
    | .kill pid _ => (σ.proc p).pid = pid || markedSince p hist
    | .fault q => q = p || markedSince p hist
    | _ => markedSince p hist

/-- The action is a `kill` that finds a free entry. -/
def killsFree (σ : Kernel n) (a : Action) : Bool :=
  match a with
  | .kill pid => (σ.findPid pid).any fun p => (σ.proc p).state = .unused
  | _ => false

/-- The action is a call in `fork` or `userinit` that fails, and CPU `c` gives up an entry that is
marked killed. -/
def abandonsKilled (σ : Kernel n) (c : CpuId n) (a : Action) : Bool :=
  a.fails && (σ.core.filling c).any fun p => (σ.proc p).killed

/-- The step leaves no free entry marked killed. -/
def KillClean (σ : Kernel n) (l : Label n) : Prop :=
  σ.killsFree l.1.2 = false ∧ σ.abandonsKilled l.1.1 l.1.2 = false

instance (σ : Kernel n) (l : Label n) : Decidable (KillClean σ l) :=
  inferInstanceAs (Decidable (_ ∧ _))

/-- A free entry is not marked killed, and an entry in use has been marked by a `kill` aimed at
its pid or by a fault of its own. -/
def KilledByRight (hist : List (Kernel n × Label n)) (σ : Kernel n) (p : Slot) : Prop :=
  (σ.proc p).killed = true → (σ.proc p).state ≠ .unused ∧ markedSince p hist = true

theorem killed_step (hinv : σ.core.Inv) {l : Label n} (hstep : (kernel b n).step σ l σ')
    (hclean : KillClean σ l) {p : Slot} (h : KilledByRight hist σ p) :
    KilledByRight ((σ, l) :: hist) σ' p := by
  have hlife := (step_core hstep).life hinv p
  obtain ⟨⟨c, a⟩, e⟩ := l
  intro hkilled
  change (σ'.core.procs p).killed = true at hkilled
  change (σ'.core.procs p).state ≠ .unused ∧ _
  change (σ.core.procs p).killed = true → (σ.core.procs p).state ≠ .unused ∧ _ at h
  generalize σ'.core.procs p = t at hlife hkilled
  dsimp only [markedSince]
  cases hlife with
  | keep he ht =>
    rw [ht.killed] at hkilled
    obtain ⟨hstate, hmarked⟩ := h hkilled
    refine ⟨fun hp => hstate (ht.state.eq_unused_iff.mp hp), ?_⟩
    cases e with
    | alloc q =>
      have hq : q ≠ p := by simpa [Event.marks] using he
      simp [hq, hmarked]
    | kill | fault => simp [hmarked]
    | _ => exact hmarked
  | alloc hp =>
    -- a free entry is not marked killed, so that `allocproc` need not clear the field
    exact absurd hp (h hkilled).1
  | abandon ha hfilling =>
    have habandon := hclean.2
    dsimp only at ha hfilling
    have hkilled : (σ.proc p).killed = true := hkilled
    simp [abandonsKilled, ha, hfilling, hkilled] at habandon
  | dispatch | exit => exact ⟨by simp, (h hkilled).2⟩
  | reap => simp [Task.reap] at hkilled
  | kill hpid hfirst =>
    have hstate := hclean.1
    simp only [killsFree, findPid_eq_some_of_first hpid hfirst, Option.any_some,
      decide_eq_false_iff_not] at hstate
    have hpid : (σ.proc p).pid = _ := hpid
    refine ⟨?_, by simp [hpid]⟩
    dsimp only
    split
    · simp
    · exact hstate
  | fault hp =>
    refine ⟨fun hunused => ?_, by simp⟩
    cases hp.symm.trans hunused
  | charge => exact h hkilled

/-- `kill` and `set_priority` miss as they should exactly if an entry in use has the pid or no entry
has it; in runs whose `kill` steps find no free entry, only a `kill` aimed at its pid or its own
fault marks a process. -/
theorem kill_targets (hrun : (kernel b n).Run hist σ) :
    (∀ pid, MissesFree b σ pid ↔
      (∃ p, (σ.proc p).state ≠ .unused ∧ (σ.proc p).pid = pid) ∨ ∀ p, (σ.proc p).pid ≠ pid) ∧
    ((∀ x ∈ hist, KillClean x.1 x.2) → ∀ p, KilledByRight hist σ p) := by
  refine ⟨missesFree_iff, fun hclean p => ?_⟩
  induction hrun with
  | init h =>
    obtain ⟨below, rfl⟩ := h
    intro hkilled
    simp [initial, proc, Proc.zero] at hkilled
  | step hrun hstep ih =>
    have hrest := ih fun x hx => hclean x (List.mem_cons_of_mem _ hx)
    exact killed_step (inv_core hrun) hstep (hclean _ List.mem_cons_self) hrest

/-- A run in which init forks a child and kills it. -/
theorem kill_targets_child :
    ∃ (hist : List (Kernel 0 × Label 0)) (σ : Kernel 0), (kernel .roundRobin 0).Run hist σ ∧
      (σ.proc 1).killed = true ∧ KilledByRight hist σ 1 := by
  obtain ⟨hist, σ, hrun, hσ⟩ := exists_run (n := 0) .roundRobin
    (startInit ++ forkOn 0 ++ onCpu 0 [.kill 2])
    (fun hist σ => decide ((σ.proc 1).killed = true ∧ ∀ x ∈ hist, KillClean x.1 x.2))
    (by decide +kernel)
  obtain ⟨hkilled, hclean⟩ := of_decide_eq_true hσ
  exact ⟨hist, σ, hrun, hkilled, (kill_targets hrun).2 hclean 1⟩

/-- `kill(0)` marks a free entry, and the next process to be created starts out killed. -/
theorem not_kill_targets :
    ¬ ∀ (hist : List (Kernel 0 × Label 0)) (σ : Kernel 0), (kernel .roundRobin 0).Run hist σ →
      (∀ pid, MissesFree .roundRobin σ pid) ∧ ∀ p, KilledByRight hist σ p := by
  intro hall
  obtain ⟨hist, σ, hrun, hσ⟩ := exists_run (n := 0) .roundRobin
    (startInit ++ onCpu 0 [.kill 0] ++ forkOn 0)
    (fun hist σ => decide ((σ.proc 1).killed = true ∧ markedSince 1 hist = false))
    (by decide +kernel)
  obtain ⟨hkilled, hmarked⟩ := of_decide_eq_true hσ
  have := ((hall hist σ hrun).2 1 hkilled).2
  rw [hmarked] at this
  cases this

end Kernel

end Xv6
