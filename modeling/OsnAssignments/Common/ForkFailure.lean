import OsnAssignments.Common.ForkJoin

/-!
# Forks that may fail

A process that forks two children, waits for the first and then for the second, where each `fork`
may return `-1`. For `-1` `waitpid` waits for any child there is, and returns at once if there is
none; so it does for a child that has been waited for already.

A plan (`Plan`) is a task together with the results of its forks. Running it is running the task in
which the children that could not be created do nothing (`Plan.toTask`), which carries the results
of `ForkJoin` over (`Plan.ends`).
-/

namespace ForkJoin

variable {ι α : Type}

/-- Sequential code, or two forks, with their results, and code that runs after both. -/
inductive Plan (ι α : Type)
  | seq (c : Code ι α Unit)
  | fork (ok₁ : Bool) (p : Plan ι α) (ok₂ : Bool) (q : Plan ι α) (c : Code ι α Unit)

/-- A plan under way. Each child comes with whether it exists and has not been waited for. -/
inductive Process (ι α : Type)
  | run (c : Code ι α Unit)
  /-- Before the first `fork`. -/
  | forking (ok₁ : Bool) (p : Plan ι α) (ok₂ : Bool) (q : Plan ι α) (c : Code ι α Unit)
  /-- Before the second `fork`. -/
  | first (live : Bool) (w : Process ι α) (ok₂ : Bool) (q : Plan ι α) (c : Code ι α Unit)
  /-- In the first `waitpid`. -/
  | both (live₁ : Bool) (w₁ : Process ι α) (live₂ : Bool) (w₂ : Process ι α) (c : Code ι α Unit)
  /-- In the second `waitpid`. -/
  | second (live : Bool) (w : Process ι α) (c : Code ι α Unit)

namespace Process

/-- The process that begins a plan. -/
def start : Plan ι α → Process ι α
  | .seq c => run c
  | .fork ok₁ p ok₂ q c => forking ok₁ p ok₂ q c

/-- The process has nothing left to do. -/
def Finished (w : Process ι α) : Prop :=
  w = run (.ret ())

/-- One step of a process or of one of its descendants. -/
inductive Step : Process ι α → Access ι α → Process ι α → Prop
  | read {i : ι} {k : α → Code ι α Unit} (v : α) : Step (run (.read i k)) (.read i v) (run (k v))
  | write {i : ι} {v : α} {k : Code ι α Unit} : Step (run (.write i v k)) (.write i v) (run k)
  | forkFirst {ok₁ ok₂ : Bool} {p q : Plan ι α} {c : Code ι α Unit} :
      Step (forking ok₁ p ok₂ q c) .none (first ok₁ (start p) ok₂ q c)
  | inFirst {w w' : Process ι α} {ok₂ : Bool} {q : Plan ι α} {c : Code ι α Unit} {a : Access ι α}
      (h : Step w a w') : Step (first true w ok₂ q c) a (first true w' ok₂ q c)
  | forkSecond {live ok₂ : Bool} {w : Process ι α} {q : Plan ι α} {c : Code ι α Unit} :
      Step (first live w ok₂ q c) .none (both live w ok₂ (start q) c)
  | inLeft {w₁ w₁' w₂ : Process ι α} {live : Bool} {c : Code ι α Unit} {a : Access ι α}
      (h : Step w₁ a w₁') : Step (both true w₁ live w₂ c) a (both true w₁' live w₂ c)
  | inRight {w₁ w₂ w₂' : Process ι α} {live : Bool} {c : Code ι α Unit} {a : Access ι α}
      (h : Step w₂ a w₂') : Step (both live w₁ true w₂ c) a (both live w₁ true w₂' c)
  /-- The first `waitpid` returns the first child. -/
  | joinFirst {w : Process ι α} {live : Bool} {c : Code ι α Unit} :
      Step (both true (run (.ret ())) live w c) .none (second live w c)
  /-- Without a first child, it returns the second one. -/
  | joinAny {w : Process ι α} {c : Code ι α Unit} :
      Step (both false w true (run (.ret ())) c) .none (second false (run (.ret ())) c)
  /-- Without any child, it fails. -/
  | joinNone {w₁ w₂ : Process ι α} {c : Code ι α Unit} :
      Step (both false w₁ false w₂ c) .none (second false w₂ c)
  | inSecond {w w' : Process ι α} {c : Code ι α Unit} {a : Access ι α} (h : Step w a w') :
      Step (second true w c) a (second true w' c)
  | joinSecond {c : Code ι α Unit} : Step (second true (run (.ret ())) c) .none (run c)
  /-- The second `waitpid` fails: no child is left. -/
  | joinedBefore {w : Process ι α} {c : Code ι α Unit} : Step (second false w c) .none (run c)

end Process

/-- A process and the memory it shares with its descendants. -/
def failingMachine [DecidableEq ι] (p : Plan ι α) (σ : ι → α) :
    Transition.System (Process ι α × (ι → α)) (Access ι α) where
  init s := s = (.start p, σ)
  step s a s' := s.1.Step a s'.1 ∧ a.Enabled s.2 ∧ s'.2 = a.apply s.2

/-- Every run of the plan from the memory `σ` ends, and ends with the memory `τ`. -/
structure Plan.Ends [DecidableEq ι] (p : Plan ι α) (σ τ : ι → α) : Prop where
  /-- There is no infinite run. -/
  finite : Acc (fun s' s => ∃ a, (failingMachine p σ).step s a s') (.start p, σ)
  /-- A run can go on until the plan is finished. -/
  progress : ∀ hist s, (failingMachine p σ).Run hist s → ¬ s.1.Finished →
    ∃ a s', (failingMachine p σ).step s a s'
  result : ∀ hist s, (failingMachine p σ).Run hist s → s.1.Finished → s.2 = τ

/-! ## The task of a plan -/

/-- The task that a plan performs: a child that could not be created does nothing. -/
def Plan.toTask : Plan ι α → Task ι α
  | seq c => .seq c
  | fork ok₁ p ok₂ q c =>
    .fork (if ok₁ then p.toTask else .seq (.ret ())) (if ok₂ then q.toTask else .seq (.ret ())) c

namespace Process

/-- A child that exists as a worker, and one that does not as a worker that has ended. -/
def childWorker (live : Bool) (w : Worker ι α) : Worker ι α :=
  if live then w else .run (.ret ())

/-- The worker that does what is left of a process. -/
def toWorker : Process ι α → Worker ι α
  | run c => .run c
  | forking ok₁ p ok₂ q c =>
    .forking (if ok₁ then p.toTask else .seq (.ret ())) (if ok₂ then q.toTask else .seq (.ret ())) c
  | first live w ok₂ q c =>
    .first (childWorker live w.toWorker) (if ok₂ then q.toTask else .seq (.ret ())) c
  | both live₁ w₁ live₂ w₂ c =>
    .both (childWorker live₁ w₁.toWorker) (childWorker live₂ w₂.toWorker) c
  | second live w c => .second (childWorker live w.toWorker) c

theorem toWorker_start (p : Plan ι α) : (start p).toWorker = .start p.toTask := by
  cases p <;> rfl

/-- A child that has just been created, or not. -/
theorem childWorker_start (ok : Bool) (p : Plan ι α) :
    childWorker ok (start p).toWorker = .start (if ok then p.toTask else .seq (.ret ())) := by
  cases ok
  · rfl
  · exact toWorker_start p

theorem finished_toWorker {w : Process ι α} (h : w.Finished) : w.toWorker.Finished := by
  rw [h]
  rfl

variable {w w' : Process ι α} {a : Access ι α}

/-- Every step of a process is a step of its worker. -/
theorem Step.toWorker (h : Step w a w') : w.toWorker.Step a w'.toWorker := by
  induction h with
  | read v => exact .read v
  | write => exact .write
  | forkFirst =>
    simp only [Process.toWorker, childWorker_start]
    exact .forkFirst
  | inFirst _ ih => exact .inFirst ih
  | forkSecond =>
    simp only [Process.toWorker, childWorker_start]
    exact .forkSecond
  | inLeft _ ih => exact .inLeft ih
  | inRight _ ih => exact .inRight ih
  | joinFirst | joinAny | joinNone => exact .joinFirst
  | inSecond _ ih => exact .inSecond ih
  | joinSecond | joinedBefore => exact .joinSecond

/-- A process that has not ended can move. -/
theorem exists_step {w : Process ι α} (h : ¬ w.Finished) (σ : ι → α) :
    ∃ a w', Step w a w' ∧ a.Enabled σ := by
  induction w with
  | run c =>
    cases c with
    | ret => exact absurd rfl h
    | read i => exact ⟨_, _, .read (σ i), rfl⟩
    | write => exact ⟨_, _, .write, trivial⟩
  | forking => exact ⟨_, _, .forkFirst, trivial⟩
  | first => exact ⟨_, _, .forkSecond, trivial⟩
  | both live₁ w₁ live₂ w₂ c ih₁ ih₂ =>
    -- the first `waitpid` waits for the first child if there is one, else for the second
    match live₁, live₂ with
    | true, _ =>
      by_cases hw : w₁.Finished
      · subst hw
        exact ⟨_, _, .joinFirst, trivial⟩
      · obtain ⟨a, w', hstep, ha⟩ := ih₁ hw
        exact ⟨a, _, .inLeft hstep, ha⟩
    | false, true =>
      by_cases hw : w₂.Finished
      · subst hw
        exact ⟨_, _, .joinAny, trivial⟩
      · obtain ⟨a, w', hstep, ha⟩ := ih₂ hw
        exact ⟨a, _, .inRight hstep, ha⟩
    | false, false => exact ⟨_, _, .joinNone, trivial⟩
  | second live w c ih =>
    match live with
    | true =>
      by_cases hw : w.Finished
      · subst hw
        exact ⟨_, _, .joinSecond, trivial⟩
      · obtain ⟨a, w', hstep, ha⟩ := ih hw
        exact ⟨a, _, .inSecond hstep, ha⟩
    | false => exact ⟨_, _, .joinedBefore, trivial⟩

end Process

/-- If concurrent parts of what a plan performs use disjoint sets of addresses, every run of the
plan ends with the memory that the sequential execution of its task computes. -/
theorem Plan.ends [DecidableEq ι] {p : Plan ι α} (h : p.toTask.Separate) (σ : ι → α) :
    p.Ends σ (p.toTask.eval σ) where
  finite := by
    have hacc : Acc (InvImage Worker.Next fun s : Process ι α × (ι → α) => s.1.toWorker)
        (.start p, σ) := by
      refine InvImage.accessible (fun s : Process ι α × (ι → α) => s.1.toWorker) ?_
      rw [Process.toWorker_start]
      exact Worker.acc_start p.toTask
    exact Subrelation.accessible (fun ⟨a, hstep, _⟩ => ⟨a, hstep.toWorker⟩) hacc
  progress hist s _ hs := by
    obtain ⟨a, w', hstep, ha⟩ := Process.exists_step hs s.2
    exact ⟨a, (w', a.apply s.2), hstep, ha, rfl⟩
  result hist s hrun hs := by
    let toWorkers (s : Process ι α × (ι → α)) : Worker ι α × (ι → α) := (s.1.toWorker, s.2)
    have hworker : (machine p.toTask σ).Run (hist.map (Prod.map toWorkers id)) (toWorkers s) := by
      refine hrun.simulation toWorkers ?_ ?_
      · rintro _ rfl
        exact Prod.ext (Process.toWorker_start p) rfl
      · intro hist s a s' _ hstep
        exact ⟨hstep.1.toWorker, hstep.2⟩
    exact (h.ends σ).result _ _ hworker (Process.finished_toWorker hs)

end ForkJoin
