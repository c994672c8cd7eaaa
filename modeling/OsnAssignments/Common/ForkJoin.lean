import Mathlib
import OsnAssignments.Common.Transition

/-!
# Fork and join over a shared memory

Sequential code is a tree of single reads and writes (`Code`). A task is sequential code, or two
tasks that run concurrently followed by sequential code (`Task`). A worker is a task under way
(`Worker`). If concurrent tasks use disjoint parts of the memory, then every interleaving ends with
the memory that the sequential execution computes (`Task.Separate.ends`).
-/

namespace ForkJoin

open Function

/-! ## Sequential code -/

/-- Code that reads and writes a memory with addresses in `ι` and values in `α`, and returns a
value of type `β`. -/
inductive Code (ι α : Type) (β : Type)
  | ret (b : β)
  | read (i : ι) (k : α → Code ι α β)
  | write (i : ι) (v : α) (k : Code ι α β)

namespace Code

variable {ι α β γ : Type}

/-- Run `c`, then `f` on its result. -/
def bind (c : Code ι α β) (f : β → Code ι α γ) : Code ι α γ :=
  match c with
  | ret b => f b
  | read i k => read i fun v => (k v).bind f
  | write i v k => write i v (k.bind f)

instance instMonadCode : Monad (Code ι α) where
  pure := ret
  bind := bind

/-- Read the address `i`. -/
def load (i : ι) : Code ι α α :=
  read i ret

/-- Write `v` to the address `i`. -/
def store (i : ι) (v : α) : Code ι α Unit :=
  write i v (ret ())

/-- Read the addresses of a list in order. -/
def loadAll : List ι → Code ι α (List α)
  | [] => ret []
  | i :: l => do
    let v ← load i
    let vs ← loadAll l
    return v :: vs

/-- Perform `f` for the entries of a list in order, passing a value along. -/
def fold (f : β → γ → Code ι α β) : β → List γ → Code ι α β
  | b, [] => ret b
  | b, a :: l => do
    let b ← f b a
    fold f b l

/-! ### Footprints -/

/-- Every access of the code is to an address in `S`, and every result satisfies `P`, whatever
values are read. -/
def Uses (S : Set ι) (P : β → Prop) : Code ι α β → Prop
  | ret b => P b
  | read i k => i ∈ S ∧ ∀ v, (k v).Uses S P
  | write i _ k => i ∈ S ∧ k.Uses S P

variable {S T : Set ι} {P Q : β → Prop} {R : γ → Prop}

theorem Uses.mono {c : Code ι α β} (h : c.Uses S P) (hST : S ⊆ T) (hPQ : ∀ b, P b → Q b) :
    c.Uses T Q := by
  induction c with
  | ret b => exact hPQ b h
  | read i k ih => exact ⟨hST h.1, fun v => ih v (h.2 v)⟩
  | write i v k ih => exact ⟨hST h.1, ih h.2⟩

theorem Uses.bind {c : Code ι α β} {f : β → Code ι α γ} (h : c.Uses S P)
    (hf : ∀ b, P b → (f b).Uses S R) : (c >>= f).Uses S R := by
  induction c with
  | ret b => exact hf b h
  | read i k ih => exact ⟨h.1, fun v => ih v (h.2 v)⟩
  | write i v k ih => exact ⟨h.1, ih h.2⟩

theorem uses_load {i : ι} (h : i ∈ S) : (load i : Code ι α α).Uses S fun _ => True :=
  ⟨h, fun _ => trivial⟩

theorem uses_store {i : ι} (v : α) (h : i ∈ S) : (store i v).Uses S fun _ => True :=
  ⟨h, trivial⟩

theorem uses_loadAll {l : List ι} (h : ∀ i ∈ l, i ∈ S) :
    (loadAll l : Code ι α (List α)).Uses S fun vs => vs.length = l.length := by
  induction l with
  | nil => exact rfl
  | cons i l ih =>
    refine (uses_load (h i List.mem_cons_self)).bind fun v _ => ?_
    refine (ih fun j hj => h j (List.mem_cons_of_mem _ hj)).bind fun vs hvs => ?_
    show (v :: vs).length = (i :: l).length
    simp [hvs]

/-- A loop keeps an invariant of the value it passes along. -/
theorem uses_fold {f : β → γ → Code ι α β} {l : List γ} {b : β} (hb : P b)
    (hf : ∀ a ∈ l, ∀ b, P b → (f b a).Uses S P) : (fold f b l).Uses S P := by
  induction l generalizing b with
  | nil => exact hb
  | cons a l ih =>
    refine (hf a List.mem_cons_self b hb).bind fun b hb => ?_
    exact ih hb fun a ha => hf a (List.mem_cons_of_mem _ ha)

/-! ### Execution -/

section Eval

variable [DecidableEq ι]

/-- The result of the code and the memory it leaves. -/
def eval : Code ι α β → (ι → α) → β × (ι → α)
  | ret b, σ => (b, σ)
  | read i k, σ => (k (σ i)).eval σ
  | write i v k, σ => k.eval (update σ i v)

theorem eval_bind (c : Code ι α β) (f : β → Code ι α γ) (σ : ι → α) :
    (c >>= f).eval σ = (f (c.eval σ).1).eval (c.eval σ).2 := by
  induction c generalizing σ with
  | ret => rfl
  | read i k ih => exact ih (σ i) σ
  | write i v k ih => exact ih (update σ i v)

/-- Reading a list of addresses returns their values. -/
theorem eval_loadAll (l : List ι) (σ : ι → α) : (loadAll l).eval σ = (l.map σ, σ) := by
  induction l with
  | nil => rfl
  | cons i l ih =>
    rw [loadAll, eval_bind, eval_bind]
    show (ret (σ i :: ((loadAll l).eval σ).1)).eval ((loadAll l).eval σ).2 = _
    rw [ih]
    rfl

/-- A loop over a list that is not empty. -/
theorem eval_fold_cons (f : β → γ → Code ι α β) (b : β) (a : γ) (l : List γ) (σ : ι → α) :
    (fold f b (a :: l)).eval σ = (fold f ((f b a).eval σ).1 l).eval ((f b a).eval σ).2 :=
  eval_bind (f b a) (fun b => fold f b l) σ

/-- Code leaves the addresses it does not use alone. -/
theorem Uses.eval_apply {c : Code ι α β} (h : c.Uses S P) {i : ι} (hi : i ∉ S) (σ : ι → α) :
    (c.eval σ).2 i = σ i := by
  induction c generalizing σ with
  | ret => rfl
  | read j k ih => exact ih (σ j) (h.2 (σ j)) σ
  | write j v k ih =>
    have hne : i ≠ j := fun heq => hi (heq ▸ h.1)
    exact (ih h.2 (update σ j v)).trans (update_of_ne hne v σ)

/-- A write to an address that the code does not use commutes with the code. -/
theorem Uses.eval_update {c : Code ι α β} (h : c.Uses S P) {i : ι} (hi : i ∉ S) (v : α)
    (σ : ι → α) : (c.eval (update σ i v)).2 = update (c.eval σ).2 i v := by
  induction c generalizing σ with
  | ret => rfl
  | read j k ih =>
    have hne : j ≠ i := fun heq => hi (heq ▸ h.1)
    show ((k (update σ i v j)).eval (update σ i v)).2 = _
    rw [update_of_ne hne]
    exact ih (σ j) (h.2 (σ j)) σ
  | write j w k ih =>
    have hne : j ≠ i := fun heq => hi (heq ▸ h.1)
    show (k.eval (update (update σ i v) j w)).2 = _
    rw [update_comm hne.symm]
    exact ih h.2 (update σ j w)

end Eval

end Code

variable {ι α : Type}

/-! ## Tasks and workers -/

/-- Sequential code, or two tasks that run concurrently and code that runs after both. -/
inductive Task (ι α : Type)
  | seq (c : Code ι α Unit)
  | fork (p q : Task ι α) (c : Code ι α Unit)

/-- A task under way. -/
inductive Worker (ι α : Type)
  /-- Sequential code is left. -/
  | run (c : Code ι α Unit)
  /-- Before the first child is created. -/
  | forking (p q : Task ι α) (c : Code ι α Unit)
  /-- The first child exists, the second is about to be created. -/
  | first (w : Worker ι α) (q : Task ι α) (c : Code ι α Unit)
  /-- Both children exist, and the parent waits for the first. -/
  | both (w₁ w₂ : Worker ι α) (c : Code ι α Unit)
  /-- The first child has ended, and the parent waits for the second. -/
  | second (w : Worker ι α) (c : Code ι α Unit)

/-- What a step does to the memory. -/
inductive Access (ι α : Type)
  | none
  | read (i : ι) (v : α)
  | write (i : ι) (v : α)

namespace Access

/-- The access is possible: a read finds the value that is there. -/
def Enabled (σ : ι → α) : Access ι α → Prop
  | none => True
  | read i v => σ i = v
  | write _ _ => True

/-- The memory after the access. -/
def apply [DecidableEq ι] (σ : ι → α) : Access ι α → ι → α
  | none => σ
  | read _ _ => σ
  | write i v => update σ i v

/-- The access is to an address in `S`. -/
def Within (S : Set ι) : Access ι α → Prop
  | none => True
  | read i _ => i ∈ S
  | write i _ => i ∈ S

end Access

namespace Worker

/-- The worker that begins a task. -/
def start : Task ι α → Worker ι α
  | .seq c => run c
  | .fork p q c => forking p q c

/-- The worker has nothing left to do. -/
def Finished (w : Worker ι α) : Prop :=
  w = run (.ret ())

/-- One step of a worker or of one of its descendants. -/
inductive Step : Worker ι α → Access ι α → Worker ι α → Prop
  | read {i : ι} {k : α → Code ι α Unit} (v : α) : Step (run (.read i k)) (.read i v) (run (k v))
  | write {i : ι} {v : α} {k : Code ι α Unit} : Step (run (.write i v k)) (.write i v) (run k)
  | forkFirst {p q : Task ι α} {c : Code ι α Unit} :
      Step (forking p q c) .none (first (start p) q c)
  | inFirst {w w' : Worker ι α} {q : Task ι α} {c : Code ι α Unit} {a : Access ι α}
      (h : Step w a w') : Step (first w q c) a (first w' q c)
  | forkSecond {w : Worker ι α} {q : Task ι α} {c : Code ι α Unit} :
      Step (first w q c) .none (both w (start q) c)
  | inLeft {w₁ w₁' w₂ : Worker ι α} {c : Code ι α Unit} {a : Access ι α} (h : Step w₁ a w₁') :
      Step (both w₁ w₂ c) a (both w₁' w₂ c)
  | inRight {w₁ w₂ w₂' : Worker ι α} {c : Code ι α Unit} {a : Access ι α} (h : Step w₂ a w₂') :
      Step (both w₁ w₂ c) a (both w₁ w₂' c)
  | joinFirst {w : Worker ι α} {c : Code ι α Unit} :
      Step (both (run (.ret ())) w c) .none (second w c)
  | inSecond {w w' : Worker ι α} {c : Code ι α Unit} {a : Access ι α} (h : Step w a w') :
      Step (second w c) a (second w' c)
  | joinSecond {c : Code ι α Unit} : Step (second (run (.ret ())) c) .none (run c)

end Worker

/-- A worker and the memory it shares with its descendants. -/
def machine [DecidableEq ι] (t : Task ι α) (σ : ι → α) :
    Transition.System (Worker ι α × (ι → α)) (Access ι α) where
  init s := s = (.start t, σ)
  step s a s' := s.1.Step a s'.1 ∧ a.Enabled s.2 ∧ s'.2 = a.apply s.2

/-- Every run of the task from the memory `σ` ends, and ends with the memory `τ`. -/
structure Task.Ends [DecidableEq ι] (t : Task ι α) (σ τ : ι → α) : Prop where
  /-- There is no infinite run. -/
  finite : Acc (fun s' s => ∃ a, (machine t σ).step s a s') (.start t, σ)
  /-- A run can go on until the task is finished. -/
  progress : ∀ hist s, (machine t σ).Run hist s → ¬ s.1.Finished →
    ∃ a s', (machine t σ).step s a s'
  result : ∀ hist s, (machine t σ).Run hist s → s.1.Finished → s.2 = τ

/-! ## Footprints -/

/-- The task accesses only addresses in `S`. -/
def Task.Within (S : Set ι) : Task ι α → Prop
  | seq c => c.Uses S fun _ => True
  | fork p q c => p.Within S ∧ q.Within S ∧ c.Uses S fun _ => True

/-- Concurrent parts of the task use disjoint sets of addresses. -/
def Task.Separate : Task ι α → Prop
  | seq _ => True
  | fork p q _ => p.Separate ∧ q.Separate ∧ ∃ S T : Set ι, Disjoint S T ∧ p.Within S ∧ q.Within T

theorem Task.Within.mono {S T : Set ι} {t : Task ι α} (h : t.Within S) (hST : S ⊆ T) :
    t.Within T := by
  induction t with
  | seq => exact Code.Uses.mono h hST fun _ => id
  | fork p q c ihp ihq => exact ⟨ihp h.1, ihq h.2.1, h.2.2.mono hST fun _ => id⟩

namespace Worker

/-- The worker and its descendants access only addresses in `S`. -/
def Within (S : Set ι) : Worker ι α → Prop
  | run c => c.Uses S fun _ => True
  | forking p q c => p.Within S ∧ q.Within S ∧ c.Uses S fun _ => True
  | first w q c => w.Within S ∧ q.Within S ∧ c.Uses S fun _ => True
  | both w₁ w₂ c => w₁.Within S ∧ w₂.Within S ∧ c.Uses S fun _ => True
  | second w c => w.Within S ∧ c.Uses S fun _ => True

/-- Concurrent descendants of the worker use disjoint sets of addresses. -/
def Separate : Worker ι α → Prop
  | run _ => True
  | forking p q _ => p.Separate ∧ q.Separate ∧
      ∃ S T : Set ι, Disjoint S T ∧ p.Within S ∧ q.Within T
  | first w q _ => w.Separate ∧ q.Separate ∧
      ∃ S T : Set ι, Disjoint S T ∧ w.Within S ∧ q.Within T
  | both w₁ w₂ _ => w₁.Separate ∧ w₂.Separate ∧
      ∃ S T : Set ι, Disjoint S T ∧ w₁.Within S ∧ w₂.Within T
  | second w _ => w.Separate

variable {S : Set ι} {w w' : Worker ι α} {a : Access ι α}

theorem within_start {t : Task ι α} (h : t.Within S) : (start t).Within S := by
  cases t <;> exact h

theorem separate_start {t : Task ι α} (h : t.Separate) : (start t).Separate := by
  cases t <;> exact h

/-- A step stays within the footprint of the worker. -/
theorem Step.within (hstep : Step w a w') (h : w.Within S) : w'.Within S ∧ a.Within S := by
  induction hstep with
  | read v => exact ⟨h.2 v, h.1⟩
  | write => exact ⟨h.2, h.1⟩
  | forkFirst => exact ⟨⟨within_start h.1, h.2⟩, trivial⟩
  | inFirst _ ih | inLeft _ ih | inSecond _ ih => exact ⟨⟨(ih h.1).1, h.2⟩, (ih h.1).2⟩
  | forkSecond => exact ⟨⟨h.1, within_start h.2.1, h.2.2⟩, trivial⟩
  | inRight _ ih => exact ⟨⟨h.1, (ih h.2.1).1, h.2.2⟩, (ih h.2.1).2⟩
  | joinFirst => exact ⟨⟨h.2.1, h.2.2⟩, trivial⟩
  | joinSecond => exact ⟨h.2, trivial⟩

theorem Step.separate (hstep : Step w a w') (h : w.Separate) : w'.Separate := by
  induction hstep with
  | read | write | joinSecond => trivial
  | forkFirst =>
    obtain ⟨hp, hq, S, T, hST, hpS, hqT⟩ := h
    exact ⟨separate_start hp, hq, S, T, hST, within_start hpS, hqT⟩
  | inFirst hstep ih =>
    obtain ⟨hw, hq, S, T, hST, hwS, hqT⟩ := h
    exact ⟨ih hw, hq, S, T, hST, (hstep.within hwS).1, hqT⟩
  | forkSecond =>
    obtain ⟨hw, hq, S, T, hST, hwS, hqT⟩ := h
    exact ⟨hw, separate_start hq, S, T, hST, hwS, within_start hqT⟩
  | inLeft hstep ih =>
    obtain ⟨hw₁, hw₂, S, T, hST, hwS, hwT⟩ := h
    exact ⟨ih hw₁, hw₂, S, T, hST, (hstep.within hwS).1, hwT⟩
  | inRight hstep ih =>
    obtain ⟨hw₁, hw₂, S, T, hST, hwS, hwT⟩ := h
    exact ⟨hw₁, ih hw₂, S, T, hST, hwS, (hstep.within hwT).1⟩
  | joinFirst => exact h.2.1
  | inSecond _ ih => exact ih h

end Worker

/-! ## The sequential execution -/

section Eval

variable [DecidableEq ι]

/-- The memory after the task, when its parts run one after the other. -/
def Task.eval : Task ι α → (ι → α) → (ι → α)
  | seq c, σ => (c.eval σ).2
  | fork p q c, σ => (c.eval (q.eval (p.eval σ))).2

/-- A memory transformer that uses only addresses in `S`: it leaves the others alone and commutes
with writes to them. -/
structure Local (S : Set ι) (f : (ι → α) → (ι → α)) : Prop where
  frame : ∀ i ∉ S, ∀ σ, f σ i = σ i
  update : ∀ i ∉ S, ∀ v σ, f (update σ i v) = update (f σ) i v

theorem Local.comp {S : Set ι} {f g : (ι → α) → (ι → α)} (hf : Local S f) (hg : Local S g) :
    Local S fun σ => g (f σ) := by
  refine ⟨fun i hi σ => ?_, fun i hi v σ => ?_⟩
  · rw [hg.frame i hi, hf.frame i hi]
  · rw [hf.update i hi, hg.update i hi]

/-- An access to addresses that `f` does not use can be made before or after `f`. -/
theorem Local.access {S T : Set ι} {f : (ι → α) → (ι → α)} (hf : Local S f) (hST : Disjoint S T)
    {a : Access ι α} (ha : a.Within T) {σ : ι → α} (hσ : a.Enabled σ) :
    a.Enabled (f σ) ∧ f (a.apply σ) = a.apply (f σ) := by
  have hnot {i : ι} (hi : i ∈ T) : i ∉ S := fun hi' => Set.disjoint_left.mp hST hi' hi
  cases a with
  | none => exact ⟨trivial, rfl⟩
  | read i => exact ⟨(hf.frame i (hnot ha) σ).trans hσ, rfl⟩
  | write i v => exact ⟨trivial, hf.update i (hnot ha) v σ⟩

theorem Code.Uses.local {S : Set ι} {P : Unit → Prop} {c : Code ι α Unit} (h : c.Uses S P) :
    Local S fun σ => (c.eval σ).2 :=
  ⟨fun _ hi σ => h.eval_apply hi σ, fun _ hi v σ => h.eval_update hi v σ⟩

theorem Task.Within.local {S : Set ι} {t : Task ι α} (h : t.Within S) : Local S t.eval := by
  induction t with
  | seq => exact Code.Uses.local h
  | fork p q c ihp ihq => exact ((ihp h.1).comp (ihq h.2.1)).comp h.2.2.local

namespace Worker

/-- The memory after the worker has ended, when what is left of its children runs in order. -/
def eval : Worker ι α → (ι → α) → (ι → α)
  | run c, σ => (c.eval σ).2
  | forking p q c, σ => (c.eval (q.eval (p.eval σ))).2
  | first w q c, σ => (c.eval (q.eval (w.eval σ))).2
  | both w₁ w₂ c, σ => (c.eval (w₂.eval (w₁.eval σ))).2
  | second w c, σ => (c.eval (w.eval σ)).2

theorem eval_start (t : Task ι α) (σ : ι → α) : (start t).eval σ = t.eval σ := by
  cases t <;> rfl

theorem Within.local {S : Set ι} {w : Worker ι α} (h : w.Within S) : Local S w.eval := by
  induction w with
  | run => exact Code.Uses.local h
  | forking => exact (h.1.local.comp h.2.1.local).comp h.2.2.local
  | first w q c ih => exact ((ih h.1).comp h.2.1.local).comp h.2.2.local
  | both w₁ w₂ c ih₁ ih₂ => exact ((ih₁ h.1).comp (ih₂ h.2.1)).comp h.2.2.local
  | second w c ih => exact (ih h.1).comp h.2.local

variable {w w' : Worker ι α} {a : Access ι α}

/-- A step does not change the outcome of the sequential execution. -/
theorem Step.eval_eq (hstep : Step w a w') (h : w.Separate) {σ : ι → α} (ha : a.Enabled σ) :
    w'.eval (a.apply σ) = w.eval σ := by
  induction hstep generalizing σ with
  | read v =>
    obtain rfl : σ _ = v := ha
    rfl
  | write | joinFirst | joinSecond => rfl
  | forkFirst | forkSecond => simp only [eval, eval_start, Access.apply]
  -- steps of the part that runs first in the sequential order
  | inFirst _ ih | inLeft _ ih => simp only [eval, ih h.1 ha]
  | inSecond _ ih => simp only [eval, ih h ha]
  | inRight hstep ih =>
    -- the second child can make its step after the first child has ended
    obtain ⟨-, hw₂, S, T, hST, hwS, hwT⟩ := h
    obtain ⟨ha', hcomm⟩ := hwS.local.access hST (hstep.within hwT).2 ha
    simp only [eval, hcomm, ih hw₂ ha']

end Worker

end Eval

/-! ## Progress and termination -/

namespace Worker

theorem exists_step {w : Worker ι α} (h : ¬ w.Finished) (σ : ι → α) :
    ∃ a w', Step w a w' ∧ a.Enabled σ := by
  induction w with
  | run c =>
    cases c with
    | ret => exact absurd rfl h
    | read i => exact ⟨_, _, .read (σ i), rfl⟩
    | write => exact ⟨_, _, .write, trivial⟩
  | forking => exact ⟨_, _, .forkFirst, trivial⟩
  | first => exact ⟨_, _, .forkSecond, trivial⟩
  | both w₁ w₂ c ih₁ =>
    -- the parent waits for the children in order, so the first that is not finished can move
    by_cases hw : w₁.Finished
    · subst hw
      exact ⟨_, _, .joinFirst, trivial⟩
    · obtain ⟨a, w', hstep, ha⟩ := ih₁ hw
      exact ⟨a, _, .inLeft hstep, ha⟩
  | second w c ih =>
    by_cases hw : w.Finished
    · subst hw
      exact ⟨_, _, .joinSecond, trivial⟩
    · obtain ⟨a, w', hstep, ha⟩ := ih hw
      exact ⟨a, _, .inSecond hstep, ha⟩

/-- `w'` can follow `w`. -/
def Next (w' w : Worker ι α) : Prop :=
  ∃ a, Step w a w'

theorem acc_run (c : Code ι α Unit) : Acc Next (run c) := by
  induction c with
  | ret =>
    refine ⟨_, ?_⟩
    rintro w' ⟨a, hstep⟩
    cases hstep
  | read i k ih =>
    refine ⟨_, ?_⟩
    rintro w' ⟨a, hstep⟩
    cases hstep with
    | read v => exact ih v
  | write i v k ih =>
    refine ⟨_, ?_⟩
    rintro w' ⟨a, hstep⟩
    cases hstep
    exact ih

theorem acc_second {w : Worker ι α} (hw : Acc Next w) (c : Code ι α Unit) :
    Acc Next (second w c) := by
  induction hw with
  | intro w _ ih =>
    refine ⟨_, ?_⟩
    rintro w' ⟨a, hstep⟩
    cases hstep with
    | inSecond hstep => exact ih _ ⟨a, hstep⟩
    | joinSecond => exact acc_run c

theorem acc_both {w₁ w₂ : Worker ι α} (hw₁ : Acc Next w₁) (hw₂ : Acc Next w₂)
    (c : Code ι α Unit) : Acc Next (both w₁ w₂ c) := by
  -- lexicographic, on the two children: each step is one of the first or one of the second
  induction hw₁ generalizing w₂ with
  | intro w₁ _ ih₁ =>
    induction hw₂ with
    | intro w₂ hw₂ ih₂ =>
      refine ⟨_, ?_⟩
      rintro w' ⟨a, hstep⟩
      cases hstep with
      | inLeft hstep => exact ih₁ _ ⟨a, hstep⟩ ⟨_, hw₂⟩
      | inRight hstep => exact ih₂ _ ⟨a, hstep⟩
      | joinFirst => exact acc_second ⟨_, hw₂⟩ c

theorem acc_first {w : Worker ι α} (hw : Acc Next w) {q : Task ι α} (hq : Acc Next (start q))
    (c : Code ι α Unit) : Acc Next (first w q c) := by
  induction hw with
  | intro w hw ih =>
    refine ⟨_, ?_⟩
    rintro w' ⟨a, hstep⟩
    cases hstep with
    | inFirst hstep => exact ih _ ⟨a, hstep⟩
    | forkSecond => exact acc_both ⟨_, hw⟩ hq c

/-- No worker takes infinitely many steps, whatever values are read. -/
theorem acc_start (t : Task ι α) : Acc Next (start t) := by
  induction t with
  | seq c => exact acc_run c
  | fork p q c ihp ihq =>
    refine ⟨_, ?_⟩
    rintro w' ⟨a, hstep⟩
    cases hstep
    exact acc_first ihp ihq c

end Worker

/-- If concurrent parts of a task use disjoint sets of addresses, every run of the task ends with
the memory that the sequential execution computes. -/
theorem Task.Separate.ends [DecidableEq ι] {t : Task ι α} (h : t.Separate) (σ : ι → α) :
    t.Ends σ (t.eval σ) where
  finite := by
    have hacc : Acc (InvImage Worker.Next Prod.fst) ((.start t, σ) : Worker ι α × (ι → α)) :=
      InvImage.accessible Prod.fst (Worker.acc_start t)
    exact Subrelation.accessible (fun ⟨a, hstep, _⟩ => ⟨a, hstep⟩) hacc
  progress hist s _ hs := by
    obtain ⟨a, w', hstep, ha⟩ := Worker.exists_step hs s.2
    exact ⟨a, (w', a.apply s.2), hstep, ha, rfl⟩
  result hist s hrun hs := by
    -- the outcome of running the rest sequentially is the same in all states of a run
    have hinv : s.1.Separate ∧ s.1.eval s.2 = t.eval σ := by
      refine hrun.invariant (I := fun s => s.1.Separate ∧ s.1.eval s.2 = t.eval σ) ?_ ?_
      · rintro _ rfl
        exact ⟨Worker.separate_start h, Worker.eval_start t σ⟩
      · rintro ⟨w, ρ⟩ a ⟨w', ρ'⟩ ⟨hsep, heval⟩ ⟨hstep, ha, rfl⟩
        exact ⟨hstep.separate hsep, (hstep.eval_eq hsep ha).trans heval⟩
    obtain ⟨w, ρ⟩ := s
    obtain rfl : w = .run (.ret ()) := hs
    exact hinv.2

end ForkJoin
