import Mathlib.Data.Finset.Basic
import Mathlib.Data.Fintype.Defs
import Mathlib.Logic.Relation
import Mathlib.Tactic.Common

/-!
# Lock order and cyclic waiting

Processors that take spin locks, each executing a list of lock operations. A processor waits for
another when its next operation acquires a lock that the other holds; a deadlock is a cycle of
this relation.

The order in which locks may be nested is a relation `r` on locks: `r m l` allows `l` to be
acquired while `m` is held. Code is `Ordered` when it keeps to `r`, releases only what it holds,
and hands the processor over (`switch`, `leave`) holding exactly one fixed lock, the `gate`.
-/

namespace LockOrder

open Function

/-- An operation on locks, or on the processor itself. -/
inductive Op (L : Type*)
  /-- Spin until the lock is free, and take it. -/
  | acquire (l : L)
  | release (l : L)
  /-- Hand the processor over, and continue when it is handed back. -/
  | switch
  /-- Hand the processor over for good. -/
  | leave
  deriving DecidableEq, Repr

section Discipline

variable {L : Type*} [DecidableEq L] {r : L → L → Prop} {gate l : L} {held : Finset L}
  {body body' k : List (Op L)}

/-- Code that is entered with the locks `held` and ends with none: it acquires a lock only when
`r` allows that for every lock it holds, releases only locks it holds, and holds exactly `gate`
when it hands the processor over. -/
def Ordered (r : L → L → Prop) (gate : L) : Finset L → List (Op L) → Prop
  | held, [] => held = ∅
  | held, .acquire l :: k => (∀ m ∈ held, r m l) ∧ Ordered r gate (insert l held) k
  | held, .release l :: k => l ∈ held ∧ Ordered r gate (held.erase l) k
  | held, .switch :: k => held = {gate} ∧ Ordered r gate {gate} k
  | held, .leave :: k => held = {gate} ∧ k = []

/-- A piece of code that takes and gives back locks of its own: entered with the locks `held`, it
keeps to the discipline and ends with the same locks. -/
def Keeps (r : L → L → Prop) (gate : L) (held : Finset L) (body : List (Op L)) : Prop :=
  ∀ k, Ordered r gate held k → Ordered r gate held (body ++ k)

/-- A critical section. -/
def critical (l : L) (body : List (Op L)) : List (Op L) :=
  .acquire l :: (body ++ [.release l])

theorem Keeps.nil : Keeps r gate held [] :=
  fun _ hk => hk

theorem Keeps.append (h : Keeps r gate held body) (h' : Keeps r gate held body') :
    Keeps r gate held (body ++ body') := by
  intro k hk
  rw [List.append_assoc]
  exact h _ (h' _ hk)

/-- A loop keeps the locks when every iteration does. -/
theorem Keeps.flatMap {α : Type*} {as : List α} {f : α → List (Op L)}
    (h : ∀ a ∈ as, Keeps r gate held (f a)) : Keeps r gate held (as.flatMap f) := by
  induction as with
  | nil => exact Keeps.nil
  | cons a as ih =>
    rw [List.flatMap_cons]
    refine Keeps.append (h a List.mem_cons_self) ?_
    exact ih fun b hb => h b (List.mem_cons_of_mem a hb)

/-- The case of a loop whose iterations are all alike. -/
theorem Keeps.replicate (h : Keeps r gate held body) (times : ℕ) :
    Keeps r gate held (List.replicate times body).flatten := by
  rw [← List.flatMap_id]
  exact Keeps.flatMap fun b hb => List.eq_of_mem_replicate hb ▸ h

/-- A critical section keeps the locks when `r` allows its lock to be taken and its body keeps the
locks that are then held. -/
theorem Keeps.critical (hl : l ∉ held) (hr : ∀ m ∈ held, r m l)
    (h : Keeps r gate (insert l held) body) : Keeps r gate held (critical l body) := by
  intro k hk
  have hrelease : Ordered r gate (insert l held) (.release l :: k) := by
    refine ⟨Finset.mem_insert_self l held, ?_⟩
    rwa [Finset.erase_insert hl]
  rw [LockOrder.critical, List.cons_append, List.append_assoc]
  exact ⟨hr, h _ hrelease⟩

/-- A switch keeps the gate. -/
theorem Keeps.switch : Keeps r gate {gate} [.switch] :=
  fun _ hk => ⟨rfl, hk⟩

end Discipline

section Waiting

variable {C L : Type*} [DecidableEq C] [Fintype L] {holder : L → Option C}
  {code : C → List (Op L)} {r : L → L → Prop} {gate l : L} {c d : C}

/-- The locks that `c` holds. -/
def heldBy (holder : L → Option C) (c : C) : Finset L :=
  {l | holder l = some c}

@[simp]
theorem mem_heldBy : l ∈ heldBy holder c ↔ holder l = some c := by
  simp [heldBy]

variable [DecidableEq L]

/-- The processor that takes a free lock then also holds that lock. -/
theorem heldBy_acquire : heldBy (update holder l (some c)) c = insert l (heldBy holder c) := by
  ext m
  by_cases hm : m = l <;> simp [hm]

/-- Releasing a lock leaves the other locks of its holder. -/
theorem heldBy_release : heldBy (update holder l none) c = (heldBy holder c).erase l := by
  ext m
  by_cases hm : m = l <;> simp [hm]

/-- What becomes of a lock that `d` does not hold, and is not given, is nothing to `d`. -/
theorem heldBy_update_of_ne {o : Option C} (hl : holder l ≠ some d) (ho : o ≠ some d) :
    heldBy (update holder l o) d = heldBy holder d := by
  ext m
  by_cases hm : m = l
  · subst hm
    simp [hl, ho]
  · simp [hm]

/-- Code stays ordered when one processor goes on with other ordered code and the others keep
their locks. -/
theorem Ordered.update {holder' : L → Option C} {k : List (Op L)}
    (h : ∀ d, Ordered r gate (heldBy holder d) (code d)) (hc : Ordered r gate (heldBy holder' c) k)
    (hne : ∀ d, d ≠ c → heldBy holder' d = heldBy holder d) (d : C) :
    Ordered r gate (heldBy holder' d) (update code c k d) := by
  by_cases hd : d = c
  · subst hd
    rwa [update_self]
  · rw [update_of_ne hd, hne d hd]
    exact h d

/-- The next operation of `c` acquires `l`. -/
def Spins (code : C → List (Op L)) (c : C) (l : L) : Prop :=
  (code c).head? = some (.acquire l)

instance : Decidable (Spins code c l) :=
  inferInstanceAs (Decidable ((code c).head? = some (.acquire l)))

/-- `c` is about to acquire a lock that `d` holds. -/
def WaitsFor (holder : L → Option C) (code : C → List (Op L)) (c d : C) : Prop :=
  ∃ l, Spins code c l ∧ holder l = some d

/-- A processor that executes ordered code holds only locks under which it may acquire the next
one. -/
theorem Ordered.of_spins (h : Ordered r gate (heldBy holder c) (code c)) (hs : Spins code c l)
    {m : L} (hm : holder m = some c) : r m l := by
  obtain ⟨k, hk⟩ : ∃ k, code c = .acquire l :: k := List.head?_eq_some_iff.mp hs
  rw [hk] at h
  exact h.1 m (mem_heldBy.mpr hm)

variable (h : ∀ c, Ordered r gate (heldBy holder c) (code c))
include h

/-- Along a chain of waiting processors the awaited locks ascend: if the last one of the chain
spins for `l`, then `r` leads from the lock that the first one spins for to `l`. -/
theorem transGen_of_transGen_waitsFor {first : L}
    (hc : Spins code c first) (hchain : Relation.TransGen (WaitsFor holder code) c d)
    (hd : Spins code d l) : Relation.TransGen r first l := by
  induction hchain generalizing l with
  | single hwait =>
    obtain ⟨m, hm, hheld⟩ := hwait
    -- a processor spins for one lock only, so `m` is the one that `c` spins for
    obtain rfl : m = first := Op.acquire.inj (Option.mem_unique hm hc)
    exact .single ((h _).of_spins hd hheld)
  | tail _ hwait ih =>
    obtain ⟨m, hm, hheld⟩ := hwait
    exact (ih hm).tail ((h _).of_spins hd hheld)

/-- When all code is ordered by a relation without cycles, no processor waits, directly or through
others, for itself. -/
theorem not_transGen_waitsFor (hr : ∀ l, ¬ Relation.TransGen r l l) (c : C) :
    ¬ Relation.TransGen (WaitsFor holder code) c c := by
  intro hcycle
  -- the first step of the cycle names the lock that `c` spins for
  obtain ⟨d, ⟨l, hl, -⟩, -⟩ := Relation.TransGen.head'_iff.mp hcycle
  exact hr l (transGen_of_transGen_waitsFor h hl hcycle hl)

end Waiting

end LockOrder
