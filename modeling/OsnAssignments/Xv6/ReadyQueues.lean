import OsnAssignments.Xv6.Dispatch
import OsnAssignments.Xv6.QueueSpec

/-!
# What the ready queues hold

The invariant of the MLFQ build (`Kernel.Queues`): the rings hold distinct `RUNNABLE` processes,
each in the ring of its `qn`, and none that a CPU still has. If no `push` returns without inserting,
every `RUNNABLE` process that no CPU has is in a ring.

Code that moves a process goes through states in which the process is in no ring. The invariant
therefore has a parameter `out`, the process that the code has in hand: `hold` takes a process in
hand, `modify` changes it, and `push` or `release` lets it go.
-/

namespace Xv6

open Loop Transition

variable {n : ℕ}

/-- What may happen to an entry of the process table without the ready queues noticing. -/
structure Proc.Still (q q' : Proc) : Prop where
  qn : q'.qn = q.qn ∨ q.state ≠ .runnable ∧ q'.qn = 0
  runnable : q'.state = .runnable ↔ q.state = .runnable
  embryo : q'.state = .embryo → q.state = .embryo ∨ q'.qn = 0

theorem Proc.Still.refl (q : Proc) : q.Still q :=
  ⟨.inl rfl, Iff.rfl, .inl⟩

theorem Proc.Still.of_state {q q' : Proc} (hqn : q'.qn = q.qn) (hstate : q'.state = q.state) :
    q.Still q' :=
  ⟨.inl hqn, by rw [hstate], fun h => .inl (hstate ▸ h)⟩

namespace Kernel

variable {σ σ' : Kernel n} {lossless : Prop} {out : Option Slot} {p : Slot}
variable {a i : Level} {c : CpuId n} {f : Proc → Proc} {cur : Slot} {j : ℤ}

/-- The rings hold distinct processes, each in the ring of its `qn`. -/
structure Filed (σ : Kernel n) : Prop where
  valid : σ.rings.Valid
  nodup : ∀ i, (σ.rings.live i).Nodup
  entry : ∀ i x, x ∈ σ.rings.live i → ∃ p, x = some p ∧ (σ.proc p).qn = i

theorem Filed.qn (h : σ.Filed) (hp : some p ∈ σ.rings.live i) : (σ.proc p).qn = i := by
  obtain ⟨q, hq, hqn⟩ := h.entry i _ hp
  rwa [Option.some.inj hq]

/-- A process is in one ring only. -/
theorem Filed.ring_unique {k : Level} (h : σ.Filed) (hp : some p ∈ σ.rings.live i)
    (hk : some p ∈ σ.rings.live k) : k = i := by
  have hi := h.qn hp
  have hk := h.qn hk
  exact Fin.ext (by omega)

/-- Rings of which only the one that held `p` has changed, and has lost only `p`. -/
theorem Filed.live_eq_erase (h : σ.Filed) (hp : some p ∈ σ.rings.live i) {r : Rings}
    (hlive : r.live i = (σ.rings.live i).erase (some p))
    (hother : ∀ k, k ≠ i → r.live k = σ.rings.live k) (k : Level) :
    r.live k = (σ.rings.live k).erase (some p) := by
  by_cases hk : k = i
  · rw [hk, hlive]
  · rw [hother k hk, List.erase_of_not_mem fun hpk => hk (h.ring_unique hp hpk)]

/-- The rings after `remove(i, p)`. -/
theorem Filed.live_remove (h : σ.Filed) (hp : some p ∈ σ.rings.live i) (k : Level) :
    (σ.rings.remove i p).live k = (σ.rings.live k).erase (some p) :=
  h.live_eq_erase hp (Rings.live_remove (h.valid i) (h.nodup i) hp)
    (fun _ => Rings.live_remove_of_ne h.valid hp) k

/-- The ready queues fit the process table. The process `out` is in the hands of the code that is
running. If `lossless`, no `RUNNABLE` process has been left out. -/
structure Queues (lossless : Prop) (out : Option Slot) (σ : Kernel n) : Prop where
  valid : σ.rings.Valid
  nodup : ∀ i, (σ.rings.live i).Nodup
  entry : ∀ i x, x ∈ σ.rings.live i → ∃ p, x = some p ∧ (σ.proc p).state = .runnable ∧
    (σ.proc p).qn = i ∧ (∀ c, (σ.cpus c).proc ≠ some p) ∧ out ≠ some p
  qn : ∀ p, 0 ≤ (σ.proc p).qn ∧ (σ.proc p).qn ≤ 4
  fresh : ∀ p, (σ.proc p).state = .embryo → out ≠ some p → (σ.proc p).qn = 0
  /-- The scheduler's variable `p` points to the process it has dispatched. -/
  cursor : ∀ c p, (σ.cpus c).proc = some p → (σ.cpus c).p = p
  complete : lossless → ∀ p, (σ.proc p).state = .runnable → out ≠ some p →
    (∃ i, some p ∈ σ.rings.live i) ∨ ∃ c, (σ.cpus c).proc = some p

/-- What may happen to the kernel without the ready queues noticing. -/
structure Still (σ σ' : Kernel n) : Prop where
  rings : σ'.rings = σ.rings
  proc : ∀ p, (σ.proc p).Still (σ'.proc p)
  cpu : ∀ c, (σ'.cpus c).proc = (σ.cpus c).proc
  cursor : ∀ c p, (σ.cpus c).proc = some p → (σ'.cpus c).p = (σ.cpus c).p

/-- Every process that a CPU has is `RUNNING`: no CPU is giving up its process. -/
def Settled (σ : Kernel n) : Prop :=
  ∀ c p, (σ.cpus c).proc = some p → (σ.proc p).state = .running

theorem level_eq {q : ℤ} (h : 0 ≤ q ∧ q ≤ 4) : ((level q : ℕ) : ℤ) = q := by
  rw [level, Fin.val_ofNat]
  omega

namespace Queues

theorem initial (below : Option Slot) : Queues lossless none (Kernel.initial below : Kernel n) := by
  have hproc (p : Slot) : (Kernel.initial below : Kernel n).proc p = .zero := by
    simp [Kernel.initial, proc]
  refine ⟨Rings.valid_empty below, fun i => ?_, fun i x hx => ?_, fun p => ?_, fun p hp _ => ?_,
    fun c p hp => ?_, fun _ p hp => ?_⟩
  · rw [Kernel.initial, Rings.live_empty]
    exact List.nodup_nil
  · rw [Kernel.initial, Rings.live_empty] at hx
    cases hx
  · rw [hproc]
    decide
  · rw [hproc] at hp
    cases hp
  · cases hp
  · rw [hproc] at hp
    cases hp

theorem of_still (h : Queues lossless out σ) (hstill : σ.Still σ') : Queues lossless out σ' := by
  refine ⟨?_, fun i => ?_, fun i x hx => ?_, fun p => ?_, fun p hp hout => ?_, fun c p hp => ?_,
    fun hl p hp hout => ?_⟩
  · rw [hstill.rings]
    exact h.valid
  · rw [hstill.rings]
    exact h.nodup i
  · rw [hstill.rings] at hx
    obtain ⟨p, rfl, hrun, hqn, hcpu, hout⟩ := h.entry i x hx
    obtain ⟨hqn', hrun', -⟩ := hstill.proc p
    refine ⟨p, rfl, hrun'.mpr hrun, ?_, fun c => ?_, hout⟩
    · exact (hqn'.resolve_right fun hfree => hfree.1 hrun).trans hqn
    · rw [hstill.cpu c]
      exact hcpu c
  · rcases (hstill.proc p).qn with hqn | ⟨-, hqn⟩
    · rw [hqn]
      exact h.qn p
    · omega
  · rcases (hstill.proc p).embryo hp with hembryo | hqn
    · have hold := h.fresh p hembryo hout
      rcases (hstill.proc p).qn with hqn | ⟨-, hqn⟩ <;> omega
    · exact hqn
  · rw [hstill.cpu c] at hp
    rw [hstill.cursor c p hp]
    exact h.cursor c p hp
  · rw [hstill.rings]
    simp only [hstill.cpu]
    exact h.complete hl p ((hstill.proc p).runnable.mp hp) hout

/-- A change of one entry that the ready queues do not notice. -/
theorem modifyStill (h : Queues lossless none σ)
    (hp : (σ.proc p).Still (f (σ.proc p))) : Queues lossless none (σ.modify p f) := by
  refine h.of_still ⟨rfl, fun q => ?_, fun _ => rfl, fun _ _ _ => rfl⟩
  by_cases hq : q = p
  · subst hq
    rw [proc_modify_self]
    exact hp
  · rw [proc_modify_of_ne _ _ hq]
    exact .refl _

/-- A process in a ring is `RUNNABLE`. -/
theorem not_mem_of_state (h : Queues lossless out σ) (hp : (σ.proc p).state ≠ .runnable)
    (i : Level) : some p ∉ σ.rings.live i := by
  intro hmem
  obtain ⟨q, hq, hrun, -⟩ := h.entry i _ hmem
  rw [← Option.some.inj hq] at hrun
  exact hp hrun

/-- A process in a ring is on no CPU. -/
theorem not_mem_of_cpu (h : Queues lossless out σ)
    (hp : (σ.cpus c).proc = some p) (i : Level) : some p ∉ σ.rings.live i := by
  intro hmem
  obtain ⟨q, hq, -, -, hcpu, -⟩ := h.entry i _ hmem
  rw [← Option.some.inj hq] at hcpu
  exact hcpu c hp

/-- The process in hand is in no ring. -/
theorem not_mem_out (h : Queues lossless (some p) σ) (i : Level) : some p ∉ σ.rings.live i := by
  intro hmem
  obtain ⟨q, hq, -, -, -, hout⟩ := h.entry i _ hmem
  exact hout hq

theorem none_not_mem (h : Queues lossless out σ) (i : Level) : none ∉ σ.rings.live i := by
  intro hmem
  obtain ⟨q, hq, -⟩ := h.entry i _ hmem
  cases hq

/-! ## The process in hand -/

/-- Take a process in hand that is in no ring. -/
theorem hold (h : Queues lossless none σ) (hp : ∀ i, some p ∉ σ.rings.live i) :
    Queues lossless (some p) σ := by
  refine ⟨h.valid, h.nodup, fun i x hx => ?_, h.qn, fun q hq _ => h.fresh q hq nofun, h.cursor,
    fun hl q hq _ => h.complete hl q hq nofun⟩
  obtain ⟨q, rfl, hrun, hqn, hcpu, -⟩ := h.entry i x hx
  refine ⟨q, rfl, hrun, hqn, hcpu, fun hpq => hp i ?_⟩
  rwa [hpq]

section

variable (h : Queues lossless (some p) σ)
include h

/-- Let go of a process that need not be in a ring. -/
theorem release (hembryo : (σ.proc p).state ≠ .embryo)
    (hp : lossless → (σ.proc p).state ≠ .runnable ∨ ∃ c, (σ.cpus c).proc = some p) :
    Queues lossless none σ := by
  refine ⟨h.valid, h.nodup, fun i x hx => ?_, h.qn, fun q hq _ => ?_, h.cursor,
    fun hl q hq _ => ?_⟩
  · obtain ⟨q, rfl, hrun, hqn, hcpu, -⟩ := h.entry i x hx
    exact ⟨q, rfl, hrun, hqn, hcpu, nofun⟩
  · refine h.fresh q hq fun hout => hembryo ?_
    rwa [Option.some.inj hout]
  · by_cases hpq : p = q
    · subst hpq
      exact .inr ((hp hl).resolve_left fun hstate => hstate hq)
    · exact h.complete hl q hq fun hout => hpq (Option.some.inj hout)

/-- Change the process in hand. -/
theorem modify (hqn : 0 ≤ (f (σ.proc p)).qn ∧ (f (σ.proc p)).qn ≤ 4) :
    Queues lossless (some p) (σ.modify p f) := by
  have hne {q : Slot} (hout : some p ≠ some q) : q ≠ p := by
    rintro rfl
    exact hout rfl
  refine ⟨h.valid, h.nodup, fun i x hx => ?_, fun q => ?_, fun q hq hout => ?_, h.cursor,
    fun hl q hq hout => ?_⟩
  · obtain ⟨q, rfl, hrun, hq, hcpu, hout⟩ := h.entry i x hx
    rw [← proc_modify_of_ne σ f (hne hout)] at hrun hq
    exact ⟨q, rfl, hrun, hq, hcpu, hout⟩
  · by_cases hq : q = p
    · subst hq
      rwa [proc_modify_self]
    · rw [proc_modify_of_ne σ f hq]
      exact h.qn q
  · rw [proc_modify_of_ne σ f (hne hout)] at hq ⊢
    exact h.fresh q hq hout
  · rw [proc_modify_of_ne σ f (hne hout)] at hq
    exact h.complete hl q hq hout

/-- The process in hand goes to the end of a ring that has room for it. -/
theorem enqueue (hroom : σ.rings.face[a] = -1 ∨ σ.rings.full a = false)
    (hstate : (σ.proc p).state = .runnable) (hqn : (σ.proc p).qn = a)
    (hcpu : ∀ c, (σ.cpus c).proc ≠ some p) :
    Queues lossless none { σ with rings := σ.rings.enqueue a p } := by
  have hlive := Rings.live_enqueue (b := p) h.valid hroom
  have hother {i : Level} (hi : i ≠ a) : (σ.rings.enqueue a p).live i = σ.rings.live i :=
    Rings.live_enqueue_of_ne h.valid hi
  have hmem (i : Level) (x : Option Slot) : x ∈ (σ.rings.enqueue a p).live i ↔
      x ∈ σ.rings.live i ∨ i = a ∧ x = some p := by
    by_cases hi : i = a
    · subst hi
      rw [hlive, List.mem_append, List.mem_singleton]
      simp
    · rw [hother hi]
      simp [hi]
  refine ⟨Rings.valid_enqueue h.valid a p, fun i => ?_, fun i x hx => ?_, h.qn, fun q hq _ => ?_,
    h.cursor, fun hl q hq _ => ?_⟩
  · by_cases hi : i = a
    · subst hi
      rw [hlive, List.nodup_append]
      refine ⟨h.nodup i, List.nodup_singleton _, fun x hx y hy hxy => ?_⟩
      rw [List.mem_singleton] at hy
      rw [hxy, hy] at hx
      exact h.not_mem_out i hx
    · rw [hother hi]
      exact h.nodup i
  · rcases (hmem i x).mp hx with hx | ⟨rfl, rfl⟩
    · obtain ⟨q, rfl, hrun, hq, hcpu, -⟩ := h.entry i x hx
      exact ⟨q, rfl, hrun, hq, hcpu, nofun⟩
    · exact ⟨p, rfl, hstate, hqn, hcpu, nofun⟩
  · refine h.fresh q hq fun hout => ?_
    rw [← Option.some.inj hout] at hq
    cases hstate.symm.trans hq
  · by_cases hqp : q = p
    · exact .inl ⟨a, (hmem a _).mpr (.inr ⟨rfl, congrArg some hqp⟩)⟩
    · refine (h.complete hl q hq fun hout => hqp (Option.some.inj hout).symm).imp_left ?_
      rintro ⟨i, hi⟩
      exact ⟨i, (hmem i _).mpr (.inl hi)⟩

/-- `push` puts the process in hand into its ring, or drops it. -/
theorem push (hstate : (σ.proc p).state = .runnable) (hqn : (σ.proc p).qn = a)
    (hcpu : ∀ c, (σ.cpus c).proc ≠ some p) (hclear : lossless → σ.rings.PushClear a p) :
    Queues lossless none (σ.push a p) := by
  unfold Kernel.push
  split
  next hnone =>
    -- only a stale pointer makes `push` return without inserting
    refine h.release (by simp [hstate]) fun hl => ?_
    have hsome := Rings.push_eq_some h.valid (h.nodup a) (h.none_not_mem a) h.not_mem_out
      (hclear hl)
    rw [hnone] at hsome
    cases hsome
  next r hsome =>
    obtain ⟨rfl, hroom⟩ := Rings.of_push_eq_some hsome
    -- `push` also resets two counters of the process, which nothing here depends on
    exact (h.enqueue hroom hstate hqn hcpu).modifyStill (.of_state rfl rfl)

end

/-- Rings that have lost only `p`. -/
theorem of_erased (h : Queues lossless none σ) {r : Rings} (hvalid : r.Valid)
    (hlive : ∀ i, r.live i = (σ.rings.live i).erase (some p)) :
    Queues lossless (some p) { σ with rings := r } := by
  have hmem (i : Level) (x : Option Slot) : x ∈ r.live i ↔ x ≠ some p ∧ x ∈ σ.rings.live i := by
    rw [hlive]
    exact (h.nodup i).mem_erase_iff
  refine ⟨hvalid, fun i => hlive i ▸ (h.nodup i).erase _, fun i x hx => ?_, h.qn,
    fun q hq _ => h.fresh q hq nofun, h.cursor, fun hl q hq hout => ?_⟩
  · obtain ⟨hne, hx⟩ := (hmem i x).mp hx
    obtain ⟨q, rfl, hrun, hqn, hcpu, -⟩ := h.entry i x hx
    exact ⟨q, rfl, hrun, hqn, hcpu, hne.symm⟩
  · refine (h.complete hl q hq nofun).imp_left ?_
    rintro ⟨i, hi⟩
    exact ⟨i, (hmem i _).mpr ⟨hout.symm, hi⟩⟩

theorem filed (h : Queues lossless out σ) : σ.Filed := by
  refine ⟨h.valid, h.nodup, fun i x hx => ?_⟩
  obtain ⟨p, rfl, -, hqn, -⟩ := h.entry i x hx
  exact ⟨p, rfl, hqn⟩

theorem ring_unique (h : Queues lossless out σ) {k : Level} (hp : some p ∈ σ.rings.live i)
    (hk : some p ∈ σ.rings.live k) : i = k :=
  h.filed.ring_unique hk hp

/-- `remove` takes a process in hand. -/
theorem remove (h : Queues lossless none σ) (hp : some p ∈ σ.rings.live i) :
    Queues lossless (some p) { σ with rings := σ.rings.remove i p } :=
  h.of_erased (Rings.valid_remove h.valid hp) (h.filed.live_remove hp)

/-- `pop` on a ring that is not empty takes a `RUNNABLE` process in hand. -/
theorem pop (h : Queues lossless none σ) (ha : σ.rings.face[a] ≠ -1) :
    ∃ p, (σ.rings.pop a).1 = some p ∧ (σ.proc p).state = .runnable ∧
      (∀ c, (σ.cpus c).proc ≠ some p) ∧
      Queues lossless (some p) { σ with rings := (σ.rings.pop a).2 } := by
  have hlive := Rings.live_pop (h.valid a) ha
  have hfirst : (σ.rings.pop a).1 ∈ σ.rings.live a := by
    rw [hlive]
    exact List.mem_cons_self
  obtain ⟨p, hp, hrun, -, hcpu, -⟩ := h.entry a _ hfirst
  rw [hp] at hfirst hlive
  refine ⟨p, hp, hrun, hcpu, h.of_erased (Rings.valid_pop h.valid a)
    (h.filed.live_eq_erase hfirst ?_ fun _ => Rings.live_pop_of_ne)⟩
  rw [hlive, List.erase_cons_head]

/-! ## Making processes ready -/

/-- The process in hand becomes `RUNNABLE`. -/
theorem ready (h : Queues lossless (some p) σ) (hqn : (σ.proc p).qn = a)
    (hcpu : ∀ c, (σ.cpus c).proc ≠ some p) (hclear : lossless → σ.rings.PushClear a p) :
    Queues lossless none (σ.ready .mlfq a p) := by
  rw [Kernel.ready, if_pos rfl]
  refine (h.modify (h.qn p)).push ?_ ?_ hcpu hclear
  · rw [proc_modify_self]
  · rw [proc_modify_self]
    exact hqn

end Queues

theorem Settled.of_core (h : σ.Settled) {s : Core n} (hcore : σ'.core = s)
    (hcpus : ∀ c, (s.cpus c).proc = (σ.cpus c).proc)
    (hprocs : ∀ p, (σ.proc p).state = .running → (s.procs p).state = .running) : σ'.Settled := by
  subst hcore
  intro c p hp
  exact hprocs p (h c p ((hcpus c).symm.trans hp))

/-- `push` finds no stale pointer when the loop of `wakeup1(chan)` reaches the entry `p`. -/
def wakeup1BodyClear (chan : Chan) (σ : Kernel n) (p : Slot) : Prop :=
  (σ.proc p).state = .sleeping ∧ (σ.proc p).chan = chan →
    σ.rings.PushClear (level (σ.proc p).qn) p

instance (chan : Chan) (σ : Kernel n) (p : Slot) : Decidable (σ.wakeup1BodyClear chan p) :=
  inferInstanceAs (Decidable (_ → _))

/-- No `push` in `wakeup1(chan)` finds a stale pointer. -/
def wakeup1Clear (chan : Chan) (σ : Kernel n) : Prop :=
  foldlAll (wakeup1Body .mlfq chan) (wakeup1BodyClear chan) (List.finRange NPROC) σ

instance (chan : Chan) (σ : Kernel n) : Decidable (σ.wakeup1Clear chan) :=
  inferInstanceAs (Decidable (foldlAll _ _ _ _))

/-- The ready queues and the CPUs at a moment at which no CPU is giving up its process. -/
def Rest (lossless : Prop) (σ : Kernel n) : Prop :=
  Queues lossless none σ ∧ σ.Settled

namespace Rest

variable (h : Rest lossless σ)
include h

theorem wakeup1Body {chan : Chan} (hclear : lossless → σ.wakeup1BodyClear chan p) :
    Rest lossless (σ.wakeup1Body .mlfq chan p) := by
  obtain ⟨hqueues, hsettled⟩ := h
  refine ⟨?_, ?_⟩
  · rw [Kernel.wakeup1Body]
    split
    next hsleep =>
      -- a process that sleeps is on no CPU, since no CPU is giving up its process
      have hcpu (c : CpuId n) : (σ.cpus c).proc ≠ some p := by
        intro hp
        cases (hsettled c p hp).symm.trans hsleep.1
      have hhold := hqueues.hold (hqueues.not_mem_of_state (p := p) (by simp [hsleep.1]))
      dsimp only
      rw [if_pos rfl]
      refine (hhold.modify (hqueues.qn p)).ready ?_ hcpu fun hl => ?_
      · rw [level_eq ((hhold.modify (hqueues.qn p)).qn p)]
      · rw [proc_modify_self]
        exact hclear hl hsleep
    · exact hqueues
  · refine hsettled.of_core (core_wakeup1Body .mlfq chan σ p) (fun _ => rfl) ?_
    exact Core.forall_modify (s := σ.core)
      (R := fun t t' => t.state = .running → t'.state = .running) (fun _ => id)
      (Task.wake_state_iff (by decide) (by decide)).mpr

theorem wakeup1 {chan : Chan} (hclear : lossless → σ.wakeup1Clear chan) :
    Rest lossless (σ.wakeup1 .mlfq chan) :=
  foldl_induct (I := Rest lossless) (P := wakeup1BodyClear chan)
    (fun _ _ _ h hclear => h.wakeup1Body hclear) hclear h

/-- A change of one entry that neither the ready queues nor the CPUs notice. -/
theorem modify (hqn : (f (σ.proc p)).qn = (σ.proc p).qn)
    (hstate : (f (σ.proc p)).state = (σ.proc p).state) : Rest lossless (σ.modify p f) := by
  refine ⟨h.1.modifyStill (.of_state hqn hstate), fun c q hq => ?_⟩
  have hold := h.2 c q hq
  by_cases hqp : q = p
  · subst hqp
    rwa [proc_modify_self, hstate]
  · rwa [proc_modify_of_ne _ _ hqp]

end Rest

/-! ## Exit -/

/-- No `push` finds a stale pointer when the loop of `exit` by `cur` reaches the entry `p`. -/
def exitBodyClear (cur : Slot) (σ : Kernel n) (p : Slot) : Prop :=
  (σ.proc p).parent = some cur ∧ (σ.proc p).state = .zombie →
    (σ.modify p fun q => { q with parent := σ.initproc }).wakeup1Clear (.ofProc σ.initproc)

instance (cur : Slot) (σ : Kernel n) (p : Slot) : Decidable (σ.exitBodyClear cur p) :=
  inferInstanceAs (Decidable (_ → _))

/-- No `push` in the critical section of `exit` by `cur` finds a stale pointer. -/
def exitClear (cur : Slot) (σ : Kernel n) : Prop :=
  σ.wakeup1Clear (.ofProc (σ.proc cur).parent) ∧
    foldlAll (exitBody .mlfq cur) (exitBodyClear cur) (List.finRange NPROC)
      (σ.wakeup1 .mlfq (.ofProc (σ.proc cur).parent))

instance (cur : Slot) (σ : Kernel n) : Decidable (σ.exitClear cur) :=
  inferInstanceAs (Decidable (_ ∧ _))

theorem Rest.exitBody (h : Rest lossless σ)
    (hclear : lossless → σ.exitBodyClear cur p) : Rest lossless (σ.exitBody .mlfq cur p) := by
  rw [Kernel.exitBody]
  split
  next hparent =>
    have hmoved : Rest lossless (σ.modify p fun q => { q with parent := σ.initproc }) :=
      h.modify rfl rfl
    dsimp only
    split
    next hzombie =>
      rw [proc_modify_self] at hzombie
      exact hmoved.wakeup1 fun hl => hclear hl ⟨hparent, hzombie⟩
    · exact hmoved
  · exact h

theorem cpus_wakeup1 (chan : Chan) (σ : Kernel n) : (σ.wakeup1 .mlfq chan).cpus = σ.cpus := by
  rw [← core_cpus, core_wakeup1]
  rfl

theorem cpus_exitBody (cur : Slot) (σ : Kernel n) (p : Slot) :
    (σ.exitBody .mlfq cur p).cpus = σ.cpus := by
  unfold Kernel.exitBody
  dsimp only
  split_ifs
  · exact cpus_wakeup1 _ _
  · rfl
  · rfl

/-- `exit`: the process that a CPU has becomes a zombie. -/
theorem Queues.exited (h : Queues lossless none σ) (hcur : (σ.cpus c).proc = some cur) :
    Queues lossless none
      (σ.modify cur fun p => { p with etime := σ.ticks, state := .zombie }) := by
  refine ((h.hold (h.not_mem_of_cpu hcur)).modify (h.qn cur)).release ?_ (fun _ => .inl ?_) <;>
  · rw [proc_modify_self]
    nofun

/-- The critical section of `exit` by a process that a CPU has. -/
theorem Rest.exitTable (h : Rest lossless σ)
    (hcur : (σ.cpus c).proc = some cur) (hclear : lossless → σ.exitClear cur) :
    Queues lossless none (σ.exitTable .mlfq cur) := by
  have hwoken : Rest lossless (σ.wakeup1 .mlfq (.ofProc (σ.proc cur).parent)) :=
    h.wakeup1 fun hl => (hclear hl).1
  obtain ⟨hpassed, hcpus⟩ := foldl_induct
    (I := fun σ' => Rest lossless σ' ∧ σ'.cpus = σ.cpus) (P := exitBodyClear cur)
    (fun σ' p _ h hclear => ⟨h.1.exitBody hclear, (cpus_exitBody cur σ' p).trans h.2⟩)
    (fun hl => (hclear hl).2) ⟨hwoken, cpus_wakeup1 _ _⟩
  rw [Kernel.exitTable]
  refine hpassed.1.exited (c := c) ?_
  rw [hcpus]
  exact hcur

/-! ## Aging -/

/-- `push` finds no stale pointer when the aging loop over ring `i` reaches the index `j`. -/
def ageBodyClear (i : Level) (σ : Kernel n) (j : ℤ) : Prop :=
  ∀ p, σ.rings.get i j = some p → (σ.proc p).waittime > age →
    (σ.rings.remove i p).PushClear (i - 1) p

instance (i : Level) (σ : Kernel n) (j : ℤ) : Decidable (σ.ageBodyClear i j) :=
  inferInstanceAs (Decidable (∀ _, _ → _ → _))

/-- No `push` finds a stale pointer in the aging loop over ring `i`. -/
def ageRingClear (σ : Kernel n) (i : Level) : Prop :=
  if σ.rings.face[i] = -1 then True
  else if σ.rings.face[i] ≤ σ.rings.back[i] then
    forLoopAll (ageGuard i) (ageBody i) (ageBodyClear i) NPROC σ.rings.face[i] σ
  else
    forLoopAll (fun _ j => j < NPROC) (ageBody i) (ageBodyClear i) NPROC σ.rings.face[i] σ ∧
      forLoopAll (ageGuard i) (ageBody i) (ageBodyClear i) NPROC 0
        (forLoop (fun _ j => j < NPROC) (ageBody i) NPROC σ.rings.face[i] σ)

instance (σ : Kernel n) (i : Level) : Decidable (σ.ageRingClear i) := by
  unfold ageRingClear
  infer_instance

/-- No `push` finds a stale pointer while processes age. -/
def agePassClear (σ : Kernel n) : Prop :=
  foldlAll ageRing ageRingClear [(1 : Level), 2, 3, 4] σ

instance (σ : Kernel n) : Decidable σ.agePassClear :=
  inferInstanceAs (Decidable (foldlAll _ _ _ _))

theorem val_sub_one (hi : i ≠ 0) : ((i - 1 : Level) : ℕ) + 1 = i := by
  revert i
  decide

/-- `push` into another ring leaves the indices of a ring alone. -/
theorem face_back_push (hi : i ≠ a) : (σ.push a p).rings.face[i] = σ.rings.face[i] ∧
      (σ.push a p).rings.back[i] = σ.rings.back[i] := by
  unfold Kernel.push
  split
  · exact ⟨rfl, rfl⟩
  next r hr =>
    obtain ⟨rfl, -⟩ := Rings.of_push_eq_some hr
    change (σ.rings.enqueue a p).face[i] = _ ∧ (σ.rings.enqueue a p).back[i] = _
    rw [Rings.face_enqueue, Rings.back_enqueue, if_neg fun h => hi h.1, if_neg hi]
    exact ⟨rfl, rfl⟩

/-- How an iteration moves the ends of ring `i`: nothing is removed, or the only entry, or one of
several. -/
def Ends (i : Level) (τ τ' : Kernel n) : Prop :=
  τ'.rings.face[i] = τ.rings.face[i] ∧ τ'.rings.back[i] = τ.rings.back[i] ∨
  τ.rings.face[i] = τ.rings.back[i] ∧ τ'.rings.face[i] = -1 ∧ τ'.rings.back[i] = -1 ∨
  τ.rings.face[i] ≠ τ.rings.back[i] ∧
    τ'.rings.face[i] = CircularBuffer.place NPROC τ.rings.face[i] 1 ∧
    τ'.rings.back[i] = τ.rings.back[i]

theorem ne_sub_one (hi : i ≠ 0) : i - 1 ≠ i := by
  intro heq
  have hval := val_sub_one hi
  have := congrArg Fin.val heq
  omega

section

variable (hi : i ≠ 0)
include hi

/-- One iteration of the aging loops, at an index that holds an entry. -/
theorem Queues.ageBody (h : Queues lossless none σ)
    (hj : CircularBuffer.Occupied NPROC σ.rings.face[i] σ.rings.back[i] j)
    (hclear : lossless → σ.ageBodyClear i j) :
    Queues lossless none (σ.ageBody i j) ∧ Ends i σ (σ.ageBody i j) := by
  obtain ⟨p, hp, hrun, hqn, hcpu, -⟩ := h.entry i _ ((Rings.mem_live (h.valid i)).mpr ⟨j, hj, rfl⟩)
  have hmem : some p ∈ σ.rings.live i := (Rings.mem_live (h.valid i)).mpr ⟨j, hj, hp⟩
  have hval := val_sub_one hi
  unfold Kernel.ageBody
  rw [hp]
  dsimp only
  split
  next hwait =>
    -- ring `i` holds processes of level `i`, so the level below it is the ring it moves to
    have hqn' : (σ.proc p).qn - 1 = ((i - 1 : Level) : ℕ) := by omega
    have hmoved : Queues lossless (some p)
        ({ σ with rings := σ.rings.remove i p }.modify p fun q => { q with qn := q.qn - 1 }) := by
      refine (h.remove hmem).modify ?_
      change 0 ≤ (σ.proc p).qn - 1 ∧ (σ.proc p).qn - 1 ≤ 4
      omega
    refine ⟨hmoved.push ?_ ?_ hcpu fun hl => hclear hl p hp hwait, ?_⟩
    · rw [proc_modify_self]
      exact hrun
    · rw [proc_modify_self]
      exact hqn'
    · unfold Ends
      obtain ⟨hface, hback⟩ := face_back_push
        (σ := { σ with rings := σ.rings.remove i p }.modify p fun q => { q with qn := q.qn - 1 })
        (p := p) (ne_sub_one hi).symm
      rw [hface, hback]
      exact .inr (Rings.face_back_remove (h.valid i) hmem)
  · exact ⟨h, .inl ⟨rfl, rfl⟩⟩

/-- An aging loop that meets only entries of ring `i`, because of what `I` says about the ends of
the ring. -/
theorem Queues.ageFor {g : Kernel n → ℤ → Bool} {I : ℤ → Kernel n → Prop}
    (hentry : ∀ j σ, σ.rings.ValidAt i → g σ j = true → I j σ →
      CircularBuffer.Occupied NPROC σ.rings.face[i] σ.rings.back[i] j)
    (hnext : ∀ j σ σ', σ.rings.ValidAt i → g σ j = true → I j σ → Ends i σ σ' → I (j + 1) σ')
    {fuel : ℕ} (h : Queues lossless none σ) (hj : I j σ)
    (hclear : lossless → forLoopAll g (Kernel.ageBody i) (ageBodyClear i) fuel j σ) :
    ∃ j', Queues lossless none (forLoop g (Kernel.ageBody i) fuel j σ) ∧
      I j' (forLoop g (Kernel.ageBody i) fuel j σ) := by
  refine forLoop_induct (I := fun j σ => Queues lossless none σ ∧ I j σ)
    (fun j σ ⟨h, hj⟩ hg hclear => ?_) hclear ⟨h, hj⟩
  have hv := h.valid i
  obtain ⟨h', hends⟩ := h.ageBody hi (hentry j σ hv hg hj) hclear
  exact ⟨h', hnext j σ _ hv hg hj hends⟩

/-- The aging loop `for (; j <= back[i]; j++)`. -/
theorem Queues.ageLoop (h : Queues lossless none σ) (h0 : 0 ≤ j)
    (hj : σ.rings.face[i] ≤ j ∨ σ.rings.back[i] < σ.rings.face[i])
    (hclear : lossless → forLoopAll (ageGuard i) (Kernel.ageBody i) (ageBodyClear i) NPROC j σ) :
    Queues lossless none (forLoop (ageGuard i) (Kernel.ageBody i) NPROC j σ) := by
  have hN := Rings.cast_NPROC
  -- `remove` moves the start of the ring, never its end, so that the start stays behind `j` unless
  -- the ring is empty
  refine (h.ageFor hi
    (I := fun j σ => 0 ≤ j ∧ (σ.rings.face[i] ≤ j ∨ σ.rings.back[i] < σ.rings.face[i]))
    (fun j σ hv hcond hj => ?_) (fun j σ σ' hv hcond hj hends => ?_) ⟨h0, hj⟩ hclear).elim
    fun _ hend => hend.1
  all_goals
    have hle : j ≤ σ.rings.back[i] := by simpa [ageGuard] using hcond
    unfold Rings.ValidAt CircularBuffer.Valid at hv
  · unfold CircularBuffer.Occupied
    omega
  · unfold Ends CircularBuffer.place at hends
    split_ifs at hends <;> omega

/-- The aging loop over the part of a wrapped ring up to the end of the array. -/
theorem Queues.ageHigh (h : Queues lossless none σ) (hwrap : σ.rings.back[i] < σ.rings.face[i])
    (hclear : lossless → forLoopAll (fun _ j => j < NPROC) (Kernel.ageBody i) (ageBodyClear i)
      NPROC σ.rings.face[i] σ) :
    let σ' := forLoop (fun _ j => j < NPROC) (Kernel.ageBody i) NPROC σ.rings.face[i] σ
    Queues lossless none σ' ∧
      (σ'.rings.face[i] ≤ 0 ∨ σ'.rings.back[i] < σ'.rings.face[i]) := by
  have hN := Rings.cast_NPROC
  -- the ring stays wrapped with its start behind `j`, until the last index is removed and the start
  -- wraps to zero
  refine (h.ageFor hi (j := σ.rings.face[i])
    (I := fun j σ => σ.rings.back[i] < σ.rings.face[i] ∧ σ.rings.face[i] ≤ j ∨
      j = NPROC ∧ σ.rings.face[i] = 0)
    (fun j σ hv hcond hj => ?_) (fun j σ σ' hv hcond hj hends => ?_) (.inl ⟨hwrap, le_rfl⟩)
    hclear).elim fun j' ⟨hend, hj'⟩ => ⟨hend, by omega⟩
  all_goals
    have hlt : j < NPROC := of_decide_eq_true hcond
    unfold Rings.ValidAt CircularBuffer.Valid at hv
  · unfold CircularBuffer.Occupied
    omega
  · unfold Ends CircularBuffer.place at hends
    split_ifs at hends <;> omega

theorem Queues.ageRing (h : Queues lossless none σ)
    (hclear : lossless → σ.ageRingClear i) : Queues lossless none (σ.ageRing i) := by
  have hv := h.valid i
  unfold CircularBuffer.Valid at hv
  unfold ageRingClear at hclear
  unfold Kernel.ageRing
  split_ifs at hclear ⊢ with hempty hle
  · exact h
  · exact h.ageLoop hi (by omega) (.inl le_rfl) hclear
  · obtain ⟨hhigh, hstart⟩ := h.ageHigh hi (by omega) fun hl => (hclear hl).1
    exact hhigh.ageLoop hi le_rfl hstart fun hl => (hclear hl).2

end

theorem Queues.agePass (h : Queues lossless none σ) (hclear : lossless → σ.agePassClear) :
    Queues lossless none σ.agePass := by
  refine foldl_induct (I := Queues lossless none) (P := ageRingClear)
    (fun σ i hi h hclear => h.ageRing ?_ hclear) hclear h
  rintro rfl
  revert hi
  decide

/-! ## Dispatching -/

/-- The loop that pops the first non-empty ring finds a `RUNNABLE` process that no CPU has, or
all rings are empty. -/
theorem Queues.popFirst (h : Queues lossless none σ) :
    σ.popFirst.1 = none ∧ Queues lossless none σ.popFirst.2 ∨
    ∃ p, σ.popFirst.1 = some p ∧ (σ.popFirst.2.proc p).state = .runnable ∧
      Queues lossless (some p) σ.popFirst.2 := by
  unfold Kernel.popFirst
  split
  · exact .inl ⟨rfl, h⟩
  next a ha =>
    have hface : σ.rings.face[a] ≠ -1 := of_find?_eq_some (P := fun i => σ.rings.face[i] ≠ -1) ha
    obtain ⟨p, hp, hrun, -, hpopped⟩ := h.pop hface
    exact .inr ⟨p, hp, hrun, hpopped⟩

theorem proc_modifyCpu (σ : Kernel n) (c : CpuId n) (f : Cpu → Cpu) (p : Slot) :
    (σ.modifyCpu c f).proc p = σ.proc p := rfl

theorem cpus_modifyCpu_self (σ : Kernel n) (c : CpuId n) (f : Cpu → Cpu) :
    (σ.modifyCpu c f).cpus c = f (σ.cpus c) :=
  Function.update_self ..

theorem cpus_modifyCpu_of_ne {d : CpuId n} (h : d ≠ c) (σ : Kernel n) (f : Cpu → Cpu) :
    (σ.modifyCpu c f).cpus d = σ.cpus d :=
  Function.update_of_ne h ..

/-- A CPU that has no process but the one in hand lets it go or takes it. -/
theorem Queues.modifyCpu (h : Queues lossless (some p) σ) {f : Cpu → Cpu}
    (hold : ∀ q, (σ.cpus c).proc = some q → q = p)
    (hnew : ∀ q, (f (σ.cpus c)).proc = some q → q = p ∧ (f (σ.cpus c)).p = p) :
    Queues lossless (some p) (σ.modifyCpu c f) := by
  refine ⟨h.valid, h.nodup, fun i x hx => ?_, h.qn, h.fresh, fun d q hq => ?_,
    fun hl q hq hout => ?_⟩
  · obtain ⟨q, rfl, hrun, hqn, hcpu, hout⟩ := h.entry i x hx
    refine ⟨q, rfl, hrun, hqn, fun d hd => ?_, hout⟩
    by_cases hdc : d = c
    · subst hdc
      rw [cpus_modifyCpu_self] at hd
      exact hout (congrArg some (hnew q hd).1.symm)
    · rw [cpus_modifyCpu_of_ne hdc] at hd
      exact hcpu d hd
  · by_cases hdc : d = c
    · subst hdc
      rw [cpus_modifyCpu_self] at hq ⊢
      obtain ⟨rfl, hcursor⟩ := hnew q hq
      exact hcursor
    · rw [cpus_modifyCpu_of_ne hdc] at hq ⊢
      exact h.cursor d q hq
  · refine (h.complete hl q hq hout).imp_right ?_
    rintro ⟨d, hd⟩
    have hdc : d ≠ c := by
      rintro rfl
      exact hout (congrArg some (hold q hd).symm)
    exact ⟨d, by rwa [cpus_modifyCpu_of_ne hdc]⟩

/-- A dispatch of the process in hand, on a CPU that has no process. -/
theorem Queues.dispatch (h : Queues lossless (some p) σ)
    (hc : (σ.cpus c).proc = none) : Queues lossless none (σ.dispatch .mlfq p c) := by
  -- the writes of the scheduler to the entry, in the order of the source
  have hreset := h.modify (f := fun q => { q with waittime := 0, curtime := 0 }) (h.qn p)
  have hcount := hreset.modify (f := fun q => { q with nrun := q.nrun + 1 }) (hreset.qn p)
  have hstate := hcount.modify (f := fun q => { q with state := .running }) (hcount.qn p)
  have htaken := hstate.modifyCpu (c := c)
    (f := fun k => { k with proc := some p, stack := some p, ctl := .resumed, p := p })
    (fun q hq => by cases hc.symm.trans hq) fun q hq => ⟨(Option.some.inj hq).symm, rfl⟩
  refine htaken.release ?_ fun _ => .inr ⟨c, ?_⟩
  · rw [proc_modifyCpu, proc_modify_self]
    nofun
  · rw [cpus_modifyCpu_self]

/-- `push` finds no stale pointer when the scheduler puts `p` back into a ring. -/
def requeueClear (p : Slot) (σ : Kernel n) : Prop :=
  (σ.proc p).state = .runnable →
    σ.rings.PushClear (level (if (σ.proc p).flagq = true ∧ (σ.proc p).qn ≠ 4
      then (σ.proc p).qn + 1 else (σ.proc p).qn)) p

instance (p : Slot) (σ : Kernel n) : Decidable (σ.requeueClear p) :=
  inferInstanceAs (Decidable (_ → _))

/-- The scheduler puts the process in hand back into a ring, if it is `RUNNABLE`. -/
theorem Queues.requeue (h : Queues lossless (some p) σ) (hembryo : (σ.proc p).state ≠ .embryo)
    (hcpu : ∀ c, (σ.cpus c).proc ≠ some p) (hclear : lossless → σ.requeueClear p) :
    Queues lossless none (σ.requeue p) := by
  have hqn := h.qn p
  unfold Kernel.requeue
  split
  next hrun =>
    -- the level to which the slice that has expired moves the process
    have hlevel (q : Proc) : (if q.flagq then
          { q with
            flagq := false, curtime := 0, waittime := 0
            qn := if q.qn ≠ 4 then q.qn + 1 else q.qn }
        else { q with curtime := 0 }).qn =
        if q.flagq = true ∧ q.qn ≠ 4 then q.qn + 1 else q.qn := by
      by_cases hflag : q.flagq = true <;> by_cases hfour : q.qn = 4 <;> simp [hflag, hfour]
    have hstate (q : Proc) : (if q.flagq then
          { q with
            flagq := false, curtime := 0, waittime := 0
            qn := if q.qn ≠ 4 then q.qn + 1 else q.qn }
        else { q with curtime := 0 }).state = q.state := by
      split <;> rfl
    have hrange : 0 ≤ (if (σ.proc p).flagq = true ∧ (σ.proc p).qn ≠ 4
        then (σ.proc p).qn + 1 else (σ.proc p).qn) ∧
        (if (σ.proc p).flagq = true ∧ (σ.proc p).qn ≠ 4
          then (σ.proc p).qn + 1 else (σ.proc p).qn) ≤ 4 := by
      split <;> omega
    dsimp only
    refine (h.modify ?_).push ?_ ?_ hcpu fun hl => ?_
    · rw [hlevel]
      exact hrange
    · rw [proc_modify_self, hstate]
      exact hrun
    · rw [proc_modify_self, hlevel, level_eq hrange]
    · rw [proc_modify_self, hlevel]
      exact hclear hl hrun
  next hrun => exact h.release hembryo fun _ => .inl hrun

end Kernel

end Xv6
