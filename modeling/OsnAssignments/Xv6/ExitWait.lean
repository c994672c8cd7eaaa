import OsnAssignments.Xv6.Dispatch

/-!
# The exit and wait protocol

Every process but init has a living parent that can reap it, no parent sleeps in `wait` or `waitx`
over a zombie child, and every pid that these calls return is that of a process that exited, is
returned once, and to its parent.

`Core.Family` is the invariant behind the first part: who the parent is, that init lives from the
end of `userinit` on, and that a `fork` about to publish its child is that child's parent.
`Kernel.Pids` follows the pids through a run; there `nextpid` must not have wrapped.
-/

namespace Xv6

open Transition

variable {i p q : Slot}

namespace ProcState

/-- Past `EMBRYO`. -/
def started : ProcState → Bool
  | .unused | .embryo => false
  | _ => true

/-- In use, created, and not a zombie. -/
def alive : ProcState → Bool
  | .sleeping | .runnable | .running => true
  | _ => false

theorem started_of_alive {x : ProcState} (h : x.alive = true) : x.started = true := by
  cases x <;> first | rfl | cases h

end ProcState

/-- Whether a CPU that is executing there has not finished `userinit`. -/
def Ctl.booting : Ctl → Bool
  | .boot | .bootKalloc _ | .bootPublish _ => true
  | _ => false

/-- A CPU that moves from `x` to `y` does not begin `userinit` or its critical section. -/
def Ctl.Boots (x y : Ctl) : Prop :=
  (y.booting = true → x.booting = true) ∧ ∀ p, y = .bootPublish p → x = .bootPublish p

theorem Ctl.Boots.refl (x : Ctl) : x.Boots x :=
  ⟨id, fun _ => id⟩

theorem Ctl.Boots.of_not_booting {x y : Ctl} (h : y.booting = false) : x.Boots y := by
  refine ⟨fun hy => ?_, ?_⟩
  · rw [h] at hy
    cases hy
  · rintro p rfl
    cases h

/-- What may happen to an entry without its children, or a parent that is awake, noticing. -/
structure Task.Kin (t t' : Task) : Prop where
  parent : t'.parent = t.parent
  alive : t.state.alive = true → t'.state.alive = true
  started : t'.state.started = true → t.state.started = true
  publish : ∀ np, t'.frame = .publish np → t.frame = .publish np

/-- An entry that becomes neither a zombie nor a process waiting for a child. -/
structure Task.Calm (t t' : Task) : Prop where
  zombie : t'.state = .zombie → t.state = .zombie
  waiting : ∀ q, t'.state = .sleeping → t'.chan = .proc q → t.state = .sleeping ∧ t.chan = .proc q

namespace Task

variable {t t' : Task}

theorem Kin.refl (t : Task) : t.Kin t :=
  ⟨rfl, id, id, fun _ => id⟩

theorem Calm.refl (t : Task) : t.Calm t :=
  ⟨id, fun _ h h' => ⟨h, h'⟩⟩

theorem Kin.of_alive (hparent : t'.parent = t.parent) (hframe : t'.frame = t.frame)
    (ht : t.state.alive = true) (ht' : t'.state.alive = true) : t.Kin t' :=
  ⟨hparent, fun _ => ht', fun _ => ProcState.started_of_alive ht, fun _ h => hframe ▸ h⟩

theorem Calm.of_awake (hzombie : t'.state ≠ .zombie) (hsleep : t'.state ≠ .sleeping) : t.Calm t' :=
  ⟨fun h => absurd h hzombie, fun _ h => absurd h hsleep⟩

/-- An entry that is not in use, before and after. -/
theorem Kin.of_not_started (hparent : t'.parent = t.parent)
    (hframe : ∀ np, t'.frame = .publish np → t.frame = .publish np)
    (ht : t.state.started = false) (ht' : t'.state.started = false) : t.Kin t' := by
  refine ⟨hparent, fun h => ?_, fun h => ?_, hframe⟩
  · rw [ProcState.started_of_alive h] at ht
    cases ht
  · rw [h] at ht'
    cases ht'

theorem Kin.wake (chan : Chan) (t : Task) : t.Kin (t.wake chan) := by
  by_cases h : t.state = .sleeping ∧ t.chan = chan
  · rw [wake_of_sleeping h]
    exact of_alive rfl rfl (by rw [h.1]; rfl) rfl
  · rw [wake_of_not h]
    exact refl t

theorem of_wake_sleeping {chan : Chan} (h : (t.wake chan).state = .sleeping) :
    t.state = .sleeping ∧ t.chan ≠ chan := by
  by_cases hwake : t.state = .sleeping ∧ t.chan = chan
  · rw [wake_of_sleeping hwake] at h
    cases h
  · rw [wake_of_not hwake] at h
    exact ⟨h, fun hchan => hwake ⟨h, hchan⟩⟩

theorem Calm.wake (chan : Chan) (t : Task) : t.Calm (t.wake chan) := by
  by_cases h : t.state = .sleeping ∧ t.chan = chan
  · rw [wake_of_sleeping h]
    exact of_awake (fun hz => by cases hz) (fun hs => by cases hs)
  · rw [wake_of_not h]
    exact refl t

end Task

namespace Core

variable {n : ℕ} {s s' : Core n} {b : Build} {l : Label n}
variable {c : CpuId n}

/-- The invariant of parents and children. -/
structure Family (s : Core n) : Prop where
  /-- A process that sleeps in `wait` or `waitx` has no zombie child. -/
  waiting : ∀ q p, (s.procs q).state = .sleeping → (s.procs q).chan = .proc q →
    (s.procs p).parent = some q → (s.procs p).state ≠ .zombie
  /-- A process other than init has a living parent. -/
  parent : ∀ p, (s.procs p).state.started = true → s.initproc ≠ some p →
    ∃ q, (s.procs p).parent = some q ∧ (s.procs q).state.alive = true
  parent_ne : ∀ p, (s.procs p).parent ≠ some p
  /-- A `fork` that is about to publish an entry is its parent. -/
  publish : ∀ q np, (s.procs q).frame = .publish np → (s.procs np).parent = some q
  /-- Once there is a process, init lives. -/
  init : ∀ p, (s.procs p).state.started = true →
    ∃ i, s.initproc = some i ∧ (s.procs i).state.alive = true
  init_parent : ∀ i, s.initproc = some i → (s.procs i).parent = none
  /-- During `userinit` there is no process yet. -/
  boot : ∀ c, (s.cpus c).ctl.booting = true →
    c = 0 ∧ ∀ p, (s.procs p).state.started = false ∧ (s.procs p).parent = none
  boot_init : ∀ c p, (s.cpus c).ctl = .bootPublish p → s.initproc = some p

namespace Family

variable {cur : Slot}

theorem initial : (Core.initial : Core n).Family where
  waiting q p h := by cases h
  parent p h := by cases h
  parent_ne p h := by cases h
  publish q np h := by cases h
  init p h := by cases h
  init_parent i h := by cases h
  boot c h := by
    refine ⟨?_, fun p => ⟨rfl, rfl⟩⟩
    by_contra hc
    simp [Core.initial, hc, Ctl.booting] at h
  boot_init c p h := by
    by_cases hc : c = 0 <;> simp [Core.initial, hc] at h

section

variable (h : s.Family)
include h

/-- A step of which only the sleeping parents could notice something, and do not. -/
theorem of_kin (hinit : s'.initproc = s.initproc)
    (hboot : ∀ c, (s.cpus c).ctl.Boots (s'.cpus c).ctl) (hkin : ∀ p, (s.procs p).Kin (s'.procs p))
    (hwaiting : ∀ q p, (s'.procs q).state = .sleeping → (s'.procs q).chan = .proc q →
      (s.procs p).parent = some q → (s'.procs p).state ≠ .zombie) : s'.Family where
  waiting q p hsleep hchan hparent := by
    rw [(hkin p).parent] at hparent
    exact hwaiting q p hsleep hchan hparent
  parent p hp hne := by
    rw [hinit] at hne
    obtain ⟨q, hq, halive⟩ := h.parent p ((hkin p).started hp) hne
    exact ⟨q, (hkin p).parent.trans hq, (hkin q).alive halive⟩
  parent_ne p := by
    rw [(hkin p).parent]
    exact h.parent_ne p
  publish q np hq := by
    rw [(hkin np).parent]
    exact h.publish q np ((hkin q).publish np hq)
  init p hp := by
    obtain ⟨i, hi, halive⟩ := h.init p ((hkin p).started hp)
    exact ⟨i, hinit.trans hi, (hkin i).alive halive⟩
  init_parent i hi := by
    rw [(hkin i).parent]
    exact h.init_parent i (hinit ▸ hi)
  boot c hc := by
    obtain ⟨rfl, hnone⟩ := h.boot c ((hboot c).1 hc)
    refine ⟨rfl, fun p => ⟨?_, (hkin p).parent.trans (hnone p).2⟩⟩
    rw [← Bool.not_eq_true]
    intro hp
    have hstarted := (hkin p).started hp
    rw [(hnone p).1] at hstarted
    cases hstarted
  boot_init c p hc := hinit.trans (h.boot_init c p ((hboot c).2 p hc))

/-- A step that none of the relatives notices. -/
theorem of_calm (hinit : s'.initproc = s.initproc)
    (hboot : ∀ c, (s.cpus c).ctl.Boots (s'.cpus c).ctl)
    (hkin : ∀ p, (s.procs p).Kin (s'.procs p)) (hcalm : ∀ p, (s.procs p).Calm (s'.procs p)) :
    s'.Family := by
  refine h.of_kin hinit hboot hkin fun q p hsleep hchan hparent hzombie => ?_
  obtain ⟨hsleep, hchan⟩ := (hcalm q).waiting q hsleep hchan
  exact h.waiting q p hsleep hchan hparent ((hcalm p).zombie hzombie)

theorem modify {f : Task → Task}
    (hkin : (s.procs i).Kin (f (s.procs i))) (hcalm : (s.procs i).Calm (f (s.procs i))) :
    (s.modify i f).Family :=
  h.of_calm rfl (fun _ => .refl _) (forall_modify Task.Kin.refl hkin)
    (forall_modify Task.Calm.refl hcalm)

theorem modifyCpu (f : Cpu → Cpu) (lock : Option (CpuId n))
    (hc : (s.cpus c).ctl.Boots (f (s.cpus c)).ctl) :
    ({ s with lock := lock }.modifyCpu c f).Family :=
  h.of_calm rfl
    (forall_modifyCpu (s := { s with lock := lock }) (R := fun k k' => k.ctl.Boots k'.ctl)
      (fun _ => .refl _) hc)
    (fun _ => .refl _) fun _ => .refl _

theorem sched (c : CpuId n) : (s.sched c).Family :=
  h.modifyCpu (fun k => { k with ctl := .leaving, trap := .none }) (some c) (.of_not_booting rfl)

theorem unlock (c : CpuId n) : (s.unlock c).Family :=
  h.modifyCpu (fun k => { k with ctl := .process }) none (.of_not_booting rfl)

theorem setTrap (c : CpuId n) (t : Trap) : (s.setTrap c t).Family :=
  h.modifyCpu (fun k => { k with trap := t }) s.lock (.refl _)

theorem setFrame (cur : Slot) {frame : Frame}
    (hframe : ∀ np, frame ≠ .publish np) : (s.setFrame cur frame).Family :=
  h.modify ⟨rfl, id, id, fun np hnp => absurd hnp (hframe np)⟩ ⟨id, fun _ hs hc => ⟨hs, hc⟩⟩

theorem mapWake (chan : Chan) : (s.mapProcs (Task.wake chan)).Family :=
  h.of_calm rfl (fun _ => .refl _) (fun p => .wake chan (s.procs p))
    fun p => .wake chan (s.procs p)

/-- `allocproc` takes a free entry. -/
theorem allocate (hp : (s.procs p).state = .unused) : (s.allocate p).Family := by
  have hkin : (s.procs p).Kin ((s.procs p).allocate (int32 s.nextpid) s.ticks) :=
    .of_not_started rfl (fun _ => id) (by rw [hp]; rfl) rfl
  exact h.of_calm rfl (fun _ => .refl _) (forall_modify Task.Kin.refl hkin)
    (forall_modify Task.Calm.refl (.of_awake (fun hz => by cases hz) (fun hs => by cases hs)))

/-- `fork` or `allocproc` gives up an entry. -/
theorem abandon (hp : (s.procs p).state = .embryo) : (s.abandon p).Family :=
  h.modify (.of_not_started rfl (fun _ => id) (by rw [hp]; rfl) rfl)
    (.of_awake (fun hz => by cases hz) (fun hs => by cases hs))

theorem setupStack (p : Slot) : (s.setupStack p).Family :=
  h.modify ⟨rfl, id, id, fun np hnp => by cases hnp⟩ ⟨id, fun _ hs hc => ⟨hs, hc⟩⟩

/-- A running process tells that `userinit` is over. -/
theorem not_booting (hp : (s.procs p).state.started = true)
    (c : CpuId n) : (s.cpus c).ctl.booting = false := by
  rw [← Bool.not_eq_true]
  intro hc
  have hnone := ((h.boot c hc).2 p).1
  rw [hp] at hnone
  cases hnone

/-- `userinit` makes an entry init. -/
theorem bootKalloc (hctl : (s.cpus c).ctl = .bootKalloc p) :
    ({ s.setupStack p with initproc := some p }.setCtl c (.bootPublish p)).Family := by
  have h₁ := h.setupStack p
  have hc : ((s.setupStack p).cpus c).ctl.booting = true := by
    change (s.cpus c).ctl.booting = true
    rw [hctl]
    rfl
  obtain ⟨rfl, hnone⟩ := h₁.boot c hc
  have hstarted (q : Slot) : ((s.setupStack p).procs q).state.started ≠ true := by
    rw [(hnone q).1]
    exact Bool.false_ne_true
  have hother (d : CpuId n) (hd : d ≠ 0) : ((s.setupStack p).cpus d).ctl.booting ≠ true :=
    fun hboot => hd (h₁.boot d hboot).1
  -- nothing has started yet, so that all clauses about processes are void
  refine ⟨h₁.waiting, fun q hq => absurd hq (hstarted q), h₁.parent_ne, h₁.publish,
    fun q hq => absurd hq (hstarted q), fun i _ => (hnone i).2, fun d hd => ⟨?_, hnone⟩,
    fun d q hd => ?_⟩
  · by_contra hne
    rw [setCtl, cpus_modifyCpu_of_ne hne] at hd
    exact hother d hne hd
  · by_cases hne : d = 0
    · subst hne
      rw [setCtl, cpus_modifyCpu_self] at hd
      cases hd
      rfl
    · rw [setCtl, cpus_modifyCpu_of_ne hne] at hd
      refine absurd ?_ (hother d hne)
      change (s.cpus d).ctl = .bootPublish q at hd
      change (s.cpus d).ctl.booting = true
      rw [hd]
      rfl

/-- An entry that has a living parent, or is init, becomes `RUNNABLE`. -/
theorem ready (hp : (s.procs p).state = .embryo)
    (hboot : ∀ c, (s.cpus c).ctl.booting = false) (hparent : s.initproc ≠ some p →
      ∃ q, (s.procs p).parent = some q ∧ (s.procs q).state.alive = true) : (s.ready p).Family := by
  have hself : ((s.ready p).procs p).state = .runnable := by simp [Core.ready]
  have hother (q : Slot) (hq : q ≠ p) : (s.ready p).procs q = s.procs q :=
    procs_modify_of_ne hq ..
  have hkeep (q : Slot) : ((s.ready p).procs q).parent = (s.procs q).parent ∧
      ((s.ready p).procs q).frame = (s.procs q).frame :=
    forall_modify (R := fun t t' => t'.parent = t.parent ∧ t'.frame = t.frame)
      (fun _ => ⟨rfl, rfl⟩) ⟨rfl, rfl⟩ q
  have halive (q : Slot) (hq : (s.procs q).state.alive = true) :
      ((s.ready p).procs q).state.alive = true := by
    by_cases hqp : q = p
    · rw [hqp, hself]
      rfl
    · rwa [hother q hqp]
  refine ⟨fun q p' hsleep hchan hp' hzombie => ?_, fun p' hp' hne => ?_, fun p' => ?_,
    fun q np hq => ?_, fun p' hp' => ?_, fun i hi => ?_, fun c hc => ?_, fun c p' hc => ?_⟩
  -- `p` itself is neither asleep nor a zombie
  · have hq : q ≠ p := by
      rintro rfl
      simp [hself] at hsleep
    have hp'p : p' ≠ p := by
      rintro rfl
      simp [hself] at hzombie
    rw [hother q hq] at hsleep hchan
    rw [hother p' hp'p] at hp' hzombie
    exact h.waiting q p' hsleep hchan hp' hzombie
  · rw [(hkeep p').1]
    have hex : ∃ q, (s.procs p').parent = some q ∧ (s.procs q).state.alive = true := by
      by_cases hp'p : p' = p
      · subst hp'p
        exact hparent hne
      · rw [hother p' hp'p] at hp'
        exact h.parent p' hp' hne
    obtain ⟨q, hq, hqalive⟩ := hex
    exact ⟨q, hq, halive q hqalive⟩
  · rw [(hkeep p').1]
    exact h.parent_ne p'
  · rw [(hkeep q).2] at hq
    rw [(hkeep np).1]
    exact h.publish q np hq
  · by_cases hinit : s.initproc = some p
    · exact ⟨p, hinit, by rw [hself]; rfl⟩
    · -- the parent has started, so init lives already
      obtain ⟨q, -, hq⟩ := hparent hinit
      obtain ⟨i, hi, hialive⟩ := h.init q (ProcState.started_of_alive hq)
      exact ⟨i, hi, halive i hialive⟩
  · rw [(hkeep i).1]
    exact h.init_parent i hi
  · exact absurd hc (Bool.eq_false_iff.mp (hboot c))
  · exact h.boot_init c p' hc

/-- `fork` makes the process `cur` the parent of the entry it is filling in. -/
theorem copyuvm (hforks : s.Forks) {np : Slot}
    (hcur : (s.procs cur).state.started = true) (hne : np ≠ cur)
    (hframe : (s.procs cur).frame = .copyuvm np) :
    ((s.modify np fun t => { t with parent := some cur }).setFrame cur (.publish np)).Family := by
  have hnp : (s.procs np).state = .embryo :=
    hforks.embryo (.inl cur) np (by rw [child, hframe, Frame.child])
  generalize hs' : (s.modify np fun t => { t with parent := some cur }).setFrame cur
    (.publish np) = s'
  have hsame (p : Slot) : (s'.procs p).state = (s.procs p).state ∧
      (s'.procs p).chan = (s.procs p).chan ∧
      (p ≠ np → (s'.procs p).parent = (s.procs p).parent) ∧
      (p ≠ cur → (s'.procs p).frame = (s.procs p).frame) := by
    subst hs'
    by_cases hpn : p = np <;> by_cases hpc : p = cur <;>
      simp [Core.setFrame, Core.modify, hpn, hpc, hne, hne.symm]
  have hparent : (s'.procs np).parent = some cur := by
    subst hs'
    simp [Core.setFrame, Core.modify, Function.update_apply, hne]
  have hcurFrame : (s'.procs cur).frame = .publish np := by
    subst hs'
    simp [Core.setFrame, Core.modify]
  have hinit : s'.initproc = s.initproc := by
    subst hs'
    rfl
  have hctl (c : CpuId n) : (s'.cpus c).ctl.booting = false := by
    subst hs'
    exact h.not_booting hcur c
  -- the entry that gets a new parent has not started
  have hnotnp {p : Slot} (hp : (s.procs p).state.started = true) : p ≠ np := by
    rintro rfl
    rw [hnp] at hp
    cases hp
  refine ⟨fun q p hsleep hchan hp hzombie => ?_, fun p hp hninit => ?_, fun p => ?_,
    fun q np' hq => ?_, fun p hp => ?_, fun i hi => ?_, fun c hc => ?_, fun c p hc => ?_⟩
  · rw [(hsame q).1] at hsleep
    rw [(hsame q).2.1] at hchan
    rw [(hsame p).1] at hzombie
    rw [(hsame p).2.2.1 (hnotnp (by rw [hzombie]; rfl))] at hp
    exact h.waiting q p hsleep hchan hp hzombie
  · rw [(hsame p).1] at hp
    rw [hinit] at hninit
    rw [(hsame p).2.2.1 (hnotnp hp)]
    obtain ⟨q, hq, halive⟩ := h.parent p hp hninit
    exact ⟨q, hq, by rwa [(hsame q).1]⟩
  · by_cases hpn : p = np
    · rw [hpn, hparent]
      exact fun heq => hne (Option.some.inj heq).symm
    · rw [(hsame p).2.2.1 hpn]
      exact h.parent_ne p
  · by_cases hqc : q = cur
    · subst hqc
      obtain rfl : np = np' := by simpa [hcurFrame] using hq
      exact hparent
    · rw [(hsame q).2.2.2 hqc] at hq
      -- another `fork` is filling in another entry
      have hnp' : np' ≠ np := by
        rintro rfl
        have := hforks.unique (.inl q) (.inl cur) np' (by rw [child, hq, Frame.child])
          (by rw [child, hframe, Frame.child])
        exact hqc (Sum.inl.inj this)
      rw [(hsame np').2.2.1 hnp']
      exact h.publish q np' hq
  · rw [(hsame p).1] at hp
    obtain ⟨i, hi, halive⟩ := h.init p hp
    exact ⟨i, hinit.trans hi, by rwa [(hsame i).1]⟩
  · obtain ⟨i', hi', halive⟩ := h.init cur hcur
    obtain rfl : i = i' := Option.some.inj ((hinit ▸ hi).symm.trans hi')
    rw [(hsame i).2.2.1 (hnotnp (ProcState.started_of_alive halive))]
    exact h.init_parent i hi'
  · rw [hctl c] at hc
    cases hc
  · have := hctl c
    rw [hc] at this
    cases this

/-- A zombie child is freed. -/
theorem reap (hforks : s.Forks) (hzombie : (s.procs i).state = .zombie)
    (call : WaitCall) : (s.modify i (Task.reap call s.ticks)).Family := by
  have hself : (s.modify i (Task.reap call s.ticks)).procs i =
      (s.procs i).reap call s.ticks := procs_modify_self ..
  have hother (q : Slot) (hq : q ≠ i) : (s.modify i (Task.reap call s.ticks)).procs q =
      s.procs q := procs_modify_of_ne hq ..
  have hstarted : (s.procs i).state.started = true := by
    rw [hzombie]
    rfl
  -- no one depends on the zombie: parents and init are alive
  have hne_of_alive {q : Slot} (hq : (s.procs q).state.alive = true) : q ≠ i := by
    rintro rfl
    rw [hzombie] at hq
    cases hq
  have hne_of_started {q : Slot}
      (hq : ((s.modify i (Task.reap call s.ticks)).procs q).state.started = true) : q ≠ i := by
    rintro rfl
    rw [hself] at hq
    cases hq
  refine ⟨fun q p hsleep hchan hp hz => ?_, fun p hp hninit => ?_, fun p => ?_,
    fun q np hq => ?_, fun p hp => ?_, fun p hp => ?_, fun c hc => ?_, fun c p hc => ?_⟩
  · have hq : q ≠ i := hne_of_started (by rw [hsleep]; rfl)
    have hpi : p ≠ i := hne_of_started (by rw [hz]; rfl)
    rw [hother q hq] at hsleep hchan
    rw [hother p hpi] at hp hz
    exact h.waiting q p hsleep hchan hp hz
  · have hpi := hne_of_started hp
    rw [hother p hpi] at hp ⊢
    obtain ⟨q, hq, halive⟩ := h.parent p hp hninit
    exact ⟨q, hq, by rwa [hother q (hne_of_alive halive)]⟩
  · by_cases hpi : p = i
    · rw [hpi, hself]
      exact nofun
    · rw [hother p hpi]
      exact h.parent_ne p
  -- neither is the zombie in `fork`, nor is it the child of one
  · have hframe : (s.procs i).frame = .user :=
      hforks.frame_of_state (by simp [hzombie]) (by simp [hzombie])
    have hqi : q ≠ i := by
      rintro rfl
      rw [hself] at hq
      cases hframe.symm.trans hq
    rw [hother q hqi] at hq
    have hnp : np ≠ i := by
      rintro rfl
      have hembryo := hforks.embryo (.inl q) np (by rw [child, hq, Frame.child])
      cases hzombie.symm.trans hembryo
    rw [hother np hnp]
    exact h.publish q np hq
  · rw [hother p (hne_of_started hp)] at hp
    obtain ⟨j, hj, halive⟩ := h.init p hp
    exact ⟨j, hj, by rwa [hother j (hne_of_alive halive)]⟩
  · by_cases hpi : p = i
    · rw [hpi, hself]
      rfl
    · rw [hother p hpi]
      exact h.init_parent p hp
  · exact absurd hc (Bool.eq_false_iff.mp (h.not_booting hstarted c))
  · exact h.boot_init c p hc

/-- A process without a zombie child goes to sleep on its own address. -/
theorem sleepWait (hrun : (s.procs cur).state = .running)
    (hnone : ¬ s.HasZombie cur) (call : WaitCall) : (s.modify cur fun t =>
      { t with chan := .proc cur, state := .sleeping, context := .wait call }).Family := by
  have hkin : (s.procs cur).Kin
      { s.procs cur with chan := .proc cur, state := .sleeping, context := .wait call } :=
    .of_alive rfl rfl (by rw [hrun]; rfl) rfl
  -- the new sleeper is the one `wait` has just found to have no zombie child
  refine h.of_kin rfl (fun _ => .refl _) (forall_modify Task.Kin.refl hkin)
    fun q p hsleep hchan hparent hzombie => ?_
  have hp : p ≠ cur := by
    rintro rfl
    rw [procs_modify_self] at hzombie
    cases hzombie
  rw [procs_modify_of_ne hp] at hzombie
  by_cases hq : q = cur
  · subst hq
    exact hnone ⟨p, hparent, hzombie⟩
  · rw [procs_modify_of_ne hq] at hsleep hchan
    exact h.waiting q p hsleep hchan hparent hzombie

/-- One pass of the loop of `wait` or `waitx`. -/
theorem waitStep (hforks : s.Forks) {call : WaitCall}
    {e : Event} (hrun : (s.procs cur).state = .running) (hwait : WaitStep call s c cur e s') :
    s'.Family := by
  cases hwait with
  | reap hparent hzombie => exact (h.reap hforks hzombie call).unlock c
  | noChild => exact h.unlock c
  | sleep hnone => exact (h.sleepWait hrun hnone call).sched c

/-- The parent of an entry after `exit` by `cur`. -/
theorem parent_exitTable (cur p : Slot) : ((s.exitTable cur).procs p).parent =
      if (s.procs p).parent = some cur then s.initproc else (s.procs p).parent := by
  by_cases hp : p = cur
  · subst hp
    -- `cur` is not its own child, so `exit` leaves its parent alone
    rw [if_neg (h.parent_ne p), Core.exitTable]
    dsimp only
    rw [procs_modify_self]
    by_cases hz : s.HasZombie p
    · simp [mapProcs, hz, Task.orphan, h.parent_ne p]
    · simp [mapProcs, hz, Task.orphan, h.parent_ne p]
  · rw [procs_exitTable_of_ne hp]
    dsimp only
    by_cases hz : s.HasZombie cur
    · rw [if_pos hz]
      rfl
    · rw [if_neg hz]
      rfl

end

/-- Another process that still waits for a child after `exit` by `cur` did so before, is not the
parent of `cur`, and is init only if `cur` leaves no zombies. -/
theorem waiting_exitTable (hq : q ≠ cur) (hsleep : ((s.exitTable cur).procs q).state = .sleeping)
    (hchan : ((s.exitTable cur).procs q).chan = .proc q) :
    (s.procs q).state = .sleeping ∧ (s.procs q).chan = .proc q ∧
      (s.procs cur).parent ≠ some q ∧ (s.HasZombie cur → s.initproc ≠ some q) := by
  rw [procs_exitTable_of_ne hq] at hsleep hchan
  dsimp only at hsleep hchan
  have hold : (s.procs q).chan = .proc q := by
    by_cases hz : s.HasZombie cur
    · rw [if_pos hz] at hchan
      exact hchan
    · rw [if_neg hz] at hchan
      exact hchan
  -- the entry slept throughout, so neither wakeup was for its channel
  have hlast : ((s.procs q).wake (.ofProc (s.procs cur).parent)).state = .sleeping ∧
      (s.HasZombie cur → (s.procs q).chan ≠ .ofProc s.initproc) := by
    by_cases hz : s.HasZombie cur
    · rw [if_pos hz] at hsleep
      obtain ⟨hsleep, hne⟩ := Task.of_wake_sleeping hsleep
      exact ⟨hsleep, fun _ => hne⟩
    · rw [if_neg hz] at hsleep
      exact ⟨hsleep, fun hz' => absurd hz' hz⟩
  obtain ⟨hsleep, hne⟩ := Task.of_wake_sleeping hlast.1
  refine ⟨hsleep, hold, fun hparent => hne ?_, fun hz hinit => hlast.2 hz ?_⟩
  · rw [hold, hparent, Chan.ofProc]
  · rw [hold, hinit, Chan.ofProc]

/-- The other processes after `exit` by `cur`, up to who their parent is. -/
theorem others_exitTable (hp : p ≠ cur) :
    ((s.procs p).state.alive = true → ((s.exitTable cur).procs p).state.alive = true) ∧
      (((s.exitTable cur).procs p).state.started = true → (s.procs p).state.started = true) ∧
      (((s.exitTable cur).procs p).state = .zombie → (s.procs p).state = .zombie) ∧
      ((s.exitTable cur).procs p).frame = (s.procs p).frame := by
  have hkin := Task.Kin.wake (.ofProc (s.procs cur).parent) (s.procs p)
  have hcalm := Task.Calm.wake (.ofProc (s.procs cur).parent) (s.procs p)
  rw [procs_exitTable_of_ne hp]
  dsimp only
  by_cases hz : s.HasZombie cur
  · rw [if_pos hz]
    have hkin' := Task.Kin.wake (.ofProc s.initproc)
      (((s.procs p).wake (.ofProc (s.procs cur).parent)).orphan cur s.initproc)
    have hcalm' := Task.Calm.wake (.ofProc s.initproc)
      (((s.procs p).wake (.ofProc (s.procs cur).parent)).orphan cur s.initproc)
    exact ⟨fun h => hkin'.alive (hkin.alive h), fun h => hkin.started (hkin'.started h),
      fun h => hcalm.zombie (hcalm'.zombie h), rfl⟩
  · rw [if_neg hz]
    exact ⟨hkin.alive, hkin.started, hcalm.zombie, rfl⟩

/-- The critical section of `exit`, for a process that is not in `fork`. -/
theorem exitTable (h : s.Family) (hrun : (s.procs cur).state = .running)
    (hframe : (s.procs cur).frame = .user) (hinit : s.initproc ≠ some cur) :
    (s.exitTable cur).Family := by
  have hstarted : (s.procs cur).state.started = true := by
    rw [hrun]
    rfl
  obtain ⟨parent, hself⟩ := procs_exitTable_self cur s
  have halive {p : Slot} (hp : p ≠ cur) (hp' : (s.procs p).state.alive = true) :
      ((s.exitTable cur).procs p).state.alive = true := (others_exitTable hp).1 hp'
  obtain ⟨i, hi, hialive⟩ := h.init cur hstarted
  have hialive' : ((s.exitTable cur).procs i).state.alive = true := by
    refine halive ?_ hialive
    rintro rfl
    exact hinit hi
  refine ⟨fun q p hsleep hchan hp hzombie => ?_, fun p hp hninit => ?_, fun p => ?_,
    fun q np hq => ?_, fun _ _ => ⟨i, hi, hialive'⟩, fun j hj => ?_, fun c hc => ?_,
    fun c p hc => ?_⟩
  -- a parent that still sleeps was woken by neither wakeup, so it is neither the parent of `cur`
  -- nor init with a new zombie child
  · have hq : q ≠ cur := by
      rintro rfl
      rw [hself] at hsleep
      cases hsleep
    obtain ⟨hsleep, hchan, hnotparent, hnotinit⟩ := waiting_exitTable hq hsleep hchan
    rw [h.parent_exitTable] at hp
    by_cases hpc : p = cur
    · subst hpc
      rw [if_neg (h.parent_ne p)] at hp
      exact hnotparent hp
    · have hz := (others_exitTable hpc).2.2.1 hzombie
      split at hp
      next hchild => exact hnotinit ⟨p, hchild, hz⟩ hp
      · exact h.waiting q p hsleep hchan hp hz
  -- the children of `cur` go to init, which lives; the others keep their parents
  · have hold : (s.procs p).state.started = true := by
      by_cases hpc : p = cur
      · rw [hpc]
        exact hstarted
      · exact (others_exitTable hpc).2.1 hp
    obtain ⟨q, hq, hqalive⟩ := h.parent p hold hninit
    rw [h.parent_exitTable]
    split
    next hchild => exact ⟨i, hi, hialive'⟩
    next hchild =>
      have hqc : q ≠ cur := by
        rintro rfl
        exact hchild hq
      exact ⟨q, hq, halive hqc hqalive⟩
  · rw [h.parent_exitTable]
    split
    next hchild =>
      intro hp
      rw [h.init_parent p hp] at hchild
      cases hchild
    · exact h.parent_ne p
  · have hqc : q ≠ cur := by
      rintro rfl
      rw [hself] at hq
      cases hframe.symm.trans hq
    rw [(others_exitTable hqc).2.2.2] at hq
    have hnp := h.publish q np hq
    rw [h.parent_exitTable, if_neg]
    · exact hnp
    · rw [hnp]
      exact fun heq => hqc (Option.some.inj heq)
  · have hnone := h.init_parent j hj
    rw [h.parent_exitTable, if_neg]
    · exact hnone
    · rw [hnone]
      exact nofun
  · exact absurd hc (Bool.eq_false_iff.mp (h.not_booting hstarted c))
  · exact h.boot_init c p hc

/-- Every step keeps the families in order. -/
theorem step (h : s.Family) (hinv : s.Inv) (hstep : Step b s l s') : s'.Family := by
  have hc := hinv.control
  have hcalls {c : CpuId n} {cur : Slot} (hcall : s.Runs c cur) :
      (s.procs cur).state = .running := (hc.of_runs hcall.1 hcall.2.2).2
  cases hstep with
  | @bootAlloc c p hctl hlock hp =>
    exact (h.allocate hp).modifyCpu (fun k => { k with ctl := .bootKalloc p }) s.lock
      ⟨fun _ => by change (s.cpus c).ctl.booting = true; rw [hctl]; rfl, fun q hq => by cases hq⟩
  | bootFull =>
    exact h.modifyCpu (fun k => { k with ctl := .halted }) s.lock (.of_not_booting rfl)
  | bootKalloc hctl => exact h.bootKalloc hctl
  | @bootAbandon c p hctl =>
    have hp := hinv.embryo_boot hctl rfl
    exact (h.abandon hp).modifyCpu (fun k => { k with ctl := .halted }) s.lock
      (.of_not_booting rfl)
  | @bootPublish c p hctl =>
    have hp := hinv.embryo_boot hctl rfl
    have hbooting : (s.cpus c).ctl.booting = true := by
      rw [hctl]
      rfl
    -- move the boot CPU first: then no CPU is in `userinit`
    have h₁ := h.modifyCpu (fun k => { k with proc := none, ctl := .idle }) s.lock
      (c := c) (.of_not_booting rfl)
    refine h₁.ready hp (fun d => ?_) fun hne => absurd (h.boot_init c p hctl) hne
    by_cases hd : d = c
    · subst hd
      rw [cpus_modifyCpu_self]
      rfl
    · rw [cpus_modifyCpu_of_ne hd, ← Bool.not_eq_true]
      exact fun hboot => hd ((h.boot d hboot).1.trans (h.boot c hbooting).1.symm)
  | @acquire c i =>
    exact h.modifyCpu (fun k => { k with ctl := .loop, p := i }) (some c) (.of_not_booting rfl)
  | @dispatch c p i hctl hlock hp =>
    refine h.of_calm ?_ (fun d => ?_)
      (forall_procs_dispatch Task.Kin.refl fun _ => .of_alive rfl rfl (by rw [hp]; rfl) rfl)
      (forall_procs_dispatch Task.Calm.refl fun _ => .of_awake (by simp) (by simp))
    · cases b <;> rfl
    · by_cases hd : d = c
      · subst hd
        rw [cpus_dispatch_self]
        exact .of_not_booting rfl
      · rw [cpus_dispatch_of_ne hd]
        exact .refl _
  | endPass =>
    exact h.modifyCpu (fun k => { k with ctl := .idle }) none (.of_not_booting rfl)
  -- processes that go on: the channel they slept on is cleared
  | resumeForkret => exact h.unlock _
  | resumeYield => exact (h.unlock _).setTrap _ _
  | @resumeSleep c =>
    exact ((h.modify (f := fun t => { t with chan := .null }) ⟨rfl, id, id, fun _ => id⟩
      ⟨id, fun _ _ hq => by cases hq⟩).unlock c).setTrap c _
  | @resumeWait _ c cur call e hctl hlock hproc hctx hwait =>
    obtain ⟨-, hrun, -⟩ := hc.of_resumed hctl hproc
    have h₁ := h.modify (i := cur) (f := fun t => { t with chan := .null })
      ⟨rfl, id, id, fun _ => id⟩ ⟨id, fun _ _ hq => by cases hq⟩
    refine h₁.waitStep (hinv.forks.modify (.refl _)) ?_ hwait
    rw [procs_modify_self]
    exact hrun
  | swtch =>
    exact h.modifyCpu (fun k => { k with ctl := .switched, stack := none }) s.lock
      (.of_not_booting rfl)
  | @switchedLoop c i =>
    exact h.modifyCpu (fun k => { k with proc := none, ctl := .loop, p := i }) s.lock
      (.of_not_booting rfl)
  | @switchedIdle c =>
    have h₁ := h.modifyCpu (fun k => { k with proc := none }) s.lock (c := c) (.refl _)
    exact h₁.modifyCpu (fun k => { k with ctl := .idle }) none (.of_not_booting rfl)
  -- the four parts of `fork`
  | @fork c cur np hcall hlock hp => exact (h.allocate hp).setFrame cur (by simp)
  | forkFull => exact h
  | @kalloc c cur np => exact (h.setupStack np).setFrame cur (by simp)
  | @kallocFail c cur np hrun hframe | @copyuvmFail c cur np hrun hframe =>
    exact (h.abandon (hinv.embryo_child hframe rfl)).setFrame cur (by simp)
  | copyuvm hrun hframe =>
    exact h.copyuvm hinv.forks (by rw [hcalls hrun]; rfl) (hinv.ne_child hrun hframe rfl) hframe
  | @publish c cur np hrun hframe =>
    have hcur := hcalls hrun
    have h₁ := h.ready (hinv.embryo_child hframe rfl)
      (h.not_booting (p := cur) (by rw [hcur]; rfl))
      fun _ => ⟨cur, h.publish cur np hframe, by rw [hcur]; rfl⟩
    exact h₁.setFrame cur (by simp)
  | @exit c cur hcall hlock hinit =>
    obtain ⟨hctl, hproc, hframe⟩ := hinv.of_exit hcall
    exact (h.exitTable (hc.of_runs hctl hproc).2 hframe hinit).sched c
  | wait hcall hlock hwait => exact h.waitStep hinv.forks (hcalls hcall.1) hwait
  | @sleep c cur o exiting hcall =>
    obtain ⟨hctl, hproc, -⟩ := hinv.of_exit hcall
    have hrun := (hc.of_runs hctl hproc).2
    have hkin : (s.procs cur).Kin
        { s.procs cur with chan := .obj o, state := .sleeping, context := .sleep exiting } :=
      .of_alive rfl rfl (by rw [hrun]; rfl) rfl
    exact (h.modify (f := fun t =>
        { t with chan := .obj o, state := .sleeping, context := .sleep exiting })
      hkin ⟨by simp, fun _ _ hq => by cases hq⟩).sched c
  | @yield c cur user htrap hproc hlock =>
    have hrun := (hc.state_of_unlocked hproc (hc.unlocked hlock c)).1
    have hkin : (s.procs cur).Kin
        { s.procs cur with state := .runnable, context := .yield user } :=
      .of_alive rfl rfl (by rw [hrun]; rfl) rfl
    exact (h.modify (f := fun t => { t with state := .runnable, context := .yield user })
      hkin (.of_awake (by simp) (by simp))).sched c
  | wakeup => exact h.mapWake _
  | killMiss => exact h
  | @kill c pid cur p =>
    by_cases hsleep : (s.procs p).state = .sleeping
    · exact h.modify (.of_alive rfl rfl (by rw [hsleep]; rfl) (by simp only [if_pos hsleep]; rfl))
        (.of_awake (by simp [hsleep]) (by simp [hsleep]))
    · refine h.modify ⟨rfl, ?_, ?_, fun _ => id⟩ ⟨?_, fun q hq => ?_⟩ <;>
        simp only [if_neg hsleep, imp_self] at *
      contradiction
  | setPriorityMiss => exact h
  | setPriority =>
    exact h.modify ⟨rfl, id, id, fun _ => id⟩ ⟨id, fun _ hs hq => ⟨hs, hq⟩⟩
  | tick =>
    have h₁ : { s with ticks := s.ticks + 1 }.Family :=
      h.of_calm rfl (fun _ => .refl _) (fun _ => .refl _) fun _ => .refl _
    exact h₁.setTrap 0 _
  | @charge c =>
    have h₁ : (s.mapProcs Task.charge).Family :=
      h.of_calm rfl (fun _ => .refl _) (fun _ => ⟨rfl, id, id, fun _ => id⟩)
        fun _ => ⟨id, fun _ hs hq => ⟨hs, hq⟩⟩
    exact h₁.setTrap c _
  | wakeupTicks => exact (h.mapWake _).setTrap _ _
  | @fault c =>
    exact (h.modify (f := fun t => { t with killed := true }) ⟨rfl, id, id, fun _ => id⟩
      ⟨id, fun _ hs hq => ⟨hs, hq⟩⟩).setTrap c _
  | trap => exact h.setTrap _ _

theorem of_run {hist : List (Core n × Label n)} (hrun : (protocol b n).Run hist s) : s.Family := by
  induction hrun with
  | init h =>
    rw [show _ = Core.initial from h]
    exact .initial
  | step hrun hstep ih => exact ih.step (.of_run hrun) hstep

end Family

/-- Only `allocproc` advances `nextpid`. -/
theorem Step.nextpid (hstep : Step b s l s') : (∃ p, l.2 = .alloc p ∧ s'.nextpid = s.nextpid + 1) ∨
      (∀ p, l.2 ≠ .alloc p) ∧ s'.nextpid = s.nextpid := by
  cases hstep with
  | bootAlloc | fork => exact .inl ⟨_, rfl, rfl⟩
  | dispatch => exact .inr ⟨nofun, by cases b <;> rfl⟩
  | resumeWait hctl hlock hproc hctx hwait | wait hcall hlock hwait =>
    cases hwait <;> exact .inr ⟨nofun, rfl⟩
  | _ => exact .inr ⟨nofun, rfl⟩

/-- An entry that is in use after a step has its pid and creation time from before or has just
been taken. -/
theorem Step.used (h : s.Inv) (hstep : Step b s l s') (hp : (s'.procs p).state ≠ .unused) :
    (s.procs p).state ≠ .unused ∧ (s'.procs p).pid = (s.procs p).pid ∧
        (s'.procs p).ctime = (s.procs p).ctime ∨
      l.2 = .alloc p ∧ (s'.procs p).pid = int32 s.nextpid ∧ (s'.procs p).ctime = s.ticks := by
  have hlife := hstep.life h p
  obtain ⟨⟨c, a⟩, e⟩ := l
  generalize s'.procs p = t at hlife hp
  cases hlife with
  | keep he ht => exact .inl ⟨fun hs => hp (ht.state.eq_unused_iff.mpr hs), ht.pid, ht.ctime⟩
  | alloc => exact .inr ⟨rfl, rfl, rfl⟩
  | abandon | reap => exact absurd rfl hp
  | dispatch hs | exit hs | fault hs => exact .inl ⟨by simp [hs], rfl, rfl⟩
  | kill =>
    refine .inl ⟨fun hs => hp ?_, rfl, rfl⟩
    simp [hs]
  | charge => exact .inl ⟨hp, rfl, rfl⟩

/-- A process becomes a zombie by `exit`. -/
theorem Step.zombie (h : s.Inv) (hstep : Step b s l s') (hp : (s'.procs p).state = .zombie) :
    ((s.procs p).state = .zombie ∨ l.2 = .exit p) ∧ (s'.procs p).pid = (s.procs p).pid := by
  have hlife := hstep.life h p
  obtain ⟨⟨c, a⟩, e⟩ := l
  generalize s'.procs p = t at hlife hp
  cases hlife with
  | keep he ht => exact ⟨.inl (ht.state.eq_zombie_iff.mp hp), ht.pid⟩
  | exit => exact ⟨.inr rfl, rfl⟩
  | kill =>
    refine ⟨.inl ?_, rfl⟩
    dsimp only at hp
    split at hp
    · cases hp
    · exact hp
  | charge | fault => exact ⟨.inl hp, rfl⟩
  | alloc | abandon | dispatch | reap => cases hp

/-- What a call of `wait` or `waitx` that returns a pid does. -/
theorem Step.reaped {pid : ℤ} {times : Option (ℤ × ℤ)} {a : Action}
    (h : s.Inv) (hstep : Step b s ((c, a), .reap q i pid times) s') :
    (s.procs i).state = .zombie ∧ (s.procs i).parent = some q ∧ (s.procs i).pid = pid ∧
      (s'.procs i).state = .unused := by
  have hlife := hstep.life h i
  generalize s'.procs i = t at hlife
  cases hlife with
  | keep he => simp [Event.marks] at he
  | reap hzombie hparent => exact ⟨hzombie, hparent, rfl, rfl⟩

end Core

/-- A number below `2 ^ 31` is stored in an `int` as it is. -/
theorem int32_of_lt {k : ℕ} (h : k < 2 ^ 31) : int32 k = k := by
  unfold int32
  rw [Int.bmod_eq_of_le] <;> omega

namespace Kernel

variable {n : ℕ} {b : Build} {hist : List (Kernel n × Label n)} {σ σ' : Kernel n}
variable {l : Label n}

/-- The pids of the processes that have exited, latest first. -/
def exitedPids (hist : List (Kernel n × Label n)) : List ℤ :=
  hist.filterMap fun x =>
    match x.2.2 with
    | .exit p => some (x.1.proc p).pid
    | _ => none

/-- The pids that calls of `wait` and `waitx` have returned, latest first. -/
def returnedPids (hist : List (Kernel n × Label n)) : List ℤ :=
  hist.filterMap fun x =>
    match x.2.2 with
    | .reap _ _ pid _ => some pid
    | _ => none

theorem nextpid_le_of_step (hstep : Core.Step b σ.core l σ'.core) : σ.nextpid ≤ σ'.nextpid := by
  rcases hstep.nextpid with ⟨_, -, hn⟩ | ⟨-, hn⟩
  · exact Nat.le_of_lt (Nat.lt_of_succ_le (Nat.le_of_eq hn.symm))
  · exact Nat.le_of_eq hn.symm

/-- As long as `nextpid` does not wrap, an entry that is in use after a step is as before, or
`allocproc` has just given it the largest pid so far. -/
theorem used_of_step (hinv : σ.core.Inv) (hstep : Core.Step b σ.core l σ'.core)
    (hbound : σ'.nextpid ≤ 2 ^ 31) (hp : (σ'.proc p).state ≠ .unused) :
    ((σ.proc p).state ≠ .unused ∧ (σ'.proc p).pid = (σ.proc p).pid ∧
        (σ'.proc p).ctime = (σ.proc p).ctime) ∨
      l.2 = .alloc p ∧ (σ'.proc p).pid = σ.nextpid ∧ (σ'.proc p).ctime = σ.ticks ∧
        σ'.nextpid = σ.nextpid + 1 := by
  rcases hstep.used hinv hp with hold | ⟨halloc, hpid, hctime⟩
  · exact .inl hold
  · rcases hstep.nextpid with ⟨_, -, hn⟩ | ⟨hne, -⟩
    · have hn : σ'.nextpid = σ.nextpid + 1 := hn
      have hint : int32 σ.nextpid = σ.nextpid := int32_of_lt (by omega)
      exact .inr ⟨halloc, hpid.trans hint, hctime, hn⟩
    · exact absurd halloc (hne p)

/-- Where the pids handed out so far are. -/
structure Pids (hist : List (Kernel n × Label n)) (σ : Kernel n) : Prop where
  fresh : ∀ p, (σ.proc p).state ≠ .unused → (σ.proc p).pid < σ.nextpid
  unique : ∀ p q, (σ.proc p).state ≠ .unused → (σ.proc q).state ≠ .unused →
    (σ.proc p).pid = (σ.proc q).pid → p = q
  zombie : ∀ p, (σ.proc p).state = .zombie → (σ.proc p).pid ∈ exitedPids hist
  exited : ∀ pid ∈ returnedPids hist, pid ∈ exitedPids hist
  old : ∀ pid ∈ returnedPids hist, pid < σ.nextpid
  gone : ∀ pid ∈ returnedPids hist, ∀ p, (σ.proc p).state ≠ .unused → (σ.proc p).pid ≠ pid
  nodup : (returnedPids hist).Nodup

theorem exitedPids_cons_subset (x : Kernel n × Label n) :
    exitedPids hist ⊆ exitedPids (x :: hist) := by
  intro pid hpid
  obtain ⟨y, hy, hypid⟩ := List.mem_filterMap.mp hpid
  exact List.mem_filterMap.mpr ⟨y, List.mem_cons_of_mem _ hy, hypid⟩

theorem mem_exitedPids_of_exit (h : l.2 = .exit p) : (σ.proc p).pid ∈ exitedPids ((σ, l) :: hist) :=
  List.mem_filterMap.mpr ⟨(σ, l), List.mem_cons_self, by simp [h]⟩

theorem returnedPids_cons_of_reap {pid : ℤ}
    {times : Option (ℤ × ℤ)} (h : l.2 = .reap q i pid times) :
    returnedPids ((σ, l) :: hist) = pid :: returnedPids hist := by
  simp [returnedPids, h]

theorem returnedPids_cons_of_ne (h : ∀ q i pid times, l.2 ≠ .reap q i pid times) :
    returnedPids ((σ, l) :: hist) = returnedPids hist := by
  refine List.filterMap_cons_none ?_
  dsimp only
  split
  next q i pid times hl => exact absurd hl (h q i pid times)
  · rfl

namespace Pids

theorem initial (below : Option Slot) : Pids [] (Kernel.initial below : Kernel n) := by
  have hunused (p : Slot) : ((Kernel.initial below : Kernel n).proc p).state = .unused := by
    simp [Kernel.initial, proc, Proc.zero]
  refine ⟨fun p hp => absurd (hunused p) hp, fun p q hp => absurd (hunused p) hp,
    fun p hp => ?_, by simp [returnedPids], by simp [returnedPids], by simp [returnedPids],
    .nil⟩
  rw [hunused p] at hp
  cases hp

/-- A step of the kernel, as long as `nextpid` does not wrap. -/
theorem step (h : Pids hist σ) (hinv : σ.core.Inv)
    (hstep : Core.Step b σ.core l σ'.core) (hbound : σ'.nextpid ≤ 2 ^ 31) :
    Pids ((σ, l) :: hist) σ' := by
  have hle : σ.nextpid ≤ σ'.nextpid := nextpid_le_of_step hstep
  have hused (p : Slot) := used_of_step (p := p) hinv hstep hbound
  -- what holds of every step comes first; only the list of returned pids depends on the event
  have hfresh (p : Slot) (hp : (σ'.proc p).state ≠ .unused) : (σ'.proc p).pid < σ'.nextpid := by
    rcases hused p hp with ⟨hold, hpid, -⟩ | ⟨-, hpid, -, hn⟩
    · have := h.fresh p hold
      omega
    · omega
  have hunique (p q : Slot) (hp : (σ'.proc p).state ≠ .unused)
      (hq : (σ'.proc q).state ≠ .unused) (hpid : (σ'.proc p).pid = (σ'.proc q).pid) : p = q := by
    rcases hused p hp with ⟨hp, hp', -⟩ | ⟨hlp, hp', -⟩ <;>
      rcases hused q hq with ⟨hq, hq', -⟩ | ⟨hlq, hq', -⟩
    · exact h.unique p q hp hq (by omega)
    · have := h.fresh p hp
      omega
    · have := h.fresh q hq
      omega
    -- both were taken by this step
    · exact Event.alloc.inj (hlp.symm.trans hlq)
  have hzombie (p : Slot) (hp : (σ'.proc p).state = .zombie) :
      (σ'.proc p).pid ∈ exitedPids ((σ, l) :: hist) := by
    obtain ⟨hold, hpid⟩ := hstep.zombie hinv hp
    rw [show (σ'.proc p).pid = (σ.proc p).pid from hpid]
    rcases hold with hold | hexit
    · exact exitedPids_cons_subset _ (h.zombie p hold)
    · exact mem_exitedPids_of_exit hexit
  -- a pid returned before is not handed out again
  have hgone (pid : ℤ) (hpid : pid ∈ returnedPids hist) (p : Slot)
      (hp : (σ'.proc p).state ≠ .unused) : (σ'.proc p).pid ≠ pid := by
    rcases hused p hp with ⟨hold, hp', -⟩ | ⟨-, hp', -⟩
    · rw [hp']
      exact h.gone pid hpid p hold
    · have := h.old pid hpid
      omega
  have hold (pid : ℤ) (hpid : pid ∈ returnedPids hist) : pid < σ'.nextpid := by
    have := h.old pid hpid
    omega
  by_cases hreap : ∃ q i pid times, l.2 = .reap q i pid times
  · obtain ⟨q, i, pid, times, hl⟩ := hreap
    obtain ⟨⟨c, a⟩, e⟩ := l
    cases hl
    obtain ⟨hz, -, hipid, hfreed⟩ := hstep.reaped hinv
    have hiused : (σ.proc i).state ≠ .unused := by
      rw [show (σ.proc i).state = .zombie from hz]
      nofun
    have hipid : (σ.proc i).pid = pid := hipid
    -- the zombie is still in the table, and no pid returned before is
    have hnew : pid ∉ returnedPids hist := fun hmem => h.gone pid hmem i hiused hipid
    have hcons : returnedPids ((σ, ((c, a), .reap q i pid times)) :: hist) =
        pid :: returnedPids hist := returnedPids_cons_of_reap rfl
    refine ⟨hfresh, hunique, hzombie, ?_, ?_, ?_, ?_⟩ <;> rw [hcons]
    · refine List.forall_mem_cons.mpr ⟨?_, fun pid' hpid' => ?_⟩
      · exact exitedPids_cons_subset _ (hipid ▸ h.zombie i hz)
      · exact exitedPids_cons_subset _ (h.exited pid' hpid')
    · refine List.forall_mem_cons.mpr ⟨?_, hold⟩
      have := h.fresh i hiused
      omega
    · refine List.forall_mem_cons.mpr ⟨fun p hp heq => ?_, hgone⟩
      rcases hused p hp with ⟨hpold, hp', -⟩ | ⟨hl, -⟩
      · obtain rfl := h.unique p i hpold hiused (by omega)
        exact hp hfreed
      · cases hl
    · exact List.nodup_cons.mpr ⟨hnew, h.nodup⟩
  · have hsame : returnedPids ((σ, l) :: hist) = returnedPids hist :=
      returnedPids_cons_of_ne fun q i pid times hl => hreap ⟨q, i, pid, times, hl⟩
    exact ⟨hfresh, hunique, hzombie,
      fun pid hpid => exitedPids_cons_subset _ (h.exited pid (hsame ▸ hpid)),
      fun pid hpid => hold pid (hsame ▸ hpid), fun pid hpid => hgone pid (hsame ▸ hpid),
      hsame ▸ h.nodup⟩

theorem of_run (hrun : (kernel b n).Run hist σ) (hbound : σ.nextpid ≤ 2 ^ 31) : Pids hist σ := by
  induction hrun with
  | init h =>
    obtain ⟨below, rfl⟩ := h
    exact .initial below
  | @step hist σ σ' l hrun hstep ih =>
    have hcore : Core.Step b σ.core l σ'.core := step_core hstep
    have hbefore : σ.nextpid ≤ 2 ^ 31 := Nat.le_trans (nextpid_le_of_step hcore) hbound
    exact (ih hbefore).step (inv_core hrun) hcore hbound

end Pids

/-- While `nextpid` has not wrapped: a process that sleeps in `wait` has no zombie child, every
process past `EMBRYO` other than init has a live parent, and every exited process is reported at
most once, to the process that was its parent. -/
theorem exit_wait (hrun : (kernel b n).Run hist σ) (hpid : σ.nextpid ≤ 2 ^ 31) :
    (σ.lock = none →
      (∀ q, (σ.proc q).state = .sleeping → (σ.proc q).chan = .proc q →
        ∀ p, (σ.proc p).parent = some q → (σ.proc p).state ≠ .zombie) ∧
      ∀ p, (σ.proc p).state ≠ .unused → (σ.proc p).state ≠ .embryo → σ.initproc ≠ some p →
        ∃ q, (σ.proc p).parent = some q ∧ (σ.proc q).state ≠ .unused ∧
          (σ.proc q).state ≠ .zombie) ∧
    (returnedPids hist).Nodup ∧ (∀ pid ∈ returnedPids hist, pid ∈ exitedPids hist) ∧
    ∀ x ∈ hist, ∀ q i pid times, x.2.2 = .reap q i pid times →
      (x.1.cpus x.2.1.1).proc = some q ∧ (x.1.proc i).parent = some q ∧
        (x.1.proc i).state = .zombie ∧ (x.1.proc i).pid = pid := by
  have hfamily := Core.Family.of_run (run_core hrun)
  have hpids := Pids.of_run hrun hpid
  refine ⟨fun _ => ⟨fun q hsleep hchan p => hfamily.waiting q p hsleep hchan, ?_⟩,
    hpids.nodup, hpids.exited, ?_⟩
  · intro p hunused hembryo hinit
    have hstarted : (σ.proc p).state.started = true := by
      cases hstate : (σ.proc p).state <;> first | rfl | contradiction
    obtain ⟨q, hq, halive⟩ := hfamily.parent p hstarted hinit
    have halive : (σ.proc q).state.alive = true := halive
    refine ⟨q, hq, fun hstate => ?_, fun hstate => ?_⟩ <;>
    · rw [hstate] at halive
      cases halive
  · intro x hx q i pid times hevent
    -- go back to the step of the run at which the call returned
    obtain ⟨hist', σ', hrun', hstep⟩ := hrun.exists_step hx
    obtain ⟨σ₀, ⟨c, a⟩, e⟩ := x
    cases hevent
    have hinv := inv_core hrun'
    have hcore : Core.Step b σ₀.core ((c, a), .reap q i pid times) σ'.core := step_core hstep
    obtain ⟨hzombie, hparent, hipid, -⟩ := hcore.reaped hinv
    exact ⟨(hcore.of_reap hinv).2.1, hparent, hzombie, hipid⟩

/-- init forks twice and sleeps in `wait`; one child exits and is reaped, and init sleeps in a
second `wait` for the other. -/
theorem exit_wait_init :
    ∃ (hist : List (Kernel 0 × Label 0)) (σ : Kernel 0), (kernel .roundRobin 0).Run hist σ ∧
      σ.nextpid ≤ 2 ^ 31 ∧ σ.lock = none ∧ (σ.proc 0).state = .sleeping ∧
      (σ.proc 0).chan = .proc 0 ∧ returnedPids hist = [2] ∧ (returnedPids hist).Nodup ∧
      ∀ p, (σ.proc p).parent = some 0 → (σ.proc p).state ≠ .zombie := by
  obtain ⟨hist, σ, hrun, hσ⟩ := exists_run (n := 0) .roundRobin
    (startInit ++ forkOn 0 ++ forkOn 0 ++
      onCpu 0 [.wait .wait, .swtch, .switched, .select, .resume, .exit, .swtch, .switched,
        .select, .resume, .sleep (.other 0), .swtch, .switched, .select, .acquire, .select,
        .resume, .wait .wait, .swtch, .switched, .select])
    (fun hist σ => decide (σ.nextpid ≤ 2 ^ 31 ∧ σ.lock = none ∧ (σ.proc 0).state = .sleeping ∧
      (σ.proc 0).chan = .proc 0 ∧ returnedPids hist = [2])) (by decide +kernel)
  obtain ⟨hpid, hlock, hsleep, hchan, hreturned⟩ := of_decide_eq_true hσ
  have hprotocol := exit_wait hrun hpid
  exact ⟨hist, σ, hrun, hpid, hlock, hsleep, hchan, hreturned, hprotocol.2.1,
    (hprotocol.1 hlock).1 0 hsleep hchan⟩

end Kernel

end Xv6
