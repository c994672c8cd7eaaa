import OsnAssignments.FileSystem.CacheInvariants

/-!
# Coherence of the buffer cache

Every step of the buffer cache keeps the invariants (`Inv.bget` and the lemmas that follow it), and
so does every run, of any number of threads that call `bread`, `bwrite`, `log_write`, `brelse` and
`commit`. `cache_coherent` states what follows for such runs.
-/

namespace FileSystem.BufferCache

open LinkedRing Transition Cache Function

/-- The contents of the blocks after a step. -/
def Event.contents (old : ℕ → Block) : Event → ℕ → Block
  | .passed b data _ => update old b data
  | _ => old

/-- The blocks whose contents were last passed to `log_write`, after a step. -/
def Event.pinned (old : ℕ → Bool) : Event → ℕ → Bool
  | .passed b _ logged => update old b logged
  | _ => old

variable {ι : Type} {c c' : Cache ι} {p q : ι} {i j : Slot} {b : ℕ} {pl : Place} {e : Event}
  {contents : ℕ → Block} {pinned : ℕ → Bool}

/-! ## Steps of the cache -/

namespace Cache

variable {f : Buf ι → Buf ι}

/-- All invariants. -/
structure Inv (contents : ℕ → Block) (pinned : ℕ → Bool) (c : Cache ι) : Prop where
  ringed : c.Ringed
  counted : c.Counted
  sound : c.Sound contents pinned
  started : c.Started

/-- What is true of a step from a state with the invariants. -/
structure Steps (contents : ℕ → Block) (pinned : ℕ → Bool) (c c' : Cache ι) (e : Event) : Prop where
  inv : c'.Inv (e.contents contents) (e.pinned pinned)
  /-- A buffer that is recycled is not in use. -/
  recycled : ∀ i, e = .recycled i → (c.buf i).refcnt = 0 ∧ (c.buf i).dirty = false
  /-- Only a buffer that is recycled gets another block. -/
  blocks : ∀ i, e ≠ .recycled i →
    (c'.buf i).dev = (c.buf i).dev ∧ (c'.buf i).blockno = (c.buf i).blockno
  /-- `bread` returns the contents of the block. -/
  returned : ∀ b data, e = .returned b data → data = contents b

theorem Started.congr (h : c.Started) (hqueue : c'.idequeue = c.idequeue) (hdisk : c'.disk = c.disk)
    (hbuf : ∀ i ∈ c.idequeue, (c'.buf i).dirty = (c.buf i).dirty ∧
      (c'.buf i).blockno = (c.buf i).blockno ∧ (c'.buf i).data = (c.buf i).data) : c'.Started := by
  intro i hi hd
  rw [hqueue] at hi
  obtain ⟨hdirty, hblockno, hdata⟩ := hbuf i (List.mem_of_mem_head? hi)
  rw [hdisk, hblockno, hdata]
  exact h i hi (hdirty ▸ hd)

theorem started_modify (h : c.Started)
    (hf : i ∈ c.idequeue → (f (c.buf i)).dirty = (c.buf i).dirty ∧
      (f (c.buf i)).blockno = (c.buf i).blockno ∧ (f (c.buf i)).data = (c.buf i).data) :
    (c.modify i f).Started := by
  refine h.congr rfl rfl fun j hj => ?_
  by_cases hji : j = i
  · subst hji
    rw [modify_buf_self]
    exact hf hj
  · rw [modify_buf_of_ne c f hji]
    exact ⟨rfl, rfl, rfl⟩

theorem Ringed.walk (h : c.Ringed) (test : Slot → Bool) :
    (∀ i, Links.walk c.links.next test (NBUF + 1) (c.links.next none) = some i → test i = true) ∧
    (Links.walk c.links.next test (NBUF + 1) (c.links.next none) = none → ∀ i, test i = false) ∧
    ∀ i, Links.walk c.links.prev test (NBUF + 1) (c.links.prev none) = some i → test i = true := by
  obtain ⟨xs, hxs, hall⟩ := h
  have hlen : xs.length < NBUF + 1 := by
    have hcard := hxs.1.length_le_card
    rw [Fintype.card_fin] at hcard
    omega
  rw [hxs.walk_next test hlen, hxs.walk_prev test hlen]
  refine ⟨fun i hi => List.find?_some hi, fun hnone i => ?_, fun i hi => List.find?_some hi⟩
  exact Bool.eq_false_iff.mpr (List.find?_eq_none.mp hnone i (hall i))

/-- A silent step that recycles nothing. -/
theorem Inv.steps (h : c'.Inv contents pinned)
    (hblocks : ∀ i, (c'.buf i).dev = (c.buf i).dev ∧ (c'.buf i).blockno = (c.buf i).blockno) :
    Steps contents pinned c c' .silent where
  inv := h
  recycled _ he := nomatch he
  blocks i _ := hblocks i
  returned _ _ he := nomatch he

theorem blocks_modify
    (hf : ∀ buf, (f buf).dev = buf.dev ∧ (f buf).blockno = buf.blockno) (j : Slot) :
    ((c.modify i f).buf j).dev = (c.buf j).dev ∧
      ((c.modify i f).buf j).blockno = (c.buf j).blockno := by
  by_cases hj : j = i
  · subst hj
    rw [modify_buf_self]
    exact hf _
  · rw [modify_buf_of_ne c f hj]
    exact ⟨rfl, rfl⟩

theorem Sound.modify_refcnt (h : c.Sound contents pinned) (f : Buf ι → ℕ) :
    (c.modify i fun buf => { buf with refcnt := f buf }).Sound contents pinned := by
  refine h.congr (fun j => ?_) rfl rfl rfl
  by_cases hj : j = i
  · subst hj
    exact ⟨_, modify_buf_self ..⟩
  · exact ⟨_, modify_buf_of_ne c _ hj⟩

theorem Counted.modify (h : c.Counted)
    (hf : ∀ buf, (f buf).refcnt = buf.refcnt ∧ (f buf).lock = buf.lock) :
    (c.modify i f).Counted := by
  intro j
  obtain ⟨t, ht, hcount⟩ := h j
  refine ⟨t, ht, ?_⟩
  by_cases hji : j = i
  · subst hji
    rw [holders, modify_buf_self, (hf _).1, (hf _).2]
    exact hcount
  · rw [holders, modify_buf_of_ne c f hji]
    exact hcount

theorem Counted.refcnt_pos (h : c.Counted) (hp : (c.place p).pending = some i) :
    0 < (c.buf i).refcnt := by
  obtain ⟨t, ht, hcount⟩ := h i
  have hcard := Finset.card_pos.mpr ⟨p, (ht p).mpr hp⟩
  omega

/-- New contents are passed for the block of a buffer that the thread holds. -/
theorem Inv.write (h : c.Inv contents pinned) (hp : c.place p = .idle)
    (hlock : (c.buf i).lock = some p) (data : Block) (logged : Bool) :
    (c.modify i fun buf => { buf with data := data, dirty := true }).Inv
      (update contents (c.buf i).blockno data)
      (update pinned (c.buf i).blockno logged) := by
  have hnotin : i ∉ c.idequeue := fun hmem => by
    obtain ⟨q, caller, hq, hlq⟩ := h.sound.exists_wait hmem
    obtain rfl := Option.mem_unique hlq hlock
    rw [hp] at hq
    cases hq
  refine ⟨h.ringed, h.counted.modify ?_, h.sound.write hp hlock data logged, ?_⟩
  · exact fun _ => ⟨rfl, rfl⟩
  · exact started_modify h.started fun hmem => absurd hmem hnotin

/-- Moving a buffer to the front of the list. -/
theorem Ringed.toFront (h : c.Ringed) (i : Slot) :
    { c with links := (c.links.unlink i).pushFront i }.Ringed := by
  obtain ⟨xs, hxs, hall⟩ := h
  obtain ⟨ys, zs, rfl⟩ := List.append_of_mem (hall i)
  have hi : i ∉ ys ++ zs := (List.nodup_middle.mp hxs.1).notMem
  refine ⟨i :: (ys ++ zs), hxs.unlink.pushFront hi, fun j => ?_⟩
  have hj := hall j
  simp only [List.mem_append, List.mem_cons] at hj ⊢
  tauto

/-- The disk interrupt. -/
theorem Inv.ideintr (h : c.Inv contents pinned) (hstep : c.ideintr = some c') :
    Steps contents pinned c c' .silent := by
  unfold Cache.ideintr at hstep
  split at hstep
  next => exact Option.some.inj hstep ▸ Inv.steps h fun j => ⟨rfl, rfl⟩
  next i rest hqueue =>
    have hsound := h.sound.dequeue h.started hqueue
    set f : Buf ι → Buf ι := fun buf => { buf with
      data := if buf.dirty then buf.data else c.disk buf.blockno
      valid := true
      dirty := false } with hf
    have hcounted : ({ c with idequeue := rest }.modify i f).Counted :=
      Counted.modify (c := { c with idequeue := rest }) h.counted fun _ => ⟨rfl, rfl⟩
    have hblocks : ∀ j, (({ c with idequeue := rest }.modify i f).buf j).dev = (c.buf j).dev ∧
        (({ c with idequeue := rest }.modify i f).buf j).blockno = (c.buf j).blockno :=
      blocks_modify (c := { c with idequeue := rest }) fun _ => ⟨rfl, rfl⟩
    dsimp only at hstep
    split at hstep
    next =>
      cases hstep
      exact Inv.steps ⟨h.ringed, hcounted, hsound, nofun⟩ hblocks
    next j rest =>
      obtain ⟨disk, rfl, hwritten, -⟩ := idestart_eq hstep
      refine Inv.steps ⟨h.ringed, hcounted, hsound.idestart hstep, fun k hk hd => ?_⟩ hblocks
      cases hk
      exact hwritten hd

variable [DecidableEq ι]

section

variable (h : c.Counted)
include h

theorem counted_modify_goTo
    (hold : ∀ j, (c.place p).pending = some j → j = i) (hnew : ∀ j, pl.pending = some j → j = i)
    (hbal : (f (c.buf i)).refcnt + c.holders i + (if (c.place p).pending = some i then 1 else 0) =
      (c.buf i).refcnt + (if (f (c.buf i)).lock.isSome then 1 else 0) +
        if pl.pending = some i then 1 else 0) : ((c.modify i f).goTo p pl).Counted := by
  refine h.step p i (fun q hq => goTo_place_of_ne _ hq) (fun j hj => ?_) hold ?_ ?_
  · rw [goTo_buf, modify_buf_of_ne c f hj]
    exact ⟨rfl, rfl⟩
  · rw [goTo_place_self]
    exact hnew
  · have hholders : ((c.modify i f).goTo p pl).holders i =
        if (f (c.buf i)).lock.isSome then 1 else 0 := by
      rw [holders, goTo_buf, modify_buf_self]
    rw [goTo_buf, modify_buf_self, goTo_place_self, hbal, hholders]

/-- A thread gets a reference that is pending. -/
theorem Counted.gain (hold : (c.place p).pending = none)
    (hnew : pl.pending = some i) (hbal : (f (c.buf i)).refcnt + c.holders i =
      (c.buf i).refcnt + (if (f (c.buf i)).lock.isSome then 1 else 0) + 1) :
    ((c.modify i f).goTo p pl).Counted := by
  refine counted_modify_goTo h (fun j hj => ?_) (fun j hj => ?_) ?_
  · exact absurd (hold.symm.trans hj) nofun
  · exact Option.mem_unique hj hnew
  · rw [hold, if_neg (Option.some_ne_none i).symm, if_pos hnew, Nat.add_zero, hbal]

/-- A pending reference ends. -/
theorem Counted.lose (hold : (c.place p).pending = some i)
    (hnew : pl.pending = none) (hbal : (f (c.buf i)).refcnt + c.holders i + 1 =
      (c.buf i).refcnt + if (f (c.buf i)).lock.isSome then 1 else 0) :
    ((c.modify i f).goTo p pl).Counted := by
  refine counted_modify_goTo h (fun j hj => ?_) (fun j hj => ?_) ?_
  · exact Option.mem_unique hj hold
  · exact absurd (hnew.symm.trans hj) nofun
  · rw [if_pos hold, hnew, if_neg (Option.some_ne_none i).symm, hbal, Nat.add_zero]

/-- A move between places without a pending reference. -/
theorem Counted.goTo (hold : (c.place p).pending = none)
    (hnew : pl.pending = none) : (c.goTo p pl).Counted := by
  intro i
  obtain ⟨t, ht, hcount⟩ := h i
  refine ⟨t, fun q => ?_, hcount⟩
  by_cases hq : q = p
  · rw [ht q, hq, goTo_place_self, hold, hnew]
  · rw [ht q, goTo_place_of_ne c hq]

end

variable (h : c.Inv contents pinned)
include h

/-- A change of one buffer that keeps its block, its data and `B_DIRTY`. -/
theorem Inv.modify_goTo (hf : ∀ buf, (f buf).dev = buf.dev ∧ (f buf).blockno = buf.blockno ∧
      (f buf).dirty = buf.dirty ∧ (f buf).data = buf.data)
    (hcounted : ((c.modify i f).goTo p pl).Counted)
    (hsound : ((c.modify i f).goTo p pl).Sound contents pinned) :
    Steps contents pinned c ((c.modify i f).goTo p pl) .silent := by
  have hstarted : (c.modify i f).Started :=
    started_modify h.started fun _ => ⟨(hf _).2.2.1, (hf _).2.1, (hf _).2.2.2⟩
  refine Inv.steps ⟨h.ringed, hcounted, hsound, ?_⟩ fun j => ?_
  · exact hstarted.congr rfl rfl fun _ _ => ⟨rfl, rfl, rfl⟩
  · exact blocks_modify (fun buf => ⟨(hf buf).1, (hf buf).2.1⟩) j

/-- A move between places without a pending reference. -/
theorem Inv.goTo (hold : (c.place p).pending = none)
    (hnew : pl.pending = none) (hat : c.At pinned p pl)
    (hheld : ∀ i, (c.buf i).lock = some p → (c.buf i).valid = true ∨ pl.reads = some i)
    (hqueue : ∀ i ∈ c.idequeue, ∀ caller, c.place p ≠ .wait caller i) :
    (c.goTo p pl).Inv contents pinned where
  ringed := h.ringed
  counted := h.counted.goTo hold hnew
  sound := h.sound.goTo hat hheld hqueue
  started := h.started.congr rfl rfl fun _ _ => ⟨rfl, rfl, rfl⟩

/-! Each piece of code keeps the invariants. -/

theorem Inv.bget (hp : c.place p = .idle)
    (hstep : c.bget p b = some (c', e)) : Steps contents pinned c c' e := by
  have hheld : ∀ j, (c.buf j).lock = some p → (c.buf j).valid = true := fun j =>
    h.sound.valid_of_idle hp
  have hwait : ∀ caller j, c.place p ≠ .wait caller j := fun caller j heq => by
    rw [hp] at heq
    cases heq
  have hpend : (c.place p).pending = none := by rw [hp]; rfl
  unfold Cache.bget at hstep
  dsimp only at hstep
  split at hstep
  next i hfind =>
    -- the block is cached
    cases hstep
    have hi := (h.ringed.walk _).1 i hfind
    rw [decide_eq_true_eq] at hi
    refine h.modify_goTo (fun buf => ⟨rfl, rfl, rfl, rfl⟩) ?_ ?_
    · exact h.counted.gain hpend rfl (Nat.add_right_comm ..)
    · have hsound := h.sound.modify_refcnt (i := i) fun buf => buf.refcnt + 1
      refine hsound.goTo ?_ (fun j hj => .inl ?_) fun j _ caller => hwait caller j
      · refine (holds_modify ?_).mpr hi
        exact fun buf => ⟨rfl, rfl⟩
      · exact hsound.valid_of_idle hp hj
  next hfind =>
    split at hstep
    next i hunused =>
      -- an unused buffer is recycled
      cases hstep
      have hi := (h.ringed.walk _).2.2 i hunused
      rw [decide_eq_true_eq] at hi
      obtain ⟨hlock, hnopend⟩ := h.counted.unused hi.1
      have hnohold : ∀ j, ¬ c.Holds j b := fun j hj => by
        have hnone := (h.ringed.walk _).2.1 hfind j
        rw [decide_eq_false_iff_not] at hnone
        exact hnone hj
      have hsound := h.sound.recycle hi.2 hlock hnopend hnohold
      have hnotin : i ∉ c.idequeue := fun hmem => by
        obtain ⟨q, caller, -, hq⟩ := h.sound.exists_wait hmem
        exact absurd (hlock.symm.trans hq) nofun
      have hstarted := started_modify (f := fun buf => { buf with
          dev := ROOTDEV, blockno := b, valid := false, dirty := false, refcnt := 1 })
        h.started fun hmem => absurd hmem hnotin
      refine ⟨⟨h.ringed, ?_, ?_, ?_⟩, ?_, ?_, nofun⟩
      · refine h.counted.gain hpend rfl ?_
        rw [holders, hi.1, hlock]
        rfl
      · refine hsound.goTo ?_ (fun j hj => .inl ?_) fun j _ caller => hwait caller j
        · rw [At, Holds, modify_buf_self]
          exact ⟨rfl, rfl⟩
        · exact hsound.valid_of_idle hp hj
      · exact hstarted.congr rfl rfl fun _ _ => ⟨rfl, rfl, rfl⟩
      · rintro j ⟨⟩
        exact hi
      · intro j hj
        have hji : j ≠ i := fun heq => hj (heq ▸ rfl)
        rw [goTo_buf, modify_buf_of_ne c _ hji]
        exact ⟨rfl, rfl⟩
    next => cases hstep

theorem Inv.begin {call : Call} (hp : c.place p = .idle)
    (hstep : c.begin p call = some (c', e)) : Steps contents pinned c c' e := by
  have hpend : (c.place p).pending = none := by rw [hp]; rfl
  have hwait : ∀ caller j, c.place p ≠ .wait caller j := fun caller j heq => by
    rw [hp] at heq
    cases heq
  cases call with
  | bread => exact h.bget hp hstep
  | bwrite i data =>
    obtain ⟨hlock, hstep⟩ := guard_bind_eq_some.mp hstep
    cases hstep
    have hwrite := h.write hp hlock data false
    refine ⟨hwrite.goTo hpend rfl ⟨?_, ?_⟩ (fun j hj => .inl ?_) fun j _ caller => hwait caller j,
      by simp, fun j _ => ?_, by simp⟩
    · rw [modify_buf_self]
      exact hlock
    · rw [modify_buf_self]
      exact update_self ..
    · exact hwrite.sound.valid_of_idle hp hj
    · rw [goTo_buf]
      refine blocks_modify ?_ j
      exact fun _ => ⟨rfl, rfl⟩
  | brelse i =>
    obtain ⟨hlock, hstep⟩ := guard_bind_eq_some.mp hstep
    cases hstep
    have hothers : ∀ q ≠ p, (c.buf i).lock ≠ some q := fun q hq heq =>
      hq (Option.mem_unique heq hlock)
    refine h.modify_goTo (fun buf => ⟨rfl, rfl, rfl, rfl⟩) ?_ ?_
    · refine h.counted.gain hpend rfl ?_
      rw [holders, hlock]
      rfl
    · exact h.sound.relock hwait hothers (by simp) (h.sound.root i p hlock) trivial (by simp)
        fun j _ hj => h.sound.valid_of_idle hp hj

theorem Inv.logWrite {data : Block} (hp : c.place p = .idle)
    (hstep : c.logWrite p i data = some (c', e)) : Steps contents pinned c c' e := by
  obtain ⟨hlock, hstep⟩ := guard_bind_eq_some.mp hstep
  cases hstep
  refine ⟨h.write hp hlock data true, nofun, fun j _ => blocks_modify ?_ j, nofun⟩
  exact fun _ => ⟨rfl, rfl⟩

/-- The end of `brelse`. -/
theorem Inv.brelse (hp : c.place p = .release i) :
    Steps contents pinned c (c.brelse p i) .silent := by
  have hpend : (c.place p).pending = some i := by rw [hp]; rfl
  have hpos := h.counted.refcnt_pos hpend
  set f : Buf ι → Buf ι := fun buf => { buf with refcnt := buf.refcnt - 1 } with hf
  obtain ⟨links, hlinks, heq⟩ : ∃ links, { c with links := links }.Ringed ∧
      c.brelse p i = { c.modify i f with links := links }.goTo p .idle := by
    unfold Cache.brelse
    dsimp only
    split_ifs
    · exact ⟨_, h.ringed.toFront i, rfl⟩
    · exact ⟨_, h.ringed, rfl⟩
  rw [heq]
  have hsound : (c.modify i f).Sound contents pinned :=
    h.sound.modify_refcnt fun buf => buf.refcnt - 1
  have hcounted : ((c.modify i f).goTo p .idle).Counted := by
    refine h.counted.lose hpend rfl ?_
    rw [hf, holders]
    dsimp only
    omega
  have hplaced : ((c.modify i f).goTo p .idle).Sound contents pinned := by
    refine hsound.goTo trivial (fun j hj => .inl ?_) fun j _ caller hwait => ?_
    · rcases hsound.held j p hj with hv | hr
      · exact hv
      · rw [modify_place, hp] at hr
        cases hr
    · rw [modify_place, hp] at hwait
      cases hwait
  have hstarted : (c.modify i f).Started := started_modify h.started fun _ => ⟨rfl, rfl, rfl⟩
  refine Inv.steps ⟨hlinks, hcounted, ?_, ?_⟩ fun j => ?_
  · exact hplaced.congr (fun j => ⟨_, rfl⟩) rfl rfl rfl
  · exact hstarted.congr rfl rfl fun _ _ => ⟨rfl, rfl, rfl⟩
  · refine blocks_modify (c := c) (i := i) (f := f) ?_ j
    exact fun _ => ⟨rfl, rfl⟩

/-- `iderw` up to its loop. -/
theorem Inv.iderw {caller : Option ℕ}
    (hp : c.place p = .iderw caller i) (hstep : c.iderw p caller i = some c') :
    Steps contents pinned c c' .silent := by
  obtain ⟨-, hstep⟩ := guard_bind_eq_some.mp hstep
  obtain ⟨hflags, hstep⟩ := guard_bind_eq_some.mp hstep
  obtain ⟨-, hstep⟩ := guard_bind_eq_some.mp hstep
  have hflags : (c.buf i).valid = false ∨ (c.buf i).dirty = true := by
    simpa [imp_iff_not_or] using hflags
  have hsound := h.sound.enqueue hp hflags
  have hcounted : ({ c with idequeue := c.idequeue ++ [i] }.goTo p (.wait caller i)).Counted :=
    h.counted.goTo (by rw [hp]; rfl) rfl
  dsimp only at hstep
  split_ifs at hstep with hempty
  · -- the disk is idle, and starts on the buffer
    obtain ⟨disk, rfl, hwritten, -⟩ := idestart_eq hstep
    have hstart := hsound.idestart hstep
    refine Inv.steps ⟨h.ringed, hcounted, hstart, fun j hj hd => ?_⟩ fun j => ⟨rfl, rfl⟩
    have hj : j = i := by
      simpa [hempty] using hj.symm
    subst hj
    exact hwritten hd
  · cases hstep
    refine Inv.steps ⟨h.ringed, hcounted, hsound, fun j hj hd => ?_⟩ fun j => ⟨rfl, rfl⟩
    have hj : j ∈ c.idequeue.head? := by
      rwa [goTo_idequeue, List.head?_append_of_ne_nil _ hempty] at hj
    exact h.started j hj hd

/-- Behind `acquiresleep`. -/
theorem Inv.acquire (hp : c.place p = .acquire b i) (hlock : (c.buf i).lock = none) :
    Steps contents pinned c
      ((c.modify i fun buf => { buf with lock := some p }).goTo p (.test b i)) .silent := by
  have hi : c.Holds i b := by
    have hat := h.sound.places p
    rwa [hp] at hat
  refine h.modify_goTo (fun _ => ⟨rfl, rfl, rfl, rfl⟩) ?_ ?_
  · refine h.counted.lose (by rw [hp]; rfl) rfl ?_
    rw [holders, hlock]
    rfl
  · refine h.sound.relock ?_ ?_ ?_ hi.1 ⟨?_, ?_⟩ (fun _ => rfl) ?_
    · intro caller j hwait
      rw [hp] at hwait
      cases hwait
    · intro q _ hq
      simp [hlock] at hq
    · intro q hq heq
      exact hq (Option.some.inj heq).symm
    · refine (holds_modify ?_).mpr hi
      exact fun _ => ⟨rfl, rfl⟩
    · rw [modify_buf_self]
    · intro j _ hj
      rcases h.sound.held j p hj with hv | hr
      · exact hv
      · rw [hp] at hr
        cases hr

/-- `bread` returns the buffer that it has read, or that has been read before. -/
theorem Inv.return (hpend : (c.place p).pending = none)
    (hreads : ∀ j, (c.place p).reads = some j → (c.buf j).valid = true)
    (hqueue : ∀ j ∈ c.idequeue, ∀ caller, c.place p ≠ .wait caller j) :
    (c.goTo p .idle).Inv contents pinned := by
  refine h.goTo hpend rfl trivial (fun j hj => .inl ?_) hqueue
  exact (h.sound.held j p hj).elim id (hreads j)

theorem Inv.resume (hstep : c.resume p = some (c', e)) : Steps contents pinned c c' e := by
  have hat := h.sound.places p
  unfold Cache.resume at hstep
  split at hstep
  next => cases hstep
  next b i hp =>
    obtain ⟨hlock, hstep⟩ := guard_bind_eq_some.mp hstep
    cases hstep
    exact h.acquire hp hlock
  next b i hp =>
    rw [hp] at hat
    split_ifs at hstep with hvalid
    · cases hstep
      refine ⟨h.return (by rw [hp]; rfl) (fun j hj => ?_) (by simp [hp]), nofun,
        fun j _ => ⟨rfl, rfl⟩, ?_⟩
      · rw [hp] at hj
        exact Option.some.inj hj ▸ hvalid
      · rintro b' data ⟨⟩
        exact h.sound.data i b hat.1 hvalid
    · cases hstep
      refine Inv.steps (h.goTo (by rw [hp]; rfl) rfl ?_ (fun j hj => ?_) (by simp [hp]))
        fun j => ⟨rfl, rfl⟩
      · exact ⟨hat.1, hat.2, Bool.eq_false_iff.mpr hvalid⟩
      · have hheld := h.sound.held j p hj
        rwa [hp] at hheld
  next caller i hp =>
    obtain ⟨c₁, hiderw, hstep⟩ := Option.bind_eq_some_iff.mp hstep
    cases hstep
    exact h.iderw hp hiderw
  next caller i hp =>
    rw [hp] at hat
    obtain ⟨⟨hvalid, hdirty⟩, hstep⟩ := guard_bind_eq_some.mp hstep
    cases hstep
    have hinv : (c.goTo p .idle).Inv contents pinned := by
      refine h.return (by rw [hp]; rfl) (fun j hj => ?_) fun j hj caller' hwait => ?_
      · rw [hp] at hj
        cases caller with
        | none => cases hj
        | some => exact Option.some.inj hj ▸ hvalid
      · -- what the disk is done with is not in the queue
        rw [hp] at hwait
        obtain ⟨-, rfl⟩ := Place.wait.inj hwait
        rcases (h.sound.queue i hj).1 with hv | hd
        · rw [hvalid] at hv
          cases hv
        · rw [hdirty] at hd
          cases hd
    cases caller with
    | none => exact Inv.steps hinv fun j => ⟨rfl, rfl⟩
    | some b =>
      refine ⟨hinv, nofun, fun j _ => ⟨rfl, rfl⟩, ?_⟩
      rintro b' data ⟨⟩
      exact h.sound.data i b hat.1 hvalid
  next i hp =>
    cases hstep
    exact h.brelse hp

end Cache

/-! ## Runs -/

/-- The contents last passed to `bwrite` or `log_write` for each block, or what was on the disk. -/
def contentsOf (disk : ℕ → Block) : List (State ι × (Action ι × Event)) → ℕ → Block
  | [] => disk
  | x :: hist => x.2.2.contents (contentsOf disk hist)

/-- The blocks for which `log_write` was called, and `bwrite` not since. -/
def pinnedBy : List (State ι × (Action ι × Event)) → ℕ → Bool
  | [] => fun _ => false
  | x :: hist => x.2.2.pinned (pinnedBy hist)

variable {σ σ' : State ι} {a : Action ι} {disk : ℕ → Block}
  {hist : List (State ι × (Action ι × Event))}

namespace State

theorem inv_init (h : σ.Initial disk) : σ.cache.Inv disk fun _ => false := by
  obtain ⟨hbuf, hlinks, hqueue, hdisk, hplace, -⟩ := h
  have hnone : ∀ i p, (σ.cache.buf i).lock ≠ some p := fun i p => by
    simp [(hbuf i).2.2.1]
  have hno : ∀ i b, ¬ σ.cache.Holds i b := fun i b hi =>
    absurd ((hbuf i).1.symm.trans hi.1) (by decide)
  refine ⟨⟨(List.finRange NBUF).reverse ++ [], ?_, fun i => by simp⟩, fun i => ?_, ?_, ?_⟩
  · rw [hlinks, Cache.binit]
    refine Links.rings_empty.foldl_pushFront ?_
    rw [List.append_nil]
    exact List.nodup_finRange NBUF
  · refine ⟨∅, fun p => ?_, ?_⟩
    · simp [hplace p, Place.pending]
    · rw [holders, (hbuf i).2.2.1, (hbuf i).2.2.2]
      rfl
  · refine
      { unique := fun i _ b hi => absurd hi (hno i b)
        places := fun p => ?_
        root := fun i p hi => absurd hi (hnone i p)
        held := fun i p hi => absurd hi (hnone i p)
        dirty := fun i hi => ?_
        data := fun i b hi => absurd hi (hno i b)
        disk := fun b _ => congrFun hdisk b
        pin := by simp
        nodup := ?_
        queue := fun i hi => ?_ }
    · rw [hplace p]
      trivial
    · rw [(hbuf i).2.1] at hi
      cases hi
    · rw [hqueue]
      exact .nil
    · rw [hqueue] at hi
      cases hi
  · intro i hi
    rw [hqueue] at hi
    cases hi

variable [DecidableEq ι]

@[simp]
theorem endLoop_cache (p : ι) (σ : State ι) (phase : Phase) :
    (σ.endLoop p phase).cache = σ.cache := by
  cases phase <;> rfl

theorem inv_begin {call : Call} (h : σ.cache.Inv contents pinned)
    (hstep : σ.begin p call = some (σ', e)) : Steps contents pinned σ.cache σ'.cache e := by
  obtain ⟨hp, hstep⟩ := guard_bind_eq_some.mp hstep
  obtain ⟨⟨cache, e'⟩, hbegin, hstep⟩ := Option.bind_eq_some_iff.mp hstep
  cases hstep
  exact h.begin hp hbegin

/-- Whatever happens, the cache makes one of its steps, or none. -/
theorem inv_step (h : σ.cache.Inv contents pinned) (hstep : σ.step a = some (σ', e)) :
    Steps contents pinned σ.cache σ'.cache e := by
  have hstay : Steps contents pinned σ.cache σ.cache .silent := Inv.steps h fun _ => ⟨rfl, rfl⟩
  cases a with
  | call =>
    obtain ⟨-, hstep⟩ := Option.ite_none_right_eq_some.mp hstep
    exact inv_begin h hstep
  | logWrite =>
    obtain ⟨-, hstep⟩ := Option.ite_none_right_eq_some.mp hstep
    obtain ⟨hp, hstep⟩ := guard_bind_eq_some.mp hstep
    obtain ⟨-, hstep⟩ := guard_bind_eq_some.mp hstep
    obtain ⟨⟨cache, e'⟩, hlog, hstep⟩ := Option.bind_eq_some_iff.mp hstep
    cases hstep
    exact h.logWrite hp hlog
  | commit =>
    obtain ⟨-, hstep⟩ := Option.ite_none_right_eq_some.mp hstep
    cases hstep
    exact hstay
  | continueCommit =>
    rw [step, continueCommit] at hstep
    split at hstep
    next => cases hstep
    next point _ =>
      split at hstep
      next => exact inv_begin h hstep
      next =>
        obtain ⟨-, hstep⟩ := Option.ite_none_right_eq_some.mp hstep
        cases hstep
        rw [endLoop_cache]
        exact hstay
      next => cases hstep
  | resume =>
    obtain ⟨i, -, hstep⟩ := Option.bind_eq_some_iff.mp hstep
    obtain ⟨⟨cache, e'⟩, hresume, hstep⟩ := Option.bind_eq_some_iff.mp hstep
    cases hstep
    exact h.resume hresume
  | ideintr =>
    obtain ⟨cache, hintr, hstep⟩ := Option.bind_eq_some_iff.mp hstep
    cases hstep
    exact h.ideintr hintr

end State

/-- The invariants hold in every reachable state. -/
theorem inv_run [DecidableEq ι] (hrun : (system ι disk).Run hist σ) :
    σ.cache.Inv (contentsOf disk hist) (pinnedBy hist) := by
  refine hrun.historyInvariant
    (I := fun hist σ => σ.cache.Inv (contentsOf disk hist) (pinnedBy hist))
    (fun σ hσ => State.inv_init hσ) fun hist σ l σ' _ h hstep => ?_
  exact (State.inv_step h hstep).inv

/-- Whatever threads do, a block is in at most one buffer and the buffers form one ring; logged
blocks stay in dirty buffers; only unused clean buffers are recycled; and `bread` returns what was
last passed for its block, or what the disk holds. -/
theorem cache_coherent [DecidableEq ι] (hrun : (system ι disk).Run hist σ) :
    (∀ i j b, σ.cache.Holds i b → σ.cache.Holds j b → i = j) ∧
    (∃ xs, σ.cache.links.Rings xs ∧ ∀ i, i ∈ xs) ∧
    (∀ b, pinnedBy hist b = true → ∃ i, σ.cache.Holds i b ∧ (σ.cache.buf i).dirty = true) ∧
    ∀ a σ' e, σ.step a = some (σ', e) →
      (∀ i, e = .recycled i → (σ.cache.buf i).refcnt = 0 ∧ (σ.cache.buf i).dirty = false) ∧
      (∀ i, e ≠ .recycled i → (σ'.cache.buf i).dev = (σ.cache.buf i).dev ∧
        (σ'.cache.buf i).blockno = (σ.cache.buf i).blockno) ∧
      ∀ b data, e = .returned b data → data = contentsOf disk hist b := by
  have h := inv_run hrun
  refine ⟨h.sound.unique, h.ringed, h.sound.pin, fun a σ' e hstep => ?_⟩
  obtain ⟨-, hrecycled, hblocks, hreturned⟩ := State.inv_step h hstep
  exact ⟨hrecycled, hblocks, hreturned⟩

/-- A machine with one thread and an empty disk. -/
def boot : State Unit where
  cache :=
    { buf := fun _ =>
        { dev := 0, blockno := 0, valid := false, dirty := false, lock := none, refcnt := 0
          data := fun _ => 0 }
      links := Cache.binit
      idequeue := []
      havedisk1 := true
      disk := fun _ _ => 0
      place := fun _ => .idle }
  start := 2
  size := 30
  lh := { n := 0, block := fun _ => 0 }
  commit := fun _ => none

/-- Whatever a test finds after an execution from `boot` is found at the end of some run. -/
theorem exists_run (as : List (Action Unit))
    (P : List (State Unit × (Action Unit × Event)) → State Unit → Bool)
    (h : (exec State.step [] boot as).any (fun r => P r.1 r.2) = true) :
    ∃ hist σ, (system Unit fun _ _ => 0).Run hist σ ∧ P hist σ = true :=
  exists_run_of_exec_any
    ⟨fun _ => ⟨rfl, rfl, rfl, rfl⟩, rfl, rfl, rfl, fun _ => rfl, fun _ => rfl⟩ h

/-- The thread reads block 5, logs new contents for it and releases the buffer. -/
theorem cache_coherent_logWrite :
    ∃ hist σ, (system Unit fun _ _ => 0).Run hist σ ∧ contentsOf (fun _ _ => 0) hist 5 0 = 7 ∧
      pinnedBy hist 5 = true ∧ ∃ i, σ.cache.Holds i 5 ∧ (σ.cache.buf i).dirty = true := by
  obtain ⟨hist, σ, hrun, htest⟩ := exists_run
    [.call () (.bread 5), .resume (), .resume (), .resume (), .ideintr, .resume (),
      .logWrite () ⟨0, by decide⟩ (fun _ => 7), .call () (.brelse ⟨0, by decide⟩), .resume ()]
    (fun hist _ => decide (contentsOf (fun _ _ => 0) hist 5 0 = 7) && pinnedBy hist 5)
    (by decide +kernel)
  obtain ⟨hcontents, hpinned⟩ := Bool.and_eq_true_iff.mp htest
  exact ⟨hist, σ, hrun, of_decide_eq_true hcontents, hpinned, (cache_coherent hrun).2.2.1 5 hpinned⟩

end FileSystem.BufferCache
