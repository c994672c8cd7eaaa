import Mathlib
import OsnAssignments.FileSystem.BufferCache

/-!
# Invariants of the buffer cache

The links of the buffers form one ring (`Ringed`). The reference count of a buffer is the number of
threads that hold it or are about to acquire or release it (`Counted`). What the buffers, the disk
and the threads say about each other agrees with the contents that were last passed to `bwrite` and
`log_write` (`Sound`, and `Started` for the request that the disk is working on). A step makes one
of a few kinds of changes, and for each there is one lemma about `Sound`.
-/

namespace FileSystem.BufferCache

open LinkedRing Transition Function

variable {ι : Type} {c c' : Cache ι} {p q : ι} {i j : Slot} {b : ℕ} {pl : Place}
  {contents : ℕ → Block} {pinned pinned' : ℕ → Bool}

/-! ## The invariants -/

/-- The buffer of a thread that has a reference to it but not its lock. -/
def Place.pending : Place → Option Slot
  | .acquire _ i | .release i => some i
  | _ => none

/-- The buffer whose data a thread has yet to read. -/
def Place.reads : Place → Option Slot
  | .test _ i | .iderw (some _) i | .wait (some _) i => some i
  | _ => none

namespace Cache

/-- The list of buffers is one ring of all buffers. -/
def Ringed (c : Cache ι) : Prop :=
  ∃ xs, c.links.Rings xs ∧ ∀ i, i ∈ xs

/-- The buffer holds this block of the root device. -/
def Holds (c : Cache ι) (i : Slot) (b : ℕ) : Prop :=
  (c.buf i).dev = ROOTDEV ∧ (c.buf i).blockno = b

/-- How many references the lock of the buffer stands for. -/
def holders (c : Cache ι) (i : Slot) : ℕ :=
  if (c.buf i).lock.isSome then 1 else 0

/-- The reference counts are right. -/
def Counted (c : Cache ι) : Prop :=
  ∀ i, ∃ t : Finset ι, (∀ p, p ∈ t ↔ (c.place p).pending = some i) ∧
    (c.buf i).refcnt = t.card + c.holders i

/-- What a thread at this place knows about its buffer. -/
def At (c : Cache ι) (pinned : ℕ → Bool) (p : ι) : Place → Prop
  | .idle => True
  | .acquire b i => c.Holds i b
  | .test b i => c.Holds i b ∧ (c.buf i).lock = some p
  | .iderw (some b) i => c.Holds i b ∧ (c.buf i).lock = some p ∧ (c.buf i).valid = false
  | .iderw none i => (c.buf i).lock = some p ∧ pinned (c.buf i).blockno = false
  | .wait (some b) i => c.Holds i b ∧ (c.buf i).lock = some p ∧ (c.buf i).dirty = false
  | .wait none i => (c.buf i).lock = some p ∧ pinned (c.buf i).blockno = false
  | .release _ => True

/-- The buffers, the disk and the threads agree with the contents that were last passed for each
block. `pinned b` says that they were passed to `log_write`. -/
structure Sound (contents : ℕ → Block) (pinned : ℕ → Bool) (c : Cache ι) : Prop where
  unique : ∀ i j b, c.Holds i b → c.Holds j b → i = j
  places : ∀ p, c.At pinned p (c.place p)
  /-- Only buffers of the root device are in use. -/
  root : ∀ i p, (c.buf i).lock = some p → (c.buf i).dev = ROOTDEV
  /-- A thread holds a buffer that has been read, or is about to read it. -/
  held : ∀ i p, (c.buf i).lock = some p → (c.buf i).valid = true ∨ (c.place p).reads = some i
  dirty : ∀ i, (c.buf i).dirty = true → (c.buf i).valid = true ∧ (c.buf i).dev = ROOTDEV
  data : ∀ i b, c.Holds i b → (c.buf i).valid = true → (c.buf i).data = contents b
  /-- The disk is out of date only for the blocks of dirty buffers. -/
  disk : ∀ b, (∀ i, c.Holds i b → (c.buf i).dirty = false) → c.disk b = contents b
  /-- What was passed to `log_write` is in a dirty buffer. -/
  pin : ∀ b, pinned b = true → ∃ i, c.Holds i b ∧ (c.buf i).dirty = true
  nodup : c.idequeue.Nodup
  /-- A buffer in the queue has something to do, and a thread waits for it. -/
  queue : ∀ i ∈ c.idequeue, ((c.buf i).valid = false ∨ (c.buf i).dirty = true) ∧
    ∃ p caller, c.place p = .wait caller i

/-- The request at the head of the queue has been sent to the disk. -/
def Started (c : Cache ι) : Prop :=
  ∀ i ∈ c.idequeue.head?, (c.buf i).dirty = true → c.disk (c.buf i).blockno = (c.buf i).data

end Cache

open Cache

/-! ## The state after one change -/

section Fields

variable (c) (f : Buf ι → Buf ι)

@[simp]
theorem modify_buf_self : (c.modify i f).buf i = f (c.buf i) :=
  update_self ..

theorem modify_buf_of_ne (h : j ≠ i) : (c.modify i f).buf j = c.buf j :=
  update_of_ne h ..

@[simp]
theorem modify_place : (c.modify i f).place = c.place := rfl

variable [DecidableEq ι]

@[simp]
theorem goTo_buf : (c.goTo p pl).buf = c.buf := rfl

@[simp]
theorem goTo_place_self : (c.goTo p pl).place p = pl :=
  update_self ..

theorem goTo_place_of_ne (h : q ≠ p) : (c.goTo p pl).place q = c.place q :=
  update_of_ne h ..

@[simp]
theorem goTo_idequeue : (c.goTo p pl).idequeue = c.idequeue := rfl

end Fields

/-! ## Reference counts -/

/-- A buffer without references is neither locked nor pending. -/
theorem Cache.Counted.unused (h : c.Counted) (hi : (c.buf i).refcnt = 0) :
    (c.buf i).lock = none ∧ ∀ p, (c.place p).pending ≠ some i := by
  obtain ⟨t, ht, hcount⟩ := h i
  rw [hi] at hcount
  refine ⟨?_, fun p hp => ?_⟩
  · by_contra hlock
    rw [holders, if_pos (Option.isSome_iff_ne_none.mpr hlock)] at hcount
    omega
  · have hcard := Finset.card_pos.mpr ⟨p, (ht p).mpr hp⟩
    omega

/-- A step of thread `p` that concerns buffer `i`: what it adds to the reference count, it adds to
the references. -/
theorem Cache.Counted.step [DecidableEq ι] (h : c.Counted) (p : ι) (i : Slot)
    (hplace : ∀ q ≠ p, c'.place q = c.place q)
    (hbuf : ∀ j ≠ i, (c'.buf j).refcnt = (c.buf j).refcnt ∧ (c'.buf j).lock = (c.buf j).lock)
    (hold : ∀ j, (c.place p).pending = some j → j = i)
    (hnew : ∀ j, (c'.place p).pending = some j → j = i)
    (hbal : (c'.buf i).refcnt + c.holders i + (if (c.place p).pending = some i then 1 else 0) =
      (c.buf i).refcnt + c'.holders i + if (c'.place p).pending = some i then 1 else 0) :
    c'.Counted := by
  intro j
  obtain ⟨t, ht, hcount⟩ := h j
  by_cases hj : j = i
  · subst hj
    refine ⟨if (c'.place p).pending = some j then insert p t else t.erase p, fun q => ?_, ?_⟩
    · by_cases hq : q = p
      · subst hq
        split_ifs with hpend
        · simp [hpend]
        · simp [hpend]
      · rw [hplace q hq, ← ht]
        split_ifs <;> simp [hq]
    · have hp := ht p
      by_cases hpend : (c.place p).pending = some j <;>
        by_cases hpend' : (c'.place p).pending = some j <;>
        simp only [hpend, hpend', if_true, if_false, iff_true, iff_false] at hbal hp ⊢
      · rw [Finset.insert_eq_of_mem hp]
        omega
      · have hcard := Finset.card_erase_add_one hp
        omega
      · rw [Finset.card_insert_of_notMem hp]
        omega
      · rw [Finset.erase_eq_of_notMem hp]
        omega
  · refine ⟨t, fun q => ?_, ?_⟩
    · by_cases hq : q = p
      · subst hq
        rw [ht q]
        exact ⟨fun hpend => absurd (hold j hpend) hj, fun hpend => absurd (hnew j hpend) hj⟩
      · rw [ht q, hplace q hq]
    · rw [(hbuf j hj).1, hcount, holders, holders, (hbuf j hj).2]

/-! ## Buffers, disk and threads -/

/-- What a thread knows stays true when its buffer keeps its block, and keeps its flags as long as
the thread holds it. -/
theorem Cache.At.congr (h : c.At pinned p pl) (hid : ∀ i, pl.slot = some i →
      (c'.buf i).dev = (c.buf i).dev ∧ (c'.buf i).blockno = (c.buf i).blockno)
    (hlock : ∀ i, (c.buf i).lock = some p → (c'.buf i).lock = some p ∧
      (c'.buf i).valid = (c.buf i).valid ∧ (c'.buf i).dirty = (c.buf i).dirty ∧
      pinned' (c.buf i).blockno = pinned (c.buf i).blockno) : c'.At pinned' p pl := by
  have hholds : ∀ i b, pl.slot = some i → c.Holds i b → c'.Holds i b := fun i b hi hb =>
    ⟨(hid i hi).1.trans hb.1, (hid i hi).2.trans hb.2⟩
  match pl with
  | .idle => trivial
  | .acquire b i => exact hholds i b rfl h
  | .test b i => exact ⟨hholds i b rfl h.1, (hlock i h.2).1⟩
  | .iderw (some b) i =>
    obtain ⟨hlk, hvalid, -⟩ := hlock i h.2.1
    exact ⟨hholds i b rfl h.1, hlk, hvalid.trans h.2.2⟩
  | .iderw none i =>
    obtain ⟨hlk, -, -, hpin⟩ := hlock i h.1
    exact ⟨hlk, (hid i rfl).2 ▸ hpin.trans h.2⟩
  | .wait (some b) i =>
    obtain ⟨hlk, -, hdirty, -⟩ := hlock i h.2.1
    exact ⟨hholds i b rfl h.1, hlk, hdirty.trans h.2.2⟩
  | .wait none i =>
    obtain ⟨hlk, -, -, hpin⟩ := hlock i h.1
    exact ⟨hlk, (hid i rfl).2 ▸ hpin.trans h.2⟩
  | .release i => trivial

/-- A thread at a place in `bread` or `bwrite` behind `acquiresleep` holds its buffer. -/
theorem Cache.At.lock_eq (h : c.At pinned p pl) (hi : pl.slot = some i)
    (hpend : pl.pending ≠ some i) : (c.buf i).lock = some p := by
  match pl with
  | .idle => cases hi
  | .acquire b j => exact absurd hi hpend
  | .test b j => exact Option.some.inj hi ▸ h.2
  | .iderw (some b) j => exact Option.some.inj hi ▸ h.2.1
  | .iderw none j => exact Option.some.inj hi ▸ h.1
  | .wait (some b) j => exact Option.some.inj hi ▸ h.2.1
  | .wait none j => exact Option.some.inj hi ▸ h.1
  | .release j => exact absurd hi hpend

section

variable (h : c.Sound contents pinned)
include h

/-- Only the thread that waits for a buffer in the queue holds it. -/
theorem Cache.Sound.exists_wait (hi : i ∈ c.idequeue) :
    ∃ p caller, c.place p = .wait caller i ∧ (c.buf i).lock = some p := by
  obtain ⟨-, p, caller, hwait⟩ := h.queue i hi
  have hat := h.places p
  rw [hwait] at hat
  exact ⟨p, caller, hwait, hat.lock_eq rfl nofun⟩

/-- Reference counts and links do not matter. -/
theorem Cache.Sound.congr
    (hbuf : ∀ i, ∃ r, c'.buf i = { c.buf i with refcnt := r }) (hplace : c'.place = c.place)
    (hqueue : c'.idequeue = c.idequeue) (hdisk : c'.disk = c.disk) : c'.Sound contents pinned := by
  choose r hr using hbuf
  have hholds : ∀ i b, c'.Holds i b ↔ c.Holds i b := fun i b => by rw [Holds, Holds, hr]
  exact
    { unique := by simpa only [hholds] using h.unique
      places := fun p => by
        rw [hplace]
        refine (h.places p).congr (fun i _ => ?_) fun i hi => ?_ <;> rw [hr]
        · exact ⟨rfl, rfl⟩
        · exact ⟨hi, rfl, rfl, rfl⟩
      root := by simpa only [hr] using h.root
      held := by simpa only [hr, hplace] using h.held
      dirty := by simpa only [hr] using h.dirty
      data := by simpa only [hr, hholds] using h.data
      disk := by simpa only [hr, hholds, hdisk] using h.disk
      pin := by simpa only [hr, hholds] using h.pin
      nodup := hqueue ▸ h.nodup
      queue := by simpa only [hr, hplace, hqueue] using h.queue }

/-- A thread moves to another place. -/
theorem Cache.Sound.goTo [DecidableEq ι] (hat : c.At pinned p pl)
    (hheld : ∀ i, (c.buf i).lock = some p → (c.buf i).valid = true ∨ pl.reads = some i)
    (hqueue : ∀ i ∈ c.idequeue, ∀ caller, c.place p ≠ .wait caller i) :
    (c.goTo p pl).Sound contents pinned := by
  refine { h with places := fun q => ?_, held := fun i q hi => ?_, queue := fun i hi => ?_ }
  · by_cases hq : q = p
    · subst hq
      rw [goTo_place_self]
      exact hat.congr (fun i _ => ⟨rfl, rfl⟩) fun i hi => ⟨hi, rfl, rfl, rfl⟩
    · rw [goTo_place_of_ne c hq]
      exact (h.places q).congr (fun i _ => ⟨rfl, rfl⟩) fun i hi => ⟨hi, rfl, rfl, rfl⟩
  · by_cases hq : q = p
    · subst hq
      rw [goTo_place_self]
      exact hheld i hi
    · rw [goTo_place_of_ne c hq]
      exact h.held i q hi
  · obtain ⟨hflags, q, caller, hq⟩ := h.queue i hi
    have hne : q ≠ p := by
      rintro rfl
      exact hqueue i hi caller hq
    exact ⟨hflags, q, caller, (goTo_place_of_ne c hne).trans hq⟩

/-- An idle thread holds buffers that have been read. -/
theorem Cache.Sound.valid_of_idle (hp : c.place p = .idle)
    (hi : (c.buf i).lock = some p) : (c.buf i).valid = true := by
  rcases h.held i p hi with hv | hr
  · exact hv
  · rw [hp] at hr
    cases hr

/-- Buffer `i` gets a new block, where nobody uses it and no buffer holds the block. -/
theorem Cache.Sound.recycle (hdirty : (c.buf i).dirty = false)
    (hlock : (c.buf i).lock = none) (hpend : ∀ q, (c.place q).pending ≠ some i)
    (hb : ∀ j, ¬ c.Holds j b) : (c.modify i fun buf => { buf with
      dev := ROOTDEV, blockno := b, valid := false, dirty := false, refcnt := 1 }).Sound
        contents pinned := by
  set c' := c.modify i fun buf => { buf with
      dev := ROOTDEV, blockno := b, valid := false, dirty := false, refcnt := 1 } with hc'
  have hself : c'.buf i = { c.buf i with
      dev := ROOTDEV, blockno := b, valid := false, dirty := false, refcnt := 1 } :=
    modify_buf_self ..
  have hother : ∀ j, j ≠ i → c'.buf j = c.buf j := fun j hj => modify_buf_of_ne c _ hj
  have hholds : ∀ j b', j ≠ i → (c'.Holds j b' ↔ c.Holds j b') := fun j b' hj => by
    rw [Holds, Holds, hother j hj]
  have hnew : ∀ b', c'.Holds i b' ↔ b = b' := fun b' => by
    rw [Holds, hself]
    exact and_iff_right rfl
  have hne : ∀ j q, (c'.buf j).lock = some q → j ≠ i := by
    rintro j q hj rfl
    rw [hself] at hj
    exact absurd (hlock.symm.trans hj) nofun
  refine
    { unique := fun j k b' hj hk => ?_
      places := fun q => ?_
      root := fun j q hj => ?_
      held := fun j q hj => ?_
      dirty := fun j hj => ?_
      data := fun j b' hj hv => ?_
      disk := fun b' hb' => ?_
      pin := fun b' hb' => ?_
      nodup := h.nodup
      queue := fun j hj => ?_ }
  · by_cases hji : j = i <;> by_cases hki : k = i
    · exact hji.trans hki.symm
    · subst hji
      obtain rfl := (hnew b').mp hj
      exact absurd ((hholds k b hki).mp hk) (hb k)
    · subst hki
      obtain rfl := (hnew b').mp hk
      exact absurd ((hholds j b hji).mp hj) (hb j)
    · exact h.unique j k b' ((hholds j b' hji).mp hj) ((hholds k b' hki).mp hk)
  · have hat := h.places q
    refine hat.congr (fun j hj => ?_) fun j hj => ?_
    · have hji : j ≠ i := by
        rintro rfl
        exact absurd (hlock.symm.trans (hat.lock_eq hj (hpend q))) nofun
      rw [hother j hji]
      exact ⟨rfl, rfl⟩
    · have hji : j ≠ i := by
        rintro rfl
        exact absurd (hlock.symm.trans hj) nofun
      rw [hother j hji]
      exact ⟨hj, rfl, rfl, rfl⟩
  · have heq := hother j (hne j q hj)
    rw [heq] at hj ⊢
    exact h.root j q hj
  · have heq := hother j (hne j q hj)
    rw [heq] at hj ⊢
    exact h.held j q hj
  · have hji : j ≠ i := by
      rintro rfl
      rw [hself] at hj
      cases hj
    rw [hother j hji] at hj ⊢
    exact h.dirty j hj
  · have hji : j ≠ i := by
      rintro rfl
      rw [hself] at hv
      cases hv
    rw [hother j hji] at hv ⊢
    exact h.data j b' ((hholds j b' hji).mp hj) hv
  · refine h.disk b' fun j hj => ?_
    by_cases hji : j = i
    · exact hji ▸ hdirty
    · rw [← hother j hji]
      exact hb' j ((hholds j b' hji).mpr hj)
  · obtain ⟨j, hj, hd⟩ := h.pin b' hb'
    have hji : j ≠ i := by
      rintro rfl
      rw [hdirty] at hd
      cases hd
    refine ⟨j, (hholds j b' hji).mpr hj, ?_⟩
    rwa [hother j hji]
  · obtain ⟨q, caller, -, hq⟩ := h.exists_wait hj
    have hji : j ≠ i := by
      rintro rfl
      exact absurd (hlock.symm.trans hq) nofun
    rw [hother j hji]
    exact h.queue j hj

end

theorem holds_modify {f : Buf ι → Buf ι}
    (hf : ∀ buf, (f buf).dev = buf.dev ∧ (f buf).blockno = buf.blockno) :
    (c.modify i f).Holds j b ↔ c.Holds j b := by
  by_cases hj : j = i
  · subst hj
    rw [Holds, Holds, modify_buf_self, (hf _).1, (hf _).2]
  · rw [Holds, Holds, modify_buf_of_ne c f hj]

section

variable (h : c.Sound contents pinned)
include h

/-- A step of thread `p` that changes buffer `i` to `x` but not which block it holds, and may change
what was last passed for that block. Nobody but `p` holds the buffer before or after. -/
theorem Cache.Sound.of_change {contents' : ℕ → Block} {x : Buf ι} (hself : c'.buf i = x)
    (hbuf : ∀ j ≠ i, c'.buf j = c.buf j) (hplace : ∀ q ≠ p, c'.place q = c.place q)
    (hdisk : c'.disk = c.disk) (hroot : (c.buf i).dev = ROOTDEV)
    (hid : x.dev = (c.buf i).dev ∧ x.blockno = (c.buf i).blockno)
    (hblock : ∀ b ≠ (c.buf i).blockno, contents' b = contents b ∧ pinned' b = pinned b)
    (hlock : ∀ q ≠ p, (c.buf i).lock ≠ some q ∧ x.lock ≠ some q)
    (hat : c'.At pinned' p (c'.place p)) (hheld : ∀ j, (c'.buf j).lock = some p →
      (c'.buf j).valid = true ∨ (c'.place p).reads = some j)
    (hdirty : x.dirty = true → x.valid = true)
    (hdata : x.valid = true → x.data = contents' (c.buf i).blockno)
    (hclean : x.dirty = false → c.disk (c.buf i).blockno = contents' (c.buf i).blockno)
    (hpin : pinned' (c.buf i).blockno = true → x.dirty = true) (hnodup : c'.idequeue.Nodup)
    (hqueue : ∀ j ∈ c'.idequeue, j ≠ i ∧ j ∈ c.idequeue ∧ ∀ caller, c.place p ≠ .wait caller j) :
    c'.Sound contents' pinned' := by
  subst hself
  have hi : c.Holds i (c.buf i).blockno := ⟨hroot, rfl⟩
  have hkeep : ∀ j, (c'.buf j).dev = (c.buf j).dev ∧ (c'.buf j).blockno = (c.buf j).blockno := by
    intro j
    by_cases hji : j = i
    · exact hji ▸ hid
    · rw [hbuf j hji]
      exact ⟨rfl, rfl⟩
  have hholds : ∀ j b, c'.Holds j b ↔ c.Holds j b := fun j b => by
    rw [Holds, Holds, (hkeep j).1, (hkeep j).2]
  -- no other buffer holds the block
  have hne : ∀ j b, j ≠ i → c.Holds j b → b ≠ (c.buf i).blockno := by
    rintro j b hji hj rfl
    exact hji (h.unique j i _ hj hi)
  refine
    { unique := fun j k b hj hk => h.unique j k b ((hholds j b).mp hj) ((hholds k b).mp hk)
      places := fun q => ?_
      root := fun j q hj => ?_
      held := fun j q hj => ?_
      dirty := fun j hj => ?_
      data := fun j b hj hv => ?_
      disk := fun b hb => ?_
      pin := fun b hb => ?_
      nodup := hnodup
      queue := fun j hj => ?_ }
  · by_cases hq : q = p
    · exact hq ▸ hat
    · rw [hplace q hq]
      refine (h.places q).congr (fun j _ => hkeep j) fun j hj => ?_
      have hji : j ≠ i := by
        rintro rfl
        exact (hlock q hq).1 hj
      rw [hbuf j hji]
      exact ⟨hj, rfl, rfl, (hblock _ (hne j _ hji ⟨h.root j q hj, rfl⟩)).2⟩
  · rw [(hkeep j).1]
    by_cases hji : j = i
    · exact hji ▸ hroot
    · exact h.root j q (hbuf j hji ▸ hj)
  · by_cases hq : q = p
    · subst hq
      exact hheld j hj
    · have hji : j ≠ i := by
        rintro rfl
        exact (hlock q hq).2 hj
      rw [hbuf j hji] at hj ⊢
      rw [hplace q hq]
      exact h.held j q hj
  · rw [(hkeep j).1]
    by_cases hji : j = i
    · subst hji
      exact ⟨hdirty hj, hroot⟩
    · rw [hbuf j hji] at hj ⊢
      exact h.dirty j hj
  · rw [hholds] at hj
    by_cases hji : j = i
    · subst hji
      exact hj.2 ▸ hdata hv
    · rw [hbuf j hji] at hv ⊢
      rw [(hblock b (hne j b hji hj)).1]
      exact h.data j b hj hv
  · rw [hdisk]
    by_cases hbi : b = (c.buf i).blockno
    · subst hbi
      exact hclean (hb i ((hholds i _).mpr hi))
    · rw [(hblock b hbi).1]
      refine h.disk b fun j hj => ?_
      have hji : j ≠ i := by
        rintro rfl
        exact hbi hj.2.symm
      rw [← hbuf j hji]
      exact hb j ((hholds j b).mpr hj)
  · by_cases hbi : b = (c.buf i).blockno
    · subst hbi
      exact ⟨i, (hholds i _).mpr hi, hpin hb⟩
    · rw [(hblock b hbi).2] at hb
      obtain ⟨j, hj, hd⟩ := h.pin b hb
      have hji : j ≠ i := by
        rintro rfl
        exact hbi hj.2.symm
      exact ⟨j, (hholds j b).mpr hj, hbuf j hji ▸ hd⟩
  · obtain ⟨hji, hj, hwait⟩ := hqueue j hj
    obtain ⟨hflags, q, caller, hq⟩ := h.queue j hj
    have hqp : q ≠ p := by
      rintro rfl
      exact hwait caller hq
    rw [hbuf j hji]
    exact ⟨hflags, q, caller, (hplace q hqp).trans hq⟩

/-- A buffer that a thread holds without waiting for the disk is not in the queue. -/
theorem Cache.Sound.queue_of_not_wait
    (hwait : ∀ caller j, c.place p ≠ .wait caller j) (hlock : ∀ q ≠ p, (c.buf i).lock ≠ some q)
    (hj : j ∈ c.idequeue) : j ≠ i ∧ j ∈ c.idequeue ∧ ∀ caller, c.place p ≠ .wait caller j := by
  refine ⟨?_, hj, fun caller => hwait caller j⟩
  rintro rfl
  obtain ⟨q, caller, hq, hlq⟩ := h.exists_wait hj
  by_cases hqp : q = p
  · exact hwait caller j (hqp ▸ hq)
  · exact hlock q hqp hlq

/-- A change of the lock of buffer `i` and of the place of thread `p`. The thread was not waiting
for the disk, and nobody else holds the buffer before or after. -/
theorem Cache.Sound.relock [DecidableEq ι] {lk : Option ι}
    (hwait : ∀ caller j, c.place p ≠ .wait caller j)
    (hold : ∀ q ≠ p, (c.buf i).lock ≠ some q) (hnew : ∀ q ≠ p, lk ≠ some q)
    (hroot : (c.buf i).dev = ROOTDEV)
    (hat : (c.modify i fun buf => { buf with lock := lk }).At pinned p pl)
    (hheld : lk = some p → pl.reads = some i)
    (hothers : ∀ j ≠ i, (c.buf j).lock = some p → (c.buf j).valid = true) :
    ((c.modify i fun buf => { buf with lock := lk }).goTo p pl).Sound contents pinned := by
  have hi : c.Holds i (c.buf i).blockno := ⟨hroot, rfl⟩
  set c' := c.modify i fun buf => { buf with lock := lk } with hc'
  have hself : (c'.goTo p pl).buf i = { c.buf i with lock := lk } := by
    rw [goTo_buf, hc', modify_buf_self]
  have hother : ∀ j ≠ i, (c'.goTo p pl).buf j = c.buf j := fun j hj => by
    rw [goTo_buf, hc', modify_buf_of_ne c _ hj]
  refine h.of_change hself hother (fun q hq => goTo_place_of_ne _ hq) rfl hroot ⟨rfl, rfl⟩
    (fun _ _ => ⟨rfl, rfl⟩) (fun q hq => ⟨hold q hq, hnew q hq⟩) ?_ (fun j hj => ?_)
    (fun hd => (h.dirty i hd).1) (h.data i _ hi) ?_ (fun hpin => ?_) h.nodup
    fun j => h.queue_of_not_wait hwait hold
  · rw [goTo_place_self]
    exact hat.congr (fun j _ => ⟨rfl, rfl⟩) fun j hj => ⟨hj, rfl, rfl, rfl⟩
  · by_cases hji : j = i
    · rw [hji, hself] at hj
      rw [goTo_place_self, hji]
      exact .inr (hheld hj)
    · rw [hother j hji] at hj ⊢
      exact .inl (hothers j hji hj)
  · exact fun hclean => h.disk _ fun j hj => h.unique j i _ hj hi ▸ hclean
  · obtain ⟨j, hj, hd⟩ := h.pin _ hpin
    exact h.unique j i _ hj hi ▸ hd

/-- The contents `data` are passed for the block of a buffer that the thread holds. -/
theorem Cache.Sound.write (hp : c.place p = .idle)
    (hlock : (c.buf i).lock = some p) (data : Block) (logged : Bool) :
    (c.modify i fun buf => { buf with data := data, dirty := true }).Sound
      (update contents (c.buf i).blockno data)
      (update pinned (c.buf i).blockno logged) := by
  have hself : (c.modify i fun buf => { buf with data := data, dirty := true }).buf i =
      { c.buf i with data := data, dirty := true } := modify_buf_self ..
  have hlq : ∀ q ≠ p, (c.buf i).lock ≠ some q := fun q hq heq =>
    hq (Option.mem_unique heq hlock)
  have hvalid := h.valid_of_idle hp hlock
  refine h.of_change (p := p) hself (fun j => modify_buf_of_ne c _) (fun _ _ => rfl) rfl
    (h.root i p hlock) ⟨rfl, rfl⟩ (fun b hb => ⟨update_of_ne hb .., update_of_ne hb ..⟩)
    (fun q hq => ⟨hlq q hq, hlq q hq⟩) ?_ (fun j hj => ?_) (fun _ => hvalid)
    (fun _ => (update_self (c.buf i).blockno data contents).symm) nofun (fun _ => rfl) h.nodup
    fun j => h.queue_of_not_wait (by simp [hp]) hlq
  · rw [modify_place, hp]
    trivial
  · by_cases hji : j = i
    · rw [hji, hself]
      exact .inl hvalid
    · rw [modify_buf_of_ne c _ hji] at hj ⊢
      exact h.held j p hj

end

/-! ## The disk -/

/-- `idestart` changes at most the block of the buffer on the disk. -/
theorem idestart_eq (hstep : c.idestart i = some c') :
    ∃ disk, c' = { c with disk := disk } ∧
      ((c.buf i).dirty = true → disk (c.buf i).blockno = (c.buf i).data) ∧
      ∀ b, b ≠ (c.buf i).blockno ∨ (c.buf i).dirty = false → disk b = c.disk b := by
  unfold idestart at hstep
  split_ifs at hstep with hsize hdirty
  · refine ⟨_, (Option.some.inj hstep).symm, fun _ => update_self .., fun b hb => ?_⟩
    rcases hb with hb | hb
    · exact update_of_ne hb ..
    · rw [hdirty] at hb
      cases hb
  · exact ⟨c.disk, (Option.some.inj hstep).symm, fun h => absurd h hdirty, fun _ _ => rfl⟩

variable (h : c.Sound contents pinned)
include h

theorem Cache.Sound.idestart (hstep : c.idestart i = some c') : c'.Sound contents pinned := by
  obtain ⟨disk, rfl, -, hdisk⟩ := idestart_eq hstep
  refine { h with places := fun p => ?_, disk := fun b hb => ?_ }
  · exact (h.places p).congr (fun j _ => ⟨rfl, rfl⟩) fun j hj => ⟨hj, rfl, rfl, rfl⟩
  · have hb' : b ≠ (c.buf i).blockno ∨ (c.buf i).dirty = false := by
      by_contra hnot
      obtain ⟨hbi, hd⟩ := not_or.mp hnot
      have hd := Bool.eq_true_of_not_eq_false hd
      exact absurd (hb i ⟨(h.dirty i hd).2, (not_not.mp hbi).symm⟩) (by simp [hd])
    exact (hdisk b hb').trans (h.disk b hb)

/-- `iderw` appends the buffer to the queue. -/
theorem Cache.Sound.enqueue [DecidableEq ι] {caller : Option ℕ} (hp : c.place p = .iderw caller i)
    (hflags : (c.buf i).valid = false ∨ (c.buf i).dirty = true) :
    ({ c with idequeue := c.idequeue ++ [i] }.goTo p (.wait caller i)).Sound contents pinned := by
  have hat := h.places p
  rw [hp] at hat
  have hlock := hat.lock_eq rfl nofun
  have hnotin : i ∉ c.idequeue := by
    intro hi
    obtain ⟨q, caller', hq, hlq⟩ := h.exists_wait hi
    obtain rfl := Option.mem_unique hlq hlock
    rw [hp] at hq
    cases hq
  have hmoved : (c.goTo p (.wait caller i)).Sound contents pinned := by
    refine h.goTo ?_ (fun j hj => ?_) (by simp [hp])
    · cases caller with
      | none => exact hat
      | some =>
        obtain ⟨hholds, hlk, hvalid⟩ := hat
        refine ⟨hholds, hlk, Bool.eq_false_iff.mpr fun hd => ?_⟩
        exact absurd (h.dirty i hd).1 (by simp [hvalid])
    · have hheld := h.held j p hj
      rw [hp] at hheld
      cases caller <;> exact hheld
  refine { hmoved with places := fun q => ?_, nodup := ?_, queue := fun j hj => ?_ }
  · exact (hmoved.places q).congr (fun j _ => ⟨rfl, rfl⟩) fun j hj => ⟨hj, rfl, rfl, rfl⟩
  · exact List.nodup_append.mpr ⟨h.nodup, List.nodup_singleton i, fun j hj k hk => by
      rw [List.mem_singleton.mp hk]
      rintro rfl
      exact hnotin hj⟩
  · rcases List.mem_append.mp hj with hj | hj
    · exact hmoved.queue j hj
    · rw [List.mem_singleton.mp hj]
      exact ⟨hflags, p, caller, goTo_place_self c⟩

/-- The disk is done with the first buffer of the queue. -/
theorem Cache.Sound.dequeue {rest : List Slot} (hstarted : c.Started)
    (hq : c.idequeue = i :: rest) : ({ c with idequeue := rest }.modify i fun buf => { buf with
      data := if buf.dirty then buf.data else c.disk buf.blockno
      valid := true
      dirty := false }).Sound contents pinned := by
  have hmem : i ∈ c.idequeue := hq ▸ List.mem_cons_self
  obtain ⟨p, caller, hwait, hlock⟩ := h.exists_wait hmem
  have hi : c.Holds i (c.buf i).blockno := ⟨h.root i p hlock, rfl⟩
  have hat := h.places p
  rw [hwait] at hat
  obtain ⟨hrest, hnodup⟩ := List.nodup_cons.mp (hq ▸ h.nodup)
  -- a write has reached the disk, and a read finds the contents there
  have hdisk : c.disk (c.buf i).blockno = contents (c.buf i).blockno := by
    by_cases hd : (c.buf i).dirty = true
    · rw [hstarted i (hq ▸ rfl) hd]
      exact h.data i _ hi (h.dirty i hd).1
    · refine h.disk _ fun j hj => ?_
      rw [h.unique j i _ hj hi]
      exact Bool.eq_false_iff.mpr hd
  -- a buffer in the queue is read, or its contents were passed to `bwrite`
  have hpin : pinned (c.buf i).blockno ≠ true := by
    intro hb
    cases caller with
    | none => exact absurd hat.2 (by simp [hb])
    | some =>
      obtain ⟨j, hj, hd⟩ := h.pin _ hb
      rw [h.unique j i _ hj hi] at hd
      exact absurd hat.2.2 (by simp [hd])
  set c' := { c with idequeue := rest }.modify i fun buf => { buf with
      data := if buf.dirty then buf.data else c.disk buf.blockno
      valid := true
      dirty := false } with hc'
  have hself : c'.buf i = { c.buf i with
      data := if (c.buf i).dirty then (c.buf i).data else c.disk (c.buf i).blockno
      valid := true
      dirty := false } := modify_buf_self ..
  have hother : ∀ j ≠ i, c'.buf j = c.buf j := fun j hj => modify_buf_of_ne _ _ hj
  have hlq : ∀ q ≠ p, (c.buf i).lock ≠ some q := fun q hqp heq =>
    hqp (Option.mem_unique heq hlock)
  refine h.of_change (p := p) hself hother (fun _ _ => rfl) rfl hi.1 ⟨rfl, rfl⟩
    (fun _ _ => ⟨rfl, rfl⟩) (fun q hqp => ⟨hlq q hqp, hlq q hqp⟩) ?_ (fun j hj => ?_) (fun _ => rfl)
    ?_ (fun _ => hdisk) (fun hb => absurd hb hpin) hnodup
    fun j hj => ⟨?_, hq ▸ List.mem_cons_of_mem i hj, fun caller' heq => ?_⟩
  · change c'.At pinned p (c.place p)
    rw [hwait]
    cases caller with
    | none => exact ⟨by rw [hself]; exact hat.1, by rw [hself]; exact hat.2⟩
    | some =>
      exact ⟨by rw [Holds, hself]; exact hat.1, by rw [hself]; exact hat.2.1, by rw [hself]⟩
  · by_cases hji : j = i
    · rw [hji, hself]
      exact .inl rfl
    · rw [hother j hji] at hj ⊢
      exact h.held j p hj
  · dsimp only
    split_ifs with hd
    · exact fun _ => h.data i _ hi (h.dirty i hd).1
    · exact fun _ => hdisk
  · rintro rfl
    exact hrest hj
  · cases hwait.symm.trans heq
    exact hrest hj

end FileSystem.BufferCache
