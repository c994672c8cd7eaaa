import Mathlib
import OsnAssignments.FileSystem.Names

/-!
# References to inodes

The reference count of an inode is the number of processes that have it as their current directory,
plus the number of open files on it, plus the references that the running system call holds
(`Counts`). An inode without links is referenced as long as it has a type, and its copy is valid, so
that the last `iput` frees it (`Kept`). Resolving a path has no effect on the inodes.
-/

namespace FileSystem.Names

open State Function

/-- `1` if the process has `i` as its current directory. -/
def atCwd (x : Option Proc) (i : Inum) : ℕ :=
  if x.map Proc.cwd = some i then 1 else 0

/-- `1` if the file is open on the inode `i`. -/
def openOn (g : File) (i : Inum) : ℕ :=
  if g.ref ≠ 0 ∧ g.ip = some i then 1 else 0

/-- The number of descriptors of a process for the file `f`. -/
def descriptors (x : Option Proc) (f : Fin NFILE) : ℕ :=
  ∑ fd, if x.bind (Proc.ofile · fd) = some f then 1 else 0

section Counts

variable (σ : State)

/-- The number of processes whose current directory is `i`. -/
def cwds (i : Inum) : ℕ :=
  ∑ p, atCwd (σ.procs p) i

/-- The number of open files on the inode `i`. -/
def opens (i : Inum) : ℕ :=
  ∑ f, openOn (σ.ftable f) i

/-- The reference counts are exact, where the running system call holds the references `held`. -/
structure Counts (held : Multiset Inum) : Prop where
  ref_eq : ∀ i, σ.ref i = cwds σ i + opens σ i + held.count i
  file_ref : ∀ f, (σ.ftable f).ref = ∑ p, descriptors (σ.procs p) f

/-- Inodes without links are in use, and valid copies are of inodes with a type. -/
structure Kept : Prop where
  unlinked : ∀ i, (σ.nodes i).type ≠ none → (σ.nodes i).nlink = 0 → 0 < σ.ref i ∧ σ.valid i = true
  typed : ∀ i, σ.valid i = true → (σ.nodes i).type ≠ none

/-- The reference to `i` is not the last one to an inode without links. -/
def Shared (i : Inum) : Prop :=
  (σ.nodes i).type ≠ none → (σ.nodes i).nlink = 0 → 2 ≤ σ.ref i

/-- The processes, the open files and the inodes are those of `σ`. -/
structure SameFiles (σ' : State) : Prop where
  nodes_eq : σ'.nodes = σ.nodes
  ftable_eq : σ'.ftable = σ.ftable
  procs_eq : σ'.procs = σ.procs

end Counts

variable {σ σ' : State} {held : Multiset Inum} {i j : Inum}
variable {nameiparent : Bool} {found : Option (Inum × Name)}

theorem SameFiles.refl (σ : State) : SameFiles σ σ := ⟨rfl, rfl, rfl⟩

theorem SameFiles.trans {σ'' : State} (h : SameFiles σ σ') (h' : SameFiles σ' σ'') :
    SameFiles σ σ'' :=
  ⟨h'.nodes_eq.trans h.nodes_eq, h'.ftable_eq.trans h.ftable_eq, h'.procs_eq.trans h.procs_eq⟩

/-- Changing the references changes what the system call holds. -/
theorem Counts.of_ref {held' : Multiset Inum} (h : Counts σ held) (hf : σ'.ftable = σ.ftable)
    (hp : σ'.procs = σ.procs)
    (href : ∀ i, σ'.ref i + held.count i = σ.ref i + held'.count i) : Counts σ' held' := by
  refine ⟨fun i => ?_, fun f => ?_⟩
  · have hcwds : cwds σ' i = cwds σ i := by
      unfold cwds
      rw [hp]
    have hopens : opens σ' i = opens σ i := by
      unfold opens
      rw [hf]
    have := h.ref_eq i
    have := href i
    omega
  · rw [hf, hp, h.file_ref f]

@[simp]
theorem setNode_self (σ : State) (i : Inum) (x : Node) : (σ.setNode i x).nodes i = x :=
  update_self ..

theorem setNode_of_ne (h : j ≠ i) (x : Node) : (σ.setNode i x).nodes j = σ.nodes j :=
  update_of_ne h ..

@[simp]
theorem setNode_setNode (σ : State) (i : Inum) (x y : Node) :
    (σ.setNode i x).setNode i y = σ.setNode i y := by
  unfold setNode
  rw [update_idem]

/-! ## `iget`, `idup` and `iput` -/

section

variable (h : σ.iget i = some σ')
include h

theorem iget_cases : (0 < σ.ref i ∧ σ' = { σ with ref := update σ.ref i (σ.ref i + 1) }) ∨
      (σ.ref i = 0 ∧ σ' = { σ with
        ref := update σ.ref i 1, valid := update σ.valid i false }) := by
  unfold iget at h
  split_ifs at h with hpos hroom
  · exact .inl ⟨hpos, (Option.some.inj h).symm⟩
  · exact .inr ⟨by omega, (Option.some.inj h).symm⟩

theorem ref_iget (j : Inum) : σ'.ref j = σ.ref j + if j = i then 1 else 0 := by
  by_cases hj : j = i
  · subst hj
    obtain ⟨-, rfl⟩ | ⟨hzero, rfl⟩ := iget_cases h
    · simp
    · simp [hzero]
  · obtain ⟨-, rfl⟩ | ⟨-, rfl⟩ := iget_cases h
    · simp [hj]
    · simp [hj]

theorem sameFiles_iget : SameFiles σ σ' := by
  obtain ⟨-, rfl⟩ | ⟨-, rfl⟩ := iget_cases h
  · exact ⟨rfl, rfl, rfl⟩
  · exact ⟨rfl, rfl, rfl⟩

end

theorem Counts.iget (h : Counts σ held) (hget : σ.iget i = some σ') : Counts σ' (i ::ₘ held) := by
  have hsame := sameFiles_iget hget
  refine h.of_ref hsame.ftable_eq hsame.procs_eq fun j => ?_
  rw [ref_iget hget, Multiset.count_cons]
  omega

theorem Kept.iget (h : Kept σ) (hget : σ.iget i = some σ') : Kept σ' ∧ Shared σ' i := by
  have href := ref_iget hget
  have hsame := sameFiles_iget hget
  refine ⟨⟨fun j htype hlink => ?_, fun j hvalid => ?_⟩, fun htype hlink => ?_⟩
  · rw [hsame.nodes_eq] at htype hlink
    obtain ⟨hpos, hvalid⟩ := h.unlinked j htype hlink
    refine ⟨by rw [href]; omega, ?_⟩
    obtain ⟨-, rfl⟩ | ⟨hzero, rfl⟩ := iget_cases hget
    · exact hvalid
    · have hji : j ≠ i := by
        rintro rfl
        omega
      show update σ.valid i false j = true
      rwa [update_of_ne hji]
  · rw [hsame.nodes_eq]
    refine h.typed j ?_
    obtain ⟨-, rfl⟩ | ⟨-, rfl⟩ := iget_cases hget
    · exact hvalid
    · by_cases hji : j = i
      · subst hji
        simp at hvalid
      · simpa [hji] using hvalid
  · rw [hsame.nodes_eq] at htype hlink
    have hpos := (h.unlinked i htype hlink).1
    rw [href, if_pos rfl]
    omega

theorem Counts.idup (h : Counts σ held) (i : Inum) : Counts (σ.idup i) (i ::ₘ held) := by
  refine h.of_ref rfl rfl fun j => ?_
  show update σ.ref i (σ.ref i + 1) j + _ = _
  rw [Multiset.count_cons]
  by_cases hj : j = i
  · rw [hj, update_self, if_pos rfl]
    omega
  · rw [update_of_ne hj, if_neg hj, Nat.add_zero]

theorem Kept.idup (h : Kept σ) (hpos : 0 < σ.ref i) : Kept (σ.idup i) ∧ Shared (σ.idup i) i := by
  have hle : ∀ j, σ.ref j ≤ (σ.idup i).ref j := by
    intro j
    show σ.ref j ≤ update σ.ref i (σ.ref i + 1) j
    by_cases hj : j = i
    · rw [hj, update_self]
      omega
    · rw [update_of_ne hj]
  refine ⟨⟨fun j htype hlink => ?_, h.typed⟩, fun _ _ => ?_⟩
  · obtain ⟨hj, hvalid⟩ := h.unlinked j htype hlink
    exact ⟨Nat.lt_of_lt_of_le hj (hle j), hvalid⟩
  · show 2 ≤ update σ.ref i (σ.ref i + 1) i
    rw [update_self]
    omega

theorem ilock_cases (h : σ.ilock i = some σ')
    (htyped : σ.valid i = true → (σ.nodes i).type ≠ none) :
    σ' = { σ with valid := update σ.valid i true } ∧ (σ.nodes i).type ≠ none := by
  unfold ilock at h
  split_ifs at h with href hvalid htype
  · cases h
    refine ⟨?_, htyped hvalid⟩
    rw [← hvalid, update_eq_self]
  · exact ⟨(Option.some.inj h).symm, htype⟩

theorem Counts.ilock (h : Counts σ held) (hkept : Kept σ) (hlock : σ.ilock i = some σ') :
    Counts σ' held := by
  obtain ⟨rfl, -⟩ := ilock_cases hlock (hkept.typed i)
  exact h.of_ref rfl rfl fun _ => rfl

theorem Kept.ilock (h : Kept σ) (hlock : σ.ilock i = some σ') : Kept σ' := by
  obtain ⟨rfl, htype⟩ := ilock_cases hlock (h.typed i)
  refine ⟨fun j hj hlink => ?_, fun j hj => ?_⟩
  · obtain ⟨hpos, hvalid⟩ := h.unlinked j hj hlink
    refine ⟨hpos, ?_⟩
    by_cases hji : j = i
    · rw [hji]
      exact update_self ..
    · show update σ.valid i true j = true
      rwa [update_of_ne hji]
  · by_cases hji : j = i
    · rwa [hji]
    · refine h.typed j ?_
      simpa [hji] using hj

theorem sameFiles_ilock (hkept : Kept σ) (hlock : σ.ilock i = some σ') : SameFiles σ σ' := by
  obtain ⟨rfl, -⟩ := ilock_cases hlock (hkept.typed i)
  exact ⟨rfl, rfl, rfl⟩

theorem ref_ilock (hkept : Kept σ) (hlock : σ.ilock i = some σ') : σ'.ref = σ.ref := by
  obtain ⟨rfl, -⟩ := ilock_cases hlock (hkept.typed i)
  rfl

theorem valid_ilock (hkept : Kept σ) (hlock : σ.ilock i = some σ') : σ'.valid i = true := by
  obtain ⟨rfl, -⟩ := ilock_cases hlock (hkept.typed i)
  exact update_self ..

/-- A state with the inode `i` freed, if `iput` does so. -/
theorem iput_nodes (σ : State) (i : Inum) : (σ.iput i).nodes = σ.nodes ∨
      ((σ.nodes i).nlink = 0 ∧ (σ.iput i).nodes =
        update σ.nodes i { σ.nodes i with type := none, entries := [] }) := by
  unfold iput reclaim
  split_ifs with h
  · exact .inr ⟨h.2.1, rfl⟩
  · exact .inl rfl

theorem ref_iput (σ : State) (i : Inum) : (σ.iput i).ref = update σ.ref i (σ.ref i - 1) := by
  unfold iput reclaim
  split_ifs with h
  · rfl
  · rfl

theorem ftable_iput (σ : State) (i : Inum) : (σ.iput i).ftable = σ.ftable := by
  unfold iput reclaim
  split_ifs with h
  · rfl
  · rfl

theorem procs_iput (σ : State) (i : Inum) : (σ.iput i).procs = σ.procs := by
  unfold iput reclaim
  split_ifs with h
  · rfl
  · rfl

theorem Counts.iput (h : Counts σ (i ::ₘ held)) : Counts (σ.iput i) held := by
  refine h.of_ref (ftable_iput σ i) (procs_iput σ i) fun j => ?_
  rw [ref_iput, Multiset.count_cons]
  by_cases hj : j = i
  · have href := h.ref_eq i
    rw [Multiset.count_cons_self] at href
    rw [hj, update_self, if_pos rfl]
    omega
  · rw [update_of_ne hj, if_neg hj, Nat.add_zero]

/-- The last reference to an inode without links frees it. -/
theorem Kept.iput (h : Kept σ) (i : Inum) : Kept (σ.iput i) := by
  unfold State.iput reclaim
  split_ifs with hfree
  · -- the inode has no type any more, and its copy is not valid
    refine ⟨fun j htype hlink => ?_, fun j hvalid => ?_⟩
    · by_cases hj : j = i
      · subst hj
        simp [setNode] at htype
      · have hkept := h.unlinked j (by simpa [setNode, hj] using htype)
          (by simpa [setNode, hj] using hlink)
        simpa [setNode, hj] using hkept
    · by_cases hj : j = i
      · subst hj
        simp at hvalid
      · simpa [setNode, hj] using h.typed j (by simpa [hj] using hvalid)
  · refine ⟨fun j htype hlink => ?_, h.typed⟩
    obtain ⟨hpos, hvalid⟩ := h.unlinked j htype hlink
    refine ⟨?_, hvalid⟩
    show 0 < update σ.ref i (σ.ref i - 1) j
    by_cases hj : j = i
    · subst hj
      have hne : σ.ref j ≠ 1 := fun hone => hfree ⟨hvalid, hlink, hone⟩
      rw [update_self]
      omega
    · rwa [update_of_ne hj]

/-- Dropping a shared reference frees nothing. -/
theorem nodes_iput_of_shared (h : Kept σ) (hshared : Shared σ i) : (σ.iput i).nodes = σ.nodes := by
  unfold State.iput reclaim
  rw [if_neg]
  rintro ⟨hvalid, hlink, hone⟩
  have := hshared (h.typed i hvalid) hlink
  omega

theorem sameFiles_iput (h : (σ.iput i).nodes = σ.nodes) : SameFiles σ (σ.iput i) :=
  ⟨h, ftable_iput σ i, procs_iput σ i⟩

theorem iput_setNode (hij : j ≠ i) (x : Node) :
    (σ.iput i).setNode j x = (σ.setNode j x).iput i := by
  unfold State.iput reclaim
  rw [setNode_of_ne hij.symm x]
  by_cases h : σ.valid i = true ∧ (σ.nodes i).nlink = 0 ∧ σ.ref i = 1
  · have h' : (σ.setNode j x).valid i = true ∧ (σ.nodes i).nlink = 0 ∧
        (σ.setNode j x).ref i = 1 := h
    rw [if_pos h, if_pos h']
    simp only [setNode]
    rw [update_comm hij]
  · have h' : ¬((σ.setNode j x).valid i = true ∧ (σ.nodes i).nlink = 0 ∧
        (σ.setNode j x).ref i = 1) := h
    rw [if_neg h, if_neg h']
    rfl

theorem nodes_iput_of_ne (hij : j ≠ i) : (σ.iput i).nodes j = σ.nodes j := by
  obtain hsame | ⟨-, hfree⟩ := iput_nodes σ i
  · rw [hsame]
  · rw [hfree, update_of_ne hij]

/-- A reference to `i` is still shared after dropping one to another inode. -/
theorem Shared.iput (h : Shared σ i) (hij : i ≠ j) (hnodes : (σ.iput j).nodes = σ.nodes) :
    Shared (σ.iput j) i := by
  intro htype hlink
  rw [hnodes] at htype hlink
  rw [ref_iput, update_of_ne hij]
  exact h htype hlink

/-! ## `dirlookup` -/

/-- The entry of a directory with a given name. -/
def lookup (x : Node) (name : Name) : Option (Dirent × ℕ) :=
  x.entries.zipIdx.find? fun (e, _) => e.inum ≠ 0 ∧ e.name = name

theorem dirlookup_cases {name : Name} {found : Option (ℕ × Inum)}
    (h : σ.dirlookup i name = some (found, σ')) : (σ.nodes i).type = some .dir ∧
      ((lookup (σ.nodes i) name = none ∧ found = none ∧ σ' = σ) ∨
        ∃ e off, lookup (σ.nodes i) name = some (e, off) ∧ found = some (off, e.inum) ∧
          σ.iget e.inum = some σ') := by
  unfold dirlookup at h
  split_ifs at h with htype
  · refine ⟨by simpa using htype, ?_⟩
    split at h
    · next hfind =>
      cases h
      exact .inl ⟨hfind, rfl, rfl⟩
    · next e off hfind =>
      refine .inr ⟨e, off, hfind, ?_⟩
      obtain ⟨τ, hget, hτ⟩ := Option.bind_eq_some_iff.mp h
      cases hτ
      exact ⟨rfl, hget⟩

theorem lookup_eq_some {x : Node} {name : Name} {e : Dirent} {off : ℕ}
    (h : lookup x name = some (e, off)) :
    x.entries[off]? = some e ∧ e.inum ≠ 0 ∧ e.name = name := by
  have hmem := List.mem_of_find?_eq_some h
  have hp := List.find?_some h
  simp only [ne_eq, decide_eq_true_eq] at hp
  exact ⟨List.mk_mem_zipIdx_iff_getElem?.mp hmem, hp⟩

/-! ## Paths -/

/-- The inode that the elements of a path lead to from `ip`, or that of the last directory on the
way and the last element. -/
def walk (nameiparent : Bool) (nodes : Inum → Node) : List Name → Inum → Option (Inum × Name)
  | [], ip => if nameiparent then none else some (ip, [])
  | name :: rest, ip =>
    if (nodes ip).type ≠ some .dir then none
    else if nameiparent = true ∧ rest = [] then some (ip, name)
    else
      match lookup (nodes ip) name with
      | none => none
      | some (e, _) => walk nameiparent nodes rest e.inum

/-- What a path names for a process with the current directory `cwd`. -/
def resolve (nameiparent : Bool) (nodes : Inum → Node) (cwd : Inum) (path : List UInt8) :
    Option (Inum × Name) :=
  walk nameiparent nodes (elements path.length path) (if path.head? = some 47 then root else cwd)

/-- A path is resolved from the types and the entries of the inodes. -/
theorem walk_congr {nodes nodes' : Inum → Node}
    (h : ∀ i, (nodes' i).type = (nodes i).type ∧ (nodes' i).entries = (nodes i).entries)
    (names : List Name) (ip : Inum) :
    walk nameiparent nodes' names ip = walk nameiparent nodes names ip := by
  induction names generalizing ip with
  | nil => rfl
  | cons name rest ih =>
    have hlookup : lookup (nodes' ip) name = lookup (nodes ip) name := by
      unfold lookup
      rw [(h ip).2]
    simp only [walk, (h ip).1, hlookup, ih]

/-- What `namex` leaves: a reference to its result, and nothing else is changed. -/
structure Resolved (held : Multiset Inum) (σ : State) (found : Option (Inum × Name)) (σ' : State) :
    Prop where
  same : SameFiles σ σ'
  kept : Kept σ'
  counts : Counts σ' (found.elim held fun x => x.1 ::ₘ held)
  shared : ∀ x ∈ found, Shared σ' x.1

theorem Shared.iget (h : Shared σ i) (hget : σ.iget j = some σ') : Shared σ' i := by
  intro htype hlink
  rw [(sameFiles_iget hget).nodes_eq] at htype hlink
  have := h htype hlink
  rw [ref_iget hget]
  omega

theorem Shared.ilock (h : Shared σ i) (hkept : Kept σ) (hlock : σ.ilock j = some σ') :
    Shared σ' i := by
  intro htype hlink
  rw [(sameFiles_ilock hkept hlock).nodes_eq] at htype hlink
  rw [ref_ilock hkept hlock]
  exact h htype hlink

/-- Going from `i` on to `j`, the reference to `i` is dropped. -/
theorem Shared.next (h : Shared σ i) (hkept : Kept σ) (hget : σ.iget j = some σ') :
    (σ'.iput i).nodes = σ.nodes ∧ Shared (σ'.iput i) j := by
  obtain ⟨hkept', hshared⟩ := hkept.iget hget
  have hnodes := nodes_iput_of_shared hkept' (h.iget hget)
  refine ⟨hnodes.trans (sameFiles_iget hget).nodes_eq, ?_⟩
  by_cases hij : j = i
  · subst hij
    intro htype hlink
    rw [hnodes, (sameFiles_iget hget).nodes_eq] at htype hlink
    have := h htype hlink
    rw [ref_iput, update_self, ref_iget hget, if_pos rfl]
    omega
  · exact hshared.iput hij hnodes

/-- Dropping the reference to an inode that is not what was looked for. -/
theorem Resolved.nothing (hcounts : Counts σ (i ::ₘ held)) (hkept : Kept σ) (h : Shared σ i) :
    Resolved held σ none (σ.iput i) where
  same := sameFiles_iput (nodes_iput_of_shared hkept h)
  kept := hkept.iput i
  counts := hcounts.iput
  shared _ hx := absurd hx (by simp)

theorem Resolved.of_same {σ'' : State}
    (h : Resolved held σ' found σ'') (hsame : SameFiles σ σ') : Resolved held σ found σ'' :=
  ⟨hsame.trans h.same, h.kept, h.counts, h.shared⟩

/-- The loop of `namex` follows the elements of the path, and keeps all inodes. -/
theorem resolved_namexLoop {names : List Name} (hcounts : Counts σ (i ::ₘ held)) (hkept : Kept σ)
    (hshared : Shared σ i) (h : namexLoop nameiparent names σ i = some (found, σ')) :
    Resolved held σ found σ' ∧ found = walk nameiparent σ.nodes names i := by
  induction names generalizing σ i with
  | nil =>
    rw [namexLoop] at h
    rw [walk]
    split_ifs at h ⊢
    · obtain ⟨rfl, rfl⟩ := Prod.mk.inj (Option.some.inj h)
      exact ⟨.nothing hcounts hkept hshared, rfl⟩
    · obtain ⟨rfl, rfl⟩ := Prod.mk.inj (Option.some.inj h)
      exact ⟨⟨.refl σ, hkept, hcounts, by simpa using hshared⟩, rfl⟩
  | cons name rest ih =>
    rw [namexLoop] at h
    obtain ⟨τ, hlock, h⟩ := Option.bind_eq_some_iff.mp h
    have hsame := sameFiles_ilock hkept hlock
    replace hcounts := hcounts.ilock hkept hlock
    replace hshared := hshared.ilock hkept hlock
    replace hkept := hkept.ilock hlock
    rw [walk, ← hsame.nodes_eq]
    split_ifs at h ⊢ with htype hlast
    · obtain ⟨rfl, rfl⟩ := Prod.mk.inj (Option.some.inj h)
      exact ⟨(Resolved.nothing hcounts hkept hshared).of_same hsame, rfl⟩
    · obtain ⟨rfl, rfl⟩ := Prod.mk.inj (Option.some.inj h)
      exact ⟨⟨hsame, hkept, hcounts, by simpa using hshared⟩, rfl⟩
    · obtain ⟨⟨next, τ'⟩, hlookup, hnext⟩ := Option.bind_eq_some_iff.mp h
      obtain ⟨-, ⟨hnone, rfl, rfl⟩ | ⟨e, off, hsome, rfl, hget⟩⟩ := dirlookup_cases hlookup
      · obtain ⟨rfl, rfl⟩ := Prod.mk.inj (Option.some.inj hnext)
        rw [hnone]
        exact ⟨(Resolved.nothing hcounts hkept hshared).of_same hsame, rfl⟩
      · obtain ⟨hnodes, hshared'⟩ := hshared.next hkept hget
        have hsame' : SameFiles τ (τ'.iput i) :=
          ⟨hnodes, (ftable_iput τ' i).trans (sameFiles_iget hget).ftable_eq,
            (procs_iput τ' i).trans (sameFiles_iget hget).procs_eq⟩
        have hheld : Counts τ' (i ::ₘ e.inum ::ₘ held) := by
          rw [Multiset.cons_swap]
          exact hcounts.iget hget
        obtain ⟨hresolved, hfound⟩ := ih hheld.iput ((hkept.iget hget).1.iput i) hshared' hnext
        rw [hsome]
        rw [hnodes] at hfound
        exact ⟨hresolved.of_same (hsame.trans hsame'), hfound⟩

/-- A path is resolved without changing an inode. -/
theorem resolved_namex {cwd : Inum} {path : List UInt8} (hcounts : Counts σ held) (hkept : Kept σ)
    (hcwd : 0 < σ.ref cwd) (h : namex nameiparent σ cwd path = some (found, σ')) :
    Resolved held σ found σ' ∧ found = resolve nameiparent σ.nodes cwd path := by
  obtain ⟨⟨ip, τ⟩, hstart, h⟩ := Option.bind_eq_some_iff.mp h
  unfold namexStart at hstart
  unfold resolve
  split_ifs at hstart ⊢ with habs
  · obtain ⟨τ', hget, hτ⟩ := Option.bind_eq_some_iff.mp hstart
    cases hτ
    have hsame := sameFiles_iget hget
    obtain ⟨hkept', hshared⟩ := hkept.iget hget
    rw [← hsame.nodes_eq]
    obtain ⟨hresolved, hfound⟩ := resolved_namexLoop (hcounts.iget hget) hkept' hshared h
    exact ⟨hresolved.of_same hsame, hfound⟩
  · cases hstart
    have hsame : SameFiles σ (σ.idup cwd) := ⟨rfl, rfl, rfl⟩
    obtain ⟨hkept', hshared⟩ := hkept.idup hcwd
    obtain ⟨hresolved, hfound⟩ := resolved_namexLoop (hcounts.idup cwd) hkept' hshared h
    exact ⟨hresolved.of_same hsame, hfound⟩

end FileSystem.Names
