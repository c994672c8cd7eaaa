import Mathlib
import OsnAssignments.FileSystem.SystemCalls

/-!
# Link counts in quiescent states

From an image of `mkfs`, a run in which names are only created in directories that have links ends
in a tree with exact link counts. If no file is open and every process is in the root directory,
then an inode is allocated if and only if it can be reached from the root directory, since nothing
keeps an inode without links.

The condition is needed: a file that is created in a removed directory is lost.
-/

namespace FileSystem.Names

open State LinkTree Multiset

variable {σ σ' : State} {p : Fin NPROC} {a : Action} {names : List Name} {i : Inum}
variable {nodes : Inum → Node}

/-! ## The image of `mkfs` -/

theorem node_boot_root (names : List Name) :
    (boot names).nodes root = ⟨some .dir, 1, rootEntries names⟩ := by
  simp only [boot, if_pos]

theorem node_boot (hi : i ≠ root) :
    (boot names).nodes i = if 2 ≤ i.val ∧ i.val < 2 + names.length then ⟨some .file, 1, []⟩
      else ⟨none, 0, []⟩ :=
  if_neg hi

theorem kids_boot_of_ne (hi : i ≠ root) : (tree (boot names).nodes).kids i = 0 := by
  show ((boot names).nodes i).kids = 0
  rw [node_boot hi]
  split_ifs
  · rfl
  · rfl

/-- The inodes of the files of the image. -/
def fileInums (n : ℕ) : List Inum :=
  (List.range n).map fun k => Fin.ofNat NINODES (2 + k)

theorem mem_fileInums {n : ℕ} (hfit : 1 + n ≤ NINODES - 1) :
    i ∈ fileInums n ↔ 2 ≤ i.val ∧ i.val < 2 + n := by
  have hmod : ∀ k, k < n → (2 + k) % NINODES = 2 + k := fun k hk => Nat.mod_eq_of_lt (by omega)
  unfold fileInums
  simp only [List.mem_map, List.mem_range]
  constructor
  · rintro ⟨k, hk, rfl⟩
    simp only [Fin.val_ofNat, hmod k hk]
    omega
  · rintro ⟨hle, hlt⟩
    refine ⟨i.val - 2, by omega, Fin.ext ?_⟩
    rw [Fin.val_ofNat, hmod _ (by omega)]
    omega

theorem nodup_fileInums {n : ℕ} (hfit : 1 + n ≤ NINODES - 1) : (fileInums n).Nodup := by
  refine List.Nodup.map_on (fun k hk l hl heq => ?_) List.nodup_range
  have hk := List.mem_range.mp hk
  have hl := List.mem_range.mp hl
  have hval := congrArg Fin.val heq
  rw [Fin.val_ofNat, Fin.val_ofNat, Nat.mod_eq_of_lt (by omega), Nat.mod_eq_of_lt (by omega)]
    at hval
  omega

/-- The files of the image are the children of the root directory. -/
theorem kids_boot (hfit : 1 + names.length ≤ NINODES - 1) :
    (tree (boot names).nodes).kids root = ofList (fileInums names.length) := by
  set files := names.zipIdx.map fun x : Name × ℕ =>
    (⟨Fin.ofNat NINODES (2 + x.2), x.1⟩ : Dirent) with hfiles
  set zeros := List.replicate (32 - (2 + names.length) % 32) (⟨0, []⟩ : Dirent) with hzeros
  have hentries : ((boot names).nodes root).entries =
      ⟨root, dot⟩ :: ⟨root, dotdot⟩ :: (files ++ zeros) := by
    rw [node_boot_root]
    rfl
  have hinums : files.map Dirent.inum = fileInums names.length := by
    unfold fileInums
    rw [hfiles, List.map_map, List.range_eq_range', ← List.zipIdx_map_snd 0 names, List.map_map]
    rfl
  show ((boot names).nodes root).kids = _
  rw [kids_eq_of_entries hentries, List.map_append, hinums, hzeros, List.map_replicate,
    ← coe_add, filter_add, filter_eq_self.mpr,
    filter_eq_nil.mpr, add_zero]
  · intro j hj hne
    exact hne (List.eq_of_mem_replicate (mem_coe.mp hj))
  · intro j hj hzero
    have := (mem_fileInums hfit).mp (mem_coe.mp hj)
    rw [hzero] at this
    exact absurd this.1 (by simp)

/-- The files of the image are named once. -/
theorem named_boot (hfit : 1 + names.length ≤ NINODES - 1) (i : Inum) :
    (tree (boot names).nodes).named i =
      if 2 ≤ i.val ∧ i.val < 2 + names.length then 1 else 0 := by
  unfold Nodes.named
  rw [Finset.sum_eq_single root]
  · rw [kids_boot hfit, coe_count, (nodup_fileInums hfit).count]
    simp only [mem_fileInums hfit]
  · intro d _ hd
    rw [kids_boot_of_ne hd, count_zero]
  · exact fun hroot => absurd (Finset.mem_univ root) hroot

theorem shape_boot (names : List Name) (i : Inum) : Shape i ((boot names).nodes i) := by
  by_cases hi : i = root
  · subst hi
    rw [node_boot_root]
    exact ⟨fun _ => ⟨root, _, by decide, rfl⟩, fun hdir => absurd rfl hdir, fun _ => by decide⟩
  · rw [node_boot hi]
    split_ifs with hfile
    · refine ⟨fun hdir => absurd hdir (by simp), fun _ => rfl, fun _ => ?_⟩
      rintro rfl
      exact absurd hfile.1 (by simp)
    · exact ⟨fun hdir => absurd hdir (by simp), fun _ => rfl, fun hnone => absurd rfl hnone⟩

/-- A file of the image, or nothing. -/
theorem boot_cases (names : List Name) (hi : i ≠ root) :
    (2 ≤ i.val ∧ i.val < 2 + names.length ∧ (boot names).nodes i = ⟨some .file, 1, []⟩) ∨
      (¬(2 ≤ i.val ∧ i.val < 2 + names.length) ∧ (boot names).nodes i = ⟨none, 0, []⟩) := by
  rw [node_boot hi]
  split_ifs with hfile
  · exact .inl ⟨hfile.1, hfile.2, rfl⟩
  · exact .inr ⟨hfile, rfl⟩

theorem kind_boot_ne_dir (hi : i ≠ root) : (tree (boot names).nodes).kind i ≠ .dir := by
  show ((boot names).nodes i).kind ≠ .dir
  obtain ⟨-, -, hnode⟩ | ⟨-, hnode⟩ := boot_cases names hi
  · rw [hnode]
    decide
  · rw [hnode]
    decide

/-- The image of `mkfs` is a tree with exact link counts. -/
theorem ok_boot (hfit : 1 + names.length ≤ NINODES - 1) : Ok root (tree (boot names).nodes) := by
  have hroot : (tree (boot names).nodes).Live root := by
    refine ⟨?_, ?_⟩
    · show ((boot names).nodes root).kind = .dir
      rw [node_boot_root]
      rfl
    · show 0 < ((boot names).nodes root).nlink
      rw [node_boot_root]
      exact Nat.one_pos
  have hkid : ∀ c d, c ∈ (tree (boot names).nodes).kids d →
      d = root ∧ 2 ≤ c.val ∧ c.val < 2 + names.length := by
    intro c d hc
    by_cases hd : d = root
    · rw [hd, kids_boot hfit] at hc
      exact ⟨hd, (mem_fileInums hfit).mp hc⟩
    · rw [kids_boot_of_ne hd] at hc
      exact absurd hc (notMem_zero c)
  have hfile : ∀ c : Inum, 2 ≤ c.val → c ≠ root := by
    rintro c hc rfl
    exact absurd hc (by decide)
  have hdir : ∀ d, (tree (boot names).nodes).kind d = .dir → d = root := by
    intro d hd
    by_contra hne
    exact kind_boot_ne_dir hne hd
  refine
    { root_live := hroot
      up_root := ?_
      named_root := ?_
      live_of_mem := fun c d hc => (hkid c d hc).1 ▸ hroot
      used_of_mem := fun c d hc => ?_
      leaf_links := fun c hc => ?_
      dir_links := fun d hd => ?_
      dir_named := fun d hd hne => absurd (hdir d hd.1) hne
      dead_named := fun d hd hzero => ?_
      reach := fun c hc => ?_ }
  · show ((boot names).nodes root).up = root
    rw [node_boot_root]
    rfl
  · rw [named_boot hfit, if_neg]
    exact fun h => absurd h.1 (by decide)
  · obtain ⟨-, hle, hlt⟩ := hkid c d hc
    show ((boot names).nodes c).kind ≠ .free
    rw [node_boot (hfile c hle), if_pos ⟨hle, hlt⟩]
    decide
  · have hne : c ≠ root := fun h => hc (h ▸ hroot.1)
    rw [named_boot hfit]
    show ((boot names).nodes c).nlink = _
    rw [node_boot hne]
    split_ifs
    · rfl
    · rfl
  · obtain rfl := hdir d hd.1
    have hnone : (tree (boot names).nodes).dirs root = 0 := by
      refine card_eq_zero.mpr (filter_eq_nil.mpr fun c hc => ?_)
      exact kind_boot_ne_dir (hfile c (hkid c root hc).2.1)
    rw [hnone]
    show ((boot names).nodes root).nlink = 1
    rw [node_boot_root]
  · obtain rfl := hdir d hd
    exact absurd hzero (Nat.ne_of_gt hroot.2)
  · by_cases hne : c = root
    · rw [hne]
      exact .refl
    · obtain ⟨hle, hlt, -⟩ | ⟨-, hnode⟩ := boot_cases names hne
      · refine .single ?_
        rw [kids_boot hfit]
        exact (mem_fileInums hfit).mpr ⟨hle, hlt⟩
      · have : 0 < ((boot names).nodes c).nlink := hc
        rw [hnode] at this
        exact absurd this (by decide)

theorem inv_boot (hfit : 1 + names.length ≤ NINODES - 1) : Inv 0 (boot names) := by
  refine ⟨⟨fun i => ?_, fun f => ?_⟩, ⟨fun i htype hlink => ?_, fun i hvalid => ?_⟩,
    ⟨shape_boot names, ok_boot hfit⟩⟩
  · have hopens : opens (boot names) i = 0 := Finset.sum_eq_zero fun f _ => rfl
    have hcwds : cwds (boot names) i = if i = root then 1 else 0 := by
      unfold cwds
      rw [Finset.sum_eq_single (0 : Fin NPROC)]
      · show (if some root = some i then 1 else 0) = _
        simp only [Option.some.injEq, eq_comm]
      · intro p _ hp
        simp [atCwd, boot, hp]
      · exact fun h => absurd (Finset.mem_univ _) h
    rw [hopens, hcwds, count_zero]
    rfl
  · refine (Finset.sum_eq_zero fun p _ => Finset.sum_eq_zero fun fd _ => if_neg ?_).symm
    by_cases hp : p = 0
    · simp [boot, hp]
    · simp [boot, hp]
  · by_cases hi : i = root
    · subst hi
      rw [node_boot_root] at hlink
      exact absurd hlink Nat.one_ne_zero
    · obtain ⟨-, -, hnode⟩ | ⟨-, hnode⟩ := boot_cases names hi
      · rw [hnode] at hlink
        exact absurd hlink Nat.one_ne_zero
      · rw [hnode] at htype
        exact absurd rfl htype
  · exact absurd hvalid Bool.false_ne_true

/-! ## Runs -/

/-- The path that a system call may enter in a directory. -/
def Action.newPath : Action → Option (List UInt8)
  | .mkdir path => some path
  | .mknod path => some path
  | .openPath path true _ => some path
  | .link _ new => some new
  | _ => none

/-- A system call creates names only in directories that have links. -/
def InLinked (σ : State) (l : Fin NPROC × Action) : Prop :=
  ∀ x ∈ σ.procs l.1, ∀ path ∈ l.2.newPath, ParentLinked σ x.cwd path

/-- Every system call keeps the invariant. -/
theorem Inv.step {event : Unit} (h : Inv 0 σ) (hlinked : InLinked σ (p, a))
    (hstep : σ.step (p, a) = some (σ', event)) : Inv 0 σ' := by
  obtain ⟨x, hp, hstep⟩ := Option.bind_eq_some_iff.mp hstep
  obtain ⟨τ, hcall, hstep⟩ := Option.bind_eq_some_iff.mp hstep
  obtain ⟨rfl, -⟩ := Prod.mk.inj (Option.some.inj hstep)
  have hcwd := h.counts.ref_cwd hp
  have hl := hlinked x hp
  cases a with
  | mkdir path | mknod path => exact h.sysMake hcwd (hl path rfl) hcall
  | openPath path =>
    refine h.sysOpen hp (fun hcreates => hl path ?_) hcall
    rw [hcreates]
    rfl
  | link old new => exact h.sysLink hp (hl new rfl) hcall
  | unlink => exact h.sysUnlink hcwd hcall
  | chdir => exact h.sysChdir hp hcall
  | close => exact (h.sysClose hp hcall).1
  | fork =>
    dsimp only [syscall] at hcall
    split_ifs at hcall with hchild
    cases hcall
    exact h.fork hp hchild
  | exit =>
    dsimp only [syscall] at hcall
    split_ifs at hcall
    exact h.exit hp hcall

theorem Inv.of_run {hist : List (State × (Fin NPROC × Action) × Unit)}
    (hrun : system.Run hist σ) (hlinked : ∀ y ∈ hist, InLinked y.1 y.2.1) : Inv 0 σ := by
  refine hrun.invariant_of_forall (G := fun σ l => InLinked σ l.1) ?_ ?_ hlinked
  · rintro _ ⟨names, hfit, rfl⟩
    exact inv_boot hfit
  · intro σ l σ' h hl hstep
    exact Inv.step (p := l.1.1) (a := l.1.2) h hl hstep

/-! ## Quiescent states -/

/-- All descriptors are closed, and every process is in the root directory. -/
def Quiescent (σ : State) : Prop :=
  ∀ p, ∀ x ∈ σ.procs p, x.cwd = root ∧ ∀ fd, x.ofile fd = none

/-- The inode can be reached from the root directory through entries. -/
def Reachable (nodes : Inum → Node) (i : Inum) : Prop :=
  Relation.ReflTransGen (fun a b => ∃ e ∈ (nodes a).entries, e.inum ≠ 0 ∧ e.inum = b) root i

/-- Allocated inodes are those that can be reached, and link counts are numbers of entries. -/
structure Exact (nodes : Inum → Node) : Prop where
  allocated_iff : ∀ i, (nodes i).type ≠ none ↔ Reachable nodes i
  nlink_file : ∀ i, (nodes i).type ≠ none → (nodes i).type ≠ some .dir →
    (nodes i).nlink = ∑ d, (nodes d).entries.countP (fun e => e.inum = i)
  nlink_dir : ∀ i, (nodes i).type = some .dir →
    (nodes i).nlink = 1 + ((nodes i).entries.drop 2).countP
      (fun e => e.inum ≠ 0 ∧ (nodes e.inum).type = some .dir)

/-- Nothing uses an inode other than the root directory. -/
theorem Counts.ref_eq_zero (h : Counts σ 0) (hquiet : Quiescent σ) (hi : i ≠ root) :
    σ.ref i = 0 := by
  have hcwds : cwds σ i = 0 := by
    refine Finset.sum_eq_zero fun p _ => if_neg fun hcwd => ?_
    obtain ⟨x, hx, rfl⟩ := Option.map_eq_some_iff.mp hcwd
    exact hi (hquiet p x hx).1
  have hfile : ∀ f, (σ.ftable f).ref = 0 := by
    intro f
    rw [h.file_ref f]
    refine Finset.sum_eq_zero fun p _ => Finset.sum_eq_zero fun fd _ => if_neg fun hfd => ?_
    obtain ⟨x, hx, hf⟩ := Option.bind_eq_some_iff.mp hfd
    rw [(hquiet p x hx).2 fd] at hf
    cases hf
  have hopens : opens σ i = 0 :=
    Finset.sum_eq_zero fun f _ => if_neg fun hopen => hopen.1 (hfile f)
  rw [h.ref_eq i, hcwds, hopens, count_zero]

/-- In a quiescent state an inode is allocated if and only if it has links. -/
theorem Inv.allocated_iff (h : Inv 0 σ) (hquiet : Quiescent σ) :
    (σ.nodes i).type ≠ none ↔ 0 < (σ.nodes i).nlink := by
  constructor
  · intro htype
    by_contra hzero
    have hzero : (σ.nodes i).nlink = 0 := by omega
    by_cases hi : i = root
    · subst hi
      exact absurd hzero (Nat.ne_of_gt h.wf.ok.root_live.2)
    · have := (h.kept.unlinked i htype hzero).1
      rw [h.counts.ref_eq_zero hquiet hi] at this
      exact absurd this (Nat.lt_irrefl 0)
  · intro hpos htype
    rw [h.wf.nlink_of_free htype] at hpos
    exact absurd hpos (Nat.lt_irrefl 0)

/-- In a quiescent state every directory has links. -/
theorem Inv.live (h : Inv 0 σ) (hquiet : Quiescent σ) (hdir : (σ.nodes i).type = some .dir) :
    (tree σ.nodes).Live i :=
  ⟨Node.kind_eq_dir.mpr hdir, (h.allocated_iff hquiet).mp (by rw [hdir]; simp)⟩

/-- The entry `..` of a directory with links names a directory with links. -/
theorem Wf.live_up (h : Wf nodes) (hi : (tree nodes).Live i) :
    (tree nodes).Live ((tree nodes).up i) := by
  by_cases hroot : i = root
  · rw [hroot, h.ok.up_root]
    exact h.ok.root_live
  · exact h.ok.live_of_mem i _ (h.ok.dir_named i hi hroot).2

/-- An entry of a directory with links is `.`, `..` or names a child. -/
theorem Wf.entry_cases {e : Dirent} (h : Wf nodes)
    (he : e ∈ (nodes i).entries) (hinum : e.inum ≠ 0) : (nodes i).type = some .dir ∧
      (e.inum = i ∨ e.inum = (tree nodes).up i ∨ e.inum ∈ (tree nodes).kids i) := by
  have hdir : (nodes i).type = some .dir := by
    by_contra hdir
    rw [(h.shape i).empty hdir] at he
    exact List.not_mem_nil he
  refine ⟨hdir, ?_⟩
  obtain ⟨u, rest, -, hentries⟩ := (h.shape i).dots hdir
  have hup : (tree nodes).up i = u := up_eq_of_entries hentries
  have hkids : (tree nodes).kids i = _ := kids_eq_of_entries hentries
  rw [hentries] at he
  rcases List.mem_cons.mp he with rfl | he
  · exact .inl rfl
  rcases List.mem_cons.mp he with rfl | he
  · exact .inr (.inl hup.symm)
  · refine .inr (.inr ?_)
    rw [hkids]
    exact mem_filter.mpr ⟨mem_coe.mpr (List.mem_map_of_mem he), hinum⟩

/-- What entries lead to is allocated. -/
theorem Inv.allocated_of_reachable (h : Inv 0 σ) (hquiet : Quiescent σ)
    (hreach : Reachable σ.nodes i) : (σ.nodes i).type ≠ none := by
  have hlive : ∀ d, (tree σ.nodes).Live d → (σ.nodes d).type ≠ none := by
    intro d hd
    rw [Node.kind_eq_dir.mp hd.1]
    simp
  induction hreach with
  | refl => exact hlive root h.wf.ok.root_live
  | tail _ hentry =>
    obtain ⟨e, he, hinum, rfl⟩ := hentry
    obtain ⟨hdir, hself | hup | hkid⟩ := h.wf.entry_cases he hinum
    · rwa [hself]
    · rw [hup]
      exact hlive _ (h.wf.live_up (h.live hquiet hdir))
    · exact fun hnone => h.wf.ok.used_of_mem _ _ hkid (Node.kind_eq_free.mpr hnone)

/-- Children are named by entries. -/
theorem Wf.reachable (h : (tree nodes).Reach root i) : Reachable nodes i := by
  induction h with
  | refl => exact .refl
  | @tail b c _ hkid ih =>
    have hkid' : c ∈ (nodes b).kids := hkid
    unfold Node.kids at hkid'
    obtain ⟨hmem, hne⟩ := mem_filter.mp hkid'
    obtain ⟨e, he, rfl⟩ := List.mem_map.mp (mem_coe.mp hmem)
    exact ih.tail ⟨e, List.mem_of_mem_drop he, hne, rfl⟩

/-- The entries that name a file or a device are those of its parents. -/
theorem Inv.countP_entries (h : Inv 0 σ) (hquiet : Quiescent σ) (htype : (σ.nodes i).type ≠ none)
    (hfile : (σ.nodes i).type ≠ some .dir) (d : Inum) :
    (σ.nodes d).entries.countP (fun e => e.inum = i) = ((tree σ.nodes).kids d).count i := by
  by_cases hdir : (σ.nodes d).type = some .dir
  · obtain ⟨u, rest, -, hentries⟩ := (h.wf.shape d).dots hdir
    have hkids : (tree σ.nodes).kids d = _ := kids_eq_of_entries hentries
    have hne : ∀ j, (tree σ.nodes).Live j → j ≠ i := by
      rintro j hj rfl
      exact hfile (Node.kind_eq_dir.mp hj.1)
    have hlive := h.live hquiet hdir
    have hup : (tree σ.nodes).up d = u := up_eq_of_entries hentries
    have hd := hne d hlive
    have hu := hne u (hup ▸ h.wf.live_up hlive)
    have hi : i ≠ 0 := (h.wf.shape i).nonzero htype
    rw [hkids, count_filter_of_pos (p := (· ≠ 0)) hi, coe_count, hentries,
      List.countP_cons_of_neg (by simpa using hd), List.countP_cons_of_neg (by simpa using hu),
      List.count_eq_countP, List.countP_map]
    exact List.countP_congr fun e _ => by simp
  · have hentries := (h.wf.shape d).empty hdir
    have hkids : (tree σ.nodes).kids d = 0 := kids_of_entries_nil hentries
    rw [hentries, hkids]
    simp

/-- The child directories of a directory. -/
theorem dirs_eq_countP (nodes : Inum → Node) (d : Inum) :
    (tree nodes).dirs d = ((nodes d).entries.drop 2).countP
      (fun e => e.inum ≠ 0 ∧ (nodes e.inum).type = some .dir) := by
  show ((((nodes d).kids)).filter fun c => (nodes c).kind = .dir).card = _
  unfold Node.kids
  rw [filter_filter, filter_coe, coe_card,
    ← List.countP_eq_length_filter, List.countP_map]
  refine List.countP_congr fun e _ => ?_
  simp only [Function.comp_apply, Node.kind_eq_dir, decide_eq_true_eq]
  exact And.comm

/-- If names are only created in directories that have links, the quiescent states have exact link
counts, and the allocated inodes are those that can be reached from the root directory. -/
theorem quiescent_exact {hist : List (State × (Fin NPROC × Action) × Unit)}
    (hrun : system.Run hist σ) (hlinked : ∀ y ∈ hist, InLinked y.1 y.2.1)
    (hquiet : Quiescent σ) : Exact σ.nodes := by
  have h := Inv.of_run hrun hlinked
  refine ⟨fun i => ⟨fun htype => ?_, h.allocated_of_reachable hquiet⟩, fun i htype hfile => ?_,
    fun i hdir => ?_⟩
  · exact Wf.reachable (h.wf.ok.reach i ((h.allocated_iff hquiet).mp htype))
  · have hnamed : (σ.nodes i).nlink = (tree σ.nodes).named i :=
      h.wf.ok.leaf_links i fun hdir => hfile (Node.kind_eq_dir.mp hdir)
    rw [hnamed]
    exact Finset.sum_congr rfl fun d _ => (h.countP_entries hquiet htype hfile d).symm
  · rw [← dirs_eq_countP]
    exact h.wf.ok.dir_links i (h.live hquiet hdir)

/-- What is found after performing system calls is found at the end of some run. -/
theorem exists_run (names : List Name) (hfit : 1 + names.length ≤ NINODES - 1)
    (as : List (Fin NPROC × Action)) (C : List (State × (Fin NPROC × Action) × Unit) → State → Bool)
    (h : (Transition.exec State.step [] (boot names) as).any (fun r => C r.1 r.2) = true) :
    ∃ hist σ, system.Run hist σ ∧ C hist σ = true :=
  Transition.exists_run_of_exec_any ⟨names, hfit, rfl⟩ h

instance (σ : State) (cwd : Inum) (path : List UInt8) : Decidable (ParentLinked σ cwd path) :=
  inferInstanceAs (Decidable (∀ d ∈ resolve true σ.nodes cwd path, 0 < (σ.nodes d.1).nlink))

instance (σ : State) (l : Fin NPROC × Action) : Decidable (InLinked σ l) :=
  inferInstanceAs (Decidable (∀ x ∈ σ.procs l.1, ∀ path ∈ l.2.newPath, ParentLinked σ x.cwd path))

instance (σ : State) : Decidable (Quiescent σ) :=
  inferInstanceAs (Decidable (∀ p, ∀ x ∈ σ.procs p, x.cwd = root ∧ ∀ fd, x.ofile fd = none))

/-- A directory is made and left, a file is created in it and gets a second name. -/
theorem quiescent_exact_two : ∃ hist σ, system.Run hist σ ∧ hist.length = 5 ∧
    (σ.nodes ⟨3, by decide⟩).nlink = 2 ∧ Exact σ.nodes := by
  obtain ⟨hist, σ, hrun, htest⟩ := exists_run [] (by decide)
    ([.mkdir [100], .openPath [100, 47, 120] true false, .close 0, .link [100, 47, 120] [121],
      .chdir [47]].map fun a => (0, a))
    (fun hist σ => decide (hist.length = 5 ∧ (σ.nodes ⟨3, by decide⟩).nlink = 2 ∧
      (∀ y ∈ hist, InLinked y.1 y.2.1) ∧ Quiescent σ))
    (by decide +kernel)
  obtain ⟨hlen, hlink, hlinked, hquiet⟩ := of_decide_eq_true htest
  exact ⟨hist, σ, hrun, hlen, hlink, quiescent_exact hrun hlinked hquiet⟩

/-- A process removes its current directory, creates a file there and leaves: the file stays
allocated with one link, and no entry names it. -/
theorem not_quiescent_exact : ∃ hist σ, system.Run hist σ ∧ Quiescent σ ∧ ¬Exact σ.nodes := by
  obtain ⟨hist, σ, hrun, htest⟩ := exists_run [] (by decide)
    ([.mkdir [100], .chdir [100], .unlink [47, 100], .openPath [120] true false, .close 0,
      .chdir [47]].map fun a => (0, a))
    (fun _ σ => decide (Quiescent σ ∧ (σ.nodes ⟨3, by decide⟩).type = some .file ∧
      (σ.nodes ⟨3, by decide⟩).nlink = 1 ∧
      ∑ d, (σ.nodes d).entries.countP (fun e => e.inum = ⟨3, by decide⟩) = 0))
    (by decide +kernel)
  obtain ⟨hquiet, htype, hlink, hnamed⟩ := of_decide_eq_true htest
  refine ⟨hist, σ, hrun, hquiet, fun hexact => ?_⟩
  have hcount := hexact.nlink_file ⟨3, by decide⟩ (by rw [htype]; simp) (by rw [htype]; simp)
  rw [hlink, hnamed] at hcount
  exact Nat.one_ne_zero hcount

/-- Between the system calls of such a run, the counts of inodes and open files are the numbers of
their holders, and an allocated inode that the root directory does not lead to is in use. -/
theorem references_exact {hist : List (State × (Fin NPROC × Action) × Unit)}
    (hrun : system.Run hist σ) (hlinked : ∀ y ∈ hist, InLinked y.1 y.2.1) :
    (∀ i, σ.ref i = cwds σ i + opens σ i) ∧
      (∀ f, (σ.ftable f).ref = ∑ p, descriptors (σ.procs p) f) ∧
      ∀ i, (σ.nodes i).type ≠ none → Reachable σ.nodes i ∨ 0 < cwds σ i + opens σ i := by
  have h := Inv.of_run hrun hlinked
  have href : ∀ i, σ.ref i = cwds σ i + opens σ i := by simpa using h.counts.ref_eq
  refine ⟨href, h.counts.file_ref, fun i htype => ?_⟩
  rcases Nat.eq_zero_or_pos (σ.nodes i).nlink with hzero | hpos
  · rw [← href]
    exact .inr (h.kept.unlinked i htype hzero).1
  · exact .inl (Wf.reachable (h.wf.ok.reach i hpos))

/-- A file that has been removed is still open. -/
theorem references_exact_unlinked : ∃ hist σ, system.Run hist σ ∧
    (σ.nodes ⟨2, by decide⟩).nlink = 0 ∧
    cwds σ ⟨2, by decide⟩ + opens σ ⟨2, by decide⟩ = 1 := by
  obtain ⟨hist, σ, hrun, htest⟩ := exists_run [] (by decide)
    ([.openPath [120] true false, .unlink [120]].map fun a => (0, a))
    (fun hist σ => decide ((σ.nodes ⟨2, by decide⟩).nlink = 0 ∧ σ.ref ⟨2, by decide⟩ = 1 ∧
      ∀ y ∈ hist, InLinked y.1 y.2.1)) (by decide +kernel)
  obtain ⟨hlink, href, hlinked⟩ := of_decide_eq_true htest
  exact ⟨hist, σ, hrun, hlink, ((references_exact hrun hlinked).1 _).symm.trans href⟩

end FileSystem.Names
