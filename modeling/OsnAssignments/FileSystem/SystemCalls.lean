import Mathlib
import OsnAssignments.FileSystem.Links

/-!
# Link counts over runs

Every system call keeps the inodes a tree with exact link counts and the reference counts exact,
provided that names are only created in directories that have links. Without the condition, a
process can create a file in its current directory after that directory was removed: it loses its
only name when the directory is freed, and stays allocated.
-/

namespace FileSystem.Names

open State LinkTree Function Multiset

/-- The invariant of the system calls, where the running one holds the references `held`. -/
structure Inv (held : Multiset Inum) (σ : State) : Prop where
  counts : Counts σ held
  kept : Kept σ
  wf : Wf σ.nodes

variable {σ σ' : State} {held : Multiset Inum} {i dp ip cwd : Inum} {name : Name}
  {path : List UInt8} {p : Fin NPROC} {x : Proc}
variable {type : FileType} {nodes : Inum → Node}

/-! ## Inodes and paths -/

theorem Inv.iput (h : Inv (i ::ₘ held) σ) : Inv held (σ.iput i) where
  counts := h.counts.iput
  kept := h.kept.iput i
  wf := by
    obtain hsame | ⟨hzero, hfree⟩ := iput_nodes σ i
    · rw [hsame]
      exact h.wf
    · rw [hfree]
      exact h.wf.free hzero

theorem Inv.ilock (h : Inv held σ) (hlock : σ.ilock i = some σ') : Inv held σ' where
  counts := h.counts.ilock h.kept hlock
  kept := h.kept.ilock hlock
  wf := by
    rw [(sameFiles_ilock h.kept hlock).nodes_eq]
    exact h.wf

theorem Inv.iget (h : Inv held σ) (hget : σ.iget i = some σ') : Inv (i ::ₘ held) σ' where
  counts := h.counts.iget hget
  kept := (h.kept.iget hget).1
  wf := by
    rw [(sameFiles_iget hget).nodes_eq]
    exact h.wf

theorem Inv.of_resolved {found : Option (Inum × Name)} (h : Inv held σ)
    (hfound : Resolved held σ found σ') : Inv (found.elim held fun x => x.1 ::ₘ held) σ' where
  counts := hfound.counts
  kept := hfound.kept
  wf := by
    rw [hfound.same.nodes_eq]
    exact h.wf

/-- The current directory of a process has a reference. -/
theorem Counts.ref_cwd (h : Counts σ held) (hp : σ.procs p = some x) : 0 < σ.ref x.cwd := by
  have hle : atCwd (σ.procs p) x.cwd ≤ cwds σ x.cwd :=
    Finset.single_le_sum (f := fun q => atCwd (σ.procs q) x.cwd) (fun _ _ => Nat.zero_le _)
      (Finset.mem_univ p)
  have hone : atCwd (σ.procs p) x.cwd = 1 := by simp [atCwd, hp]
  have := h.ref_eq x.cwd
  omega

/-- Changes that leave every inode as it is, or give it links or a valid copy in use. -/
theorem Kept.of_changes (h : Kept σ) (hσ : ∀ j, ((σ'.nodes j).type ≠ none ∧
        ((σ'.nodes j).nlink = 0 → 0 < σ'.ref j ∧ σ'.valid j = true)) ∨
      (σ'.nodes j = σ.nodes j ∧ σ.ref j ≤ σ'.ref j ∧ σ'.valid j = σ.valid j)) : Kept σ' := by
  refine ⟨fun j htype hlink => ?_, fun j hvalid => ?_⟩
  · obtain ⟨-, hused⟩ | ⟨hnode, href, hvalid⟩ := hσ j
    · exact hused hlink
    · rw [hnode] at htype hlink
      obtain ⟨hpos, hvalid'⟩ := h.unlinked j htype hlink
      exact ⟨Nat.lt_of_lt_of_le hpos href, hvalid.trans hvalid'⟩
  · obtain ⟨htype, -⟩ | ⟨hnode, -, hvalid'⟩ := hσ j
    · exact htype
    · rw [hnode]
      exact h.typed j (hvalid'.symm.trans hvalid)

theorem Kept.setNode {node : Node} (h : Kept σ) (htype : node.type ≠ none)
    (hused : node.nlink = 0 → 0 < σ.ref i ∧ σ.valid i = true) : Kept (σ.setNode i node) := by
  refine h.of_changes fun j => ?_
  by_cases hj : j = i
  · rw [hj, setNode_self]
    exact .inl ⟨htype, hused⟩
  · exact .inr ⟨setNode_of_ne hj _, Nat.le_refl _, rfl⟩

/-! ## `dirlink` and `create` -/

theorem dirlink_cases {ok : Bool} (h : σ.dirlink dp name ip = some (ok, σ')) :
    (σ.nodes dp).type = some .dir ∧
      ((ok = false ∧ ∃ e τ, e ≠ dp ∧ σ.iget e = some τ ∧ σ' = τ.iput e) ∨
        (ok = true ∧ σ' = σ.setNode dp ((σ.nodes dp).enter ⟨ip, name⟩))) := by
  obtain ⟨⟨found, τ⟩, hlookup, hlink⟩ := Option.bind_eq_some_iff.mp h
  obtain ⟨htype, ⟨-, rfl, rfl⟩ | ⟨e, off, -, rfl, hget⟩⟩ := dirlookup_cases hlookup
  · refine ⟨htype, .inr ?_⟩
    dsimp only at hlink
    split_ifs at hlink with hroom
    · cases hlink
      exact ⟨rfl, rfl⟩
  · refine ⟨htype, .inl ?_⟩
    dsimp only at hlink
    split_ifs at hlink with hself
    · cases hlink
      exact ⟨rfl, e.inum, τ, hself, hget, rfl⟩

/-- The inode that `create` makes. -/
def newNode (type : FileType) (ip dp : Inum) : Node :=
  ⟨some type, 1, if type = .dir then [⟨ip, dot⟩, ⟨dp, dotdot⟩] else []⟩

theorem kind_newNode : (newNode type ip dp).kind = .dir ↔ type = .dir := by
  rw [Node.kind_eq_dir]
  exact Option.some_inj

theorem kids_newNode (type : FileType) (ip dp : Inum) : (newNode type ip dp).kids = 0 := by
  unfold newNode Node.kids
  split_ifs
  · rfl
  · rfl

theorem up_newNode (type : FileType) (ip dp : Inum) :
    (newNode type ip dp).up = if type = .dir then dp else 0 := by
  unfold newNode Node.up
  split_ifs
  · rfl
  · rfl

theorem shape_newNode (type : FileType) (hip : ip ≠ 0) (hdp : dp ≠ 0) :
    Shape ip (newNode type ip dp) where
  dots hdir := by
    have htype : type = .dir := Option.some_inj.mp hdir
    exact ⟨dp, [], hdp, if_pos htype⟩
  empty hdir := if_neg fun htype => hdir (congrArg some htype)
  nonzero _ := hip

theorem linkDots_eq (hnode : σ.nodes ip = ⟨some .dir, 1, []⟩) (hip : ip ≠ 0) (hne : ip ≠ dp)
    (h : σ.linkDots dp ip = some σ') :
    σ' = (σ.setNode dp { σ.nodes dp with nlink := (σ.nodes dp).nlink + 1 }).setNode ip
      (newNode .dir ip dp) := by
  set σ₀ := σ.setNode dp { σ.nodes dp with nlink := (σ.nodes dp).nlink + 1 } with hσ₀
  have hnode₀ : σ₀.nodes ip = ⟨some .dir, 1, []⟩ := by
    rw [← hnode]
    exact setNode_of_ne hne _
  obtain ⟨⟨ok, σ₁⟩, hlink, h⟩ := Option.bind_eq_some_iff.mp h
  dsimp only at h
  split_ifs at h with hok
  obtain ⟨⟨ok', σ₂⟩, hlink', h⟩ := Option.bind_eq_some_iff.mp h
  dsimp only at h
  split_ifs at h with hok'
  cases h
  obtain ⟨-, ⟨hfalse, -⟩ | ⟨-, hσ₁⟩⟩ := dirlink_cases hlink
  · exact absurd hfalse hok
  obtain ⟨-, ⟨hfalse, -⟩ | ⟨-, hσ₂⟩⟩ := dirlink_cases hlink'
  · exact absurd hfalse hok'
  have hnode₁ : σ₁.nodes ip = ⟨some .dir, 1, [⟨ip, dot⟩]⟩ := by
    rw [hσ₁, setNode_self, hnode₀]
    rfl
  have henter : (σ₁.nodes ip).enter ⟨dp, dotdot⟩ = newNode .dir ip dp := by
    rw [hnode₁]
    simp [Node.enter, newNode, List.findIdx_cons, hip]
  rw [hσ₂, henter, hσ₁, setNode_setNode]

/-- `ialloc`, and the link that `create` gives the new inode. -/
theorem ialloc_cases (h : σ.ialloc type = some (ip, σ')) :
    ip ≠ 0 ∧ (σ.nodes ip).type = none ∧ (σ.setNode ip ⟨some type, 0, []⟩).iget ip = some σ' := by
  unfold ialloc at h
  split at h
  · exact absurd h (by simp)
  · next i hfind =>
    obtain ⟨τ, hget, hτ⟩ := Option.bind_eq_some_iff.mp h
    cases hτ
    have hfree := List.find?_some hfind
    simp only [ne_eq, decide_eq_true_eq] at hfree
    exact ⟨hfree.1, hfree.2, hget⟩

/-- The inodes after a new one was entered in `dp`, before the reference to `dp` is dropped. -/
theorem createNew_cases (hdp : (σ.nodes dp).type = some .dir)
    (h : σ.createNew dp name type = some (ip, σ')) :
    ∃ τ : State, σ' = τ.iput dp ∧ ip ≠ 0 ∧ (σ.nodes ip).type = none ∧
      τ.nodes = update (update σ.nodes ip (newNode type ip dp)) dp
        (({ σ.nodes dp with
          nlink := (σ.nodes dp).nlink + if type = .dir then 1 else 0 } : Node).enter ⟨ip, name⟩) ∧
      (∀ j, τ.ref j = σ.ref j + if j = ip then 1 else 0) ∧
      (∀ j, j ≠ ip → τ.valid j = σ.valid j) ∧ τ.ftable = σ.ftable ∧ τ.procs = σ.procs := by
  obtain ⟨⟨i, σ₁⟩, halloc, h⟩ := Option.bind_eq_some_iff.mp h
  obtain ⟨σ₂, hlock, h⟩ := Option.bind_eq_some_iff.mp h
  obtain ⟨σ₃, hdots, h⟩ := Option.bind_eq_some_iff.mp h
  obtain ⟨⟨ok, σ₄⟩, hlink, h⟩ := Option.bind_eq_some_iff.mp h
  dsimp only at h
  split_ifs at h with hok
  obtain ⟨rfl, rfl⟩ := Prod.mk.inj (Option.some.inj h)
  obtain ⟨hi, htype, hget⟩ := ialloc_cases halloc
  have hne : i ≠ dp := by
    rintro rfl
    rw [htype] at hdp
    cases hdp
  have hsame := sameFiles_iget hget
  have hnode₁ : σ₁.nodes i = ⟨some type, 0, []⟩ := by
    rw [hsame.nodes_eq, setNode_self]
  obtain ⟨rfl, -⟩ := ilock_cases hlock fun _ => by rw [hnode₁]; simp
  obtain ⟨-, ⟨hfalse, -⟩ | ⟨-, rfl⟩⟩ := dirlink_cases hlink
  · exact absurd hfalse hok
  set σ₂ := ({ σ₁ with valid := update σ₁.valid i true } : State).setNode i
    { σ₁.nodes i with nlink := 1 } with hσ₂
  have hnodes₂ : σ₂.nodes = update σ.nodes i ⟨some type, 1, []⟩ := by
    show update σ₁.nodes i { σ₁.nodes i with nlink := 1 } = _
    rw [hnode₁, hsame.nodes_eq]
    exact update_idem ..
  -- a new directory gets its entries, and its parent a link
  have hnodes₃ : σ₃ = { σ₂ with
      nodes := update (update σ.nodes i (newNode type i dp)) dp
        { σ.nodes dp with nlink := (σ.nodes dp).nlink + if type = .dir then 1 else 0 } } := by
    split_ifs at hdots with hdir
    · have hnode₂ : σ₂.nodes i = ⟨some .dir, 1, []⟩ := by
        rw [hnodes₂, update_self, hdir]
      rw [linkDots_eq hnode₂ hi hne hdots, hdir]
      unfold setNode
      rw [hnodes₂, update_of_ne hne.symm, update_comm hne.symm,
        update_idem]
      rfl
    · obtain rfl := Option.some.inj hdots
      have hnew : newNode type i dp = ⟨some type, 1, []⟩ := by
        unfold newNode
        rw [if_neg hdir]
      have hdp₂ : σ₂.nodes dp = σ.nodes dp := by
        rw [hnodes₂, update_of_ne hne.symm]
      rw [hnew, if_neg hdir, Nat.add_zero, ← hnodes₂, ← hdp₂]
      show σ₂ = { σ₂ with nodes := update σ₂.nodes dp (σ₂.nodes dp) }
      rw [update_eq_self]
  have hσ₁ : ∀ j, j ≠ i → σ₁.valid j = σ.valid j := by
    intro j hj
    obtain ⟨-, rfl⟩ | ⟨-, rfl⟩ := iget_cases hget
    · rfl
    · exact update_of_ne hj ..
  refine ⟨_, rfl, hi, htype, ?_, fun j => ?_, fun j hj => ?_, ?_, ?_⟩
  · rw [hnodes₃]
    simp only [setNode, update_self, update_idem]
  · rw [hnodes₃]
    exact ref_iget hget j
  · rw [hnodes₃]
    exact (update_of_ne hj ..).trans (hσ₁ j hj)
  · rw [hnodes₃]
    exact hsame.ftable_eq
  · rw [hnodes₃]
    exact hsame.procs_eq

/-- The second half of `create` enters a new inode in a directory with links. -/
theorem Inv.createNew (h : Inv (dp ::ₘ held) σ)
    (hdp : (σ.nodes dp).type = some .dir) (hpos : 0 < (σ.nodes dp).nlink)
    (hnew : σ.createNew dp name type = some (ip, σ')) :
    Inv (ip ::ₘ held) σ' ∧ σ'.procs = σ.procs := by
  obtain ⟨τ, rfl, hip, htype, hnodes, href, hvalid, hftable, hprocs⟩ := createNew_cases hdp hnew
  refine ⟨Inv.iput ⟨?_, ?_, ?_⟩, (procs_iput τ dp).trans hprocs⟩
  · refine h.counts.of_ref hftable hprocs fun j => ?_
    rw [href, count_cons, count_cons, count_cons]
    omega
  · refine h.kept.of_changes fun j => ?_
    rw [hnodes, href]
    by_cases hjd : j = dp
    · rw [hjd, update_self]
      refine .inl ⟨?_, fun hzero => ?_⟩
      · show (σ.nodes dp).type ≠ none
        rw [hdp]
        simp
      · have : (σ.nodes dp).nlink + (if type = .dir then 1 else 0) = 0 := hzero
        omega
    · rw [update_of_ne hjd]
      by_cases hji : j = ip
      · rw [hji, update_self]
        exact .inl ⟨by simp [newNode], fun hzero => absurd hzero Nat.one_ne_zero⟩
      · rw [update_of_ne hji]
        exact .inr ⟨rfl, by omega, hvalid j hji⟩
  · have hentries : (σ.nodes ip).entries = [] := (h.wf.shape ip).empty (by rw [htype]; simp)
    have hdp0 : dp ≠ 0 := (h.wf.shape dp).nonzero (by rw [hdp]; simp)
    have hup : (newNode type ip dp).up =
        if (newNode type ip dp).kind = .dir then dp else (σ.nodes ip).up := by
      have hzero : (σ.nodes ip).up = 0 := by
        unfold Node.up
        rw [hentries]
        rfl
      simp only [up_newNode, kind_newNode, hzero]
    have hwf := h.wf.add hdp hpos (shape_newNode type hip hdp0) (by simp [newNode]) (.inl htype)
      (by rw [h.wf.nlink_of_free htype]; rfl)
      (by rw [kids_newNode, kids_of_entries_nil hentries]) hup name
    simp only [kind_newNode] at hwf
    rwa [hnodes]

/-- The parent directory that a path names has links. -/
def ParentLinked (σ : State) (cwd : Inum) (path : List UInt8) : Prop :=
  ∀ d ∈ resolve true σ.nodes cwd path, 0 < (σ.nodes d.1).nlink

theorem Inv.create {made : Option Inum} (h : Inv held σ) (hcwd : 0 < σ.ref cwd)
    (hlinked : ParentLinked σ cwd path) (hcreate : σ.create cwd path type = some (made, σ')) :
    Inv (made.elim held (· ::ₘ held)) σ' ∧ σ'.procs = σ.procs := by
  obtain ⟨⟨parent, σ₁⟩, hparent, hcreate⟩ := Option.bind_eq_some_iff.mp hcreate
  obtain ⟨hres, hfound⟩ := resolved_namex h.counts h.kept hcwd hparent
  have h₁ := h.of_resolved hres
  obtain _ | ⟨dp, name⟩ := parent
  · cases hcreate
    exact ⟨h₁, hres.same.procs_eq⟩
  obtain ⟨σ₂, hlock, hcreate⟩ := Option.bind_eq_some_iff.mp hcreate
  have h₂ := h₁.ilock hlock
  have hsame := hres.same.trans (sameFiles_ilock h₁.kept hlock)
  obtain ⟨⟨found, σ₃⟩, hlookup, hrest⟩ := Option.bind_eq_some_iff.mp hcreate
  obtain ⟨htype, ⟨-, rfl, rfl⟩ | ⟨e, off, -, rfl, hget⟩⟩ := dirlookup_cases hlookup
  · -- the name is new
    obtain ⟨⟨ip, σ₄⟩, hnew, hmade⟩ := Option.bind_eq_some_iff.mp hrest
    cases hmade
    have hpos : 0 < (σ₃.nodes dp).nlink := by
      rw [hsame.nodes_eq]
      exact hlinked (dp, name) hfound.symm
    obtain ⟨hinv, hprocs⟩ := Inv.createNew h₂ htype hpos hnew
    exact ⟨hinv, hprocs.trans hsame.procs_eq⟩
  · have h₃ : Inv (dp ::ₘ e.inum ::ₘ held) σ₃ := by
      rw [cons_swap]
      exact h₂.iget hget
    obtain ⟨σ₄, hlock', hrest⟩ := Option.bind_eq_some_iff.mp hrest
    have h₄ := h₃.iput.ilock hlock'
    have hprocs : σ₄.procs = σ.procs := by
      rw [(sameFiles_ilock h₃.iput.kept hlock').procs_eq, procs_iput,
        (sameFiles_iget hget).procs_eq, hsame.procs_eq]
    split_ifs at hrest with hfile
    · cases hrest
      exact ⟨h₄, hprocs⟩
    · cases hrest
      exact ⟨h₄.iput, (procs_iput σ₄ e.inum).trans hprocs⟩

theorem Inv.sysMake (h : Inv held σ) (hcwd : 0 < σ.ref cwd)
    (hlinked : ParentLinked σ cwd path) (hmake : σ.sysMake cwd path type = some σ') :
    Inv held σ' := by
  obtain ⟨⟨made, σ₁⟩, hcreate, hmake⟩ := Option.bind_eq_some_iff.mp hmake
  obtain ⟨h₁, -⟩ := h.create hcwd hlinked hcreate
  obtain _ | ip := made
  · cases hmake
    exact h₁
  · cases hmake
    exact h₁.iput

/-! ## `link` -/

/-- The state in the middle of `sys_link`: the link is counted, but has no name yet. -/
structure Linking (nodes : Inum → Node) (ip : Inum) (held : Multiset Inum) (σ : State) : Prop where
  counts : Counts σ held
  kept : Kept σ
  nodes_eq : σ.nodes = update nodes ip { nodes ip with nlink := (nodes ip).nlink + 1 }

theorem Linking.of_same {held' : Multiset Inum} (h : Linking nodes ip held σ)
    (hcounts : Counts σ' held') (hkept : Kept σ') (hnodes : σ'.nodes = σ.nodes) :
    Linking nodes ip held' σ' :=
  ⟨hcounts, hkept, hnodes.trans h.nodes_eq⟩

/-- The link is taken back. -/
theorem Linking.linkBad (h : Linking nodes ip (ip ::ₘ held) σ)
    (hwf : Wf nodes) (hbad : σ.linkBad ip = some σ') : Inv held σ' := by
  obtain ⟨τ, hlock, hbad⟩ := Option.bind_eq_some_iff.mp hbad
  cases hbad
  obtain ⟨-, htype⟩ := ilock_cases hlock (h.kept.typed ip)
  have hsame := sameFiles_ilock h.kept hlock
  have hcounts := h.counts.ilock h.kept hlock
  have hnode : (τ.nodes ip) = { nodes ip with nlink := (nodes ip).nlink + 1 } := by
    rw [hsame.nodes_eq, h.nodes_eq, update_self]
  have hnodes : (τ.setNode ip { τ.nodes ip with nlink := (τ.nodes ip).nlink - 1 }).nodes =
      nodes := by
    show update τ.nodes ip _ = _
    rw [hnode, hsame.nodes_eq, h.nodes_eq, update_idem]
    exact update_eq_self ip nodes
  refine Inv.iput ⟨hcounts.of_ref rfl rfl fun _ => rfl, ?_, by rwa [hnodes]⟩
  refine (h.kept.ilock hlock).setNode ?_ fun _ => ⟨?_, valid_ilock h.kept hlock⟩
  · show (τ.nodes ip).type ≠ none
    rwa [hsame.nodes_eq]
  · have := hcounts.ref_eq ip
    rw [count_cons_self] at this
    omega

/-- The link gets its name. -/
theorem Linking.enter (h : Linking nodes ip held σ) (hwf : Wf nodes)
    (hip : (nodes ip).kind = .leaf) (hdp : (σ.nodes dp).type = some .dir)
    (hpos : 0 < (nodes dp).nlink) : Inv held (σ.setNode dp ((σ.nodes dp).enter ⟨ip, name⟩)) := by
  have hne : dp ≠ ip := by
    rintro rfl
    rw [h.nodes_eq, update_self] at hdp
    exact (Node.kind_eq_leaf.mp hip).2 hdp
  have hnode : σ.nodes dp = nodes dp := by
    rw [h.nodes_eq, update_of_ne hne]
  refine ⟨h.counts.of_ref rfl rfl fun _ => rfl, h.kept.setNode ?_ fun hzero => ?_, ?_⟩
  · show (σ.nodes dp).type ≠ none
    rw [hdp]
    simp
  · rw [hnode] at hzero
    exact absurd hzero (Nat.ne_of_gt hpos)
  · have hleaf : ({ nodes ip with nlink := (nodes ip).nlink + 1 } : Node).kind ≠ .dir := by
      rw [show ({ nodes ip with nlink := (nodes ip).nlink + 1 } : Node).kind = _ from hip]
      decide
    have hshape := hwf.shape ip
    have hshape' : Shape ip { nodes ip with nlink := (nodes ip).nlink + 1 } :=
      ⟨hshape.dots, hshape.empty, hshape.nonzero⟩
    have hadd := hwf.add (hnode ▸ hdp) hpos hshape' (Node.kind_eq_leaf.mp hip).1
      (.inr ⟨hip, hip⟩) rfl rfl (by rw [if_neg hleaf]; rfl) name
    rw [if_neg hleaf, Nat.add_zero, ← h.nodes_eq] at hadd
    show Wf (update σ.nodes dp _)
    rwa [hnode]

theorem Inv.sysLink {old new : List UInt8} (h : Inv held σ) (hp : σ.procs p = some x)
    (hlinked : ParentLinked σ x.cwd new) (hlink : σ.sysLink x.cwd old new = some σ') :
    Inv held σ' := by
  obtain ⟨⟨found, σ₁⟩, hfound, hlink⟩ := Option.bind_eq_some_iff.mp hlink
  obtain ⟨hres, -⟩ := resolved_namex h.counts h.kept (h.counts.ref_cwd hp) hfound
  have h₁ := h.of_resolved hres
  obtain _ | ⟨ip, name⟩ := found
  · cases hlink
    exact h₁
  obtain ⟨σ₂, hlock, hlink⟩ := Option.bind_eq_some_iff.mp hlink
  have h₂ := h₁.ilock hlock
  have hsame := hres.same.trans (sameFiles_ilock h₁.kept hlock)
  split_ifs at hlink with hdir
  · cases hlink
    exact h₂.iput
  have htype : (σ₂.nodes ip).type ≠ none := by
    rw [(sameFiles_ilock h₁.kept hlock).nodes_eq]
    exact (ilock_cases hlock (h₁.kept.typed ip)).2
  have hleaf : (σ₂.nodes ip).kind = .leaf := Node.kind_eq_leaf.mpr ⟨htype, hdir⟩
  set σ₃ := σ₂.setNode ip { σ₂.nodes ip with nlink := (σ₂.nodes ip).nlink + 1 } with hσ₃
  have h₃ : Linking σ₂.nodes ip (ip ::ₘ held) σ₃ :=
    ⟨h₂.counts.of_ref rfl rfl fun _ => rfl,
      h₂.kept.setNode htype fun hzero => absurd hzero (Nat.succ_ne_zero _), rfl⟩
  have hp₃ : σ₃.procs p = some x := hsame.procs_eq ▸ hp
  obtain ⟨⟨parent, σ₄⟩, hparent, hrest⟩ := Option.bind_eq_some_iff.mp hlink
  obtain ⟨hres', hparent'⟩ := resolved_namex h₃.counts h₃.kept (h₃.counts.ref_cwd hp₃) hparent
  have h₄ := h₃.of_same hres'.counts hres'.kept hres'.same.nodes_eq
  obtain _ | ⟨dp, name'⟩ := parent
  · exact h₄.linkBad h₂.wf hrest
  have hpos : 0 < (σ₂.nodes dp).nlink := by
    -- the path is resolved as in the state before the link was counted
    have hcongr : ∀ j, (σ₃.nodes j).type = (σ.nodes j).type ∧
        (σ₃.nodes j).entries = (σ.nodes j).entries := by
      intro j
      rw [← hsame.nodes_eq]
      by_cases hj : j = ip
      · rw [hj, hσ₃, setNode_self]
        exact ⟨rfl, rfl⟩
      · rw [hσ₃, setNode_of_ne hj]
        exact ⟨rfl, rfl⟩
    rw [hsame.nodes_eq]
    exact hlinked (dp, name') (hparent'.trans (walk_congr hcongr _ _)).symm
  obtain ⟨σ₅, hlock', hrest⟩ := Option.bind_eq_some_iff.mp hrest
  have h₅ := h₄.of_same (h₄.counts.ilock h₄.kept hlock') (h₄.kept.ilock hlock')
    (sameFiles_ilock h₄.kept hlock').nodes_eq
  obtain ⟨⟨ok, σ₆⟩, hdirlink, hrest⟩ := Option.bind_eq_some_iff.mp hrest
  dsimp only at hrest
  obtain ⟨hdp, ⟨rfl, e, τ, hne, hget, rfl⟩ | ⟨rfl, rfl⟩⟩ := dirlink_cases hdirlink
  · -- the name exists, and the references to its inode and to `dp` are dropped
    rw [if_pos rfl] at hrest
    obtain ⟨hkept, hshared⟩ := h₅.kept.iget hget
    have hnodes := nodes_iput_of_shared hkept hshared
    have hdp' : Shared (τ.iput e) dp :=
      (((hres'.shared _ rfl).ilock h₄.kept hlock').iget hget).iput hne.symm hnodes
    have hnodes' := nodes_iput_of_shared (hkept.iput e) hdp'
    refine (h₅.of_same (h₅.counts.iget hget).iput.iput ((hkept.iput e).iput dp) ?_).linkBad h₂.wf
      hrest
    rw [hnodes', hnodes, (sameFiles_iget hget).nodes_eq]
  · rw [if_neg (by decide)] at hrest
    cases hrest
    exact (h₅.enter h₂.wf hleaf hdp hpos).iput.iput

/-! ## `unlink` -/

/-- A name other than `.` and `..` is found behind them. -/
theorem two_le_of_lookup {node : Node} {u : Inum} {rest : List Dirent} {e : Dirent} {off : ℕ}
    (hentries : node.entries = ⟨dp, dot⟩ :: ⟨u, dotdot⟩ :: rest) (hdot : name ≠ dot)
    (hdotdot : name ≠ dotdot) (h : lookup node name = some (e, off)) : 2 ≤ off := by
  obtain ⟨he, -, hname⟩ := lookup_eq_some h
  rw [hentries] at he
  match off, he with
  | 0, he =>
    cases he
    exact absurd hname.symm hdot
  | 1, he =>
    cases he
    exact absurd hname.symm hdotdot
  | k + 2, _ => exact Nat.le_add_left 2 k

/-- What `sys_unlink` removes has no children. -/
theorem Wf.kids_eq_zero (h : Wf nodes)
    (hempty : (nodes ip).type = some .dir → isdirempty (nodes ip) = true) :
    (nodes ip).kids = 0 := by
  by_cases hdir : (nodes ip).type = some .dir
  · have hall := hempty hdir
    unfold isdirempty at hall
    rw [List.all_eq_true] at hall
    refine filter_eq_nil.mpr fun j hj hne => hne ?_
    obtain ⟨e, he, rfl⟩ := List.mem_map.mp (mem_coe.mp hj)
    exact of_decide_eq_true (hall e he)
  · exact kids_of_entries_nil ((h.shape ip).empty hdir)

/-- A directory that loses a child directory keeps a link. -/
theorem Wf.nlink_sub_pos (h : Wf nodes) (hip : ip ∈ (tree nodes).kids dp) :
    0 < (nodes dp).nlink - if (nodes ip).kind = .dir then 1 else 0 := by
  have hlinks : (nodes dp).nlink = 1 + (tree nodes).dirs dp :=
    h.ok.dir_links dp (h.ok.live_of_mem ip dp hip)
  split_ifs with hdir
  · have hpos : 0 < (tree nodes).dirs dp :=
      card_pos_iff_exists_mem.mpr ⟨ip, mem_filter.mpr ⟨hip, hdir⟩⟩
    omega
  · omega

theorem Inv.unlinkEntry {e : Dirent} {off : ℕ} (h : Inv (dp ::ₘ e.inum ::ₘ held) σ)
    (hdp : (σ.nodes dp).type = some .dir) (hoff : 2 ≤ off)
    (he : (σ.nodes dp).entries[off]? = some e) (hinum : e.inum ≠ 0) (hne : e.inum ≠ dp)
    (hvalid : σ.valid e.inum = true)
    (hempty : (σ.nodes e.inum).type = some .dir → isdirempty (σ.nodes e.inum) = true) :
    Inv held (σ.unlinkEntry dp e.inum off) := by
  set σ₁ : State := σ.setNode dp { σ.nodes dp with
    entries := (σ.nodes dp).entries.set off ⟨0, []⟩
    nlink := (σ.nodes dp).nlink - if (σ.nodes e.inum).kind = .dir then 1 else 0 } with hσ₁
  set σ₂ : State := σ₁.setNode e.inum { σ.nodes e.inum with
    nlink := (σ.nodes e.inum).nlink - 1 } with hσ₂
  have hunlink : σ.unlinkEntry dp e.inum off = (σ₂.iput dp).iput e.inum := by
    have hlt : off < (σ.nodes dp).entries.length := (List.getElem?_eq_some_iff.mp he).1
    have hwrite : σ.writeEntry dp off ⟨0, []⟩ = σ.setNode dp { σ.nodes dp with
        entries := (σ.nodes dp).entries.set off ⟨0, []⟩ } := by
      unfold writeEntry
      simp only [if_pos hlt]
    have hentry : (if ((σ.writeEntry dp off ⟨0, []⟩).nodes e.inum).type = some .dir then
        (σ.writeEntry dp off ⟨0, []⟩).setNode dp { (σ.writeEntry dp off ⟨0, []⟩).nodes dp with
          nlink := ((σ.writeEntry dp off ⟨0, []⟩).nodes dp).nlink - 1 }
        else σ.writeEntry dp off ⟨0, []⟩) = σ₁ := by
      rw [hwrite, setNode_of_ne hne, setNode_self, setNode_setNode, hσ₁]
      simp only [Node.kind_eq_dir]
      split_ifs
      · rfl
      · rfl
    unfold State.unlinkEntry
    simp only [hentry]
    have hnode : (σ₁.iput dp).nodes e.inum = σ.nodes e.inum := by
      rw [nodes_iput_of_ne hne, hσ₁, setNode_of_ne hne]
    rw [hnode, iput_setNode hne]
  rw [hunlink]
  refine Inv.iput (Inv.iput ⟨?_, ?_, ?_⟩)
  · exact h.counts.of_ref rfl rfl fun _ => rfl
  · refine Kept.setNode (h.kept.setNode ?_ fun hzero => ?_) ?_ fun _ => ⟨?_, hvalid⟩
    · show (σ.nodes dp).type ≠ none
      rw [hdp]
      simp
    · have := h.wf.nlink_sub_pos (h.wf.mem_kids hdp hoff he hinum)
      exact absurd hzero (Nat.ne_of_gt this)
    · exact h.kept.typed e.inum hvalid
    · have href : σ.ref e.inum = _ := h.counts.ref_eq e.inum
      rw [count_cons_of_ne hne, count_cons_self] at href
      show 0 < σ.ref e.inum
      omega
  · exact h.wf.remove hdp hoff he hinum hne (h.wf.kids_eq_zero hempty)

theorem Inv.sysUnlink (h : Inv held σ) (hcwd : 0 < σ.ref cwd)
    (hunlink : σ.sysUnlink cwd path = some σ') : Inv held σ' := by
  obtain ⟨⟨parent, σ₁⟩, hparent, hunlink⟩ := Option.bind_eq_some_iff.mp hunlink
  obtain ⟨hres, -⟩ := resolved_namex h.counts h.kept hcwd hparent
  have h₁ := h.of_resolved hres
  obtain _ | ⟨dp, name⟩ := parent
  · cases hunlink
    exact h₁
  obtain ⟨σ₂, hlock, hunlink⟩ := Option.bind_eq_some_iff.mp hunlink
  have h₂ := h₁.ilock hlock
  split_ifs at hunlink with hdots
  · cases hunlink
    exact h₂.iput
  obtain ⟨hdot, hdotdot⟩ := not_or.mp hdots
  obtain ⟨⟨found, σ₃⟩, hlookup, hrest⟩ := Option.bind_eq_some_iff.mp hunlink
  obtain ⟨hdp, ⟨-, rfl, rfl⟩ | ⟨e, off, hsome, rfl, hget⟩⟩ := dirlookup_cases hlookup
  · cases hrest
    exact h₂.iput
  dsimp only at hrest
  split_ifs at hrest with hself
  have h₃ := h₂.iget hget
  obtain ⟨σ₄, hlock', hrest⟩ := Option.bind_eq_some_iff.mp hrest
  have h₄ := h₃.ilock hlock'
  have hnodes : σ₄.nodes = σ₂.nodes := by
    rw [(sameFiles_ilock h₃.kept hlock').nodes_eq, (sameFiles_iget hget).nodes_eq]
  split_ifs at hrest with hlinks hempty
  · cases hrest
    exact h₄.iput.iput
  · cases hrest
    obtain ⟨he, hinum, -⟩ := lookup_eq_some hsome
    obtain ⟨u, rest, -, hentries⟩ := (h₂.wf.shape dp).dots hdp
    have hoff := two_le_of_lookup hentries hdot hdotdot hsome
    rw [← hnodes] at hdp he
    have hheld : Inv (dp ::ₘ e.inum ::ₘ held) σ₄ := by
      rw [cons_swap]
      exact h₄
    refine hheld.unlinkEntry hdp hoff he hinum hself (valid_ilock h₃.kept hlock') fun hdir => ?_
    simpa using not_and.mp hempty hdir

/-! ## Descriptors and current directories -/

/-- A change of the processes and the file table only. -/
theorem Kept.of_eq (h : Kept σ) (hnodes : σ'.nodes = σ.nodes) (href : σ'.ref = σ.ref)
    (hvalid : σ'.valid = σ.valid) : Kept σ' :=
  h.of_changes fun j => .inr ⟨congrFun hnodes j, (congrFun href j).ge, congrFun hvalid j⟩

theorem Inv.openFile (h : Inv (ip ::ₘ held) σ) (hp : σ.procs p = some x) :
    Inv held (σ.openFile p x ip) := by
  unfold State.openFile
  split
  · exact h.iput
  · next f hf =>
    split
    · exact h.iput
    · next fd hfd =>
      have hfree : (σ.ftable f).ref = 0 := by simpa using List.find?_some hf
      have hnone : x.ofile fd = none := by simpa using List.find?_some hfd
      exact ⟨h.counts.openFile hp hfree hnone, h.kept.of_eq rfl rfl rfl, h.wf⟩

variable (h : Inv held σ)
include h

theorem Inv.sysOpen {creates reads : Bool} (hp : σ.procs p = some x)
    (hlinked : creates = true → ParentLinked σ x.cwd path)
    (hopen : σ.sysOpen p x path creates reads = some σ') : Inv held σ' := by
  have hcwd := h.counts.ref_cwd hp
  unfold State.sysOpen at hopen
  split_ifs at hopen with hcreates
  · obtain ⟨⟨made, σ₁⟩, hcreate, hopen⟩ := Option.bind_eq_some_iff.mp hopen
    obtain ⟨h₁, hprocs⟩ := h.create hcwd (hlinked hcreates) hcreate
    obtain _ | ip := made
    · cases hopen
      exact h₁
    · cases hopen
      exact h₁.openFile (by rwa [hprocs])
  · obtain ⟨⟨found, σ₁⟩, hfound, hopen⟩ := Option.bind_eq_some_iff.mp hopen
    obtain ⟨hres, -⟩ := resolved_namex h.counts h.kept hcwd hfound
    have h₁ := h.of_resolved hres
    obtain _ | ⟨ip, name⟩ := found
    · cases hopen
      exact h₁
    obtain ⟨σ₂, hlock, hopen⟩ := Option.bind_eq_some_iff.mp hopen
    have h₂ := h₁.ilock hlock
    have hprocs := (hres.same.trans (sameFiles_ilock h₁.kept hlock)).procs_eq
    split_ifs at hopen with hdir
    · cases hopen
      exact h₂.iput
    · cases hopen
      exact h₂.openFile (by rwa [hprocs])

theorem Inv.sysChdir (hp : σ.procs p = some x)
    (hchdir : σ.sysChdir p x path = some σ') : Inv held σ' := by
  obtain ⟨⟨found, σ₁⟩, hfound, hchdir⟩ := Option.bind_eq_some_iff.mp hchdir
  obtain ⟨hres, -⟩ := resolved_namex h.counts h.kept (h.counts.ref_cwd hp) hfound
  have h₁ := h.of_resolved hres
  obtain _ | ⟨ip, name⟩ := found
  · cases hchdir
    exact h₁
  obtain ⟨σ₂, hlock, hchdir⟩ := Option.bind_eq_some_iff.mp hchdir
  have h₂ := h₁.ilock hlock
  have hprocs := (hres.same.trans (sameFiles_ilock h₁.kept hlock)).procs_eq
  split_ifs at hchdir with hdir
  · cases hchdir
    exact h₂.iput
  · cases hchdir
    -- the process changes its directory before it leaves the old one
    rw [iput_setProc]
    refine Inv.iput ⟨?_, h₂.kept.of_eq rfl rfl rfl, h₂.wf⟩
    exact h₂.counts.chdir (by rwa [hprocs])

theorem Inv.sysClose {fd : Fin NOFILE} (hp : σ.procs p = some x)
    (hclose : σ.sysClose p x fd = some σ') :
    Inv held σ' ∧ σ'.procs p = some { x with ofile := update x.ofile fd none } := by
  obtain ⟨τ, i, hcounts, rfl, hnodes, href, hvalid, hprocs⟩ := sysClose_cases h.counts hp hclose
  have hτ : Inv (i.elim held fun i => i ::ₘ held) τ :=
    ⟨hcounts, h.kept.of_eq hnodes href hvalid, by rw [hnodes]; exact h.wf⟩
  have hp' : τ.procs p = some { x with ofile := update x.ofile fd none } := by
    rw [hprocs, update_self]
  obtain _ | i := i
  · exact ⟨hτ, hp'⟩
  · refine ⟨hτ.iput, ?_⟩
    show (τ.iput i).procs p = _
    rwa [procs_iput]

theorem Inv.fork {q : Fin NPROC} (hp : σ.procs p = some x)
    (hq : σ.procs q = none) : Inv held (σ.fork x q) := by
  refine ⟨h.counts.fork hp hq, h.kept.of_changes fun j => .inr ⟨rfl, ?_, rfl⟩, h.wf⟩
  show σ.ref j ≤ update σ.ref x.cwd (σ.ref x.cwd + 1) j
  by_cases hj : j = x.cwd
  · rw [hj, update_self]
    omega
  · rw [update_of_ne hj]

/-- The loop of `exit` over the descriptors `fds` closes them, and leaves the current directory. -/
theorem Inv.exitClose {fds : List (Fin NOFILE)} (hp : σ.procs p = some x)
    (hclose : fds.foldlM (exitClose p) σ = some σ') :
    Inv held σ' ∧ ∃ x', σ'.procs p = some x' ∧ x'.cwd = x.cwd ∧
      ∀ fd, fd ∈ fds ∨ x.ofile fd = none → x'.ofile fd = none := by
  induction fds generalizing σ x with
  | nil =>
    cases hclose
    exact ⟨h, x, hp, rfl, fun fd hfd => hfd.resolve_left List.not_mem_nil⟩
  | cons fd fds ih =>
    obtain ⟨σ₁, hfirst, hrest⟩ := Option.bind_eq_some_iff.mp hclose
    unfold State.exitClose at hfirst
    rw [hp] at hfirst
    obtain ⟨h₁, hp₁⟩ := h.sysClose hp hfirst
    obtain ⟨h', x', hp', hcwd, hnone⟩ := ih h₁ hp₁ hrest
    refine ⟨h', x', hp', hcwd, fun k hk => hnone k ?_⟩
    by_cases hkf : k = fd
    · exact .inr (by rw [hkf]; exact update_self ..)
    · exact hk.imp (fun hmem => (List.mem_cons.mp hmem).resolve_left hkf)
        fun hnone => (update_of_ne hkf ..).trans hnone

theorem Inv.exit (hp : σ.procs p = some x) (hexit : σ.exit p x = some σ') : Inv held σ' := by
  obtain ⟨τ, hclose, hexit⟩ := Option.bind_eq_some_iff.mp hexit
  cases hexit
  obtain ⟨hτ, x', hp', hcwd, hnone⟩ := h.exitClose hp hclose
  rw [iput_setProc, ← hcwd]
  refine Inv.iput ⟨?_, hτ.kept.of_eq rfl rfl rfl, hτ.wf⟩
  exact hτ.counts.exit hp' fun fd => hnone fd (.inl (List.mem_finRange fd))

end FileSystem.Names
