import Mathlib
import OsnAssignments.Common.LinkTree
import OsnAssignments.FileSystem.Descriptors

/-!
# The tree of directories

The inodes form a tree with link counts: the children of a directory are the inodes that its entries
name, without `.` and `..`, and `..` leads to its parent. Creating a name adds to the tree and
`unlink` removes from it, where the directory in question has links, and `iput` frees inodes without
links; so the link counts stay exact.
-/

namespace FileSystem.Names

open State LinkTree Function Multiset

/-! ## Inodes as nodes of a tree -/

namespace Node

/-- What an inode is in the tree. -/
def kind (x : Node) : Kind :=
  match x.type with
  | none => .free
  | some .dir => .dir
  | some .file => .leaf
  | some .dev => .leaf

/-- The inodes that the entries after `.` and `..` name. -/
def kids (x : Node) : Multiset Inum :=
  (ofList ((x.entries.drop 2).map Dirent.inum)).filter (· ≠ 0)

/-- The inode that `..` names. -/
def up (x : Node) : Inum :=
  (x.entries[1]?).elim 0 Dirent.inum

/-- The directory after `dirlink` wrote the entry `e`. -/
def enter (x : Node) (e : Dirent) : Node :=
  let off := x.entries.findIdx fun e => e.inum = 0
  { x with
    entries := if off < x.entries.length then x.entries.set off e else x.entries ++ [e] }

theorem kind_eq_dir {x : Node} : x.kind = .dir ↔ x.type = some .dir := by
  unfold kind
  split <;> simp_all

theorem kind_eq_free {x : Node} : x.kind = .free ↔ x.type = none := by
  unfold kind
  split <;> simp_all

theorem kind_eq_leaf {x : Node} : x.kind = .leaf ↔ x.type ≠ none ∧ x.type ≠ some .dir := by
  unfold kind
  split <;> simp_all

end Node

/-- The tree of the inodes. -/
def tree (nodes : Inum → Node) : Nodes Inum where
  kind i := (nodes i).kind
  links i := (nodes i).nlink
  kids i := (nodes i).kids
  up i := (nodes i).up

/-- A directory starts with `.` and `..`, and nothing else has entries. -/
structure Shape (i : Inum) (x : Node) : Prop where
  dots : x.type = some .dir → ∃ u rest, u ≠ 0 ∧ x.entries = ⟨i, dot⟩ :: ⟨u, dotdot⟩ :: rest
  empty : x.type ≠ some .dir → x.entries = []
  nonzero : x.type ≠ none → i ≠ 0

/-- The inodes form a tree with exact link counts. -/
structure Wf (nodes : Inum → Node) : Prop where
  shape : ∀ i, Shape i (nodes i)
  ok : Ok root (tree nodes)

variable {nodes : Inum → Node} {i j dp ip u : Inum} {x y : Node} {name : Name}
variable {rest : List Dirent} {off : ℕ} {e : Dirent}

theorem kids_eq_of_entries {a b : Dirent} (h : x.entries = a :: b :: rest) :
    x.kids = (ofList (rest.map Dirent.inum)).filter (· ≠ 0) := by
  unfold Node.kids
  rw [h]
  rfl

theorem kids_of_entries_nil (h : x.entries = []) : x.kids = 0 := by
  unfold Node.kids
  rw [h]
  rfl

/-- Replacing an entry of a list of entries. -/
theorem filter_set_inum {l : List Dirent} {k : ℕ} (hk : k < l.length) (e : Dirent) :
    l[k].inum ::ₘ ofList ((l.set k e).map Dirent.inum) =
      e.inum ::ₘ ofList (l.map Dirent.inum) := by
  have hset := (List.set_perm_cons_eraseIdx hk e).map Dirent.inum
  have hget := (List.getElem_cons_eraseIdx_perm hk).map Dirent.inum
  rw [coe_eq_coe.mpr hset, ← coe_eq_coe.mpr hget, List.map_cons, List.map_cons,
    ← cons_coe, ← cons_coe, cons_swap]

/-- A new entry goes behind `.` and `..`, and adds a child. -/
theorem enter_spec (hi : i ≠ 0) (hu : u ≠ 0)
    (hx : x.entries = ⟨i, dot⟩ :: ⟨u, dotdot⟩ :: rest) (hj : j ≠ 0) :
    (∃ rest', (x.enter ⟨j, name⟩).entries = ⟨i, dot⟩ :: ⟨u, dotdot⟩ :: rest') ∧
      (x.enter ⟨j, name⟩).kids = j ::ₘ x.kids := by
  -- the first free entry, if there is one, is at an index of `rest`
  have hoff : x.entries.findIdx (fun e => e.inum = 0) =
      rest.findIdx (fun e => e.inum = 0) + 2 := by
    rw [hx, List.findIdx_cons, List.findIdx_cons]
    simp [hi, hu]
  have hlen : x.entries.length = rest.length + 2 := by rw [hx]; rfl
  unfold Node.enter
  simp only [hoff, hlen, Nat.add_lt_add_iff_right]
  split_ifs with hfree
  · have hentries : x.entries.set (rest.findIdx (fun e => e.inum = 0) + 2) ⟨j, name⟩ =
        ⟨i, dot⟩ :: ⟨u, dotdot⟩ :: rest.set (rest.findIdx fun e => e.inum = 0) ⟨j, name⟩ := by
      rw [hx]
      rfl
    refine ⟨⟨_, hentries⟩, ?_⟩
    rw [kids_eq_of_entries hentries, kids_eq_of_entries hx]
    have hset := congrArg (filter (· ≠ 0)) (filter_set_inum hfree ⟨j, name⟩)
    have hzero : (rest[rest.findIdx fun e => e.inum = 0]).inum = 0 := by
      simpa using List.findIdx_getElem (p := fun e : Dirent => e.inum = 0) (w := hfree)
    rw [filter_cons_of_neg _ (by simp [hzero]),
      filter_cons_of_pos (p := (· ≠ 0)) _ hj]
      at hset
    exact hset
  · have hentries : x.entries ++ [⟨j, name⟩] =
        ⟨i, dot⟩ :: ⟨u, dotdot⟩ :: (rest ++ [⟨j, name⟩]) := by
      rw [hx]
      rfl
    refine ⟨⟨_, hentries⟩, ?_⟩
    rw [kids_eq_of_entries hentries, kids_eq_of_entries hx, List.map_append, ← coe_add,
      filter_add, add_comm]
    simp [hj]

/-- The entry at an index behind `.` and `..` is overwritten with zeros. -/
theorem erase_spec (hx : x.entries = ⟨i, dot⟩ :: ⟨u, dotdot⟩ :: rest) (hoff : 2 ≤ off)
    (he : x.entries[off]? = some e) (hinum : e.inum ≠ 0) {y : Node}
    (hy : y.entries = x.entries.set off ⟨0, []⟩) :
    (∃ rest', y.entries = ⟨i, dot⟩ :: ⟨u, dotdot⟩ :: rest') ∧ x.kids = e.inum ::ₘ y.kids := by
  obtain ⟨k, rfl⟩ := Nat.exists_eq_add_of_le' hoff
  have hrest : rest[k]? = some e := by
    rw [hx] at he
    exact he
  obtain ⟨hk, rfl⟩ := List.getElem?_eq_some_iff.mp hrest
  have hentries : y.entries = ⟨i, dot⟩ :: ⟨u, dotdot⟩ :: rest.set k ⟨0, []⟩ := by
    rw [hy, hx]
    rfl
  refine ⟨⟨_, hentries⟩, ?_⟩
  rw [kids_eq_of_entries hentries, kids_eq_of_entries hx]
  have hset := congrArg (filter (· ≠ 0)) (filter_set_inum hk ⟨0, []⟩)
  rw [filter_cons_of_pos (p := (· ≠ 0)) _ hinum, filter_cons_of_neg _ (by simp)]
    at hset
  exact hset.symm

theorem up_eq_of_entries (h : x.entries = ⟨i, dot⟩ :: ⟨u, dotdot⟩ :: rest) : x.up = u := by
  unfold Node.up
  rw [h]
  rfl

/-! ## The operations on the tree -/

theorem tree_update (nodes : Inum → Node) (i : Inum) (x : Node) :
    tree (update nodes i x) = {
      kind := update (tree nodes).kind i x.kind
      links := update (tree nodes).links i x.nlink
      kids := update (tree nodes).kids i x.kids
      up := update (tree nodes).up i x.up } := by
  ext k : 2
  · exact apply_update (fun _ => Node.kind) nodes i x k
  · exact apply_update (fun _ => Node.nlink) nodes i x k
  · exact apply_update (fun _ => Node.kids) nodes i x k
  · exact apply_update (fun _ => Node.up) nodes i x k

theorem Wf.nlink_of_free (h : Wf nodes) (hi : (nodes i).type = none) : (nodes i).nlink = 0 :=
  h.ok.links_of_free (i := i) (Node.kind_eq_free.mpr hi)

theorem shape_update (h : ∀ k, Shape k (nodes k)) (hx : Shape i x) (k : Inum) :
    Shape k (update nodes i x k) :=
  (forall_update_iff nodes Shape).mpr ⟨hx, fun k _ => h k⟩ k

/-- A new name for `ip`, which becomes `y`, in a directory with links. -/
theorem Wf.add (h : Wf nodes) (hdp : (nodes dp).type = some .dir) (hpos : 0 < (nodes dp).nlink)
    (hshape : Shape ip y) (htype : y.type ≠ none)
    (hip : (nodes ip).type = none ∨ (nodes ip).kind = .leaf ∧ y.kind = .leaf)
    (hlink : y.nlink = (nodes ip).nlink + 1) (hkids : y.kids = (nodes ip).kids)
    (hup : y.up = if y.kind = .dir then dp else (nodes ip).up) (name : Name) :
    Wf (update (update nodes ip y) dp
      (({ nodes dp with nlink := (nodes dp).nlink + if y.kind = .dir then 1 else 0 } : Node).enter
        ⟨ip, name⟩)) := by
  have hip' : (nodes ip).kind = .free ∨ (nodes ip).kind = .leaf ∧ y.kind = .leaf :=
    hip.imp_left Node.kind_eq_free.mpr
  have hkind : (nodes dp).kind = .dir := Node.kind_eq_dir.mpr hdp
  have hne : ip ≠ dp := by
    rintro rfl
    rw [hkind] at hip'
    simp at hip'
  have hnonzero := hshape.nonzero htype
  obtain ⟨u, rest, hu, hentries⟩ := (h.shape dp).dots hdp
  have hdp0 : dp ≠ 0 := (h.shape dp).nonzero (by rw [hdp]; simp)
  set x' := ({ nodes dp with
    nlink := (nodes dp).nlink + if y.kind = .dir then 1 else 0 } : Node).enter ⟨ip, name⟩ with hx'
  obtain ⟨⟨rest', hentries'⟩, hkids'⟩ :
      (∃ rest', x'.entries = ⟨dp, dot⟩ :: ⟨u, dotdot⟩ :: rest') ∧
        x'.kids = ip ::ₘ (nodes dp).kids :=
    enter_spec hdp0 hu hentries hnonzero
  refine ⟨shape_update (shape_update h.shape hshape) ?_, ?_⟩
  · exact ⟨fun _ => ⟨u, rest', hu, hentries'⟩, fun hne => absurd hdp hne, fun _ => hdp0⟩
  · have hadd := h.ok.add (d := dp) (i := ip) (k := y.kind) ⟨hkind, hpos⟩
      (fun hfree => htype (Node.kind_eq_free.mp hfree)) hip'
    have hsame : x'.kind = (nodes dp).kind ∧ x'.up = (nodes dp).up :=
      ⟨rfl, (up_eq_of_entries hentries').trans (up_eq_of_entries hentries).symm⟩
    convert hadd using 1
    rw [tree_update, tree_update]
    ext1
    · show update (update (tree nodes).kind ip y.kind) dp x'.kind = _
      rw [update_comm hne, hsame.1]
      exact congrArg (update · ip y.kind) (update_eq_self dp (tree nodes).kind)
    · show update (update (tree nodes).links ip y.nlink) dp x'.nlink = _
      rw [update_comm hne, hlink]
      rfl
    · show update (update (tree nodes).kids ip y.kids) dp x'.kids = _
      rw [hkids, hkids', show update (tree nodes).kids ip (nodes ip).kids = _ from
        update_eq_self ip (tree nodes).kids]
      rfl
    · show update (update (tree nodes).up ip y.up) dp x'.up = _
      rw [update_comm hne, hsame.2, hup, show update (tree nodes).up dp
        (nodes dp).up = _ from update_eq_self dp (tree nodes).up]
      show _ = if y.kind = .dir then _ else _
      split_ifs
      · rfl
      · exact update_eq_self ip (tree nodes).up

/-- The entries behind `.` and `..` name the children. -/
theorem Wf.mem_kids (h : Wf nodes) (hdp : (nodes dp).type = some .dir)
    (hoff : 2 ≤ off) (he : (nodes dp).entries[off]? = some e) (hinum : e.inum ≠ 0) :
    e.inum ∈ (tree nodes).kids dp := by
  obtain ⟨u, rest, -, hentries⟩ := (h.shape dp).dots hdp
  obtain ⟨-, hkids⟩ := erase_spec hentries hoff he hinum
    (y := { nodes dp with entries := (nodes dp).entries.set off ⟨0, []⟩ }) rfl
  show e.inum ∈ (nodes dp).kids
  rw [hkids]
  exact mem_cons_self ..

/-- The entry for `ip` is removed from its directory; `ip` has no children of its own. -/
theorem Wf.remove (h : Wf nodes) (hdp : (nodes dp).type = some .dir)
    (hoff : 2 ≤ off) (he : (nodes dp).entries[off]? = some e) (hinum : e.inum ≠ 0)
    (hne : e.inum ≠ dp) (hempty : (nodes e.inum).kids = 0) :
    Wf (update (update nodes dp
      { nodes dp with
        entries := (nodes dp).entries.set off ⟨0, []⟩
        nlink := (nodes dp).nlink - if (nodes e.inum).kind = .dir then 1 else 0 }) e.inum
      { nodes e.inum with nlink := (nodes e.inum).nlink - 1 }) := by
  obtain ⟨u, rest, hu, hentries⟩ := (h.shape dp).dots hdp
  have hdp0 : dp ≠ 0 := (h.shape dp).nonzero (by rw [hdp]; simp)
  set x' : Node := { nodes dp with
    entries := (nodes dp).entries.set off ⟨0, []⟩
    nlink := (nodes dp).nlink - if (nodes e.inum).kind = .dir then 1 else 0 } with hx'
  obtain ⟨⟨rest', hentries'⟩, hkids⟩ :
      (∃ rest', x'.entries = ⟨dp, dot⟩ :: ⟨u, dotdot⟩ :: rest') ∧
        (nodes dp).kids = e.inum ::ₘ x'.kids :=
    erase_spec hentries hoff he hinum rfl
  have hmem := h.mem_kids hdp hoff he hinum
  have hshape := h.shape e.inum
  refine ⟨shape_update (shape_update h.shape ?_) ⟨hshape.dots, hshape.empty, hshape.nonzero⟩, ?_⟩
  · exact ⟨fun _ => ⟨u, rest', hu, hentries'⟩, fun hdir => absurd hdp hdir, fun _ => hdp0⟩
  · convert h.ok.remove hmem hempty using 1
    have hup : x'.up = (nodes dp).up :=
      (up_eq_of_entries hentries').trans (up_eq_of_entries hentries).symm
    rw [tree_update, tree_update]
    ext1
    · show update (update (tree nodes).kind dp (nodes dp).kind) e.inum
        (nodes e.inum).kind = _
      rw [show update (tree nodes).kind dp (nodes dp).kind = _ from
        update_eq_self dp (tree nodes).kind]
      exact update_eq_self e.inum (tree nodes).kind
    · rfl
    · show update (update (tree nodes).kids dp x'.kids) e.inum
        (nodes e.inum).kids = update _ dp ((nodes dp).kids.erase e.inum)
      rw [update_comm hne.symm, hkids, erase_cons_head]
      exact congrArg (update · dp x'.kids)
        (update_eq_self e.inum (tree nodes).kids)
    · show update (update (tree nodes).up dp x'.up) e.inum (nodes e.inum).up = _
      rw [hup, show update (tree nodes).up dp (nodes dp).up = _ from
        update_eq_self dp (tree nodes).up]
      exact update_eq_self e.inum (tree nodes).up

/-- An inode without links is freed. -/
theorem Wf.free (h : Wf nodes) (hi : (nodes i).nlink = 0) :
    Wf (update nodes i { nodes i with type := none, entries := [] }) := by
  have hlive : ¬(tree nodes).Live i := fun hlive => Nat.ne_of_gt hlive.2 hi
  refine ⟨shape_update h.shape ?_, ?_⟩
  · exact ⟨fun hdir => absurd hdir (by simp), fun _ => rfl, fun hnone => absurd rfl hnone⟩
  · have hup : ∀ d, ((tree nodes).free i).Live d →
        update (tree nodes).up i 0 d = (tree nodes).up d := by
      intro d hd
      refine update_of_ne ?_ ..
      rintro rfl
      exact absurd hi (Nat.ne_of_gt hd.2)
    convert (h.ok.free (c := i) hi).congr_up hup using 1
    rw [tree_update]
    ext1
    · rfl
    · exact update_eq_self i (tree nodes).links
    · have hkids : (tree nodes).kids i = 0 := h.ok.kids_of_not_live hlive
      show update (tree nodes).kids i 0 = (tree nodes).kids
      rw [← hkids, update_eq_self]
    · rfl

end FileSystem.Names
