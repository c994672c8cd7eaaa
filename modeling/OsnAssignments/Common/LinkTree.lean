import Mathlib

/-!
# Trees with link counts

A directory tree: a node is free, a directory or a leaf; it has a number of links, a directory has
children and a link back to its parent. Leaves may be the child of several directories, or several
times of one. A node without links may still be in use.

`Ok` says that the link counts are exact and that every node with links can be reached from the
root. It is kept by adding to a directory that has links, by removing a leaf or an empty directory
from its parent, and by freeing a node without links.
-/

namespace LinkTree

open Function Multiset

/-- What a node is. -/
inductive Kind
  | free
  | dir
  | leaf
  deriving DecidableEq

/-- The nodes of a tree of directories and leaves. -/
@[ext]
structure Nodes (ι : Type*) where
  kind : ι → Kind
  links : ι → ℕ
  kids : ι → Multiset ι
  /-- The link of a directory to its parent. -/
  up : ι → ι

namespace Nodes

variable {ι : Type*} (G : Nodes ι)

/-- A directory that has links. -/
def Live (d : ι) : Prop :=
  G.kind d = .dir ∧ 0 < G.links d

/-- `c` can be reached from `r` through children. -/
def Reach (r c : ι) : Prop :=
  Relation.ReflTransGen (fun a b => b ∈ G.kids a) r c

variable [DecidableEq ι]

/-- The number of directories among the children of `d`. -/
def dirs (d : ι) : ℕ :=
  ((G.kids d).filter fun c => G.kind c = .dir).card

/-- Enter `i` in the directory `d`, as a new node of the kind `k` or as another link to a leaf. -/
def add (k : Kind) (d i : ι) : Nodes ι where
  kind := update G.kind i k
  links := update (update G.links d (G.links d + if k = .dir then 1 else 0)) i
    (G.links i + 1)
  kids := update G.kids d (i ::ₘ G.kids d)
  up := if k = .dir then update G.up i d else G.up

/-- Remove `c` from the directory `d`. -/
def remove (d c : ι) : Nodes ι :=
  { G with
    links := update
      (update G.links d (G.links d - if G.kind c = .dir then 1 else 0)) c (G.links c - 1)
    kids := update G.kids d ((G.kids d).erase c) }

/-- Free the node `c`. -/
def free (c : ι) : Nodes ι :=
  { G with kind := update G.kind c .free }

/-- The number of times that `c` is a child. -/
def named [Fintype ι] (c : ι) : ℕ :=
  ∑ d, (G.kids d).count c

end Nodes

open Nodes

/-! ## Children and paths -/

section Kids

variable {ι : Type*} [DecidableEq ι] {r c d i a b x : ι} {G H : Nodes ι} {kids : ι → Multiset ι}

theorem mem_update_cons : b ∈ update kids d (i ::ₘ kids d) a ↔ (a = d ∧ b = i) ∨ b ∈ kids a := by
  by_cases ha : a = d
  · subst ha
    rw [update_self, mem_cons]
    simp
  · rw [update_of_ne ha]
    simp [ha]

theorem mem_of_mem_update_erase (h : b ∈ update kids d ((kids d).erase c) a) : b ∈ kids a := by
  by_cases ha : a = d
  · subst ha
    rw [update_self] at h
    exact mem_of_mem_erase h
  · rwa [update_of_ne ha] at h

theorem mem_update_erase_of_ne (hb : b ≠ c) (h : b ∈ kids a) :
    b ∈ update kids d ((kids d).erase c) a := by
  by_cases ha : a = d
  · subst ha
    rw [update_self]
    exact (mem_erase_of_ne hb).mpr h
  · rwa [update_of_ne ha]

section

variable (hkids : H.kids = update G.kids d (i ::ₘ G.kids d))
include hkids

theorem reach_of_cons (h : G.Reach r c) : H.Reach r c := by
  induction h with
  | refl => exact .refl
  | tail _ hab ih =>
    refine ih.tail ?_
    rw [hkids]
    exact mem_update_cons.mpr (.inr hab)

theorem reach_cons (h : G.Reach r d) : H.Reach r i := by
  refine (reach_of_cons hkids h).tail ?_
  rw [hkids]
  exact mem_update_cons.mpr (.inl ⟨rfl, rfl⟩)

end

/-- Removing a child without children of its own leaves the others within reach. -/
theorem reach_of_erase (hkids : H.kids = update G.kids d ((G.kids d).erase c))
    (hc : G.kids c = 0) (h : G.Reach r x) : x = c ∨ H.Reach r x := by
  induction h with
  | refl => exact .inr .refl
  | @tail a b _ hab ih =>
    rcases ih with rfl | hreach
    · rw [hc] at hab
      exact absurd hab (notMem_zero b)
    · by_cases hb : b = c
      · exact .inl hb
      · refine .inr (hreach.tail ?_)
        rw [hkids]
        exact mem_update_erase_of_ne hb hab

variable [Fintype ι]

theorem named_cons (hkids : H.kids = update G.kids d (i ::ₘ G.kids d)) (c : ι) :
    H.named c = G.named c + if c = i then 1 else 0 := by
  have hterm : ∀ x, (H.kids x).count c =
      (G.kids x).count c + if x = d then (if c = i then 1 else 0) else 0 := by
    intro x
    rw [hkids]
    by_cases hx : x = d
    · rw [hx, update_self, count_cons, if_pos rfl]
    · rw [update_of_ne hx, if_neg hx, Nat.add_zero]
  unfold named
  rw [Finset.sum_congr rfl fun x _ => hterm x, Finset.sum_add_distrib, Finset.sum_ite_eq',
    if_pos (Finset.mem_univ d)]

theorem named_erase (hkids : H.kids = update G.kids d ((G.kids d).erase i))
    (hi : i ∈ G.kids d) (c : ι) : G.named c = H.named c + if c = i then 1 else 0 := by
  refine named_cons (d := d) ?_ c
  rw [hkids, update_self, cons_erase hi, update_idem,
    update_eq_self]

theorem mem_of_named_pos (h : 0 < G.named c) : ∃ d, c ∈ G.kids d := by
  obtain ⟨d, -, hd⟩ := Finset.exists_ne_zero_of_sum_ne_zero (Nat.ne_of_gt h)
  exact ⟨d, count_pos.mp (Nat.pos_of_ne_zero hd)⟩

theorem named_pos_of_mem (h : c ∈ G.kids d) : 0 < G.named c :=
  Nat.lt_of_lt_of_le (count_pos.mpr h)
    (Finset.single_le_sum (fun x _ => Nat.zero_le ((G.kids x).count c)) (Finset.mem_univ d))

end Kids

/-! ## Exact link counts -/

variable {ι : Type*} [Fintype ι] [DecidableEq ι] {r c d i : ι} {G : Nodes ι}

/-- The link counts are exact, and nodes with links are in the tree. -/
structure Ok (r : ι) (G : Nodes ι) : Prop where
  root_live : G.Live r
  up_root : G.up r = r
  named_root : G.named r = 0
  live_of_mem : ∀ c d, c ∈ G.kids d → G.Live d
  used_of_mem : ∀ c d, c ∈ G.kids d → G.kind c ≠ .free
  leaf_links : ∀ c, G.kind c ≠ .dir → G.links c = G.named c
  dir_links : ∀ d, G.Live d → G.links d = 1 + G.dirs d
  dir_named : ∀ d, G.Live d → d ≠ r → G.named d = 1 ∧ d ∈ G.kids (G.up d)
  dead_named : ∀ d, G.kind d = .dir → G.links d = 0 → G.named d = 0
  reach : ∀ c, 0 < G.links c → G.Reach r c

namespace Ok

variable (h : Ok r G)
include h

/-- A child has links. -/
theorem links_pos (hc : c ∈ G.kids d) : 0 < G.links c := by
  have hnamed := named_pos_of_mem hc
  by_cases hkind : G.kind c = .dir
  · by_contra hzero
    have := h.dead_named c hkind (by omega)
    omega
  · rwa [h.leaf_links c hkind]

theorem kids_of_not_live (hd : ¬G.Live d) : G.kids d = 0 :=
  eq_zero_of_forall_notMem fun _ hc => hd (h.live_of_mem _ _ hc)

/-- A node without links is nobody's child. -/
theorem named_of_links (hi : G.links i = 0) : G.named i = 0 := by
  by_contra hne
  obtain ⟨d, hd⟩ := mem_of_named_pos (Nat.pos_of_ne_zero hne)
  have := h.links_pos hd
  omega

/-- A free node has no links. -/
theorem links_of_free (hi : G.kind i = .free) : G.links i = 0 := by
  rw [h.leaf_links i (by rw [hi]; decide)]
  by_contra hne
  obtain ⟨d, hd⟩ := mem_of_named_pos (Nat.pos_of_ne_zero hne)
  exact h.used_of_mem _ _ hd hi

/-- Only the links of live directories to their parents matter. -/
theorem congr_up {up : ι → ι} (hup : ∀ d, G.Live d → up d = G.up d) : Ok r { G with up } :=
  { h with
    up_root := (hup r h.root_live).trans h.up_root
    dir_named := fun d hd hne => by
      show _ ∧ d ∈ G.kids (up d)
      rw [hup d hd]
      exact h.dir_named d hd hne }

/-- Entering a node in a directory that has links keeps the counts exact. -/
theorem add (hd : G.Live d) {k : Kind} (hk : k ≠ .free)
    (hi : G.kind i = .free ∨ G.kind i = .leaf ∧ k = .leaf) : Ok r (G.add k d i) := by
  have hidir : G.kind i ≠ .dir := by
    rcases hi with hi | ⟨hi, -⟩ <;> rw [hi] <;> decide
  have hne : ∀ x, G.kind x = .dir → x ≠ i := by
    rintro x hx rfl
    exact hidir hx
  have hnamed := named_cons (H := G.add k d i) (G := G) rfl
  have hkind : ∀ x, x ≠ i → (G.add k d i).kind x = G.kind x := fun x hx =>
    update_of_ne hx ..
  have hkind_i : (G.add k d i).kind i = k := update_self ..
  have hlinks_i : (G.add k d i).links i = G.links i + 1 := update_self ..
  have hlinks (x : ι) (hxi : x ≠ i) : (G.add k d i).links x =
      G.links x + if x = d ∧ k = .dir then 1 else 0 := by
    show update (update _ d _) i _ x = _
    rw [update_of_ne hxi]
    by_cases hxd : x = d
    · rw [hxd, update_self]
      simp
    · rw [update_of_ne hxd, if_neg fun hand => hxd hand.1, Nat.add_zero]
  have hlinks_pos (x : ι) (hxi : x ≠ i) : 0 < (G.add k d i).links x ↔ 0 < G.links x := by
    rw [hlinks x hxi]
    split_ifs with hxd
    · rw [hxd.1]
      exact iff_of_true (Nat.succ_pos _) hd.2
    · rfl
  have hfree (hdir : k = .dir) : G.kind i = .free :=
    hi.resolve_right fun hleaf => by rw [hleaf.2] at hdir; cases hdir
  have hlive : ∀ x, (G.add k d i).Live x ↔ G.Live x ∨ x = i ∧ k = .dir := by
    intro x
    by_cases hxi : x = i
    · subst hxi
      simp [Live, hkind_i, hlinks_i, hidir]
    · simp [Live, hkind x hxi, hlinks_pos x hxi, hxi]
  -- the kinds of the children that there are stay as they are
  have hkids : ∀ x c, c ∈ G.kids x → ((G.add k d i).kind c = .dir ↔ G.kind c = .dir) := by
    intro x c hc
    by_cases hci : c = i
    · obtain ⟨hleaf, hk'⟩ := hi.resolve_left fun hfree => h.used_of_mem c x hc (hci ▸ hfree)
      rw [hci, hkind_i, hleaf, hk']
    · rw [hkind c hci]
  have hdirs : ∀ x, (G.add k d i).dirs x = G.dirs x + if x = d ∧ k = .dir then 1 else 0 := by
    intro x
    unfold dirs
    by_cases hxd : x = d
    · subst hxd
      have hcons : (G.add k x i).kids x = i ::ₘ G.kids x := update_self ..
      rw [hcons, filter_cons, hkind_i, card_add,
        filter_congr (hkids x), Nat.add_comm]
      by_cases hdir : k = .dir
      · simp [hdir]
      · simp [hdir]
    · have hcons : (G.add k d i).kids x = G.kids x := update_of_ne hxd ..
      rw [hcons, filter_congr (hkids x)]
      simp [hxd]
  refine ⟨(hlive r).mpr (.inl h.root_live), ?_, ?_, fun c x hc => ?_, fun c x hc => ?_,
    fun c hc => ?_, fun x hx => ?_, fun x hx hxr => ?_, fun x hx hzero => ?_, fun c hpos => ?_⟩
  · show (if k = .dir then update G.up i d else G.up) r = r
    split_ifs
    · rw [update_of_ne (hne r h.root_live.1), h.up_root]
    · exact h.up_root
  · rw [hnamed, if_neg (hne r h.root_live.1), h.named_root]
  · refine (hlive x).mpr (.inl ?_)
    rcases mem_update_cons.mp hc with ⟨rfl, -⟩ | hold
    · exact hd
    · exact h.live_of_mem c x hold
  · by_cases hci : c = i
    · rwa [hci, hkind_i]
    · rw [hkind c hci]
      rcases mem_update_cons.mp hc with ⟨-, rfl⟩ | hold
      · exact absurd rfl hci
      · exact h.used_of_mem c x hold
  · by_cases hci : c = i
    · rw [hci, hlinks_i, hnamed, if_pos rfl, h.leaf_links i hidir]
    · rw [hkind c hci] at hc
      have hcd : ¬(c = d ∧ k = .dir) := fun hand => hc (hand.1 ▸ hd.1)
      rw [hlinks c hci, if_neg hcd, hnamed, if_neg hci, h.leaf_links c hc]
  · rw [hdirs]
    rcases (hlive x).mp hx with hold | ⟨rfl, hdir⟩
    · rw [hlinks x (hne x hold.1), h.dir_links x hold, Nat.add_assoc]
    · -- the new directory has no children
      have hempty : G.dirs x = 0 := by
        unfold dirs
        rw [h.kids_of_not_live fun hx => hidir hx.1]
        rfl
      rw [hlinks_i, h.links_of_free (hfree hdir), hempty]
      simp [(hne d hd.1).symm]
  · rcases (hlive x).mp hx with hold | ⟨rfl, hdir⟩
    · obtain ⟨hone, hmem⟩ := h.dir_named x hold hxr
      have hxi := hne x hold.1
      have hup : (G.add k d i).up x = G.up x := by
        show (if k = .dir then update G.up i d else G.up) x = _
        split_ifs
        · rw [update_of_ne hxi]
        · rfl
      rw [hnamed, if_neg hxi, hup]
      exact ⟨hone, mem_update_cons.mpr (.inr hmem)⟩
    · have hup : (G.add k d x).up x = d := by
        show (if k = .dir then update G.up x d else G.up) x = _
        rw [if_pos hdir, update_self]
      rw [hnamed, if_pos rfl, h.named_of_links (h.links_of_free (hfree hdir)), hup]
      exact ⟨rfl, mem_update_cons.mpr (.inl ⟨rfl, rfl⟩)⟩
  · by_cases hxi : x = i
    · rw [hxi, hlinks_i] at hzero
      omega
    · rw [hkind x hxi] at hx
      rw [hlinks x hxi] at hzero
      rw [hnamed, if_neg hxi, h.dead_named x hx (Nat.eq_zero_of_add_eq_zero_right hzero)]
  · by_cases hci : c = i
    · rw [hci]
      exact reach_cons rfl (h.reach d hd.2)
    · exact reach_of_cons rfl (h.reach c ((hlinks_pos c hci).mp hpos))

/-- Removing a child without children of its own keeps the counts exact. -/
theorem remove (hc : c ∈ G.kids d) (hempty : G.kids c = 0) : Ok r (G.remove d c) := by
  have hd : G.Live d := h.live_of_mem c d hc
  have hdc : d ≠ c := by
    rintro rfl
    rw [hempty] at hc
    exact absurd hc (notMem_zero d)
  have hcpos := h.links_pos hc
  have hnamed := named_erase (H := G.remove d c) rfl hc
  have hlinks (x : ι) : (G.remove d c).links x =
      G.links x - if x = c then 1 else if x = d ∧ G.kind c = .dir then 1 else 0 := by
    show update (update _ d _) c _ x = _
    by_cases hxc : x = c
    · rw [hxc, update_self, if_pos rfl]
    · rw [update_of_ne hxc, if_neg hxc]
      by_cases hxd : x = d
      · rw [hxd, update_self]
        simp
      · rw [update_of_ne hxd, if_neg fun hand => hxd hand.1, Nat.sub_zero]
  have hdirs : ∀ x, G.dirs x = (G.remove d c).dirs x +
      if x = d ∧ G.kind c = .dir then 1 else 0 := by
    intro x
    unfold dirs
    by_cases hxd : x = d
    · subst hxd
      have herase : (G.remove x c).kids x = (G.kids x).erase c := update_self ..
      have hsplit : G.kids x = c ::ₘ (G.remove x c).kids x := by
        rw [herase, cons_erase hc]
      show ((G.kids x).filter fun c => G.kind c = .dir).card =
        (((G.remove x c).kids x).filter fun c => G.kind c = .dir).card + _
      rw [hsplit, filter_cons, card_add, Nat.add_comm]
      by_cases hdir : G.kind c = .dir
      · simp [hdir]
      · simp [hdir]
    · have hsame : (G.remove d c).kids x = G.kids x := update_of_ne hxd ..
      rw [hsame, if_neg fun hand => hxd hand.1, Nat.add_zero]
      rfl
  -- a directory that is removed has no links left, and its parent keeps one
  have hdir_c : G.kind c = .dir → G.links c = 1 := fun hdir => by
    rw [h.dir_links c ⟨hdir, hcpos⟩, dirs, hempty]
    rfl
  have hdir_links (x : ι) (hx : G.Live x) (hxc : x ≠ c) :
      (G.remove d c).links x = 1 + (G.remove d c).dirs x := by
    have hsum := h.dir_links x hx
    have hsplit := hdirs x
    rw [hlinks, if_neg hxc]
    split_ifs at hsplit ⊢ <;> omega
  have hlive : ∀ x, (G.remove d c).Live x ↔ G.Live x ∧ x ≠ c := by
    refine fun x => ⟨fun ⟨hdir, hpos⟩ => ?_, fun ⟨hx, hxc⟩ => ⟨hx.1, ?_⟩⟩
    · rw [hlinks] at hpos
      refine ⟨⟨hdir, by omega⟩, ?_⟩
      rintro rfl
      rw [if_pos rfl, hdir_c hdir] at hpos
      omega
    · rw [hdir_links x hx hxc]
      omega
  have hrc : r ≠ c := by
    rintro rfl
    have := named_pos_of_mem hc
    have := h.named_root
    omega
  refine ⟨(hlive r).mpr ⟨h.root_live, hrc⟩, h.up_root, ?_, fun b x hb => ?_, fun b x hb => ?_,
    fun x hx => ?_, fun x hx => ?_, fun x hx hxr => ?_, fun x hx hzero => ?_, fun x hpos => ?_⟩
  · have := hnamed r
    have := h.named_root
    omega
  · have hold := mem_of_mem_update_erase hb
    refine (hlive x).mpr ⟨h.live_of_mem b x hold, ?_⟩
    rintro rfl
    rw [hempty] at hold
    exact absurd hold (notMem_zero b)
  · exact h.used_of_mem b x (mem_of_mem_update_erase hb)
  · have hleaf := h.leaf_links x hx
    have hsplit := hnamed x
    have hxd : ¬(x = d ∧ G.kind c = .dir) := fun hand => hx (hand.1 ▸ hd.1)
    rw [hlinks, if_neg hxd]
    split_ifs at hsplit ⊢ <;> omega
  · obtain ⟨hold, hxc⟩ := (hlive x).mp hx
    exact hdir_links x hold hxc
  · obtain ⟨hold, hxc⟩ := (hlive x).mp hx
    obtain ⟨hone, hmem⟩ := h.dir_named x hold hxr
    have hsplit := hnamed x
    rw [if_neg hxc] at hsplit
    exact ⟨by omega, mem_update_erase_of_ne hxc hmem⟩
  · have hsplit := hnamed x
    by_cases hxc : x = c
    · subst hxc
      have hone := (h.dir_named x ⟨hx, hcpos⟩ hrc.symm).1
      rw [if_pos rfl] at hsplit
      omega
    · by_cases hdead : G.links x = 0
      · have := h.dead_named x hx hdead
        omega
      · rw [hdir_links x ⟨hx, Nat.pos_of_ne_zero hdead⟩ hxc] at hzero
        omega
  · rw [hlinks] at hpos
    by_cases hxc : x = c
    · -- a leaf with links left is still a child of some directory
      subst hxc
      rw [if_pos rfl] at hpos
      have hleaf : G.kind x ≠ .dir := by
        intro hdir
        rw [hdir_c hdir] at hpos
        omega
      have hsplit := hnamed x
      have hlinks' := h.leaf_links x hleaf
      rw [if_pos rfl] at hsplit
      obtain ⟨e, he⟩ := mem_of_named_pos (G := G.remove d x) (c := x) (by omega)
      have hlive_e := h.live_of_mem x e (mem_of_mem_update_erase he)
      have hex : e ≠ x := fun heq => hleaf (heq ▸ hlive_e.1)
      have hreach := (reach_of_erase (H := G.remove d x) rfl hempty
        (h.reach e hlive_e.2)).resolve_left hex
      exact hreach.tail he
    · have hold := h.reach x (by omega)
      exact (reach_of_erase (H := G.remove d c) rfl hempty hold).resolve_left hxc

/-- Freeing a node without links keeps the counts exact. -/
theorem free (hc : G.links c = 0) : Ok r (G.free c) := by
  have hnamed := h.named_of_links hc
  have hkind : ∀ x, x ≠ c → (G.free c).kind x = G.kind x := fun x hx =>
    update_of_ne hx ..
  have hkind_c : (G.free c).kind c = .free := update_self ..
  have hnot : ∀ x d, x ∈ G.kids d → x ≠ c := by
    rintro x d hx rfl
    have := named_pos_of_mem hx
    omega
  have hlive : ∀ x, (G.free c).Live x ↔ G.Live x := by
    intro x
    by_cases hxc : x = c
    · subst hxc
      simp [Live, hkind_c, hc]
    · rw [Live, Live, hkind x hxc]
      rfl
  have hdirs : ∀ x, (G.free c).dirs x = G.dirs x := by
    intro x
    unfold dirs
    congr 1
    exact filter_congr fun b hb => by rw [hkind b (hnot b x hb)]
  refine ⟨(hlive r).mpr h.root_live, h.up_root, h.named_root, fun b x hb => ?_, fun b x hb => ?_,
    fun x hx => ?_, fun x hx => ?_, fun x hx hxr => ?_, fun x hx hzero => ?_, h.reach⟩
  · exact (hlive x).mpr (h.live_of_mem b x hb)
  · rw [hkind b (hnot b x hb)]
    exact h.used_of_mem b x hb
  · by_cases hxc : x = c
    · rw [hxc]
      exact hc.trans hnamed.symm
    · rw [hkind x hxc] at hx
      exact h.leaf_links x hx
  · rw [hdirs]
    exact h.dir_links x ((hlive x).mp hx)
  · exact h.dir_named x ((hlive x).mp hx) hxr
  · by_cases hxc : x = c
    · rw [hxc, hkind_c] at hx
      cases hx
    · rw [hkind x hxc] at hx
      exact h.dead_named x hx hzero

end Ok

end LinkTree
