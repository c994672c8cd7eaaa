import Mathlib
import OsnAssignments.Common.CString
import OsnAssignments.FileSystem.References

/-!
# Paths, byte by byte

`skipelem`, `namecmp`, `dirlookup` and `namex` of `fs.c` on the bytes that they read and write. The
element of a path goes to a buffer of `DIRSIZ` bytes, which `skipelem` ends with a zero only if the
element is shorter than that.

A path is the bytes of a string in front of its zero. The inodes, their references and a panic are
those of `FileSystem.Names`; the name of an entry there is the name field, filled up with zeros. A
path leads to where its components lead, which are its pieces between slashes, cut to `DIRSIZ`
bytes.
-/

namespace FileSystem.Paths

open CString Names Function

variable {t w : List UInt8}

/-! ## The code -/

/-- The name field of an entry. -/
def field (e : Dirent) : Buffer := fun i => e.name.getD i 0

/-- `memmove`: the first `n` bytes of `s` go to the buffer. -/
def memmove (name : Buffer) (s : List UInt8) (n : ℕ) : Buffer :=
  fun i => if i < n then s.getD i 0 else name i

/-- `strncmp` from the `i`th bytes on, for `n` bytes. -/
def strncmp (p q : Buffer) : ℕ → ℕ → ℤ
  | 0, _ => 0
  | n + 1, i =>
    if p i ≠ 0 ∧ p i = q i then strncmp p q n (i + 1) else (p i).toNat - (q i).toNat

/-- `namecmp`. -/
def namecmp (s t : Buffer) : ℤ := strncmp s t DIRSIZ 0

/-- In `skipelem`: the element, which is the `len` bytes at `s`, goes to the buffer. -/
def copyElem (name : Buffer) (s : List UInt8) (len : ℕ) : Buffer :=
  if DIRSIZ ≤ len then memmove name s DIRSIZ
  else update (memmove name s len) len 0

/-- `skipelem`, with the rest of the path and the buffer. -/
def skipelem (path : List UInt8) (name : Buffer) : Option (List UInt8 × Buffer) :=
  let s := path.dropWhile (· = 47)
  if s = [] then none
  else
    let path := s.dropWhile (· ≠ 47)
    let len := s.length - path.length
    some (path.dropWhile (· = 47), copyElem name s len)

/-- The loop of `dirlookup` over the entries of a directory. -/
def dirlookupLoop (σ : State) (name : Buffer) : List Dirent → Option (Option Inum × State)
  | [] => some (none, σ)
  | e :: rest =>
    if e.inum = 0 then dirlookupLoop σ name rest
    else if namecmp name (field e) = 0 then do
      let σ ← σ.iget e.inum
      return (some e.inum, σ)
    else dirlookupLoop σ name rest

/-- `dirlookup`. -/
def dirlookup (σ : State) (dp : Inum) (name : Buffer) : Option (Option Inum × State) :=
  if (σ.nodes dp).type ≠ some .dir then none
  else dirlookupLoop σ name (σ.nodes dp).entries

/-- `skipelem` finds a word that is not empty and ends with the path or at a slash. -/
theorem skipelem_cases {path rest : List UInt8} {name name' : Buffer}
    (h : skipelem path name = some (rest, name')) :
    ∃ w t : List UInt8, path.dropWhile (· = 47) = w ++ t ∧ w ≠ [] ∧ 47 ∉ w ∧
      (t = [] ∨ ∃ t', t = 47 :: t') ∧ rest = t.dropWhile (· = 47) ∧
      name' = copyElem name (w ++ t) w.length := by
  simp only [skipelem] at h
  set s := path.dropWhile (· = 47) with hs
  have hsplit : s.takeWhile (· ≠ 47) ++ s.dropWhile (· ≠ 47) = s := List.takeWhile_append_dropWhile
  have hlen : s.length - (s.dropWhile (· ≠ 47)).length = (s.takeWhile (· ≠ 47)).length := by
    conv_lhs => rw [← hsplit]
    rw [List.length_append, hsplit]
    omega
  split_ifs at h with hnil
  cases h
  refine ⟨s.takeWhile (· ≠ 47), s.dropWhile (· ≠ 47), hsplit.symm, ?_, ?_, ?_, rfl, ?_⟩
  · -- the first byte of `s` is not a slash
    intro hw
    obtain ⟨b, l, hbl⟩ := List.exists_cons_of_ne_nil hnil
    have hb := List.head?_dropWhile_not (fun x : UInt8 => decide (x = 47)) path
    rw [← hs, hbl] at hb
    have hb : b ≠ 47 := by simpa using hb
    rw [hbl, List.takeWhile_cons_of_pos (by simpa using hb)] at hw
    exact List.cons_ne_nil _ _ hw
  · intro hmem
    simpa using List.mem_takeWhile_imp hmem
  · have hb := List.head?_dropWhile_not (fun x : UInt8 => decide (x ≠ 47)) s
    cases hrest : s.dropWhile (· ≠ 47) with
    | nil => exact .inl rfl
    | cons b t =>
      rw [hrest] at hb
      exact .inr ⟨t, by rw [show b = 47 by simpa using hb]⟩
  · rw [hsplit, hlen]

/-- An element of a path takes a byte at least. -/
theorem length_lt_of_skipelem {path rest : List UInt8} {name name' : Buffer}
    (h : skipelem path name = some (rest, name')) : rest.length < path.length := by
  obtain ⟨w, t, hpath, hw, -, -, rfl, -⟩ := skipelem_cases h
  calc (t.dropWhile (· = 47)).length
      ≤ t.length := List.length_dropWhile_le _ t
    _ < (w ++ t).length := by
      rw [List.length_append]
      exact Nat.lt_add_of_pos_left (List.length_pos_iff.mpr hw)
    _ ≤ path.length := by
      rw [← hpath]
      exact List.length_dropWhile_le _ path

/-- The loop of `namex`, with the buffer for the element. -/
def namexLoop (nameiparent : Bool) (path : List UInt8) (name : Buffer) (σ : State) (ip : Inum) :
    Option (Option Inum × Buffer × State) :=
  match _h : skipelem path name with
  | none => if nameiparent then some (none, name, σ.iput ip) else some (some ip, name, σ)
  | some (rest, name) => do
    let σ ← σ.ilock ip
    if (σ.nodes ip).type ≠ some .dir then return (none, name, σ.iput ip)
    else if nameiparent = true ∧ rest = [] then return (some ip, name, σ)
    else
      let (next, σ) ← dirlookup σ ip name
      match next with
      | none => return (none, name, σ.iput ip)
      | some next => namexLoop nameiparent rest name (σ.iput ip) next
termination_by path.length
decreasing_by exact length_lt_of_skipelem _h

/-- `namex` for a process with the current directory `cwd`. -/
def namex (nameiparent : Bool) (σ : State) (cwd : Inum) (path : List UInt8) (name : Buffer) :
    Option (Option Inum × Buffer × State) := do
  let (ip, σ) ← σ.namexStart cwd path
  namexLoop nameiparent path name σ ip

/-- `namei`, on whose stack the bytes of `name` are. -/
def namei (σ : State) (cwd : Inum) (path : List UInt8) (name : Buffer) :
    Option (Option Inum × State) := do
  let (ip, _, σ) ← namex false σ cwd path name
  return (ip, σ)

/-- `nameiparent`, which leaves the last element in the buffer. -/
def nameiparent (σ : State) (cwd : Inum) (path : List UInt8) (name : Buffer) :
    Option (Option Inum × Buffer × State) :=
  namex true σ cwd path name

/-! ## What a path names -/

/-- The name in a buffer of `DIRSIZ` bytes: up to a zero, or all of them. -/
def nameOf (b : Buffer) : Name := string b DIRSIZ 0

/-- The pieces of a path between slashes that are not empty, each cut to its first `DIRSIZ`
bytes. -/
def components (path : List UInt8) : List Name :=
  ((path.splitOn 47).filter (· ≠ [])).map (·.take DIRSIZ)

section Follow

variable (nodes : Inum → Node)

/-- The inode that a directory has under a name; nothing is in an inode that is no directory. -/
def enter (ip : Inum) (name : Name) : Option Inum :=
  if (nodes ip).type = some .dir then
    ((nodes ip).entries.find? fun e => e.inum ≠ 0 ∧ nameOf (field e) = name).map Dirent.inum
  else none

/-- The inode that names lead to from `ip`. -/
def follow (ip : Inum) (names : List Name) : Option Inum := names.foldlM (enter nodes) ip

/-- The directory to which all names but the last lead, and the last name. -/
def followParent (ip : Inum) (names : List Name) : Option (Inum × Name) := do
  let last ← names.getLast?
  let dp ← follow nodes ip names.dropLast
  if (nodes dp).type = some .dir then some (dp, last) else none

end Follow

/-- Where a path starts. -/
def start (cwd : Inum) (path : List UInt8) : Inum := if path.head? = some 47 then root else cwd

/-! ## Names -/

/-- `strncmp` compares the strings in the two buffers. -/
theorem strncmp_eq_zero_iff {p q : Buffer} {n i : ℕ} :
    strncmp p q n i = 0 ↔ string p n i = string q n i := by
  induction n generalizing i with
  | zero => exact iff_of_true rfl rfl
  | succ n ih =>
    rw [strncmp, string, string]
    by_cases hp : p i = 0
    · rw [if_neg fun h => h.1 hp, if_pos hp, hp]
      by_cases hq : q i = 0
      · simp [hq]
      · have hne : (q i).toNat ≠ 0 := fun h => hq (UInt8.toNat_inj.mp h)
        rw [if_neg hq]
        exact iff_of_false (by simpa using hne) (List.cons_ne_nil _ _).symm
    · rw [if_neg hp]
      by_cases heq : p i = q i
      · rw [if_pos ⟨hp, heq⟩, if_neg (heq ▸ hp), ih, heq, List.cons_inj_right]
      · have hne : (p i).toNat ≠ (q i).toNat := fun h => heq (UInt8.toNat_inj.mp h)
        rw [if_neg fun h => heq h.2]
        refine iff_of_false (by omega) ?_
        by_cases hq : q i = 0
        · rw [if_pos hq]
          exact List.cons_ne_nil _ _
        · rw [if_neg hq]
          exact fun h => heq (List.cons.inj h).1

theorem namecmp_eq_zero_iff {s t : Buffer} : namecmp s t = 0 ↔ nameOf s = nameOf t :=
  strncmp_eq_zero_iff

theorem at_memmove (name : Buffer) (t : List UInt8) {n : ℕ} (hn : n ≤ w.length) :
    At (memmove name (w ++ t) n) 0 (w.take n) := by
  refine at_of_getElem? fun i hi => ?_
  rw [List.length_take, Nat.min_eq_left hn] at hi
  rw [List.getElem?_take_of_lt hi, Nat.zero_add, memmove, if_pos hi, List.getD_eq_getElem?_getD,
    List.getElem?_append_left (hi.trans_le hn), List.getElem?_eq_getElem (hi.trans_le hn)]
  rfl

/-- The buffer names the element, cut to `DIRSIZ` bytes, whether or not it ends with a zero. -/
theorem nameOf_copyElem (name : Buffer) (h0 : 0 ∉ w) :
    nameOf (copyElem name (w ++ t) w.length) = w.take DIRSIZ := by
  unfold copyElem
  split_ifs with hlen
  · have hat := string_length_eq (at_memmove name t hlen)
      fun hmem => h0 (List.mem_of_mem_take hmem)
    rwa [List.length_take, Nat.min_eq_left hlen] at hat
  · have hat := at_memmove name t (Nat.le_refl w.length)
    rw [List.take_length] at hat
    rw [List.take_of_length_le (Nat.le_of_not_le hlen)]
    refine string_eq (at_append.mpr ⟨hat.update (.inr (Nat.zero_add _).le), ?_⟩) h0
      (Nat.lt_of_not_le hlen)
    rw [Nat.zero_add]
    exact at_update_self

/-! ## Components -/

@[simp]
theorem components_nil : components [] = [] := rfl

@[simp]
theorem components_slash (path : List UInt8) : components (47 :: path) = components path := by
  unfold components
  rw [← List.nil_append (47 :: path), List.splitOn_append_cons_self_of_not_mem List.not_mem_nil,
    List.filter_cons_of_neg (by simp)]

theorem components_dropWhile (path : List UInt8) :
    components (path.dropWhile (· = 47)) = components path := by
  induction path with
  | nil => rfl
  | cons b path ih =>
    by_cases hb : b = 47
    · rw [hb, List.dropWhile_cons_of_pos (by simp), ih, components_slash]
    · rw [List.dropWhile_cons_of_neg (by simpa using hb)]

/-- A word in front of a slash, or at the end of the path, is a component. -/
theorem components_word (hw : w ≠ []) (hslash : 47 ∉ w) (ht : t = [] ∨ ∃ t', t = 47 :: t') :
    components (w ++ t) = w.take DIRSIZ :: components t := by
  obtain rfl | ⟨t', rfl⟩ := ht
  · rw [List.append_nil, components_nil, components, List.splitOn_eq_singleton hslash,
      List.filter_cons_of_pos (by simpa using hw), List.filter_nil, List.map_singleton]
  · rw [components_slash, components, List.splitOn_append_cons_self_of_not_mem hslash,
      List.filter_cons_of_pos (by simpa using hw), List.map_cons, components]

theorem skipelem_eq_none {path : List UInt8} {name : Buffer} (h : skipelem path name = none) :
    components path = [] := by
  simp only [skipelem] at h
  split_ifs at h with hnil
  rw [← components_dropWhile, hnil, components_nil]

/-- What `skipelem` leaves in the buffer and of the path. -/
theorem skipelem_eq_some {path rest : List UInt8} {name name' : Buffer} (h0 : 0 ∉ path)
    (h : skipelem path name = some (rest, name')) :
    components path = nameOf name' :: components rest ∧ 0 ∉ rest ∧
      (components rest = [] → rest = []) := by
  obtain ⟨w, t, hpath, hw, hslash, ht, rfl, rfl⟩ := skipelem_cases h
  have hwt : 0 ∉ w ++ t := fun hmem =>
    h0 ((List.dropWhile_suffix _).subset (hpath ▸ hmem))
  rw [List.mem_append, not_or] at hwt
  refine ⟨?_, fun hmem => hwt.2 ((List.dropWhile_suffix _).subset hmem), fun hnil => ?_⟩
  · rw [nameOf_copyElem name hwt.1, ← components_dropWhile path, hpath,
      components_word hw hslash ht, components_dropWhile]
  · -- a path without slashes in front and without components is empty
    match hskip : skipelem (t.dropWhile (· = 47)) name with
    | none =>
      simp only [skipelem] at hskip
      split_ifs at hskip with hrest
      rwa [List.dropWhile_idempotent] at hrest
    | some (rest, name'') =>
      obtain ⟨w', t', hpath', hw', hslash', ht', -, -⟩ := skipelem_cases hskip
      rw [← components_dropWhile, hpath', components_word hw' hslash' ht'] at hnil
      exact absurd hnil (List.cons_ne_nil _ _)

/-! ## Names that lead on -/

section Follow

variable {nodes : Inum → Node} {ip : Inum} {name : Name} {names : List Name}

theorem enter_of_not_dir (h : (nodes ip).type ≠ some .dir) : enter nodes ip name = none :=
  if_neg h

theorem follow_cons : follow nodes ip (name :: names) =
    (enter nodes ip name).bind (follow nodes · names) :=
  List.foldlM_cons

theorem followParent_singleton : followParent nodes ip [name] =
    if (nodes ip).type = some .dir then some (ip, name) else none := rfl

theorem followParent_cons (h : names ≠ []) : followParent nodes ip (name :: names) =
    (enter nodes ip name).bind (followParent nodes · names) := by
  obtain ⟨next, rest, rfl⟩ := List.exists_cons_of_ne_nil h
  unfold followParent
  rw [List.getLast?_cons_cons, List.dropLast_cons_cons, follow_cons]
  cases enter nodes ip name with
  | none => cases (next :: rest).getLast? <;> rfl
  | some => rfl

end Follow

/-! ## References -/

/-- The number of inodes in `icache`. -/
def inUse (σ : State) : ℕ := (List.finRange NINODES).countP fun j => 0 < σ.ref j

/-- The inode exists: it has a type, and a link or a reference. -/
def Allocated (σ : State) (i : Inum) : Prop :=
  (σ.nodes i).type ≠ none ∧ (0 < (σ.nodes i).nlink ∨ 0 < σ.ref i)

/-- The root and the current directory exist, and so do the inodes that directories name. -/
structure Tree (σ : State) (cwd : Inum) : Prop where
  root : Allocated σ root
  cwd_type : (σ.nodes cwd).type ≠ none
  cwd_ref : 0 < σ.ref cwd
  entry : ∀ i, (σ.nodes i).type = some .dir → ∀ e ∈ (σ.nodes i).entries, e.inum ≠ 0 →
    Allocated σ e.inum

/-- From `σ` to `σ'`, a reference to the inode was taken, and nothing else. -/
structure Took (σ : State) (found : Option Inum) (σ' : State) : Prop where
  same : SameFiles σ σ'
  ref_eq : ∀ j, σ'.ref j = σ.ref j + if found = some j then 1 else 0

section References

variable {σ₀ σ σ' : State} {ip i : Inum}

theorem Tree.enter {cwd : Inum} {name : Name} (h : Tree σ cwd)
    (hi : enter σ.nodes ip name = some i) : Allocated σ i := by
  unfold Paths.enter at hi
  split_ifs at hi with hdir
  obtain ⟨e, hfind, rfl⟩ := Option.map_eq_some_iff.mp hi
  have hinum := List.find?_some hfind
  simp only [decide_eq_true_eq] at hinum
  exact h.entry ip hdir e (List.mem_of_find?_eq_some hfind) hinum.1

/-- `dirlookup` takes a reference to the inode that the directory has under the name. -/
theorem dirlookup_eq {name : Buffer} (h : (σ.nodes ip).type = some .dir) : dirlookup σ ip name =
      match enter σ.nodes ip (nameOf name) with
      | none => some (none, σ)
      | some i => (σ.iget i).map fun σ => (some i, σ) := by
  unfold dirlookup enter
  rw [if_neg (not_not.mpr h), if_pos h]
  induction (σ.nodes ip).entries with
  | nil => rfl
  | cons e rest ih =>
    rw [dirlookupLoop, List.find?_cons, ih]
    by_cases hzero : e.inum = 0
    · simp [hzero]
    · by_cases hname : nameOf name = nameOf (field e)
      · rw [if_neg hzero, if_pos (namecmp_eq_zero_iff.mpr hname)]
        rw [decide_eq_true ⟨hzero, hname.symm⟩]
        exact Option.map_eq_bind.symm
      · rw [if_neg hzero, if_neg fun h => hname (namecmp_eq_zero_iff.mp h)]
        rw [decide_eq_false fun h => hname h.2.symm]

theorem Took.refl (σ : State) : Took σ none σ := ⟨.refl σ, by simp⟩

theorem Took.iget (h : Took σ₀ none σ) (hget : σ.iget i = some σ') : Took σ₀ (some i) σ' := by
  refine ⟨h.same.trans (sameFiles_iget hget), fun j => ?_⟩
  rw [ref_iget hget, h.ref_eq]
  simp [eq_comm]

theorem Took.idup (σ : State) (i : Inum) : Took σ (some i) (σ.idup i) := by
  refine ⟨⟨rfl, rfl, rfl⟩, fun j => ?_⟩
  by_cases hj : i = j
  · subst hj
    simp [State.idup]
  · simp [State.idup, hj, Ne.symm hj]

/-- An inode with a type and a reference can be locked. -/
theorem ilock_of_allocated (hi : Allocated σ₀ ip) (h : Took σ₀ (some ip) σ) :
    ∃ σ', σ.ilock ip = some σ' ∧ Took σ₀ (some ip) σ' := by
  have href : ¬σ.ref ip < 1 := by
    rw [h.ref_eq, if_pos rfl]
    omega
  have htype : (σ.nodes ip).type ≠ none := by
    rw [h.same.nodes_eq]
    exact hi.1
  unfold State.ilock
  rw [if_neg href, if_neg htype]
  split_ifs
  · exact ⟨σ, rfl, h⟩
  · exact ⟨_, rfl, ⟨h.same.nodes_eq, h.same.ftable_eq, h.same.procs_eq⟩, h.ref_eq⟩

/-- Dropping the second reference to an inode, or one to an inode with a link, frees nothing. -/
theorem nodes_iput_eq (h : 0 < (σ.nodes ip).nlink ∨ 2 ≤ σ.ref ip) :
    (σ.iput ip).nodes = σ.nodes := by
  unfold State.iput State.reclaim
  rw [if_neg]
  rintro ⟨-, hlink, hone⟩
  omega

/-- The reference to `ip` is dropped again, and that to what was found is kept. -/
theorem Took.of_iput {found : Option Inum} (hi : Allocated σ₀ ip) (hsame : SameFiles σ₀ σ)
    (href : ∀ j, σ.ref j = σ₀.ref j + (if j = ip then 1 else 0) + if found = some j then 1 else 0) :
    Took σ₀ found (σ.iput ip) := by
  have hip := href ip
  rw [if_pos rfl] at hip
  have hnodes : (σ.iput ip).nodes = σ.nodes := by
    refine nodes_iput_eq ?_
    rw [hsame.nodes_eq]
    exact hi.2.imp_right fun hpos => by omega
  refine ⟨hsame.trans (sameFiles_iput hnodes), fun j => ?_⟩
  rw [ref_iput]
  by_cases hj : j = ip
  · rw [hj, update_self, hip]
    omega
  · rw [update_of_ne hj, href, if_neg hj, Nat.add_zero]

theorem Took.iput (h : Took σ₀ (some ip) σ) (hi : Allocated σ₀ ip) : Took σ₀ none (σ.iput ip) :=
  .of_iput hi h.same fun j => by simp [h.ref_eq, eq_comm]

/-- Going from `ip` on to `i`. -/
theorem Took.next (h : Took σ₀ (some ip) σ) (hi : Allocated σ₀ ip) (hget : σ.iget i = some σ') :
    Took σ₀ (some i) (σ'.iput ip) :=
  .of_iput hi (h.same.trans (sameFiles_iget hget)) fun j => by
    simp [ref_iget hget, h.ref_eq, eq_comm]

theorem iget_eq_none (h : σ.iget i = none) : NINODE ≤ inUse σ := by
  unfold State.iget at h
  split_ifs at h with hpos hroom
  exact Nat.le_of_not_lt hroom

theorem countP_le_add_count {α : Type*} [DecidableEq α] {p q : α → Bool} {a : α} (l : List α)
    (h : ∀ x ≠ a, q x = true → p x = true) : l.countP q ≤ l.countP p + l.count a := by
  induction l with
  | nil => exact Nat.le_refl 0
  | cons x =>
    have hx := h x
    rw [List.countP_cons, List.countP_cons, List.count_cons]
    by_cases hxa : x = a
    · rw [if_pos (beq_iff_eq.mpr hxa)]
      split_ifs <;> omega
    · by_cases hq : q x = true
      · rw [if_pos hq, if_pos (hx hxa hq)]
        omega
      · rw [if_neg hq]
        omega

/-- A reference takes an entry of `icache` at most. -/
theorem Took.inUse_le (h : Took σ₀ (some ip) σ) : inUse σ ≤ inUse σ₀ + 1 := by
  refine (countP_le_add_count (a := ip) (List.finRange NINODES) fun j hj hpos => ?_).trans
    (Nat.add_le_add_left (List.nodup_iff_count_le_one.mp (List.nodup_finRange _) ip) _)
  rw [decide_eq_true_eq, h.ref_eq, if_neg fun h => hj (Option.some.inj h).symm] at hpos
  rwa [decide_eq_true_eq]

end References

/-! ## `namex` -/

section Namex

variable {nameiparent : Bool} {path rest : List UInt8} {name name' : Buffer} {σ₀ σ : State}
  {ip cwd : Inum}

theorem namexLoop_of_none (h : skipelem path name = none) : namexLoop nameiparent path name σ ip =
      if nameiparent then some (none, name, σ.iput ip) else some (some ip, name, σ) := by
  rw [namexLoop]
  split
  · rfl
  · next hsome => exact absurd (h.symm.trans hsome) (Option.some_ne_none _).symm

theorem namexLoop_of_some (h : skipelem path name = some (rest, name')) :
    namexLoop nameiparent path name σ ip = (do
      let σ ← σ.ilock ip
      if (σ.nodes ip).type ≠ some .dir then return (none, name', σ.iput ip)
      else if nameiparent = true ∧ rest = [] then return (some ip, name', σ)
      else
        let (next, σ) ← dirlookup σ ip name'
        match next with
        | none => return (none, name', σ.iput ip)
        | some next => namexLoop nameiparent rest name' (σ.iput ip) next) := by
  rw [namexLoop]
  split
  · next hnone => exact absurd (h.symm.trans hnone) (Option.some_ne_none _)
  · next rest' name'' hsome =>
    obtain ⟨rfl, rfl⟩ := Prod.mk.inj (Option.mem_unique h hsome)
    rfl

/-- What `namex` finds is what the names lead to. -/
def Reached (nameiparent : Bool) (nodes : Inum → Node) (ip : Inum) (names : List Name)
    (found : Option Inum) (name : Buffer) : Prop :=
  if nameiparent then found.map (fun dp => (dp, nameOf name)) = followParent nodes ip names
  else found = follow nodes ip names

section Reached

variable {nodes : Inum → Node} {i : Inum} {next : Name} {names : List Name} {found : Option Inum}

/-- Nothing is reached through an inode that is no directory. -/
theorem reached_of_not_dir (h : (nodes ip).type ≠ some .dir) :
    Reached nameiparent nodes ip (next :: names) none name := by
  cases nameiparent with
  | false =>
    show none = follow nodes ip (next :: names)
    rw [follow_cons, enter_of_not_dir h]
    rfl
  | true =>
    show none = followParent nodes ip (next :: names)
    by_cases hnames : names = []
    · rw [hnames, followParent_singleton, if_neg h]
    · rw [followParent_cons hnames, enter_of_not_dir h]
      rfl

/-- The names are followed one by one, up to the last if its directory is wanted. -/
theorem reached_cons (h : nameiparent = true → names ≠ []) :
    Reached nameiparent nodes ip (next :: names) found name ↔
      (enter nodes ip next).elim (found = none)
        fun i => Reached nameiparent nodes i names found name := by
  cases nameiparent with
  | false =>
    show found = follow nodes ip (next :: names) ↔ _
    rw [follow_cons]
    cases enter nodes ip next with
    | none | some => exact Iff.rfl
  | true =>
    show found.map _ = followParent nodes ip (next :: names) ↔ _
    rw [followParent_cons (h rfl)]
    cases enter nodes ip next with
    | none => exact Option.map_eq_none_iff
    | some => exact Iff.rfl

end Reached

/-- `namex` returns what `P` says and keeps the reference to it, or panics since `icache` is
full. -/
def Returns (σ : State) (result : Option (Option Inum × Buffer × State))
    (P : Option Inum → Buffer → Prop) : Prop :=
  (result = none ∧ NINODE ≤ inUse σ + 1) ∨
    ∃ found name σ', result = some (found, name, σ') ∧ Took σ found σ' ∧ P found name

/-- The loop of `namex` follows the components of the path. -/
theorem returns_namexLoop (htree : Tree σ₀ cwd) (hpath : 0 ∉ path) (hip : Allocated σ₀ ip)
    (h : Took σ₀ (some ip) σ) : Returns σ₀ (namexLoop nameiparent path name σ ip)
      (Reached nameiparent σ₀.nodes ip (components path)) := by
  induction hn : path.length using Nat.strong_induction_on generalizing path name σ ip with
  | _ n ih =>
    subst hn
    cases hskip : skipelem path name with
    | none =>
      rw [namexLoop_of_none hskip, skipelem_eq_none hskip]
      cases nameiparent with
      | true => exact .inr ⟨_, _, _, rfl, h.iput hip, rfl⟩
      | false => exact .inr ⟨_, _, _, rfl, h, rfl⟩
    | some found =>
      obtain ⟨rest, name'⟩ := found
      obtain ⟨hcomponents, hrest, hlast⟩ := skipelem_eq_some hpath hskip
      rw [namexLoop_of_some hskip, hcomponents]
      obtain ⟨τ, hlock, hτ⟩ := ilock_of_allocated hip h
      rw [hlock, Option.bind_eq_bind, Option.bind_some]
      have hnodes := hτ.same.nodes_eq
      by_cases hdir : (τ.nodes ip).type = some .dir
      · rw [if_neg (not_not.mpr hdir)]
        by_cases hstop : nameiparent = true ∧ rest = []
        · obtain ⟨rfl, rfl⟩ := hstop
          rw [if_pos ⟨rfl, rfl⟩]
          refine .inr ⟨_, _, _, rfl, hτ, ?_⟩
          show _ = followParent σ₀.nodes ip [nameOf name']
          rw [followParent_singleton, if_pos (hnodes ▸ hdir)]
          rfl
        · have hmore : nameiparent = true → components rest ≠ [] :=
            fun htrue hnil => hstop ⟨htrue, hlast hnil⟩
          rw [if_neg hstop, dirlookup_eq hdir, hnodes]
          cases henter : enter σ₀.nodes ip (nameOf name') with
          | none =>
            refine .inr ⟨_, _, _, rfl, hτ.iput hip, (reached_cons hmore).mpr ?_⟩
            rw [henter]
            rfl
          | some i =>
            show Returns σ₀ (((τ.iget i).map fun σ => (some i, σ)).bind _) _
            cases hget : τ.iget i with
            | none => exact .inl ⟨rfl, (iget_eq_none hget).trans hτ.inUse_le⟩
            | some τ' =>
              -- the rest of the path is followed from `i`
              have hrun : Returns σ₀ (namexLoop nameiparent rest name' (τ'.iput ip) i)
                  (Reached nameiparent σ₀.nodes i (components rest)) :=
                ih rest.length (length_lt_of_skipelem hskip) hrest (htree.enter henter)
                  (hτ.next hip hget) rfl
              refine hrun.imp_right fun ⟨found, last, τ'', heq, htook, hreached⟩ => ?_
              refine ⟨found, last, τ'', heq, htook, (reached_cons hmore).mpr ?_⟩
              rwa [henter]
      · rw [if_pos hdir]
        exact .inr ⟨_, _, _, rfl, hτ.iput hip, reached_of_not_dir (hnodes ▸ hdir)⟩

/-- `namex` follows the components of the path from the root or the current directory. -/
theorem returns_namex (nameiparent : Bool) (name : Buffer) (htree : Tree σ cwd) (hpath : 0 ∉ path) :
    Returns σ (namex nameiparent σ cwd path name)
      (Reached nameiparent σ.nodes (start cwd path) (components path)) := by
  unfold namex State.namexStart start
  split_ifs with habs
  · cases hget : σ.iget root with
    | none => exact .inl ⟨rfl, (iget_eq_none hget).trans (Nat.le_succ _)⟩
    | some => exact returns_namexLoop htree hpath htree.root ((Took.refl σ).iget hget)
  · exact returns_namexLoop htree hpath ⟨htree.cwd_type, .inr htree.cwd_ref⟩ (.idup σ cwd)

end Namex

/-- An image with one file, whose name takes all of its field. -/
def oneFile : State := .boot [List.range' 97 DIRSIZ |>.map UInt8.ofNat]

theorem tree_oneFile : Tree oneFile root where
  root := ⟨by decide, .inl (by decide)⟩
  cwd_type := by decide
  cwd_ref := by decide
  entry i hdir e he hinum := by
    obtain rfl : i = root := by
      by_contra hi
      unfold oneFile State.boot at hdir
      simp only [hi, if_false] at hdir
      split_ifs at hdir
      exact absurd hdir (by decide)
    have hall : ∀ e ∈ (oneFile.nodes root).entries, e.inum ≠ 0 →
        (oneFile.nodes e.inum).type ≠ none ∧ 0 < (oneFile.nodes e.inum).nlink := by
      decide
    exact ⟨(hall e he hinum).1, .inl (hall e he hinum).2⟩

/-- A path with slashes around a name that is too long by two bytes. -/
def longPath : List UInt8 := [47, 47] ++ (List.range' 97 (DIRSIZ + 2)).map UInt8.ofNat ++ [47]

end FileSystem.Paths
