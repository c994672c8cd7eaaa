import Mathlib.Data.List.Chain
import Mathlib.Data.List.Nodup
import Mathlib.Data.Option.Basic
import Mathlib.Logic.Function.Basic

/-!
# Circular doubly linked lists

The cells of a circular list are the elements of `β` and a head, written `none`. `Links` holds the
two pointers of every cell, and `Rings l xs` says that the list starting behind the head consists of
`xs`. The operations are the usual sequences of assignments: taking a cell out, putting a cell
behind the head, and walking along the list in either direction until a test succeeds.
-/

namespace LinkedRing

open Function

variable {β : Type}

/-- The pointers of all cells; `none` is the head of the list. -/
structure Links (β : Type) where
  next : Option β → Option β
  prev : Option β → Option β

namespace Links

variable {l l' : Links β} {x : β} {xs ys : List β} {a b c : Option β} {cs us vs : List (Option β)}
variable {k : ℕ}

/-- The cell `b` follows the cell `a`. -/
def Linked (l : Links β) (a b : Option β) : Prop :=
  l.next a = b ∧ l.prev b = a

/-- The cells in the order of `next`, from the head to the head. -/
def cells (xs : List β) : List (Option β) :=
  none :: (xs.map some ++ [none])

/-- The list behind the head consists of `xs`. -/
def Rings (l : Links β) (xs : List β) : Prop :=
  xs.Nodup ∧ (cells xs).IsChain l.Linked

/-- `x->next->prev = x->prev; x->prev->next = x->next;` -/
def unlink [DecidableEq β] (l : Links β) (x : β) : Links β :=
  let l := { l with prev := update l.prev (l.next (some x)) (l.prev (some x)) }
  { l with next := update l.next (l.prev (some x)) (l.next (some x)) }

/-- `x->next = head.next; x->prev = &head; head.next->prev = x; head.next = x;` -/
def pushFront [DecidableEq β] (l : Links β) (x : β) : Links β :=
  let l := { l with next := update l.next (some x) (l.next none) }
  let l := { l with prev := update l.prev (some x) none }
  let l := { l with prev := update l.prev (l.next none) (some x) }
  { l with next := update l.next none (some x) }

/-- The head alone: `head.prev = &head; head.next = &head;` -/
def empty : Links β where
  next _ := none
  prev _ := none

/-- Follow the pointers `f` from a cell until the test succeeds or the head is reached, for at most
`k` cells. -/
def walk (f : Option β → Option β) (test : β → Bool) : ℕ → Option β → Option β
  | 0, _ => none
  | _ + 1, none => none
  | k + 1, some x => if test x then some x else walk f test k (f (some x))

/-! ## Chains -/

/-- Chains are kept by changes to other pointers. -/
theorem isChain_congr (h : cs.IsChain l.Linked) (hnext : ∀ u ∈ cs.dropLast, l'.next u = l.next u)
    (hprev : ∀ v ∈ cs.tail, l'.prev v = l.prev v) : cs.IsChain l'.Linked := by
  induction cs with
  | nil => exact .nil
  | cons a cs ih =>
    cases cs with
    | nil => exact .singleton a
    | cons b =>
      rw [List.isChain_cons_cons] at h ⊢
      refine ⟨⟨?_, ?_⟩, ih h.2 (fun u hu => hnext u ?_) fun v hv => hprev v ?_⟩
      · rw [hnext a (by simp), h.1.1]
      · rw [hprev b (by simp), h.1.2]
      · rw [List.dropLast_cons_cons]
        exact List.mem_cons_of_mem _ hu
      · exact List.mem_cons_of_mem _ hv

theorem some_mem_cells : some x ∈ xs.map some ++ [none] ↔ x ∈ xs := by
  simp

theorem nodup_cells (h : xs.Nodup) : (xs.map some ++ [none]).Nodup := by
  rw [List.nodup_append]
  exact ⟨h.map (Option.some_injective β), List.nodup_singleton _, by simp⟩

theorem rings_empty : (empty : Links β).Rings [] :=
  ⟨.nil, List.isChain_cons_cons.mpr ⟨⟨rfl, rfl⟩, .singleton none⟩⟩

/-- The last cell in front of `x`, and the first one behind it. -/
theorem Rings.neighbours (h : l.Rings (xs ++ x :: ys)) :
    ∃ us a c vs, none :: xs.map some = us ++ [a] ∧ ys.map some ++ [none] = c :: vs ∧
      (us ++ [a]).IsChain l.Linked ∧ l.Linked a (some x) ∧ l.Linked (some x) c ∧
      (c :: vs).IsChain l.Linked := by
  obtain hnil | ⟨us, a, hus⟩ := List.eq_nil_or_concat' (none :: xs.map some)
  · cases hnil
  obtain ⟨c, vs, hvs⟩ := List.exists_cons_of_ne_nil (l := ys.map some ++ [none]) (by simp)
  have hcells : cells (xs ++ x :: ys) = us ++ a :: some x :: c :: vs := by
    rw [cells, List.map_append, List.map_cons, List.append_assoc, List.cons_append, hvs,
      ← List.cons_append, hus, List.append_assoc]
    rfl
  have hchain := h.2
  rw [hcells, List.isChain_append_cons_cons, List.isChain_cons_cons] at hchain
  exact ⟨us, a, c, vs, hus, hvs, hchain.1, hchain.2.1, hchain.2.2.1, hchain.2.2.2⟩

/-! ## Walking -/

theorem walk_next_chain {test : β → Bool}
    (h : (a :: (xs.map some ++ [none])).IsChain l.Linked) (hk : xs.length < k) :
    walk l.next test k (l.next a) = xs.find? test := by
  induction xs generalizing a k with
  | nil =>
    obtain ⟨k, rfl⟩ := Nat.exists_eq_succ_of_ne_zero (Nat.ne_of_gt hk)
    rw [(List.isChain_cons_cons.mp h).1.1, walk, List.find?_nil]
  | cons x xs ih =>
    obtain ⟨k, rfl⟩ := Nat.exists_eq_succ_of_ne_zero (Nat.ne_of_gt (Nat.zero_lt_of_lt hk))
    obtain ⟨hax, hrest⟩ := List.isChain_cons_cons.mp h
    rw [hax.1, walk, List.find?_cons, ih hrest (Nat.lt_of_succ_lt_succ hk)]
    cases test x <;> rfl

/-- Walking along `next` looks at the cells in order. -/
theorem Rings.walk_next (h : l.Rings xs) (test : β → Bool) (hk : xs.length < k) :
    walk l.next test k (l.next none) = xs.find? test :=
  walk_next_chain h.2 hk

/-- Walking along `prev` looks at the cells in the opposite order: it is walking along `next` in
the list with the two pointers exchanged. -/
theorem Rings.walk_prev (h : l.Rings xs) (test : β → Bool) (hk : xs.length < k) :
    walk l.prev test k (l.prev none) = xs.reverse.find? test := by
  have hcells : cells xs.reverse = (cells xs).reverse := by simp [cells]
  refine walk_next_chain (l := ⟨l.prev, l.next⟩) (a := none) ?_ (by rwa [List.length_reverse])
  show (cells xs.reverse).IsChain _
  rw [hcells, List.isChain_reverse]
  exact h.2.imp fun _ _ => And.symm

/-! ## Changing the list -/

variable [DecidableEq β]

/-- Taking a cell out of the list. -/
theorem Rings.unlink (h : l.Rings (xs ++ x :: ys)) : (l.unlink x).Rings (xs ++ ys) := by
  obtain ⟨us, a, c, vs, hus, hvs, hfront, hax, hxc, hback⟩ := h.neighbours
  obtain ⟨hxs, hxys, hdisj⟩ := List.nodup_append.mp h.1
  obtain ⟨hx, hys⟩ := List.nodup_cons.mp hxys
  have hc : c ∈ ys.map some ++ [none] := hvs ▸ List.mem_cons_self
  have hcx : c ≠ some x := fun heq => hx (some_mem_cells.mp (heq ▸ hc))
  have hnext : (l.unlink x).next = update l.next a c := by
    simp only [Links.unlink, hxc.1, hax.2, update_of_ne hcx.symm]
  have hprev : (l.unlink x).prev = update l.prev c a := by
    simp only [Links.unlink, hxc.1, hax.2]
  refine ⟨List.nodup_append.mpr ⟨hxs, hys, fun u hu v hv => hdisj u hu v ?_⟩, ?_⟩
  · exact List.mem_cons_of_mem _ hv
  have hcells : cells (xs ++ ys) = us ++ a :: c :: vs := by
    rw [cells, List.map_append, List.append_assoc, hvs, ← List.cons_append, hus, List.append_assoc]
    rfl
  rw [hcells, List.isChain_append_cons_cons]
  refine ⟨isChain_congr hfront (fun u hu => ?_) fun v hv => ?_, ⟨?_, ?_⟩,
    isChain_congr hback (fun u hu => ?_) fun v hv => ?_⟩
  -- a cell in front of `a` is not `a`, and one behind the head is not `c`
  · have hnodup : (us ++ [a]).Nodup := by
      rw [← hus, List.nodup_cons]
      exact ⟨by simp, hxs.map (Option.some_injective β)⟩
    rw [List.dropLast_concat] at hu
    rw [hnext, update_of_ne]
    rintro rfl
    exact (List.nodup_append.mp hnodup).2.2 u hu u (List.mem_singleton_self u) rfl
  · rw [← hus, List.tail_cons] at hv
    rw [hprev, update_of_ne]
    rintro rfl
    obtain ⟨y, hy, rfl⟩ := List.mem_map.mp hv
    exact hdisj y hy y (List.mem_cons_of_mem _ (some_mem_cells.mp hc)) rfl
  · rw [hnext, update_self]
  · rw [hprev, update_self]
  · rw [← hvs, List.dropLast_concat] at hu
    have ha : a ∈ none :: xs.map some := hus ▸ List.mem_append_right _ (List.mem_singleton_self a)
    rw [hnext, update_of_ne]
    rintro rfl
    obtain ⟨y, hy, rfl⟩ := List.mem_map.mp hu
    have hy' : y ∈ xs := by simpa using ha
    exact hdisj y hy' y (List.mem_cons_of_mem _ hy) rfl
  · have hnodup : (c :: vs).Nodup := hvs ▸ nodup_cells hys
    rw [hprev, update_of_ne]
    rintro rfl
    exact (List.nodup_cons.mp hnodup).1 hv

/-- Putting a cell behind the head. -/
theorem Rings.pushFront (h : l.Rings xs) (hx : x ∉ xs) : (l.pushFront x).Rings (x :: xs) := by
  obtain ⟨c, vs, hvs⟩ := List.exists_cons_of_ne_nil (l := xs.map some ++ [none]) (by simp)
  have hchain := h.2
  rw [cells, hvs, List.isChain_cons_cons] at hchain
  have hc : c ∈ xs.map some ++ [none] := hvs ▸ List.mem_cons_self
  have hcx : c ≠ some x := fun heq => hx (some_mem_cells.mp (heq ▸ hc))
  have hnext : (l.pushFront x).next =
      update (update l.next (some x) c) none (some x) := by
    simp only [Links.pushFront, hchain.1.1]
  have hprev : (l.pushFront x).prev =
      update (update l.prev (some x) none) c (some x) := by
    simp only [Links.pushFront, hchain.1.1, update_of_ne (Option.some_ne_none x).symm]
  refine ⟨List.nodup_cons.mpr ⟨hx, h.1⟩, ?_⟩
  have hcells : cells (x :: xs) = none :: some x :: c :: vs := by
    rw [cells, List.map_cons, List.cons_append, hvs]
  rw [hcells, List.isChain_cons_cons, List.isChain_cons_cons]
  refine ⟨⟨?_, ?_⟩, ⟨?_, ?_⟩, isChain_congr hchain.2 (fun u hu => ?_) fun v hv => ?_⟩
  · rw [hnext, update_self]
  · rw [hprev, update_of_ne hcx.symm, update_self]
  · rw [hnext, update_of_ne (Option.some_ne_none x), update_self]
  · rw [hprev, update_self]
  · rw [← hvs, List.dropLast_concat] at hu
    obtain ⟨y, hy, rfl⟩ := List.mem_map.mp hu
    have hyx : some y ≠ some x := fun heq => hx (Option.some.inj heq ▸ hy)
    rw [hnext, update_of_ne (Option.some_ne_none y), update_of_ne hyx]
  · have hnodup : (c :: vs).Nodup := hvs ▸ nodup_cells h.1
    have hmem : v ∈ xs.map some ++ [none] := hvs ▸ List.mem_cons_of_mem _ hv
    have hvc : v ≠ c := fun heq => (List.nodup_cons.mp hnodup).1 (heq ▸ hv)
    have hvx : v ≠ some x := fun heq => hx (some_mem_cells.mp (heq ▸ hmem))
    rw [hprev, update_of_ne hvc, update_of_ne hvx]

/-- Putting one cell after the other behind the head. -/
theorem Rings.foldl_pushFront (h : l.Rings xs) (hys : (ys ++ xs).Nodup) :
    (ys.foldl Links.pushFront l).Rings (ys.reverse ++ xs) := by
  induction ys generalizing l xs with
  | nil => exact h
  | cons y ys ih =>
    rw [List.foldl_cons, List.reverse_cons, List.append_assoc, List.singleton_append]
    obtain ⟨hy, hrest⟩ := List.nodup_cons.mp hys
    refine ih (h.pushFront fun hmem => hy (List.mem_append_right _ hmem)) ?_
    exact List.nodup_middle.mpr (List.nodup_cons.mpr ⟨hy, hrest⟩)

end Links

end LinkedRing
