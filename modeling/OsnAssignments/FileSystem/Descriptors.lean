import Mathlib
import OsnAssignments.FileSystem.References

/-!
# Descriptors and current directories

How the reference counts follow the system calls that change a process: a reference that the running
system call holds becomes one of a process or of an open file, and the other way around.
-/

namespace FileSystem.Names

open State Function

variable {σ σ' : State} {held held' : Multiset Inum} {p : Fin NPROC} {x : Proc}

/-- Changing one summand of a sum over all indices. -/
theorem sum_comp_update {ι α : Type*} [Fintype ι] [DecidableEq ι] (F : α → ℕ) (f : ι → α) (p : ι)
    (y : α) : (∑ q, F (update f p y q)) + F (f p) = (∑ q, F (f q)) + F y := by
  have hcomp : ∀ q, F (update f p y q) = update (F ∘ f) p (F y) q :=
    fun q => congrFun (comp_update F f p y) q
  rw [Finset.sum_congr rfl fun q _ => hcomp q, Finset.sum_update_of_mem (Finset.mem_univ p),
    ← Finset.sum_erase_add Finset.univ _ (Finset.mem_univ p), Finset.erase_eq]
  show F y + _ + F (f p) = _ + F (f p) + F y
  simp only [comp_apply]
  omega

theorem cwds_setProc (σ : State) (p : Fin NPROC) (y : Option Proc) (i : Inum) :
    cwds (σ.setProc p y) i + atCwd (σ.procs p) i = cwds σ i + atCwd y i :=
  sum_comp_update (atCwd · i) σ.procs p y

/-- Counts after a process `p` and a file `f` are replaced. -/
theorem Counts.replace {y : Option Proc} {f : Fin NFILE} {g : File} (h : Counts σ held)
    (hheld : ∀ i, held'.count i + atCwd y i + openOn g i =
      held.count i + atCwd (σ.procs p) i + openOn (σ.ftable f) i)
    (hfile : ∀ k, (update σ.ftable f g k).ref + descriptors (σ.procs p) k =
      (σ.ftable k).ref + descriptors y k) :
    Counts ({ σ with ftable := update σ.ftable f g }.setProc p y) held' := by
  refine ⟨fun i => ?_, fun k => ?_⟩
  · have hcwds := cwds_setProc { σ with ftable := update σ.ftable f g } p y i
    have hopens : opens ({ σ with ftable := update σ.ftable f g }.setProc p y) i +
        openOn (σ.ftable f) i = opens σ i + openOn g i :=
      sum_comp_update (openOn · i) σ.ftable f g
    have href := h.ref_eq i
    have := hheld i
    show σ.ref i = _
    have hsame : cwds { σ with ftable := update σ.ftable f g } i = cwds σ i := rfl
    dsimp only at hcwds
    omega
  · have hsum := sum_comp_update (descriptors · k) σ.procs p y
    have := hfile k
    have := h.file_ref k
    show (update σ.ftable f g k).ref = ∑ q, descriptors (update σ.procs p y q) k
    omega

/-- Counts after a process is replaced by one with the same descriptors. -/
theorem Counts.setProc {y : Option Proc} (h : Counts σ held)
    (hheld : ∀ i, held'.count i + atCwd y i = held.count i + atCwd (σ.procs p) i)
    (hfile : ∀ k, descriptors y k = descriptors (σ.procs p) k) : Counts (σ.setProc p y) held' := by
  have hreplace := Counts.replace (p := p) (y := y) (f := ⟨0, by decide⟩)
    (g := σ.ftable ⟨0, by decide⟩) h
    (fun i => by rw [hheld i]) (fun k => by rw [update_eq_self, hfile k])
  rwa [update_eq_self] at hreplace

/-! ## `chdir`, `open` and `close` -/

theorem count_cons_eq (i j : Inum) (held : Multiset Inum) :
    (j ::ₘ held).count i = held.count i + if j = i then 1 else 0 := by
  rw [Multiset.count_cons]
  simp only [eq_comm]

/-- The process takes over the reference to its new current directory, and leaves the old one. -/
theorem Counts.chdir {i : Inum} (h : Counts σ (i ::ₘ held)) (hp : σ.procs p = some x) :
    Counts (σ.setProc p (some { x with cwd := i })) (x.cwd ::ₘ held) := by
  refine h.setProc (fun j => ?_) (fun k => ?_)
  · rw [hp, count_cons_eq, count_cons_eq]
    simp only [atCwd, Option.map_some, Option.some.injEq]
    omega
  · rw [hp]
    rfl

/-- Changing one descriptor of a process. -/
theorem descriptors_update (x : Proc) (fd : Fin NOFILE) (y : Option (Fin NFILE)) (k : Fin NFILE) :
    descriptors (some { x with ofile := update x.ofile fd y }) k +
        (if x.ofile fd = some k then 1 else 0) =
      descriptors (some x) k + if y = some k then 1 else 0 :=
  sum_comp_update (fun z => if z = some k then 1 else 0) x.ofile fd y

/-- The new file takes over the reference to its inode. -/
theorem Counts.openFile {i : Inum} {f : Fin NFILE} {fd : Fin NOFILE} (h : Counts σ (i ::ₘ held))
    (hp : σ.procs p = some x) (hf : (σ.ftable f).ref = 0) (hfd : x.ofile fd = none) :
    Counts ({ σ with ftable := update σ.ftable f ⟨1, some i⟩ }.setProc p
      (some { x with ofile := update x.ofile fd (some f) })) held := by
  refine h.replace (fun j => ?_) (fun k => ?_)
  · rw [hp, count_cons_eq]
    simp [atCwd, openOn, hf]
    omega
  · have hdesc := descriptors_update x fd (some f) k
    rw [hfd, if_neg (by simp)] at hdesc
    rw [hp]
    by_cases hk : k = f
    · subst hk
      rw [if_pos rfl] at hdesc
      rw [update_self, hf]
      dsimp only
      omega
    · rw [if_neg (by simpa using Ne.symm hk)] at hdesc
      rw [update_of_ne hk]
      omega

section

variable (h : Counts σ held)
include h

/-- A closed descriptor leaves the reference of its file, if it was the last one. -/
theorem Counts.close {f : Fin NFILE} {fd : Fin NOFILE} {g : File}
    (hp : σ.procs p = some x) (hfd : x.ofile fd = some f) (hg : g.ref + 1 = (σ.ftable f).ref)
    (hheld : ∀ i, held'.count i + openOn g i = held.count i + openOn (σ.ftable f) i) :
    Counts ({ σ with ftable := update σ.ftable f g }.setProc p
      (some { x with ofile := update x.ofile fd none })) held' := by
  refine h.replace (fun j => ?_) (fun k => ?_)
  · have := hheld j
    rw [hp]
    simp only [atCwd, Option.map_some]
    omega
  · have hdesc := descriptors_update x fd none k
    rw [hfd, if_neg (show ¬(none : Option (Fin NFILE)) = some k by simp)] at hdesc
    rw [hp]
    by_cases hk : k = f
    · subst hk
      rw [if_pos rfl] at hdesc
      rw [update_self]
      omega
    · rw [if_neg (by simpa using Ne.symm hk)] at hdesc
      rw [update_of_ne hk]
      omega

/-- A file with a descriptor has a reference. -/
theorem Counts.descriptors_le (p : Fin NPROC) (f : Fin NFILE) :
    descriptors (σ.procs p) f ≤ (σ.ftable f).ref := by
  rw [h.file_ref f]
  exact Finset.single_le_sum (f := fun q => descriptors (σ.procs q) f) (fun _ _ => Nat.zero_le _)
    (Finset.mem_univ p)

/-- `sys_close`: either only the file table and the process change, or the reference of the file to
its inode is dropped. -/
theorem sysClose_cases {fd : Fin NOFILE} (hp : σ.procs p = some x)
    (hclose : σ.sysClose p x fd = some σ') : ∃ (τ : State) (i : Option Inum),
      Counts τ (i.elim held fun i => i ::ₘ held) ∧ σ' = i.elim τ τ.iput ∧
        τ.nodes = σ.nodes ∧ τ.ref = σ.ref ∧ τ.valid = σ.valid ∧ τ.procs = update σ.procs p
          (some { x with ofile := update x.ofile fd none }) := by
  unfold sysClose at hclose
  split at hclose
  · next hnone =>
    cases hclose
    refine ⟨σ, none, h, rfl, rfl, rfl, rfl, ?_⟩
    rw [← hnone, update_eq_self, ← hp, update_eq_self]
  · next f hfd =>
    unfold fileclose at hclose
    split_ifs at hclose with hzero hmany
    · -- the file is still in use
      cases hclose
      replace hmany : 1 < (σ.ftable f).ref := hmany
      have hopen : ∀ i, held.count i + openOn ⟨(σ.ftable f).ref - 1, (σ.ftable f).ip⟩ i =
          held.count i + openOn (σ.ftable f) i := by
        intro i
        have hpos : (σ.ftable f).ref - 1 ≠ 0 := by omega
        have hpos' : (σ.ftable f).ref ≠ 0 := by omega
        simp [openOn, hpos, hpos']
      have href : (σ.ftable f).ref - 1 + 1 = (σ.ftable f).ref := by omega
      exact ⟨_, none, h.close hp hfd href hopen, rfl, rfl, rfl, rfl, rfl⟩
    · replace hzero : ¬(σ.ftable f).ref < 1 := hzero
      replace hmany : ¬1 < (σ.ftable f).ref := hmany
      have hone : (σ.ftable f).ref = 1 := by omega
      refine ⟨{ σ with ftable := update σ.ftable f ⟨0, none⟩ }.setProc p
        (some { x with ofile := update x.ofile fd none }), (σ.ftable f).ip,
        h.close hp hfd (by simp [hone]) (fun i => ?_), ?_, rfl, rfl, rfl, rfl⟩
      · cases hip : (σ.ftable f).ip with
        | none => simp [openOn, hip]
        | some =>
          rw [Option.elim_some, count_cons_eq]
          simp [openOn, hone, hip]
      · cases hip : (σ.ftable f).ip with
        | none | some =>
          simp only [setProc, hip, Option.some.injEq] at hclose
          exact hclose.symm

end

/-! ## `fork` and `exit` -/

/-- The loop of `fork` over the descriptors `fds`. -/
theorem foldl_filedup (x : Proc) (fds : List (Fin NOFILE)) (ftable : Fin NFILE → File)
    (k : Fin NFILE) : fds.foldl (fun ftable fd => filedup ftable (x.ofile fd)) ftable k =
      { ftable k with
        ref := (ftable k).ref + (fds.map fun fd => if x.ofile fd = some k then 1 else 0).sum } := by
  induction fds generalizing ftable with
  | nil => rfl
  | cons fd fds ih =>
    rw [List.foldl_cons, ih, List.map_cons, List.sum_cons]
    cases hfd : x.ofile fd with
    | none => simp [filedup]
    | some f =>
      by_cases hk : k = f
      · subst hk
        simp [filedup, Nat.add_assoc]
      · have hne : f ≠ k := Ne.symm hk
        simp [filedup, hk, hne]

theorem ftable_fork (σ : State) (x : Proc) (q : Fin NPROC) (k : Fin NFILE) : (σ.fork x q).ftable k =
      { σ.ftable k with ref := (σ.ftable k).ref + descriptors (some x) k } := by
  have hdesc : ((List.finRange NOFILE).map fun fd =>
      if x.ofile fd = some k then 1 else 0).sum = descriptors (some x) k :=
    (Fin.sum_univ_def _).symm
  rw [← hdesc]
  exact foldl_filedup x (List.finRange NOFILE) σ.ftable k

/-- The child has the descriptors and the current directory of its parent. -/
theorem Counts.fork {q : Fin NPROC} (h : Counts σ held) (hp : σ.procs p = some x)
    (hq : σ.procs q = none) : Counts (σ.fork x q) held := by
  have hle : ∀ k, descriptors (some x) k ≤ (σ.ftable k).ref :=
    fun k => hp ▸ h.descriptors_le p k
  refine ⟨fun i => ?_, fun k => ?_⟩
  · have hopens : opens (σ.fork x q) i = opens σ i := by
      refine Finset.sum_congr rfl fun k _ => ?_
      rw [ftable_fork]
      -- the files of the process have references already
      have hiff : (σ.ftable k).ref + descriptors (some x) k ≠ 0 ↔ (σ.ftable k).ref ≠ 0 := by
        have := hle k
        omega
      simp only [openOn, hiff]
    have hcwds := cwds_setProc σ q (some x) i
    rw [hq] at hcwds
    have hnone : atCwd none i = 0 := by simp [atCwd]
    have href : (σ.fork x q).ref i = σ.ref i + atCwd (some x) i := by
      show update σ.ref x.cwd (σ.ref x.cwd + 1) i = _
      by_cases hi : i = x.cwd
      · subst hi
        simp [atCwd]
      · simp [atCwd, hi, Ne.symm hi]
    have hcwds' : cwds (σ.fork x q) i = cwds (σ.setProc q (some x)) i := rfl
    have := h.ref_eq i
    omega
  · have hsum := sum_comp_update (descriptors · k) σ.procs q (some x)
    have hnone : descriptors none k = 0 := by simp [descriptors]
    rw [hq, hnone] at hsum
    have href : ((σ.fork x q).ftable k).ref = (σ.ftable k).ref + descriptors (some x) k := by
      rw [ftable_fork]
    have hprocs : ∑ r, descriptors ((σ.fork x q).procs r) k =
        ∑ r, descriptors (update σ.procs q (some x) r) k := rfl
    have := h.file_ref k
    omega

/-- A process without descriptors leaves its current directory. -/
theorem Counts.exit (h : Counts σ held) (hp : σ.procs p = some x) (hfd : ∀ fd, x.ofile fd = none) :
    Counts (σ.setProc p none) (x.cwd ::ₘ held) := by
  refine h.setProc (fun i => ?_) (fun k => ?_)
  · rw [hp, count_cons_eq]
    simp [atCwd]
  · rw [hp]
    simp [descriptors, hfd]

theorem iput_setProc (σ : State) (i : Inum) (p : Fin NPROC) (y : Option Proc) :
    (σ.iput i).setProc p y = (σ.setProc p y).iput i := by
  unfold State.iput reclaim
  have hcond : ((σ.setProc p y).valid i = true ∧ ((σ.setProc p y).nodes i).nlink = 0 ∧
      (σ.setProc p y).ref i = 1) = (σ.valid i = true ∧ (σ.nodes i).nlink = 0 ∧ σ.ref i = 1) := rfl
  simp only [hcond]
  split_ifs with h
  · rfl
  · rfl

end FileSystem.Names
