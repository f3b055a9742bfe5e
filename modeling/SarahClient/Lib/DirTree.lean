import Mathlib.Data.Finset.Insert

/-!
# Trees of directories

A directory is the list of names on the way to it from the root. A tree is closed under parents and has the root and the
working directory.

* `Comp`, `step`, `walk`: walking along the components of a path;
* `walk_append`, `walk_mono`: walks in parts, and in a larger tree;
* `DirTree.make`: a tree with one more directory.
-/

/-- A component of a path: `.` or nothing, `..`, or a name. -/
inductive Comp (N : Type)
  | stay
  | up
  | name (n : N)
  deriving DecidableEq

/-- Directories with their parents, and the one that relative paths start from. -/
structure DirTree (N : Type) where
  dirs : Finset (List N)
  cwd : List N
  root : [] ∈ dirs
  here : cwd ∈ dirs
  closed : ∀ loc ∈ dirs, loc.dropLast ∈ dirs

namespace DirTree

variable {N : Type}

/-- Where a component leads. -/
def step (loc : List N) : Comp N → List N
  | .stay => loc
  | .up => loc.dropLast
  | .name n => loc ++ [n]

theorem step_mem {tree : DirTree N} {loc : List N} {c : Comp N} (hloc : loc ∈ tree.dirs) (hc : ∀ n, c ≠ .name n) :
    step loc c ∈ tree.dirs := by
  cases c with
  | stay => exact hloc
  | up => exact tree.closed loc hloc
  | name n => exact absurd rfl (hc n)

variable [DecidableEq N]

/-- Along the components, from directory to directory. -/
def walk (tree : DirTree N) : List N → List (Comp N) → Option (List N)
  | loc, [] => some loc
  | loc, c :: cs => if step loc c ∈ tree.dirs then tree.walk (step loc c) cs else none

section Walk

variable {tree tree' : DirTree N} {loc : List N} {c : Comp N} {cs ds : List (Comp N)}

theorem walk_append (loc : List N) (cs ds : List (Comp N)) :
    tree.walk loc (cs ++ ds) = (tree.walk loc cs).bind fun loc => tree.walk loc ds := by
  induction cs generalizing loc with
  | nil => rfl
  | cons c cs ih =>
    rw [List.cons_append, walk, walk]
    split_ifs
    · exact ih _
    · rfl

theorem walk_eq_some {loc' : List N} (h : tree.walk loc cs = some loc') : loc' = cs.foldl step loc := by
  induction cs generalizing loc with
  | nil => exact (Option.some.inj h).symm
  | cons c cs ih =>
    rw [walk] at h
    split_ifs at h
    exact ih h

theorem walk_mem {loc' : List N} (hloc : loc ∈ tree.dirs) (h : tree.walk loc cs = some loc') : loc' ∈ tree.dirs := by
  induction cs generalizing loc with
  | nil => exact Option.some.inj h ▸ hloc
  | cons c cs ih =>
    rw [walk] at h
    split_ifs at h with hstep
    exact ih hstep h

theorem walk_mono (hsub : tree.dirs ⊆ tree'.dirs) {loc' : List N} (h : tree.walk loc cs = some loc') :
    tree'.walk loc cs = some loc' := by
  induction cs generalizing loc with
  | nil => exact h
  | cons c cs ih =>
    rw [walk] at h ⊢
    split_ifs at h with hstep
    rw [if_pos (hsub hstep)]
    exact ih h

theorem walk_stay (hloc : loc ∈ tree.dirs) (cs : List (Comp N)) : tree.walk loc (.stay :: cs) = tree.walk loc cs := by
  rw [walk, step, if_pos hloc]

end Walk

/-- The tree with the directory `n` in `loc`. -/
def make (tree : DirTree N) {loc : List N} (hloc : loc ∈ tree.dirs) (n : N) : DirTree N where
  dirs := insert (loc ++ [n]) tree.dirs
  cwd := tree.cwd
  root := Finset.mem_insert_of_mem tree.root
  here := Finset.mem_insert_of_mem tree.here
  closed := by
    intro l hl
    rcases Finset.mem_insert.mp hl with rfl | hl
    · rw [List.dropLast_concat]
      exact Finset.mem_insert_of_mem hloc
    · exact Finset.mem_insert_of_mem (tree.closed l hl)

end DirTree
