import SarahClient.CInt
import SarahClient.Lib.DirTree
import Mathlib.Data.List.GetD

/-!
# `sarah_mkdir` (`utils.c`)

The code works on the first 255 bytes of the path. A read in front of the buffer is `none`.

* `access`, `mkdir`: the system calls on a tree of directories; `allows` answers for what else `mkdir` depends on;
* `mkdirLoop`, `sarahMkdir`: the code;
* `made`, `makeAll`: the calls one after the other; `sarahMkdir_eq`;
* `MkdirDone`: what a success and a failure should mean;
* **`mkdirDone_iff`**: when they do.
-/

namespace Sarah.Mkdir

open List DirTree

/-- The name of a directory. -/
abbrev Name := List UInt8

/-- Which directories may be made. -/
abbrev Allows := List Name → Bool

/-! ## The code -/

/-- What the system makes of one component of a path. -/
def comp (c : List UInt8) : Comp Name :=
  if c = [] ∨ c = lit "." then .stay else if c = lit ".." then .up else .name c

/-- The components of a path. -/
def comps (path : List UInt8) : List (Comp Name) := (path.splitOn 47).map comp

/-- Where a path starts. -/
def start (cwd : List Name) (path : List UInt8) : List Name := if path.head? = some 47 then [] else cwd

/-- `access(path, F_OK) == 0` -/
def access (tree : DirTree Name) (path : List UInt8) : Bool :=
  path ≠ [] ∧ (tree.walk (start tree.cwd path) (comps path)).isSome

/-- `mkdir`, or `none` for -1. -/
def mkdir (allows : Allows) (tree : DirTree Name) (path : List UInt8) : Option (DirTree Name) :=
  let cs := ((path.splitOn 47).filter (· ≠ [])).map comp
  match cs.getLast? with
  | some (.name n) =>
    (tree.walk (start tree.cwd path) cs.dropLast).bind fun loc =>
      if h : loc ∈ tree.dirs ∧ loc ++ [n] ∉ tree.dirs ∧ allows (loc ++ [n]) = true then some (tree.make h.1 n) else none
  | _ => none

/-- The loop over the slashes, with `n` bytes left from `i` on. -/
def mkdirLoop (allows : Allows) (dirname : List UInt8) : ℕ → ℕ → DirTree Name → ℤ × DirTree Name
  | 0, _, tree => (0, tree)
  | n + 1, i, tree =>
    if dirname.getD i 0 ≠ 47 then mkdirLoop allows dirname n (i + 1) tree
    else if access tree (dirname.take i) then mkdirLoop allows dirname n (i + 1) tree
    else
      match mkdir allows tree (dirname.take i) with
      | none => (1, tree)
      | some tree => mkdirLoop allows dirname n (i + 1) tree

/-- `sarah_mkdir`; the loop starts behind the first byte. -/
def sarahMkdir (allows : Allows) (path : List UInt8) (tree : DirTree Name) : Option (ℤ × DirTree Name) :=
  let dirname := path.take 255
  match dirname.getLast? with
  | none => none
  | some last =>
    let r := mkdirLoop allows dirname (dirname.length - 1) 1 tree
    if r.1 ≠ 0 then some r
    else if last = 47 then some r
    -- process the path that did not start with /
    else if access r.2 dirname then some r
    else
      match mkdir allows r.2 dirname with
      | none => some (1, r.2)
      | some tree => some (0, tree)

/-! ## One call after the other -/

/-- The starts of a path that end before one of the `n` bytes from `i` on, a slash. -/
def slashes (path : List UInt8) : ℕ → ℕ → List (List UInt8)
  | 0, _ => []
  | n + 1, i => if path.getD i 0 ≠ 47 then slashes path n (i + 1) else path.take i :: slashes path n (i + 1)

/-- The directories of a path in the order in which they are made. -/
def made (path : List UInt8) : List (List UInt8) :=
  slashes path (path.length - 1) 1 ++ if path.getLast? = some 47 then [] else [path]

/-- The loop over the prefixes: what is not there is made. -/
def makeAll (allows : Allows) : List (List UInt8) → DirTree Name → ℤ × DirTree Name
  | [], tree => (0, tree)
  | p :: ps, tree =>
    if access tree p then makeAll allows ps tree
    else
      match mkdir allows tree p with
      | none => (1, tree)
      | some tree => makeAll allows ps tree

theorem mkdirLoop_eq (allows : Allows) (dirname : List UInt8) (n : ℕ) : ∀ (i : ℕ) (tree : DirTree Name),
    mkdirLoop allows dirname n i tree = makeAll allows (slashes dirname n i) tree := by
  induction n with
  | zero => exact fun _ _ => rfl
  | succ n ih =>
    intro i tree
    rw [mkdirLoop, slashes]
    split_ifs with hslash haccess
    · exact ih (i + 1) tree
    · rw [makeAll, if_pos haccess, ih]
    · rw [makeAll, if_neg haccess]
      cases mkdir allows tree (dirname.take i) with
      | none => rfl
      | some tree => exact ih (i + 1) tree

theorem makeAll_append (allows : Allows) (ps qs : List (List UInt8)) (tree : DirTree Name) :
    makeAll allows (ps ++ qs) tree =
      if (makeAll allows ps tree).1 ≠ 0 then
        makeAll allows ps tree else makeAll allows qs (makeAll allows ps tree).2 := by
  induction ps generalizing tree with
  | nil => rfl
  | cons p ps ih =>
    rw [cons_append, makeAll, makeAll]
    by_cases haccess : access tree p = true
    · rw [if_pos haccess, if_pos haccess]
      exact ih tree
    · rw [if_neg haccess, if_neg haccess]
      cases mkdir allows tree p with
      | none => rfl
      | some tree => exact ih tree

theorem sarahMkdir_eq (allows : Allows) {path : List UInt8} (hne : path ≠ []) (tree : DirTree Name) :
    sarahMkdir allows path tree = some (makeAll allows (made (path.take 255)) tree) := by
  have hdir : path.take 255 ≠ [] := by simp [hne]
  unfold sarahMkdir
  dsimp only
  generalize path.take 255 = dirname at hdir
  cases hlast : dirname.getLast? with
  | none => exact absurd (getLast?_eq_none_iff.mp hlast) hdir
  | some last =>
    have hmade : made dirname = slashes dirname (dirname.length - 1) 1 ++ if last = 47 then [] else [dirname] := by
      rw [made, hlast]
      simp only [Option.some_inj]
    rw [hmade, makeAll_append, ← mkdirLoop_eq]
    generalize mkdirLoop allows dirname (dirname.length - 1) 1 tree = r
    obtain ⟨code, tree'⟩ := r
    dsimp only
    by_cases hcode : code = 0
    · subst hcode
      rw [if_neg (not_not.mpr rfl), if_neg (not_not.mpr rfl)]
      split_ifs with hslash haccess
      · rfl
      · rw [makeAll, if_pos haccess]
        rfl
      · rw [makeAll, if_neg haccess]
        cases mkdir allows tree' dirname <;> rfl
    · rw [if_pos hcode, if_pos hcode]

/-! ## Where a path leads -/

/-- Where a path leads when all its directories are there. -/
def loc (cwd : List Name) (path : List UInt8) : List Name := (comps path).foldl step (start cwd path)

/-- A path that can be walked. -/
def Reach (tree : DirTree Name) (path : List UInt8) : Prop :=
  tree.walk (start tree.cwd path) (comps path) = some (loc tree.cwd path)

section Loc

variable {tree tree' : DirTree Name} {allows : Allows} {path : List UInt8}

theorem start_mem (tree : DirTree Name) (path : List UInt8) : start tree.cwd path ∈ tree.dirs := by
  unfold start
  split_ifs
  · exact tree.root
  · exact tree.here

theorem access_iff (hne : path ≠ []) : access tree path = true ↔ Reach tree path := by
  rw [access, decide_eq_true_iff, and_iff_right hne, Option.isSome_iff_exists]
  constructor
  · rintro ⟨l, hl⟩
    exact hl.trans (congrArg some (walk_eq_some hl))
  · exact fun h => ⟨_, h⟩

theorem Reach.mem (h : Reach tree path) : loc tree.cwd path ∈ tree.dirs := walk_mem (start_mem tree path) h

theorem Reach.mono (hsub : tree.dirs ⊆ tree'.dirs) (hcwd : tree'.cwd = tree.cwd) (h : Reach tree path) :
    Reach tree' path := by
  rw [Reach, hcwd]
  exact walk_mono hsub h

theorem comp_eq_name {c n : List UInt8} (h : comp c = .name n) : n = c ∧ c ≠ [] := by
  unfold comp at h
  split_ifs at h with h₁ h₂
  cases h
  exact ⟨rfl, fun hc => h₁ (.inl hc)⟩

theorem walk_filter {l : List Name} (hl : l ∈ tree.dirs) (cs : List (List UInt8)) :
    tree.walk l ((cs.filter (· ≠ [])).map comp) = tree.walk l (cs.map comp) := by
  induction cs generalizing l with
  | nil => rfl
  | cons c cs ih =>
    by_cases hc : c = []
    · subst hc
      rw [filter_cons_of_neg (by simp), map_cons, show comp [] = .stay from rfl, walk_stay hl, ih hl]
    · rw [filter_cons_of_pos (by simpa using hc), map_cons, map_cons, walk, walk]
      split_ifs with hstep
      · exact ih hstep
      · rfl

/-- The directory that a path is in can be walked to. -/
def ReachParent (tree : DirTree Name) (path : List UInt8) : Prop :=
  ∃ parts name parent, path.splitOn 47 = parts ++ [name] ∧
    tree.walk (start tree.cwd path) (parts.map comp) = some parent

theorem reachParent_of_starts (h : ∀ q, q ≠ [] → q ++ [47] <+: path → Reach tree q) : ReachParent tree path := by
  by_cases hslash : 47 ∈ path
  · obtain ⟨r, q, hsplit, hname⟩ := eq_append_cons_of_mem (mem_reverse.mpr hslash)
    have hpath : path = q.reverse ++ 47 :: r.reverse := by
      rw [← reverse_reverse path, hsplit, reverse_append, reverse_cons, append_assoc, singleton_append]
    have hname : 47 ∉ r.reverse := fun hmem => hname (mem_reverse.mp hmem)
    generalize q.reverse = q at hpath
    generalize r.reverse = name at hpath hname
    subst hpath
    have hparts : (q ++ 47 :: name).splitOn 47 = q.splitOn 47 ++ [name] := by
      rw [splitOn_append_cons_self, splitOn_eq_singleton hname]
    cases q with
    | nil => exact ⟨_, _, [], hparts, walk_stay tree.root []⟩
    | cons c q =>
      refine ⟨_, _, loc tree.cwd (c :: q), hparts, h (c :: q) (cons_ne_nil c q) ⟨name, ?_⟩⟩
      rw [append_assoc, singleton_append]
  · exact ⟨[], path, start tree.cwd path, splitOn_eq_singleton hslash, rfl⟩

section Parent

variable {parts : List (List UInt8)} {name : List UInt8} {parent : List Name}
    (hparts : path.splitOn 47 = parts ++ [name])
  (hwalk : tree.walk (start tree.cwd path) (parts.map comp) = some parent)
include hparts hwalk

theorem loc_eq_step : loc tree.cwd path = step parent (comp name) := by
  rw [loc, comps, hparts, map_append, foldl_append, ← walk_eq_some hwalk]
  rfl

theorem reach_iff_step : Reach tree path ↔ step parent (comp name) ∈ tree.dirs := by
  rw [Reach, loc_eq_step hparts hwalk, comps, hparts, map_append, walk_append, hwalk, Option.bind_some, map_singleton,
    walk]
  split_ifs with h
  · exact iff_of_true rfl h
  · exact iff_of_false (fun hreach => by cases hreach) h

theorem mkdir_of_missing (allows : Allows) (hmissing : step parent (comp name) ∉ tree.dirs) :
    (allows (step parent (comp name)) = true → ∃ tree', mkdir allows tree path = some tree' ∧ tree'.cwd = tree.cwd ∧
      tree'.dirs = insert (step parent (comp name)) tree.dirs) ∧
    (allows (step parent (comp name)) = false → mkdir allows tree path = none) := by
  have hparent : parent ∈ tree.dirs := walk_mem (start_mem tree path) hwalk
  obtain ⟨n, hn⟩ : ∃ n, comp name = .name n := by
    by_contra hnone
    exact hmissing (step_mem hparent fun n hn => hnone ⟨n, hn⟩)
  have hne : name ≠ [] := (comp_eq_name hn).2
  have hfilter : ((path.splitOn 47).filter (· ≠ [])).map comp = (parts.filter (· ≠ [])).map comp ++ [.name n] := by
    rw [hparts, filter_append, filter_cons_of_pos (by simpa using hne), filter_nil, map_append, map_singleton, hn]
  have hparentWalk : tree.walk (start tree.cwd path) ((parts.filter (· ≠ [])).map comp) = some parent := by
    rw [walk_filter (start_mem tree path), hwalk]
  rw [hn, step] at hmissing ⊢
  unfold mkdir
  simp only [hfilter, getLast?_concat, dropLast_concat, hparentWalk, Option.bind_some]
  constructor
  · intro hallows
    rw [dif_pos ⟨hparent, hmissing, hallows⟩]
    exact ⟨_, rfl, rfl, rfl⟩
  · intro hrefused
    rw [dif_neg fun h => by rw [hrefused] at h; exact absurd h.2.2 (by decide)]

end Parent

end Loc

/-! ## A run -/

/-- What `makeAll` does with the paths `ps`: it makes the directories of the first ones, `good`, up to one that is
missing and may not be made. -/
structure Ran (allows : Allows) (tree : DirTree Name) (ps good : List (List UInt8)) (r : ℤ × DirTree Name) : Prop where
  cwd : r.2.cwd = tree.cwd
  dirs : ∀ l, l ∈ r.2.dirs ↔ l ∈ tree.dirs ∨ ∃ p ∈ good, loc tree.cwd p = l
  reach : ∀ p ∈ good, Reach r.2 p
  allowed : ∀ p ∈ good, loc tree.cwd p ∈ tree.dirs ∨ allows (loc tree.cwd p) = true
  done : r.1 = 0 → good = ps
  refused : r.1 ≠ 0 → ∃ bad, good ++ [bad] <+: ps ∧ loc tree.cwd bad ∉ tree.dirs ∧ allows (loc tree.cwd bad) = false

section Run

variable {tree : DirTree Name} {allows : Allows} {path : List UInt8}

theorem Ran.subset {ps good : List (List UInt8)} {r : ℤ × DirTree Name} (h : Ran allows tree ps good r) :
    tree.dirs ⊆ r.2.dirs := fun l hl => (h.dirs l).mpr (.inl hl)

theorem ran_nil : Ran allows tree [] [] (makeAll allows [] tree) where
  cwd := rfl
  dirs := fun l => by simp [makeAll]
  reach := nofun
  allowed := nofun
  done := fun _ => rfl
  refused := fun h => absurd rfl h

theorem ran_single (allows : Allows) (hne : path ≠ []) (hparent : ReachParent tree path) :
    ∃ good, Ran allows tree [path] good (makeAll allows [path] tree) := by
  obtain ⟨parts, name, parent, hparts, hwalk⟩ := hparent
  have hloc := loc_eq_step hparts hwalk
  have hreach := reach_iff_step hparts hwalk
  rw [← hloc] at hreach
  by_cases hthere : Reach tree path
  · refine ⟨[path], ?_⟩
    rw [makeAll, if_pos ((access_iff hne).mpr hthere)]
    exact {
      cwd := rfl
      dirs := fun l => by
        simp only [makeAll, mem_singleton, exists_eq_left]
        exact ⟨.inl, fun h => h.elim id fun h => h ▸ hthere.mem⟩
      reach := fun p hp => mem_singleton.mp hp ▸ hthere
      allowed := fun p hp => .inl (mem_singleton.mp hp ▸ hthere.mem)
      done := fun _ => rfl
      refused := fun h => absurd rfl h }
  · have hmissing : loc tree.cwd path ∉ tree.dirs := fun h => hthere (hreach.mpr h)
    obtain ⟨hmake, hrefuse⟩ := mkdir_of_missing hparts hwalk allows (by rwa [← hloc])
    rw [← hloc] at hmake hrefuse
    rw [makeAll, if_neg fun h => hthere ((access_iff hne).mp h)]
    cases hallows : allows (loc tree.cwd path) with
    | true =>
      obtain ⟨tree', hmkdir, hcwd, hdirs⟩ := hmake hallows
      have hsub : tree.dirs ⊆ tree'.dirs := hdirs ▸ Finset.subset_insert _ _
      have hwalk' : tree'.walk (start tree'.cwd path) (parts.map comp) = some parent := hcwd ▸ walk_mono hsub hwalk
      have hreach' : Reach tree' path := by
        rw [reach_iff_step hparts hwalk', ← hloc, hdirs]
        exact Finset.mem_insert_self _ _
      refine ⟨[path], ?_⟩
      rw [hmkdir]
      exact {
        cwd := hcwd
        dirs := fun l => by
          simp only [makeAll, hdirs, Finset.mem_insert, mem_singleton, exists_eq_left]
          exact ⟨fun h => h.elim (fun h => .inr h.symm) .inl, fun h => h.elim .inr fun h => .inl h.symm⟩
        reach := fun p hp => mem_singleton.mp hp ▸ hreach'
        allowed := fun p hp => .inr (mem_singleton.mp hp ▸ hallows)
        done := fun _ => rfl
        refused := fun h => absurd rfl h }
    | false =>
      refine ⟨[], ?_⟩
      rw [hrefuse hallows]
      exact {
        cwd := rfl
        dirs := fun l => by simp
        reach := nofun
        allowed := nofun
        done := fun h => absurd h (show (1 : ℤ) ≠ 0 by decide)
        refused := fun _ => ⟨path, prefix_rfl, hmissing, hallows⟩ }

theorem ran_append {ps qs good : List (List UInt8)} (hps : Ran allows tree ps good (makeAll allows ps tree))
    (hqs : (makeAll allows ps tree).1 = 0 → ∃ good, Ran allows (makeAll allows ps tree).2 qs good
      (makeAll allows qs (makeAll allows ps tree).2)) :
    ∃ good, Ran allows tree (ps ++ qs) good (makeAll allows (ps ++ qs) tree) := by
  rw [makeAll_append]
  split_ifs with hcode
  · obtain ⟨bad, hbad, hmissing, hrefused⟩ := hps.refused hcode
    exact ⟨good, { hps with
      done := fun h => absurd h hcode
      refused := fun _ => ⟨bad, hbad.trans (prefix_append ps qs), hmissing, hrefused⟩ }⟩
  · rw [not_not] at hcode
    obtain rfl := hps.done hcode
    obtain ⟨good', h⟩ := hqs hcode
    have hcwd := hps.cwd
    refine ⟨good ++ good', ?_⟩
    exact {
      cwd := h.cwd.trans hcwd
      dirs := fun l => by
        rw [h.dirs, hps.dirs, hcwd]
        simp only [mem_append, or_and_right, exists_or, or_assoc]
      reach := fun p hp => by
        rcases mem_append.mp hp with hp | hp
        · exact (hps.reach p hp).mono h.subset h.cwd
        · exact h.reach p hp
      allowed := fun p hp => by
        rcases mem_append.mp hp with hp | hp
        · exact hps.allowed p hp
        · have hor := h.allowed p hp
          rw [hcwd, hps.dirs] at hor
          rcases hor with (hl | ⟨q, hq, heq⟩) | hallows
          · exact .inl hl
          · exact heq ▸ hps.allowed q hq
          · exact .inr hallows
      done := fun h0 => by rw [h.done h0]
      refused := fun hne => by
        obtain ⟨bad, hbad, hmissing, hrefused⟩ := h.refused hne
        rw [hcwd] at hmissing hrefused
        refine ⟨bad, ?_, fun hl => hmissing (hps.subset hl), hrefused⟩
        rw [append_assoc]
        exact (prefix_append_right_inj good).mpr hbad }

/-- The starts of a path before a slash, as far as `i`, can be walked to. -/
def ReachBelow (tree : DirTree Name) (path : List UInt8) (i : ℕ) : Prop :=
  ∀ q, q ≠ [] → q ++ [47] <+: path → q.length < i → Reach tree q

theorem ReachBelow.parent {i : ℕ} (h : ReachBelow tree path i) : ReachParent tree (path.take i) :=
  reachParent_of_starts fun q hq hpre => by
    have hlen := hpre.length_le
    rw [length_append, length_singleton] at hlen
    have hstart := take_prefix i path
    exact h q hq (hpre.trans hstart) (by have := length_take_le i path; omega)

/-- A start of length `i` before a slash is the one that the loop makes at `i`. -/
theorem eq_take_of_slash {q : List UInt8} (h : q ++ [47] <+: path) : q = path.take q.length ∧
    path.getD q.length 0 = 47 := by
  obtain ⟨r, rfl⟩ := h
  rw [append_assoc, take_left]
  refine ⟨rfl, ?_⟩
  rw [getD_eq_getElem?_getD, getElem?_append_right le_rfl, Nat.sub_self]
  rfl

theorem ran_slashes (allows : Allows) (path : List UInt8) (n : ℕ) : ∀ (i : ℕ) (tree : DirTree Name), 0 < i →
    i + n ≤ path.length → ReachBelow tree path i →
    ∃ good, Ran allows tree (slashes path n i) good (makeAll allows (slashes path n i) tree) ∧
      ((makeAll allows (slashes path n i) tree).1 = 0 →
        ReachBelow (makeAll allows (slashes path n i) tree).2 path (i + n)) := by
  induction n with
  | zero => exact fun i tree _ _ h => ⟨[], ran_nil, fun _ => h⟩
  | succ n ih =>
    intro i tree hi hlen h
    rw [slashes]
    split_ifs with hslash
    · have hnext : ReachBelow tree path (i + 1) := fun q hq hpre hlt => by
        refine h q hq hpre (lt_of_le_of_ne (Nat.le_of_lt_succ hlt) fun heq => hslash ?_)
        rw [← heq, (eq_take_of_slash hpre).2]
      rw [show i + (n + 1) = i + 1 + n by omega]
      exact ih (i + 1) tree (Nat.succ_pos i) (by omega) hnext
    · have hne : path.take i ≠ [] := ne_nil_of_length_pos (by rw [length_take]; omega)
      obtain ⟨good, hone⟩ := ran_single allows hne h.parent
      -- behind the call the path before this slash can be walked to as well
      have hnext : (makeAll allows [path.take i] tree).1 = 0 →
          ReachBelow (makeAll allows [path.take i] tree).2 path (i + 1) := fun hcode q hq hpre hlt => by
        rcases Nat.lt_succ_iff_lt_or_eq.mp hlt with hlt | heq
        · exact (h q hq hpre hlt).mono hone.subset hone.cwd
        · refine hone.reach q ?_
          rw [hone.done hcode, mem_singleton, ← heq, ← (eq_take_of_slash hpre).1]
      have hrest : (makeAll allows [path.take i] tree).1 = 0 → ∃ good, Ran allows (makeAll allows [path.take i] tree).2
          (slashes path n (i + 1)) good (makeAll allows (slashes path n (i + 1))
            (makeAll allows [path.take i] tree).2) ∧
          ((makeAll allows (slashes path n (i + 1)) (makeAll allows [path.take i] tree).2).1 = 0 → ReachBelow
            (makeAll allows (slashes path n (i + 1)) (makeAll allows [path.take i] tree).2).2 path (i + 1 + n)) :=
        fun hcode => ih (i + 1) _ (Nat.succ_pos i) (by omega) (hnext hcode)
      have hsplit : path.take i :: slashes path n (i + 1) = [path.take i] ++ slashes path n (i + 1) := rfl
      obtain ⟨good', hall⟩ := ran_append hone fun hcode => (hrest hcode).imp fun _ h => h.1
      refine ⟨good', hsplit ▸ hall, fun hcode => ?_⟩
      rw [hsplit, makeAll_append] at hcode ⊢
      split_ifs at hcode ⊢ with hfirst
      · exact absurd hcode hfirst
      · obtain ⟨_, -, hbelow⟩ := hrest (not_not.mp hfirst)
        rw [show i + (n + 1) = i + 1 + n by omega]
        exact hbelow hcode

end Run

/-! ## The property -/

/-- Every directory prefix of a path, and the path. -/
def dirPrefixes (path : List UInt8) : List (List UInt8) := slashes path (path.length - 1) 1 ++ [path]

/-- What a failure may leave: the directories of the first ones of the paths. -/
structure Created (tree tree' : DirTree Name) (ps : List (List UInt8)) : Prop where
  keeps : tree.dirs ⊆ tree'.dirs
  there : ∀ p ∈ ps, Reach tree' p
  only : ∀ l ∈ tree'.dirs, l ∉ tree.dirs → ∃ p ∈ ps, loc tree.cwd p = l

/-- **The property** of a run: after a success the path and its directory prefixes are there; a failure has made only
missing prefixes, in order from the root. -/
def MkdirDone (path : List UInt8) (tree : DirTree Name) (run : Option (ℤ × DirTree Name)) : Prop :=
  ∃ r, run = some r ∧ (r.1 = 0 → ∀ p ∈ dirPrefixes path, Reach r.2 p) ∧
    (r.1 ≠ 0 → ∃ k, Created tree r.2 ((dirPrefixes path).take k))

section Prefixes

variable {tree : DirTree Name} {allows : Allows} {path q : List UInt8}

theorem prefix_slash_iff {i : ℕ} (hi : i < path.length) :
    q ++ [47] <+: path ∧ q.length = i ↔ q = path.take i ∧ path.getD i 0 = 47 := by
  constructor
  · rintro ⟨hpre, rfl⟩
    exact eq_take_of_slash hpre
  · rintro ⟨rfl, hslash⟩
    rw [getD_eq_getElem _ _ hi] at hslash
    refine ⟨?_, length_take_of_le hi.le⟩
    rw [← hslash, ← take_succ_eq_append_getElem hi]
    exact take_prefix _ _

theorem mem_slashes (n : ℕ) : ∀ {i : ℕ}, i + n ≤ path.length →
    (q ∈ slashes path n i ↔ q ++ [47] <+: path ∧ i ≤ q.length ∧ q.length < i + n) := by
  induction n with
  | zero => exact fun _ => iff_of_false not_mem_nil fun h => by omega
  | succ n ih =>
    intro i hlen
    have hat := prefix_slash_iff (q := q) (show i < path.length by omega)
    rw [slashes]
    split_ifs with hslash
    · rw [ih (by omega)]
      constructor
      · exact fun h => ⟨h.1, by omega, by omega⟩
      · rintro ⟨hpre, hle, hlt⟩
        have hne : q.length ≠ i := fun heq => hslash (hat.mp ⟨hpre, heq⟩).2
        exact ⟨hpre, by omega, by omega⟩
    · rw [mem_cons, ih (by omega)]
      rw [not_not] at hslash
      constructor
      · rintro (rfl | h)
        · have htake := hat.mpr ⟨rfl, hslash⟩
          exact ⟨htake.1, htake.2.ge, by omega⟩
        · exact ⟨h.1, by omega, by omega⟩
      · rintro ⟨hpre, hle, hlt⟩
        rcases Nat.lt_or_ge i q.length with hgt | hge
        · exact .inr ⟨hpre, hgt, by omega⟩
        · exact .inl (hat.mp ⟨hpre, by omega⟩).1

theorem mem_slashes_iff (hne : path ≠ []) :
    q ∈ slashes path (path.length - 1) 1 ↔ q ≠ [] ∧ q ++ [47] <+: path := by
  have hpos := length_pos_of_ne_nil hne
  rw [mem_slashes _ (by omega), and_comm, ← length_pos_iff]
  constructor
  · exact fun h => ⟨h.1.1, h.2⟩
  · intro h
    have hlen := h.2.length_le
    rw [length_append, length_singleton] at hlen
    exact ⟨⟨h.1, by omega⟩, h.2⟩

theorem slashes_add (n k : ℕ) : ∀ i : ℕ, slashes path (n + k) i = slashes path n i ++ slashes path k (i + n) := by
  induction n with
  | zero => exact fun i => by rw [Nat.zero_add]; rfl
  | succ n ih =>
    intro i
    rw [Nat.add_right_comm, slashes, slashes, ih, show i + 1 + n = i + (n + 1) by omega]
    split_ifs
    · rfl
    · rfl

theorem slashes_take (m n : ℕ) : ∀ {i : ℕ}, i + n ≤ m → slashes (path.take m) n i = slashes path n i := by
  induction n with
  | zero => exact fun _ => rfl
  | succ n ih =>
    intro i hle
    have hget : (path.take m).getD i 0 = path.getD i 0 := by
      rw [getD_eq_getElem?_getD, getD_eq_getElem?_getD, getElem?_take_of_lt (by omega)]
    rw [slashes, slashes, hget, ih (by omega), take_take, Nat.min_eq_left (by omega)]

/-- The directories that are made before the last one are prefixes of the path in their order. -/
theorem slashes_start (path : List UInt8) :
    slashes (path.take 255) ((path.take 255).length - 1) 1 <+: dirPrefixes path := by
  have hlen : (path.take 255).length ≤ path.length := length_take_le' 255 path
  obtain ⟨k, hk⟩ := Nat.exists_eq_add_of_le (Nat.sub_le_sub_right hlen 1)
  have hshort := length_take_le 255 path
  rcases Nat.eq_zero_or_pos (path.take 255).length with hzero | hpos
  · rw [hzero]
    exact nil_prefix
  · rw [slashes_take 255 _ (by omega), dirPrefixes, hk, slashes_add, append_assoc]
    exact prefix_append _ _

/-- All prefixes of a path can be walked to, when they lead to directories. -/
theorem reach_dirPrefixes_iff (hne : path ≠ []) :
    (∀ p ∈ dirPrefixes path, Reach tree p) ↔ ∀ p ∈ dirPrefixes path, loc tree.cwd p ∈ tree.dirs := by
  constructor
  · exact fun h p hp => (h p hp).mem
  · intro h p
    induction hn : p.length using Nat.strong_induction_on generalizing p with
    | _ n ih =>
      intro hp
      have hpre : p <+: path := by
        rcases mem_append.mp hp with hp | hp
        · exact (prefix_append p [47]).trans ((mem_slashes_iff hne).mp hp).2
        · rw [mem_singleton.mp hp]
      have hstarts : ∀ q, q ≠ [] → q ++ [47] <+: p → Reach tree q := fun q hq hqp => by
        have hlen := hqp.length_le
        rw [length_append, length_singleton] at hlen
        exact ih q.length (by omega) q rfl (mem_append_left _ ((mem_slashes_iff hne).mpr ⟨hq, hqp.trans hpre⟩))
      obtain ⟨parts, name, parent, hparts, hwalk⟩ := reachParent_of_starts hstarts
      rw [reach_iff_step hparts hwalk, ← loc_eq_step hparts hwalk]
      exact h p hp

theorem ran_made (allows : Allows) (hne : path ≠ []) (tree : DirTree Name) :
    ∃ good, Ran allows tree (made path) good (makeAll allows (made path) tree) := by
  have hpos := length_pos_of_ne_nil hne
  obtain ⟨good, hgood, hbelow⟩ := ran_slashes allows path (path.length - 1) 1 tree Nat.one_pos
    (by omega) fun q hq _ hlt => absurd hlt (by have := length_pos_of_ne_nil hq; omega)
  rw [show 1 + (path.length - 1) = path.length by omega] at hbelow
  unfold made
  refine ran_append hgood fun hcode => ?_
  split_ifs
  · exact ⟨[], ran_nil⟩
  · refine ran_single allows hne ?_
    have hparent := (hbelow hcode).parent
    rwa [take_length] at hparent

end Prefixes

/-! ## When the property holds -/

section Done

variable {tree : DirTree Name} {allows : Allows} {path : List UInt8}

theorem loc_append_slash {q : List UInt8} (hq : q ≠ []) (cwd : List Name) : loc cwd (q ++ [47]) = loc cwd q := by
  have hstart : start cwd (q ++ [47]) = start cwd q := by
    cases q with
    | nil => exact absurd rfl hq
    | cons c q => rfl
  rw [loc, comps, hstart, splitOn_append_cons_self, splitOn_nil, map_append, foldl_append]
  rfl

theorem made_covers (hne : path ≠ []) : ∀ p ∈ dirPrefixes path,
    loc tree.cwd p ∈ tree.dirs ∨ ∃ q ∈ made path, loc tree.cwd q = loc tree.cwd p := by
  intro p hp
  rcases mem_append.mp hp with hp | hp
  · exact .inr ⟨p, mem_append_left _ hp, rfl⟩
  · obtain rfl := mem_singleton.mp hp
    by_cases hslash : p.getLast? = some 47
    · obtain ⟨q, rfl⟩ := getLast?_eq_some_iff.mp hslash
      by_cases hq : q = []
      · subst hq
        exact .inl tree.root
      · exact .inr ⟨q, mem_append_left _ ((mem_slashes_iff hne).mpr ⟨hq, prefix_rfl⟩), (loc_append_slash hq _).symm⟩
    · refine .inr ⟨p, mem_append_right _ ?_, rfl⟩
      rw [if_neg hslash]
      exact mem_singleton_self p

theorem created_of_refused {good : List (List UInt8)} {r : ℤ × DirTree Name}
    (hran : Ran allows tree (made (path.take 255)) good r) (hcode : r.1 ≠ 0) :
    ∃ k, Created tree r.2 ((dirPrefixes path).take k) := by
  obtain ⟨bad, hbad, -⟩ := hran.refused hcode
  have hgood : good <+: slashes (path.take 255) ((path.take 255).length - 1) 1 := by
    have hshort := hbad.length_le
    have hlast : (if (path.take 255).getLast? = some 47 then [] else [path.take 255]).length ≤ 1 := by
      split_ifs <;> simp
    rw [made] at hbad hshort
    rw [length_append, length_append, length_singleton] at hshort
    exact prefix_of_prefix_length_le ((prefix_append good [bad]).trans hbad) (prefix_append _ _) (by omega)
  obtain ⟨rest, hrest⟩ := hgood.trans (slashes_start path)
  refine ⟨good.length, ?_⟩
  rw [← hrest, take_left]
  exact {
    keeps := hran.subset
    there := hran.reach
    only := fun l hl hnot => ((hran.dirs l).mp hl).resolve_left hnot }

/-- **When a success means that the path is there**: the path fits the buffer, or one of its missing prefixes in the
buffer may not be made, or it leads only to directories that are there and to those along its first 255 bytes. -/
theorem mkdirDone_iff (allows : Allows) (hne : path ≠ []) (tree : DirTree Name) :
    MkdirDone path tree (sarahMkdir allows path tree) ↔
      path.length ≤ 255 ∨
      (∃ p ∈ made (path.take 255), loc tree.cwd p ∉ tree.dirs ∧ allows (loc tree.cwd p) = false) ∨
      ∀ p ∈ dirPrefixes path, loc tree.cwd p ∈ tree.dirs ∨
        ∃ q ∈ made (path.take 255), loc tree.cwd q = loc tree.cwd p := by
  have htake : path.take 255 ≠ [] := by simp [hne]
  obtain ⟨good, hran⟩ := ran_made allows htake tree
  have hrun := sarahMkdir_eq allows hne tree
  generalize makeAll allows (made (path.take 255)) tree = r at hran hrun
  unfold MkdirDone
  rw [hrun]
  simp only [Option.some_inj, exists_eq_left']
  by_cases hcode : r.1 = 0
  · obtain rfl := hran.done hcode
    have hiff : (∀ p ∈ dirPrefixes path, Reach r.2 p) ↔ ∀ p ∈ dirPrefixes path,
        loc tree.cwd p ∈ tree.dirs ∨ ∃ q ∈ made (path.take 255), loc tree.cwd q = loc tree.cwd p := by
      rw [reach_dirPrefixes_iff hne, hran.cwd]
      simp only [hran.dirs]
    have hallowed : ¬ ∃ p ∈ made (path.take 255), loc tree.cwd p ∉ tree.dirs ∧ allows (loc tree.cwd p) = false := by
      rintro ⟨p, hp, hmissing, hrefused⟩
      have hor := hran.allowed p hp
      rw [hrefused] at hor
      exact hor.elim hmissing (by decide)
    rw [hiff, or_iff_right hallowed]
    constructor
    · exact fun h => .inr (h.1 hcode)
    · rintro (hfits | h)
      · rw [take_of_length_le hfits]
        exact ⟨fun _ => made_covers hne, fun h => absurd hcode h⟩
      · exact ⟨fun _ => h, fun h => absurd hcode h⟩
  · obtain ⟨bad, hbad, hmissing, hrefused⟩ := hran.refused hcode
    have hmem : bad ∈ made (path.take 255) := hbad.subset (mem_append_right _ (mem_singleton_self bad))
    exact iff_of_true ⟨fun h => absurd h hcode, fun _ => created_of_refused hran hcode⟩
      (.inr (.inl ⟨bad, hmem, hmissing, hrefused⟩))

end Done

/-- The tree of the root alone. -/
def bareTree : DirTree Name where
  dirs := {[]}
  cwd := []
  root := Finset.mem_singleton_self []
  here := Finset.mem_singleton_self []
  closed := by decide

/-- Two directories in a bare tree. -/
theorem mkdirDone_iff_short : MkdirDone (lit "/a/b") bareTree (sarahMkdir (fun _ => true) (lit "/a/b") bareTree) :=
  (mkdirDone_iff _ (by decide) _).mpr (.inl (by decide))

/-- A name of 254 bytes, and a directory in it: the slash is the last byte that the buffer holds. -/
def longPath : List UInt8 := replicate 254 97 ++ 47 :: lit "bc"

/-- The run makes the first directory only, and returns 0. -/
theorem not_mkdirDone : ¬ ∀ (allows : Allows) (path : List UInt8), path ≠ [] → ∀ tree : DirTree Name,
    MkdirDone path tree (sarahMkdir allows path tree) := by
  intro hall
  have hne : longPath ≠ [] := by decide
  obtain ⟨r, hrun, hsuccess, -⟩ := hall (fun _ => true) longPath hne bareTree
  have hmade : made (longPath.take 255) = [replicate 254 97] := by decide +kernel
  rw [sarahMkdir_eq _ hne, Option.some_inj] at hrun
  obtain ⟨good, hran⟩ := ran_made (fun _ => true) (by decide : longPath.take 255 ≠ []) bareTree
  rw [hrun] at hran
  have hcode : r.1 = 0 := by
    by_contra hcode
    obtain ⟨bad, -, -, hrefused⟩ := hran.refused hcode
    cases hrefused
  have hreach := (hsuccess hcode longPath (mem_append_right _ (mem_singleton_self _))).mem
  rw [hran.done hcode, hmade] at hran
  have hcomps : ∀ p : List UInt8, 47 ∉ p → comps p = [comp p] := fun p hp => by
    rw [comps, splitOn_eq_singleton hp]
    rfl
  have hloc : loc [] longPath = [replicate 254 97, lit "bc"] := by
    rw [loc, comps, longPath, splitOn_append_cons_self, splitOn_eq_singleton (by decide),
      splitOn_eq_singleton (by decide)]
    decide +kernel
  have hname : loc [] (replicate 254 97) = [replicate 254 97] := by
    rw [loc, hcomps _ (by decide)]
    decide +kernel
  rw [hran.cwd, hran.dirs, show bareTree.cwd = [] from rfl, hloc] at hreach
  rcases hreach with hreach | ⟨p, hp, hreach⟩
  · revert hreach
    decide +kernel
  · rw [mem_singleton.mp hp, hname] at hreach
    revert hreach
    decide +kernel

end Sarah.Mkdir
