import SarahClient.Link.Refine

/-!
# Failed allocations and the destruction of a list

Every call may come with an allocator of its own, so any allocation of a run may fail.

* `linkCall`: one call with its allocator; `LinkOp.Served`: it gets the node that it asks for;
* `linkStep_of_failure`: a failed allocation still counts as an element;
* **`addOnFailure_runs`**: the runs that keep the counter, and the calls that leave the list alone in them;
* `celLinkDestroy`: freed nodes are gone from the heap; **`celLinkDestroy_iff`**: only an empty list is destroyed
  cleanly.
-/

namespace Sarah

open Heap DNode Machine

variable {V : Type} {malloc : Malloc (DNode V)} {link : Link V} {vs : List V}

/-- The node that the call asks for is there, and the counter has room for it; a new list gets its sentinels. -/
def LinkOp.Served (link : Link V) (c : Malloc (DNode V) × LinkOp V) : Prop :=
  (c.2 = .init → c.1.Total) ∧ (c.2.Allocates link → (c.1.pick link.heap).isSome = true ∧ link.size + 1 < 2 ^ 32)

/-! ## A failed allocation -/

theorem addBefore_of_failure (hfail : malloc.pick link.heap = none) {n p : ℕ} (hp : prevOf link.heap n = some p)
    (v : V) :
    addBefore malloc link n v = some { link with size := u32 (link.size + 1) } := by
  have hnode : createLinkNode malloc link.heap v p n = none := by rw [createLinkNode, alloc, hfail, Option.map_none]
  rw [addBefore, insertBefore, hp, Option.bind_some, hnode]
  rfl

theorem prevOf_place {h : Heap (DNode V)} {head tail : ℕ} {xs ys : List (ℕ × V)} (hl : DList h head tail (xs ++ ys))
    {n : ℕ} {Y : List ℕ} (hn : ys.map Prod.fst ++ [tail] = n :: Y) : ∃ p, prevOf h n = some p := by
  obtain ⟨X, p, -, -, hp, -⟩ := DList.exists_neighbours head tail xs ys
  have hchain := hl.chain
  rw [DList.split hp hn] at hchain
  exact ⟨p, (List.isChain_append_cons_cons.mp hchain).2.1.2⟩

theorem addBefore_tail_of_failure (h : link.Holds vs) (hfail : malloc.pick link.heap = none) (v : V) :
    addBefore malloc link link.tail v = some { link with size := u32 (link.size + 1) } := by
  obtain ⟨ns, hl, -, -⟩ := h
  have hl' : DList link.heap link.head link.tail (ns ++ []) := by
    rw [List.append_nil]
    exact hl.1
  obtain ⟨p, hp⟩ := prevOf_place hl' rfl
  exact addBefore_of_failure hfail hp v

theorem celLinkAddFirst_of_failure (h : link.Holds vs) (hfail : malloc.pick link.heap = none) (v : V) :
    celLinkAddFirst malloc link v = some { link with size := u32 (link.size + 1) } := by
  obtain ⟨ns, hl, -, -⟩ := h
  obtain ⟨-, -, n, Y, -, hn⟩ := DList.exists_neighbours link.head link.tail ([] : List (ℕ × V)) ns
  obtain ⟨p, hp⟩ := prevOf_place (show DList link.heap link.head link.tail ([] ++ ns) from hl.1) hn
  have hchain := hl.1.chain
  rw [hn, List.isChain_cons_cons] at hchain
  rw [celLinkAddFirst, hchain.1.1, Option.bind_some, addBefore_of_failure hfail hp]

theorem celLinkInsert_of_failure (h : link.Holds vs) (hfail : malloc.pick link.heap = none) {idx : ℕ}
    (hidx : idx < link.size) (v : V) :
    celLinkInsert malloc link idx v = some { link with size := u32 (link.size + 1) } := by
  rw [h.size] at hidx
  obtain ⟨ns, hl, rfl, hlt⟩ := h
  rw [List.length_map] at hidx
  obtain ⟨hg, hne⟩ := getNode_of_lt hl hlt hidx
  have hl' : DList link.heap link.head link.tail (ns.take idx ++ ns.drop idx) := by
    rw [List.take_append_drop]
    exact hl.1
  obtain ⟨p, hp⟩ := prevOf_place hl' (n := ns[idx].1) (by rw [List.drop_eq_getElem_cons hidx]; rfl)
  rw [celLinkInsert, hg, Option.bind_some, if_pos hne, addBefore_of_failure hfail hp]

theorem celLinkInsert_of_le (h : link.Holds vs) {idx : ℕ} (hidx : link.size ≤ idx) (v : V) :
    celLinkInsert malloc link idx v = some link := by
  rw [h.size] at hidx
  obtain ⟨ns, hl, rfl, hlt⟩ := h
  rw [List.length_map] at hidx
  rw [celLinkInsert, getNode_of_le hl hlt hidx, Option.bind_some, if_neg (by simp)]

section Steps

variable [Zero V] [DecidableEq V]

/-- One call, with the allocator that serves it. -/
def linkCall (link : Link V) (c : Malloc (DNode V) × LinkOp V) : Option (Link V × LinkOut V) := linkStep c.1 link c.2

/-- A failed allocation adds nothing to the chain and one to the counter. -/
theorem linkStep_of_failure (h : link.Holds vs) (hfail : malloc.pick link.heap = none) {o : LinkOp V}
    (hadds : o.adds = true) (halloc : o.Allocates link) :
    linkStep malloc link o = some ({ link with size := u32 (link.size + 1) }, .void) := by
  cases o with
  | add v | addLast v =>
    have hadd := addBefore_tail_of_failure h hfail v
    simp only [linkStep, celLinkAdd, celLinkAddLast, hadd, Option.map_some]
  | addFirst v => rw [linkStep, celLinkAddFirst_of_failure h hfail, Option.map_some]
  | insert idx v => rw [linkStep, celLinkInsert_of_failure h hfail halloc, Option.map_some]
  | _ => cases hadds

/-- A call that adds and asks for no node is an insertion behind the end. -/
theorem linkStep_of_not_allocates (h : link.Holds vs) {o : LinkOp V} (hadds : o.adds = true)
    (halloc : ¬ o.Allocates link) :
    linkStep malloc link o = some (link, .void) := by
  cases o with
  | add v | addLast v | addFirst v => exact absurd rfl halloc
  | insert idx v => rw [linkStep, celLinkInsert_of_le h (not_lt.mp halloc), Option.map_some]
  | _ => cases hadds

/-- **After a failed allocation** the list is as it was exactly for the calls that asked for nothing. -/
theorem unchanged_iff (h : link.Holds vs) (hfail : malloc.pick link.heap = none) {o : LinkOp V}
    (hadds : o.adds = true) :
    linkStep malloc link o = some (link, .void) ↔ ¬ o.Allocates link := by
  constructor
  · intro hsame halloc
    rw [linkStep_of_failure h hfail hadds halloc] at hsame
    have hsize : u32 (link.size + 1) = link.size := congrArg (fun r => r.1.size) (Option.some.inj hsame)
    unfold u32 at hsize
    omega
  · exact linkStep_of_not_allocates h hadds

/-! ## Runs -/

theorem linkStep_orBump (hpick : (malloc.pick link.heap).isSome = true) {o : LinkOp V} (hinit : o ≠ .init) :
    linkStep malloc link o = linkStep malloc.orBump link o := by
  have halloc : ∀ c, alloc malloc link.heap c = alloc malloc.orBump link.heap c := by
    intro c
    rw [alloc, alloc, Malloc.orBump_pick hpick]
  have hadd : ∀ n v, addBefore malloc link n v = addBefore malloc.orBump link n v := by
    intro n v
    simp only [addBefore, insertBefore, createLinkNode, halloc]
  cases o with
  | init => exact absurd rfl hinit
  | add v | addLast v | addFirst v | insert idx v =>
    simp only [linkStep, celLinkAdd, celLinkAddFirst, celLinkAddLast, celLinkInsert, hadd]
  | _ => rfl

theorem linkStep_of_adds_false {o : LinkOp V} (hadds : o.adds = false) (hinit : o ≠ .init)
    (malloc' : Malloc (DNode V)) :
    linkStep malloc link o = linkStep malloc' link o := by
  cases o with
  | init => exact absurd rfl hinit
  | add v | addLast v | addFirst v | insert idx v => cases hadds
  | _ => rfl

theorem linkCall_refines (link : Link V) (vs : List V) (c : Malloc (DNode V) × LinkOp V) (h : link.Holds vs)
    (hserved : LinkOp.Served link c) :
    ∃ l, linkCall link c = some (l, (listStep vs c.2).2) ∧ l.Holds (listStep vs c.2).1 := by
  obtain ⟨malloc, o⟩ := c
  obtain ⟨htotal, hnode⟩ := hserved
  by_cases hinit : o = .init
  · exact linkStep_refines (htotal hinit) link vs o h fun hadds => by
      rw [hinit] at hadds
      cases hadds
  cases hadds : o.adds with
  | false =>
    rw [linkCall, linkStep_of_adds_false hadds hinit malloc.orBump]
    exact linkStep_refines malloc.orBump_total link vs o h fun ha => (hnode ha).2
  | true =>
    by_cases halloc : o.Allocates link
    · obtain ⟨hpick, hroom⟩ := hnode halloc
      rw [linkCall, linkStep_orBump hpick hinit]
      exact linkStep_refines malloc.orBump_total link vs o h fun _ => hroom
    · have hsame : listStep vs o = (vs, .void) := by
        cases o with
        | insert idx v =>
          rw [listStep, if_neg]
          rw [← h.size]
          exact halloc
        | add v | addLast v | addFirst v => exact absurd rfl halloc
        | _ => cases hadds
      rw [linkCall, linkStep_of_not_allocates h hadds halloc, hsame]
      exact ⟨link, rfl, h⟩

/-- Allocators that never fail serve every run of fewer than `2 ^ 32` calls. -/
theorem served_of_total : ∀ (calls : List (Malloc (DNode V) × LinkOp V)) (link : Link V) (vs : List V), link.Holds vs →
    (∀ c ∈ calls, c.1.Total) → vs.length + calls.length < 2 ^ 32 → Guarded linkCall LinkOp.Served link calls
  | [], link, _, _, _, _ => guarded_nil link
  | c :: calls, link, vs, h, htotal, hlen => by
    rw [List.length_cons] at hlen
    have hserved : LinkOp.Served link c := by
      refine ⟨fun _ => htotal c List.mem_cons_self, fun _ => ⟨?_, ?_⟩⟩
      · obtain ⟨a, ha⟩ := htotal c List.mem_cons_self link.heap
        rw [ha]
        rfl
      · rw [h.size]
        omega
    obtain ⟨l, hstep, hl⟩ := linkCall_refines link vs c h hserved
    have hle := listStep_length_le vs c.2
    exact guarded_cons hserved hstep
      (served_of_total calls l _ hl (fun c' hc => htotal c' (List.mem_cons_of_mem c hc)) (by omega))

/-- **Adding without memory.** As long as every node that a run asks for is there, the counter is the number of the
nodes, both chains are whole and no call leaves them; and in every state of such a run, a call without memory leaves
the list as it was exactly when it asks for no node, which is an insertion behind the end. -/
theorem addOnFailure_runs (link₀ : Link V) (malloc₀ : Malloc (DNode V)) (calls : List (Malloc (DNode V) × LinkOp V))
    (hserved : Guarded linkCall LinkOp.Served link₀ ((malloc₀, .init) :: calls)) :
    ∃ link outs vs, exec linkCall link₀ ((malloc₀, .init) :: calls) = some (link, outs) ∧ link.Holds vs ∧
      ∀ (malloc : Malloc (DNode V)) (o : LinkOp V), o.adds = true → malloc.pick link.heap = none →
        (linkStep malloc link o = some (link, .void) ↔ ∃ idx v, o = .insert idx v ∧ link.size ≤ idx) := by
  obtain ⟨l, hinit, hl⟩ := celLinkInit_spec (hserved.1.1 rfl) link₀
  have hstep : linkCall link₀ (malloc₀, .init) = some (l, .int 1) := by
    rw [linkCall, linkStep, hinit]
    rfl
  obtain ⟨link, hrun, hholds⟩ :=
    @exec_refines (Link V) (List V) _ _ linkCall (fun vs c => listStep vs c.2) LinkOp.Served
    Link.Holds linkCall_refines calls l [] ⟨[], hl, rfl, Nat.two_pow_pos 32⟩ (hserved.2 _ hstep)
  refine ⟨link, _, _, by rw [exec_cons_of_step hstep, hrun]; rfl, hholds, fun malloc o hadds hfail => ?_⟩
  rw [unchanged_iff hholds hfail hadds]
  constructor
  · intro halloc
    cases o with
    | insert idx v => exact ⟨idx, v, rfl, not_lt.mp halloc⟩
    | add v | addLast v | addFirst v => exact absurd rfl halloc
    | _ => cases hadds
  · rintro ⟨idx, v, rfl, hle⟩
    exact not_lt.mpr hle

end Steps

/-- An element at the front and one at the back, and then an allocator that has no node left. -/
theorem addOnFailure_runs_two : ∃ (link : Link ℕ) (outs : List (LinkOut ℕ)) (vs : List ℕ),
    exec linkCall ⟨∅, 0, 0, 0⟩ [(Malloc.bump, .init), (Malloc.bump, .addFirst 7), (Malloc.bump, .addLast 9)] =
      some (link, outs) ∧ link.Holds vs ∧ ∀ o : LinkOp ℕ, o.adds = true →
        (linkStep Malloc.never link o = some (link, .void) ↔ ∃ idx v, o = .insert idx v ∧ link.size ≤ idx) := by
  obtain ⟨l, hinit, hl⟩ := celLinkInit_spec (V := ℕ) Malloc.bump_total ⟨∅, 0, 0, 0⟩
  have hstep : linkCall (⟨∅, 0, 0, 0⟩ : Link ℕ) (Malloc.bump, .init) = some (l, .int 1) := by
    rw [linkCall, linkStep, hinit]
    rfl
  have hserved : Guarded linkCall LinkOp.Served (⟨∅, 0, 0, 0⟩ : Link ℕ)
      [(Malloc.bump, .init), (Malloc.bump, .addFirst 7), (Malloc.bump, .addLast 9)] := by
    refine guarded_cons ⟨fun _ => Malloc.bump_total, fun ha => by cases ha⟩ hstep
      (served_of_total _ l [] ⟨[], hl, rfl, Nat.two_pow_pos 32⟩ (fun c hc => ?_) (by decide))
    rcases List.mem_pair.mp hc with rfl | rfl
    · exact Malloc.bump_total
    · exact Malloc.bump_total
  obtain ⟨link, outs, vs, hrun, hholds, hfails⟩ := addOnFailure_runs (⟨∅, 0, 0, 0⟩ : Link ℕ) Malloc.bump
    [(Malloc.bump, .addFirst 7), (Malloc.bump, .addLast 9)] hserved
  exact ⟨link, outs, vs, hrun, hholds, fun o hadds => hfails Malloc.never o hadds rfl⟩

/-- The first element of an empty list, without memory for it: the counter says 1. -/
theorem not_addOnFailure : ¬ ∀ (link : Link ℕ) (vs : List ℕ), link.Holds vs →
    ∀ (malloc : Malloc (DNode ℕ)) (o : LinkOp ℕ),
    o.adds = true → malloc.pick link.heap = none → linkStep malloc link o = some (link, .void) := by
  intro hall
  obtain ⟨link, -, hl⟩ := celLinkInit_spec (V := ℕ) Malloc.bump_total ⟨∅, 0, 0, 0⟩
  have hholds : link.Holds [] := ⟨[], hl, rfl, Nat.two_pow_pos 32⟩
  have hsame := hall link [] hholds Malloc.never (.add 7) rfl rfl
  rw [unchanged_iff hholds rfl rfl] at hsame
  exact hsame rfl

/-! ## Destruction -/

/-- The loop of `cel_link_destroy` from `node`, with the values that the callback receives; `relfunc` says whether
there is one. The step `node = node->_next` comes after `cel_free( node )`. -/
def destroyLoop (relfunc : Bool) (tail : ℕ) : ℕ → Heap (DNode V) → ℕ → Option (Heap (DNode V) × List V)
  | 0, _, _ => none
  | fuel + 1, h, node =>
    if node = tail then some (h, [])
    else
      (if relfunc then (valOf h node).map ([·]) else some []).bind fun called =>
        (h.free node).bind fun h => (nextOf h node).bind fun node =>
          (destroyLoop relfunc tail fuel h node).map fun r => (r.1, called ++ r.2)

/-- `cel_link_destroy`; the live cells bound the length of the loop. -/
def celLinkDestroy (relfunc : Bool) (link : Link V) : Option (Link V × List V) :=
  (nextOf link.heap link.head).bind fun node =>
    (destroyLoop relfunc link.tail (link.heap.keys.card + 1) link.heap node).bind fun r =>
      (r.1.free link.head).bind fun h => (h.free link.tail).map fun h =>
        ({ link with heap := h, head := 0, tail := 0 }, r.2)

/-- **The property of a destruction**: no access fails, the callback receives the values in order, and the nodes and the
sentinels are gone, nothing else. A second `free` of a cell would fail. -/
def CleanDestroy (relfunc : Bool) (link : Link V) (ns : List (ℕ × V)) : Prop :=
  ∃ l, celLinkDestroy relfunc link = some (l, if relfunc then ns.map Prod.snd else []) ∧
    ∀ a, l.heap.read a = if a ∈ link.head :: (ns.map Prod.fst ++ [link.tail]) then none else link.heap.read a

theorem destroyLoop_of_ne (relfunc : Bool) {h : Heap (DNode V)} {tail node : ℕ} (hne : node ≠ tail) :
    ∀ fuel, destroyLoop relfunc tail fuel h node = none
  | 0 => rfl
  | fuel + 1 => by
    rw [destroyLoop, if_neg hne, Option.bind_eq_none_iff]
    intro called _
    rw [Option.bind_eq_none_iff]
    intro h' hfree
    unfold Heap.free at hfree
    split_ifs at hfree
    cases hfree
    rw [nextOf, read_erase, if_pos rfl]
    rfl

theorem celLinkDestroy_cons {x : ℕ × V} {ns : List (ℕ × V)} (hl : DList link.heap link.head link.tail (x :: ns))
    (relfunc : Bool) : celLinkDestroy relfunc link = none := by
  have hchain := hl.chain
  have hnodup := hl.nodup
  rw [List.map_cons, List.cons_append] at hchain hnodup
  have hnext : nextOf link.heap link.head = some x.1 := (List.isChain_cons_cons.mp hchain).1.1
  have hne : x.1 ≠ link.tail := fun he =>
    (List.nodup_cons.mp (List.nodup_cons.mp hnodup).2).1 (by rw [he]; exact List.mem_append_right _ List.mem_cons_self)
  rw [celLinkDestroy, hnext, Option.bind_some, destroyLoop_of_ne relfunc hne, Option.bind_none]

theorem celLinkDestroy_nil (hl : DList link.heap link.head link.tail ([] : List (ℕ × V))) (relfunc : Bool) :
    CleanDestroy relfunc link [] := by
  have hlinked : Linked link.heap link.head link.tail := List.isChain_pair.mp hl.chain
  obtain ⟨c, hc, -⟩ := read_of_nextOf hlinked.1
  obtain ⟨d, hd, -⟩ := read_of_prevOf hlinked.2
  have hne : link.tail ≠ link.head := fun he =>
    (List.nodup_cons.mp hl.nodup).1 (by rw [← he]; exact List.mem_singleton_self _)
  obtain ⟨h₁, hf₁, hr₁⟩ := free_spec hc
  obtain ⟨h₂, hf₂, hr₂⟩ := free_spec (h := h₁) (a := link.tail) (c := d) (by rw [hr₁, if_neg hne, hd])
  refine ⟨{ link with heap := h₂, head := 0, tail := 0 }, ?_, fun a => ?_⟩
  · rw [celLinkDestroy, hlinked.1, Option.bind_some, destroyLoop, if_pos rfl, Option.bind_some]
    simp only [hf₁, hf₂, Option.bind_some, Option.map_some, List.map_nil, ite_self]
  · show h₂.read a = _
    rw [hr₂, hr₁, List.map_nil, List.nil_append]
    by_cases ht : a = link.tail
    · rw [if_pos ht, if_pos (by simp [ht])]
    · by_cases hh : a = link.head
      · rw [if_neg ht, if_pos hh, if_pos (by simp [hh])]
      · rw [if_neg ht, if_neg hh, if_neg (by simp [ht, hh])]

/-- **Destruction** is clean for the empty list only. -/
theorem celLinkDestroy_iff {ns : List (ℕ × V)} (hl : DList link.heap link.head link.tail ns) (relfunc : Bool) :
    CleanDestroy relfunc link ns ↔ ns = [] := by
  cases ns with
  | nil => exact iff_of_true (celLinkDestroy_nil hl relfunc) rfl
  | cons x ns =>
    refine iff_of_false ?_ (List.cons_ne_nil x ns)
    rintro ⟨l, hrun, -⟩
    rw [celLinkDestroy_cons hl relfunc] at hrun
    cases hrun

/-- A new list. -/
theorem celLinkDestroy_iff_new : ∃ link : Link ℕ, celLinkInit Malloc.bump (⟨∅, 0, 0, 0⟩ : Link ℕ) = some (1, link) ∧
    CleanDestroy true link [] := by
  obtain ⟨link, hinit, hl⟩ := celLinkInit_spec (V := ℕ) Malloc.bump_total ⟨∅, 0, 0, 0⟩
  exact ⟨link, hinit, (celLinkDestroy_iff hl.1 true).mpr rfl⟩

/-- A list of one element: the loop reads the successor out of the freed node. -/
theorem not_celLinkDestroy : ¬ ∀ (link : Link ℕ) (ns : List (ℕ × ℕ)), DList link.heap link.head link.tail ns →
    ∀ relfunc, CleanDestroy relfunc link ns := by
  intro hall
  obtain ⟨link, -, hl⟩ := celLinkInit_spec (V := ℕ) Malloc.bump_total ⟨∅, 0, 0, 0⟩
  obtain ⟨o, l, -, hl'⟩ := addBefore_spec Malloc.bump_total (show link.Nodes ([] ++ []) from hl) rfl 7
  obtain ⟨l', hrun, -⟩ := hall l _ hl'.1 true
  have hstuck := celLinkDestroy_cons (show DList l.heap l.head l.tail ((o, 7) :: []) from hl'.1) true
  rw [hstuck] at hrun
  cases hrun

end Sarah
