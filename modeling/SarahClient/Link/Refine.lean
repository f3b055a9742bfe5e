import SarahClient.Link.Model

/-!
# The linked list refines a list

* `insertBefore_spec`, `removeNode_spec`, `replaceValue_spec`: the three ways to change the chain;
* `getNode_spec`, `searchObj_spec`: the two ways to find a node;
* `celLinkInsert_holds`, `celLinkRemove_holds`, …: each function on a list that holds given values;
* `listStep`: the abstract operation on a list;
* **`linkStep_refines`**: one call refines one abstract operation;
* **`link_refines_list`**: every run does, while the counter does not wrap.
-/

namespace Sarah

open Heap DNode Machine

variable {V : Type}

/-- The list holds the nodes `ns`; the counter is 32 bits wide. -/
def Link.Nodes (link : Link V) (ns : List (ℕ × V)) : Prop :=
  DList link.heap link.head link.tail ns ∧ link.size = u32 ns.length

/-! ## Changing the chain -/

section Adding

variable {malloc : Malloc (DNode V)} (hmalloc : malloc.Total)
include hmalloc

theorem celLinkInit_spec [Zero V] (link : Link V) : ∃ l, celLinkInit malloc link = some (1, l) ∧ l.Nodes [] := by
  obtain ⟨t, h₁, ht, ht₀, -, hr₁⟩ := alloc_spec hmalloc link.heap (⟨0, 0, 0⟩ : DNode V)
  obtain ⟨p, h₂, hp, hp₀, hpf, hr₂⟩ := alloc_spec hmalloc h₁ (⟨0, 0, t⟩ : DNode V)
  have hne : t ≠ p := by
    rintro rfl
    rw [hr₁, if_pos rfl] at hpf
    cases hpf
  have htail : prevOf h₂ t = some 0 := by
    rw [prevOf, hr₂, if_neg hne, hr₁, if_pos rfl]
    rfl
  obtain ⟨h₃, hs, hprev, hnext, -⟩ := setPrev_spec htail p
  refine ⟨⟨h₃, 0, p, t⟩, ?_, ⟨?_, ?_, ?_⟩, rfl⟩
  · simp only [celLinkInit, createLinkNode, ht, hp, hs, Option.map_some]
  · refine List.isChain_pair.mpr ⟨?_, ?_⟩
    · show nextOf h₃ p = some t
      rw [hnext, nextOf, hr₂, if_pos rfl]
      rfl
    · show prevOf h₃ t = some p
      rw [hprev, if_pos rfl]
  · simpa using Ne.symm hne
  · simp

theorem insertBefore_spec {h : Heap (DNode V)} {head tail : ℕ} {xs ys : List (ℕ × V)}
    (hl : DList h head tail (xs ++ ys)) {n : ℕ} {Y : List ℕ} (hn : ys.map Prod.fst ++ [tail] = n :: Y) (v : V) :
    ∃ o h', insertBefore malloc h n v = some h' ∧ DList h' head tail (xs ++ (o, v) :: ys) := by
  obtain ⟨X, p, -, -, hp, -⟩ := DList.exists_neighbours head tail xs ys
  have hchain := hl.chain
  rw [DList.split hp hn] at hchain
  have hpn := (List.isChain_append_cons_cons.mp hchain).2.1
  obtain ⟨o, h₁, ho, -, hof, hr⟩ := alloc_spec hmalloc h (⟨v, p, n⟩ : DNode V)
  have hfresh : ∀ b, (h.read b).isSome → b ≠ o := by
    rintro b hb rfl
    rw [hof] at hb
    cases hb
  have hlive : ∀ b ∈ head :: ((xs ++ ys).map Prod.fst ++ [tail]), (h.read b).isSome := hl.live
  have hpo : p ≠ o := hfresh p (hlive p (by rw [DList.split hp hn]; simp))
  have hno : n ≠ o := hfresh n (hlive n (by rw [DList.split hp hn]; simp))
  -- the three writes: the new node, the successor of `p`, the predecessor of `n`
  have hnext₁ := field_modify next hr
  have hprev₁ := field_modify prev hr
  have hval₁ := field_modify value hr
  obtain ⟨h₂, hs₂, hnext₂, hprev₂, hval₂⟩ := setNext_spec (h := h₁) (a := p) (y := n)
    (by rw [nextOf, hnext₁, if_neg hpo]; exact hpn.1) o
  obtain ⟨h₃, hs₃, hprev₃, hnext₃, hval₃⟩ := setPrev_spec (h := h₂) (a := n) (y := p)
    (by rw [hprev₂, prevOf, hprev₁, if_neg hno]; exact hpn.2) o
  refine ⟨o, h₃, ?_, ?_⟩
  · have ho₁ : prevOf h₁ o = some p := by rw [prevOf, hprev₁, if_pos rfl]
    have ho₂ : nextOf h₂ o = some n := by rw [hnext₂, if_neg (Ne.symm hpo), nextOf, hnext₁, if_pos rfl]
    simp only [insertBefore, createLinkNode, hpn.2, ho, ho₁, hs₂, ho₂, hs₃, Option.bind_some]
  · refine hl.insert hp hn (fun hmem => hfresh o (hlive o hmem) rfl) (fun b => ?_) (fun b => ?_) (fun b => ?_)
    · rw [hnext₃, hnext₂, nextOf, hnext₁]
      rfl
    · rw [hprev₃, hprev₂, prevOf, hprev₁]
      rfl
    · rw [hval₃, hval₂, valOf, hval₁]
      rfl

theorem addBefore_spec {link : Link V} {xs ys : List (ℕ × V)} (hl : link.Nodes (xs ++ ys)) {n : ℕ} {Y : List ℕ}
    (hn : ys.map Prod.fst ++ [link.tail] = n :: Y) (v : V) :
    ∃ o l, addBefore malloc link n v = some l ∧ l.Nodes (xs ++ (o, v) :: ys) := by
  obtain ⟨o, h', hi, hl'⟩ := insertBefore_spec hmalloc hl.1 hn v
  refine ⟨o, { link with heap := h', size := u32 (link.size + 1) }, ?_, hl', ?_⟩
  · rw [addBefore, hi, Option.map_some]
  · rw [hl.2]
    simp only [u32, List.length_append, List.length_cons]
    omega

end Adding

theorem removeNode_spec {link : Link V} {xs ys : List (ℕ × V)} {o : ℕ} {v : V}
    (hl : link.Nodes (xs ++ (o, v) :: ys)) :
    ∃ l, removeNode link o = some (v, l) ∧ l.Nodes (xs ++ ys) := by
  obtain ⟨X, p, n, Y, hp, hn⟩ := DList.exists_neighbours link.head link.tail xs ys
  have hchain := hl.1.chain
  have hnodup := hl.1.nodup
  rw [DList.split_node o v hp hn] at hchain hnodup
  obtain ⟨-, hpo, hon⟩ := List.isChain_append_cons_cons.mp hchain
  obtain ⟨hon, -⟩ := List.isChain_cons_cons.mp hon
  simp only [List.nodup_append, List.nodup_cons, List.mem_cons, not_or] at hnodup
  obtain ⟨-, ⟨⟨hpo', hpn', -⟩, ⟨hon', -⟩, -⟩, -⟩ := hnodup
  have hv := hl.1.value (o, v) (by simp)
  obtain ⟨c, hc, rfl⟩ := read_of_valOf hv
  have hcn : c.next = n := by simpa [nextOf, hc] using hon.1
  have hcp : c.prev = p := by simpa [prevOf, hc] using hpo.2
  obtain ⟨h₁, hs₁, hnext₁, hprev₁, hval₁⟩ := setNext_spec hpo.1 n
  obtain ⟨h₂, hs₂, hprev₂, hnext₂, hval₂⟩ := setPrev_spec (h := h₁) (a := n) (y := o) (by rw [hprev₁]; exact hon.2) p
  obtain ⟨c₂, hc₂, -⟩ := read_of_valOf (h := h₂) (a := o) (v := c.value) (by rw [hval₂, hval₁]; exact hv)
  obtain ⟨h₃, hf, hr₃⟩ := free_spec hc₂
  refine ⟨{ link with heap := h₃, size := u32 (link.size + (2 ^ 32 - 1)) }, ?_, ?_, ?_⟩
  · have ho : ∃ d, h₁.read o = some d ∧ d.next = n ∧ d.prev = p := by
      have h₄ : nextOf h₁ o = some n := by rw [hnext₁, if_neg (Ne.symm hpo')]; exact hon.1
      have h₅ : prevOf h₁ o = some p := by rw [hprev₁]; exact hpo.2
      obtain ⟨d, hd, hdn⟩ := read_of_nextOf h₄
      exact ⟨d, hd, hdn, by simpa [prevOf, hd] using h₅⟩
    obtain ⟨d, hd, hdn, hdp⟩ := ho
    simp only [removeNode, celRemoveNode, hv, hc, hcp, hcn, hs₁, hd, hdn, hdp, hs₂, hf, Option.bind_some,
      Option.map_some]
  · refine hl.1.remove hp hn (fun b hb => ?_) (fun b hb => ?_) (fun b hb => ?_)
    · rw [nextOf, hr₃, if_neg hb, ← nextOf, hnext₂, hnext₁]
    · rw [prevOf, hr₃, if_neg hb, ← prevOf, hprev₂, hprev₁]
    · rw [valOf, hr₃, if_neg hb, ← valOf, hval₂, hval₁]
  · rw [hl.2]
    simp only [u32, List.length_append, List.length_cons]
    omega

theorem replaceValue_spec {link : Link V} {xs ys : List (ℕ × V)} {o : ℕ} {v : V}
    (hl : link.Nodes (xs ++ (o, v) :: ys)) (w : V) :
    ∃ l, replaceValue link o w = some (v, l) ∧ l.Nodes (xs ++ (o, w) :: ys) := by
  have hv := hl.1.value (o, v) (by simp)
  obtain ⟨h', hs, hval, hnext, hprev⟩ := setVal_spec hv w
  refine ⟨{ link with heap := h' }, ?_, hl.1.set hnext hprev hval, ?_⟩
  · simp only [replaceValue, hv, hs, Option.bind_some, Option.map_some]
  · simpa using hl.2

/-! ## Finding a node -/

theorem split_at {α : Type} {l : List α} {idx : ℕ} (h : idx < l.length) :
    l = l.take idx ++ l[idx] :: l.drop (idx + 1) := by
  rw [← List.drop_eq_getElem_cons h, List.take_append_drop]

theorem getNode_spec {link : Link V} {ns : List (ℕ × V)} (hl : link.Nodes ns) (hlt : ns.length < 2 ^ 32)
    (idx : ℕ) : getNode link idx = some ((ns.map Prod.fst)[idx]?.getD 0) := by
  have hsize : link.size = ns.length := by rw [hl.2, u32_of_lt hlt]
  unfold getNode
  rw [hsize]
  split_ifs with h₁ h₂
  · rw [List.getElem?_eq_none (by simpa using h₁)]
    rfl
  · rw [hl.1.walk_prev (by omega), List.getElem?_reverse (by simp; omega)]
    have hi : (link.head :: (ns.map Prod.fst ++ [link.tail])).length - 1 - (ns.length - idx) = idx + 1 := by
      simp only [List.length_cons, List.length_append, List.length_map, List.length_nil]
      omega
    rw [hi, List.getElem?_cons_succ, List.getElem?_append_left (by simp; omega),
      List.getElem?_eq_getElem (by simp; omega)]
    rfl
  · rw [hl.1.walk_next (by omega), List.getElem?_cons_succ, List.getElem?_append_left (by simp; omega),
      List.getElem?_eq_getElem (by simp; omega)]
    rfl

theorem getNode_of_lt {link : Link V} {ns : List (ℕ × V)} (hl : link.Nodes ns) (hlt : ns.length < 2 ^ 32)
    {idx : ℕ} (hidx : idx < ns.length) : getNode link idx = some ns[idx].1 ∧ ns[idx].1 ≠ 0 := by
  constructor
  · rw [getNode_spec hl hlt, List.getElem?_map, List.getElem?_eq_getElem hidx]
    rfl
  · obtain ⟨c, hc, -⟩ := read_of_valOf (hl.1.value ns[idx] (List.getElem_mem hidx))
    exact ne_zero_of_read hc

theorem getNode_of_le {link : Link V} {ns : List (ℕ × V)} (hl : link.Nodes ns) (hlt : ns.length < 2 ^ 32)
    {idx : ℕ} (hidx : ns.length ≤ idx) : getNode link idx = some 0 := by
  rw [getNode_spec hl hlt, List.getElem?_eq_none (by simpa using hidx)]
  rfl

section Searching

variable [DecidableEq V] (value : V) (comp : V → V → ℤ)

theorem findObj_spec {h : Heap (DNode V)} {tail : ℕ} : ∀ (ns : List (ℕ × V)) (n : ℕ) (Y : List ℕ) (fuel : ℕ),
    ns.map Prod.fst ++ [tail] = n :: Y → (n :: Y).IsChain (Linked h) → (n :: Y).Nodup →
    (∀ x ∈ ns, valOf h x.1 = some x.2) → ns.length < fuel →
    findObj h tail value comp fuel n = some (((ns.find? fun x => isObj value comp x.2).map Prod.fst).getD tail)
  | _, _, _, 0, _, _, _, _, hf => by omega
  | [], n, Y, fuel + 1, hn, _, _, _, _ => by
    rw [List.map_nil, List.nil_append, List.cons_eq_cons] at hn
    rw [findObj, if_pos hn.1.symm]
    rfl
  | x :: ns, n, Y, fuel + 1, hn, hc, hnd, hv, hf => by
    rw [List.map_cons, List.cons_append, List.cons_eq_cons] at hn
    obtain ⟨rfl, rfl⟩ := hn
    obtain ⟨m, Z, hm⟩ := List.exists_cons_of_ne_nil (List.append_ne_nil_of_right_ne_nil (ns.map Prod.fst)
      (List.cons_ne_nil tail []))
    have hne : x.1 ≠ tail := fun e => (List.nodup_cons.mp hnd).1 (by rw [e]; simp)
    obtain ⟨c, hc₁, hc₂⟩ := read_of_valOf (hv x (List.mem_cons_self ..))
    rw [findObj, if_neg hne, hc₁, Option.bind_some, hc₂, List.find?_cons]
    rw [hm] at hc hnd
    rw [List.isChain_cons_cons] at hc
    cases hp : isObj value comp x.2 with
    | true => rfl
    | false =>
      have hnext : c.next = m := by simpa [nextOf, hc₁] using hc.1.1
      rw [if_neg (by simp), hnext]
      exact findObj_spec ns m Z fuel hm hc.2 (List.nodup_cons.mp hnd).2
        (fun y hy => hv y (List.mem_cons_of_mem _ hy)) (by simp at hf; omega)

theorem searchObj_spec {link : Link V} {ns : List (ℕ × V)} (hl : link.Nodes ns) :
    searchObj link value comp =
      some (((ns.find? fun x => isObj value comp x.2).map Prod.fst).getD link.tail) := by
  obtain ⟨-, -, n, Y, -, hn⟩ := DList.exists_neighbours link.head link.tail ([] : List (ℕ × V)) ns
  have hchain := hl.1.chain
  have hnodup := hl.1.nodup
  rw [hn] at hchain hnodup
  rw [List.isChain_cons_cons] at hchain
  rw [searchObj, hchain.1.1, Option.bind_some]
  exact findObj_spec value comp ns n Y _ hn hchain.2 (List.nodup_cons.mp hnodup).2 hl.1.value
    (Nat.lt_succ_of_le hl.1.length_le_card)

/-- A search either fails everywhere or splits the list at its first match. -/
theorem searchObj_cases {link : Link V} {ns : List (ℕ × V)} (hl : link.Nodes ns) :
    (searchObj link value comp = some link.tail ∧ ∀ v ∈ ns.map Prod.snd, isObj value comp v = false) ∨
      ∃ xs o v ys, ns = xs ++ (o, v) :: ys ∧ searchObj link value comp = some o ∧ o ≠ link.tail ∧
        isObj value comp v = true ∧ ∀ w ∈ xs.map Prod.snd, isObj value comp w = false := by
  rw [searchObj_spec value comp hl]
  cases hf : ns.find? fun x => isObj value comp x.2 with
  | none =>
    refine .inl ⟨rfl, fun v hv => ?_⟩
    obtain ⟨x, hx, rfl⟩ := List.mem_map.mp hv
    simpa using List.find?_eq_none.mp hf x hx
  | some x =>
    obtain ⟨hp, xs, ys, rfl, hxs⟩ := List.find?_eq_some_iff_append.mp hf
    refine .inr ⟨xs, x.1, x.2, ys, rfl, rfl, ?_, hp, fun w hw => ?_⟩
    · have hnd := (List.nodup_cons.mp hl.1.nodup).2
      rw [List.nodup_append] at hnd
      exact hnd.2.2 x.1 (by simp) link.tail (by simp)
    · obtain ⟨y, hy, rfl⟩ := List.mem_map.mp hw
      simpa using hxs y hy

end Searching

/-! ## The refinement -/

/-- The list holds the values `vs`, fewer than `2 ^ 32`. -/
def Link.Holds (link : Link V) (vs : List V) : Prop :=
  ∃ ns, link.Nodes ns ∧ vs = ns.map Prod.snd ∧ ns.length < 2 ^ 32

theorem addBefore_holds {malloc : Malloc (DNode V)} (hmalloc : malloc.Total) {link : Link V} {xs ys : List (ℕ × V)}
    (hl : link.Nodes (xs ++ ys)) {n : ℕ} {Y : List ℕ} (hn : ys.map Prod.fst ++ [link.tail] = n :: Y) (v : V)
    (hfit : (xs ++ ys).length + 1 < 2 ^ 32) :
    ∃ l, addBefore malloc link n v = some l ∧ l.Holds (xs.map Prod.snd ++ v :: ys.map Prod.snd) := by
  obtain ⟨o, l, h, hl'⟩ := addBefore_spec hmalloc hl hn v
  refine ⟨l, h, xs ++ (o, v) :: ys, hl', by simp, ?_⟩
  rw [List.length_append] at hfit ⊢
  simpa [Nat.add_assoc] using hfit

theorem removeNode_holds {link : Link V} {xs ys : List (ℕ × V)} {x : ℕ × V}
    (hl : link.Nodes (xs ++ x :: ys)) (hlt : (xs ++ x :: ys).length < 2 ^ 32) :
    ∃ l, removeNode link x.1 = some (x.2, l) ∧ l.Holds (xs.map Prod.snd ++ ys.map Prod.snd) := by
  obtain ⟨l, h, hl'⟩ := removeNode_spec hl
  refine ⟨l, h, xs ++ ys, hl', by simp, ?_⟩
  simp only [List.length_append, List.length_cons] at hlt ⊢
  omega

theorem replaceValue_holds {link : Link V} {xs ys : List (ℕ × V)} {x : ℕ × V}
    (hl : link.Nodes (xs ++ x :: ys)) (hlt : (xs ++ x :: ys).length < 2 ^ 32) (w : V) :
    ∃ l, replaceValue link x.1 w = some (x.2, l) ∧ l.Holds (xs.map Prod.snd ++ w :: ys.map Prod.snd) := by
  obtain ⟨l, h, hl'⟩ := replaceValue_spec hl w
  exact ⟨l, h, xs ++ (x.1, w) :: ys, hl', by simp, by simpa using hlt⟩

/-- Replace the first element that satisfies `p`. -/
def replaceFirst (p : V → Bool) (w : V) : List V → List V
  | [] => []
  | v :: l => if p v then w :: l else v :: replaceFirst p w l

theorem eraseP_split {p : V → Bool} {xs ys : List V} {v : V} (hp : p v = true) (hxs : ∀ w ∈ xs, p w = false) :
    (xs ++ v :: ys).eraseP p = xs ++ ys := by
  rw [List.eraseP_append_right _ (by simpa using hxs), List.eraseP_cons_of_pos hp]

theorem find?_split {p : V → Bool} {xs ys : List V} {v : V} (hp : p v = true) (hxs : ∀ w ∈ xs, p w = false) :
    (xs ++ v :: ys).find? p = some v :=
  List.find?_eq_some_iff_append.mpr ⟨hp, xs, ys, rfl, by simpa using hxs⟩

theorem replaceFirst_split {p : V → Bool} {ys : List V} {v : V} (w : V) (hp : p v = true) : ∀ {xs : List V},
    (∀ w ∈ xs, p w = false) → replaceFirst p w (xs ++ v :: ys) = xs ++ w :: ys
  | [], _ => by rw [List.nil_append, replaceFirst, if_pos hp, List.nil_append]
  | x :: xs, hxs => by
    rw [List.cons_append, replaceFirst, if_neg (by simp [hxs x (List.mem_cons_self ..)]),
      replaceFirst_split w hp fun y hy => hxs y (List.mem_cons_of_mem _ hy), List.cons_append]

theorem replaceFirst_of_none {p : V → Bool} (w : V) : ∀ {xs : List V}, (∀ w ∈ xs, p w = false) →
    replaceFirst p w xs = xs
  | [], _ => rfl
  | x :: xs, hxs => by
    rw [replaceFirst, if_neg (by simp [hxs x (List.mem_cons_self ..)]),
      replaceFirst_of_none w fun y hy => hxs y (List.mem_cons_of_mem _ hy)]

/-- What it means for a list to hold `vs`: the counter, the two mirrored chains and `get_node`. -/
theorem Link.Holds.spec {link : Link V} {vs : List V} (h : link.Holds vs) :
    ∃ as : List ℕ, as.map (valOf link.heap) = vs.map some ∧ (link.head :: (as ++ [link.tail])).Nodup ∧
      link.size = as.length ∧
      (∀ i ≤ link.size + 1, walk (nextOf link.heap) i link.head = (link.head :: (as ++ [link.tail]))[i]?) ∧
      (∀ i ≤ link.size + 1, walk (prevOf link.heap) i link.tail =
        (link.head :: (as ++ [link.tail])).reverse[i]?) ∧
      ∀ idx, getNode link idx = some (as[idx]?.getD 0) := by
  obtain ⟨ns, hl, rfl, hlt⟩ := h
  have hsize : link.size = ns.length := by rw [hl.2, u32_of_lt hlt]
  refine ⟨ns.map Prod.fst, ?_, hl.1.nodup, ?_, fun i hi => ?_, fun i hi => ?_, getNode_spec hl hlt⟩
  · rw [List.map_map, List.map_map]
    exact List.map_congr_left fun x hx => hl.1.value x hx
  · rw [hsize, List.length_map]
  · exact hl.1.walk_next (by omega)
  · exact hl.1.walk_prev (by omega)

theorem replaceFirst_length (p : V → Bool) (w : V) (l : List V) : (replaceFirst p w l).length = l.length := by
  induction l with
  | nil => rfl
  | cons v l ih =>
    rw [replaceFirst]
    split_ifs
    · rfl
    · rw [List.length_cons, ih, List.length_cons]

/-! ## Each function on a list that holds `vs` -/

section Functions

variable {malloc : Malloc (DNode V)} {link : Link V} {vs : List V}

theorem Link.Holds.size (h : link.Holds vs) : link.size = vs.length := by
  obtain ⟨ns, hl, rfl, hlt⟩ := h
  rw [hl.2, u32_of_lt hlt, List.length_map]

theorem addBefore_tail_holds (hmalloc : malloc.Total) (h : link.Holds vs) (v : V) (hfit : link.size + 1 < 2 ^ 32) :
    ∃ l, addBefore malloc link link.tail v = some l ∧ l.Holds (vs ++ [v]) := by
  rw [h.size] at hfit
  obtain ⟨ns, hl, rfl, hlt⟩ := h
  rw [List.length_map] at hfit
  have hl' : link.Nodes (ns ++ []) := by rwa [List.append_nil]
  exact addBefore_holds hmalloc hl' rfl v (by rwa [List.append_nil])

theorem celLinkAddFirst_holds (hmalloc : malloc.Total) (h : link.Holds vs) (v : V) (hfit : link.size + 1 < 2 ^ 32) :
    ∃ l, celLinkAddFirst malloc link v = some l ∧ l.Holds (v :: vs) := by
  rw [h.size] at hfit
  obtain ⟨ns, hl, rfl, hlt⟩ := h
  rw [List.length_map] at hfit
  obtain ⟨-, -, n, Y, -, hn⟩ := DList.exists_neighbours link.head link.tail ([] : List (ℕ × V)) ns
  have hchain := hl.1.chain
  rw [hn, List.isChain_cons_cons] at hchain
  obtain ⟨l, hadd, hl'⟩ := addBefore_holds hmalloc (show link.Nodes ([] ++ ns) from hl) hn v hfit
  exact ⟨l, by rw [celLinkAddFirst, hchain.1.1, Option.bind_some, hadd], hl'⟩

theorem celLinkInsert_holds (hmalloc : malloc.Total) (h : link.Holds vs) (idx : ℕ) (v : V)
    (hfit : idx < link.size → link.size + 1 < 2 ^ 32) : ∃ l, celLinkInsert malloc link idx v = some l ∧
      l.Holds (if idx < vs.length then vs.take idx ++ v :: vs.drop idx else vs) := by
  rw [h.size] at hfit
  obtain ⟨ns, hl, rfl, hlt⟩ := h
  rw [List.length_map] at hfit ⊢
  by_cases hidx : idx < ns.length
  · obtain ⟨hg, hne⟩ := getNode_of_lt hl hlt hidx
    have hl' : link.Nodes (ns.take idx ++ ns.drop idx) := by rwa [List.take_append_drop]
    obtain ⟨l, hadd, hl'⟩ := addBefore_holds hmalloc hl' (n := ns[idx].1)
      (by rw [List.drop_eq_getElem_cons hidx]; rfl) v (by rw [List.take_append_drop]; exact hfit hidx)
    refine ⟨l, by rw [celLinkInsert, hg, Option.bind_some, if_pos hne, hadd], ?_⟩
    rw [if_pos hidx, ← List.map_take, ← List.map_drop]
    exact hl'
  · refine ⟨link, ?_, ?_⟩
    · rw [celLinkInsert, getNode_of_le hl hlt (by omega), Option.bind_some, if_neg (by simp)]
    · rw [if_neg hidx]
      exact ⟨ns, hl, rfl, hlt⟩

variable [Zero V]

theorem celLinkRemove_holds (h : link.Holds vs) (idx : ℕ) :
    ∃ l, celLinkRemove link idx = some (vs[idx]?.getD 0, l) ∧ l.Holds (vs.eraseIdx idx) := by
  obtain ⟨ns, hl, rfl, hlt⟩ := h
  by_cases hidx : idx < ns.length
  · obtain ⟨hg, hne⟩ := getNode_of_lt hl hlt hidx
    rw [split_at hidx] at hl
    obtain ⟨l, hremove, hl'⟩ := removeNode_holds hl (by rwa [← split_at hidx])
    refine ⟨l, ?_, ?_⟩
    · rw [celLinkRemove, hg, Option.bind_some, if_neg hne, hremove, List.getElem?_map, List.getElem?_eq_getElem hidx]
      rfl
    · rw [List.eraseIdx_eq_take_drop_succ, ← List.map_take, ← List.map_drop]
      exact hl'
  · refine ⟨link, ?_, ?_⟩
    · rw [celLinkRemove, getNode_of_le hl hlt (by omega), Option.bind_some, if_pos rfl,
        List.getElem?_eq_none (by simpa using hidx)]
      rfl
    · rw [List.eraseIdx_of_length_le (by simpa using hidx)]
      exact ⟨ns, hl, rfl, hlt⟩

theorem celLinkRemoveFirst_holds (h : link.Holds vs) :
    ∃ l, celLinkRemoveFirst link = some (vs.head?.getD 0, l) ∧ l.Holds vs.tail := by
  have hsize := h.size
  obtain ⟨ns, hl, rfl, hlt⟩ := h
  cases ns with
  | nil => exact ⟨link, by rw [celLinkRemoveFirst, if_pos (show link.size = 0 from hsize)]; rfl, [], hl, rfl, hlt⟩
  | cons x ns =>
    have hchain := hl.1.chain
    rw [List.map_cons, List.cons_append, List.isChain_cons_cons] at hchain
    obtain ⟨l, hremove, hl'⟩ := removeNode_holds (show link.Nodes ([] ++ x :: ns) from hl) hlt
    refine ⟨l, ?_, hl'⟩
    rw [celLinkRemoveFirst, if_neg (by rw [hsize]; simp), hchain.1.1, Option.bind_some, hremove]
    rfl

theorem celLinkRemoveLast_holds (h : link.Holds vs) :
    ∃ l, celLinkRemoveLast link = some (vs.getLast?.getD 0, l) ∧ l.Holds vs.dropLast := by
  have hsize := h.size
  obtain ⟨ns, hl, rfl, hlt⟩ := h
  obtain rfl | ⟨ns, x, rfl⟩ := List.eq_nil_or_concat' ns
  · exact ⟨link, by rw [celLinkRemoveLast, if_pos (show link.size = 0 from hsize)]; rfl, [], hl, rfl, hlt⟩
  · have hchain := hl.1.chain
    rw [List.map_append, List.append_assoc, ← List.cons_append] at hchain
    have hlink := (List.isChain_append_cons_cons.mp hchain).2.1
    obtain ⟨l, hremove, hl'⟩ := removeNode_holds (show link.Nodes (ns ++ x :: []) from hl) hlt
    refine ⟨l, ?_, by simpa using hl'⟩
    rw [celLinkRemoveLast, if_neg (by rw [hsize]; simp), hlink.2, Option.bind_some, hremove]
    simp

theorem celLinkGet_holds (h : link.Holds vs) (idx : ℕ) : celLinkGet link idx = some (vs[idx]?.getD 0) := by
  obtain ⟨ns, hl, rfl, hlt⟩ := h
  by_cases hidx : idx < ns.length
  · obtain ⟨hg, hne⟩ := getNode_of_lt hl hlt hidx
    rw [celLinkGet, hg, Option.bind_some, if_neg hne, hl.1.value _ (List.getElem_mem hidx), List.getElem?_map,
      List.getElem?_eq_getElem hidx]
    rfl
  · rw [celLinkGet, getNode_of_le hl hlt (by omega), Option.bind_some, if_pos rfl,
      List.getElem?_eq_none (by simpa using hidx)]
    rfl

theorem celLinkSet_holds (h : link.Holds vs) (idx : ℕ) (v : V) :
    ∃ l, celLinkSet link idx v = some (vs[idx]?.getD 0, l) ∧ l.Holds (vs.set idx v) := by
  obtain ⟨ns, hl, rfl, hlt⟩ := h
  by_cases hidx : idx < ns.length
  · obtain ⟨hg, hne⟩ := getNode_of_lt hl hlt hidx
    rw [split_at hidx] at hl
    obtain ⟨l, hreplace, hl'⟩ := replaceValue_holds hl (by rwa [← split_at hidx]) v
    refine ⟨l, ?_, ?_⟩
    · rw [celLinkSet, hg, Option.bind_some, if_neg hne, hreplace, List.getElem?_map, List.getElem?_eq_getElem hidx]
      rfl
    · rw [List.set_eq_take_append_cons_drop, if_pos (by simpa using hidx), ← List.map_take, ← List.map_drop]
      exact hl'
  · refine ⟨link, ?_, ?_⟩
    · rw [celLinkSet, getNode_of_le hl hlt (by omega), Option.bind_some, if_pos rfl,
        List.getElem?_eq_none (by simpa using hidx)]
      rfl
    · rw [List.set_eq_of_length_le (by simpa using hidx)]
      exact ⟨ns, hl, rfl, hlt⟩

variable [DecidableEq V]

theorem celLinkRemoveObj_holds (h : link.Holds vs) (v : V) (comp : V → V → ℤ) :
    ∃ l, celLinkRemoveObj link v comp = some ((vs.find? (isObj v comp)).getD 0, l) ∧
      l.Holds (vs.eraseP (isObj v comp)) := by
  obtain ⟨ns, hl, rfl, hlt⟩ := h
  obtain ⟨hs, hnone⟩ | ⟨xs, o, w, ys, rfl, hs, hne, hp, hxs⟩ := searchObj_cases v comp hl
  · refine ⟨link, ?_, ?_⟩
    · rw [celLinkRemoveObj, hs, Option.bind_some, if_pos rfl, List.find?_eq_none.mpr (by simpa using hnone)]
      rfl
    · rw [List.eraseP_of_forall_not (by simpa using hnone)]
      exact ⟨ns, hl, rfl, hlt⟩
  · obtain ⟨l, hremove, hl'⟩ := removeNode_holds hl hlt
    refine ⟨l, ?_, ?_⟩
    · rw [celLinkRemoveObj, hs, Option.bind_some, if_neg hne, hremove, List.map_append, List.map_cons,
        find?_split hp hxs]
      rfl
    · rw [List.map_append, List.map_cons, eraseP_split hp hxs]
      exact hl'

theorem celLinkSetObj_holds (h : link.Holds vs) (s v : V) (comp : V → V → ℤ) :
    ∃ l, celLinkSetObj link s v comp = some ((vs.find? (isObj s comp)).getD 0, l) ∧
      l.Holds (replaceFirst (isObj s comp) v vs) := by
  obtain ⟨ns, hl, rfl, hlt⟩ := h
  obtain ⟨hs, hnone⟩ | ⟨xs, o, w, ys, rfl, hs, hne, hp, hxs⟩ := searchObj_cases s comp hl
  · refine ⟨link, ?_, ?_⟩
    · rw [celLinkSetObj, hs, Option.bind_some, if_pos rfl, List.find?_eq_none.mpr (by simpa using hnone)]
      rfl
    · rw [replaceFirst_of_none v hnone]
      exact ⟨ns, hl, rfl, hlt⟩
  · obtain ⟨l, hreplace, hl'⟩ := replaceValue_holds hl hlt v
    refine ⟨l, ?_, ?_⟩
    · rw [celLinkSetObj, hs, Option.bind_some, if_neg hne, hreplace, List.map_append, List.map_cons,
        find?_split hp hxs]
      rfl
    · rw [List.map_append, List.map_cons, replaceFirst_split v hp hxs]
      exact hl'

end Functions

/-! ## The steps -/

section Refine

variable [Zero V] [DecidableEq V]

/-- The list operation that a call stands for, with its result; `0` is `NULL`. -/
def listStep (l : List V) : LinkOp V → List V × LinkOut V
  | .init => ([], .int 1)
  | .add v => (l ++ [v], .void)
  | .addFirst v => (v :: l, .void)
  | .addLast v => (l ++ [v], .void)
  | .insert idx v => (if idx < l.length then l.take idx ++ v :: l.drop idx else l, .void)
  | .remove idx => (l.eraseIdx idx, .ptr (l[idx]?.getD 0))
  | .removeFirst => (l.tail, .ptr (l.head?.getD 0))
  | .removeLast => (l.dropLast, .ptr (l.getLast?.getD 0))
  | .removeObj v comp => (l.eraseP (isObj v comp), .ptr ((l.find? (isObj v comp)).getD 0))
  | .get idx => (l, .ptr (l[idx]?.getD 0))
  | .set idx v => (l.set idx v, .ptr (l[idx]?.getD 0))
  | .setObj s v comp => (replaceFirst (isObj s comp) v l, .ptr ((l.find? (isObj s comp)).getD 0))

/-- The call may add an element. -/
def LinkOp.adds : LinkOp V → Bool
  | .add _ | .addFirst _ | .addLast _ | .insert _ _ => true
  | _ => false

/-- The call asks for a node. -/
def LinkOp.Allocates (link : Link V) : LinkOp V → Prop
  | .insert idx _ => idx < link.size
  | o => o.adds = true

/-- A call does not add to a list of `2 ^ 32 - 1` elements. -/
def LinkOp.Fits (link : Link V) (o : LinkOp V) : Prop := o.Allocates link → link.size + 1 < 2 ^ 32

variable {malloc : Malloc (DNode V)}

/-- **One call refines one list operation.** -/
theorem linkStep_refines (hmalloc : malloc.Total) (link : Link V) (vs : List V) (o : LinkOp V)
    (h : link.Holds vs) (hfit : o.Fits link) :
    ∃ l, linkStep malloc link o = some (l, (listStep vs o).2) ∧ l.Holds (listStep vs o).1 := by
  unfold LinkOp.Fits at hfit
  cases o with
  | init =>
    obtain ⟨l, hl, hl'⟩ := celLinkInit_spec hmalloc link
    exact ⟨l, by rw [linkStep, hl]; rfl, [], hl', rfl, Nat.two_pow_pos 32⟩
  | add v =>
    obtain ⟨l, hl, hl'⟩ := addBefore_tail_holds hmalloc h v (hfit rfl)
    exact ⟨l, by rw [linkStep, celLinkAdd, hl]; rfl, hl'⟩
  | addFirst v =>
    obtain ⟨l, hl, hl'⟩ := celLinkAddFirst_holds hmalloc h v (hfit rfl)
    exact ⟨l, by rw [linkStep, hl]; rfl, hl'⟩
  | addLast v =>
    obtain ⟨l, hl, hl'⟩ := addBefore_tail_holds hmalloc h v (hfit rfl)
    exact ⟨l, by rw [linkStep, celLinkAddLast, hl]; rfl, hl'⟩
  | insert idx v =>
    obtain ⟨l, hl, hl'⟩ := celLinkInsert_holds hmalloc h idx v hfit
    exact ⟨l, by rw [linkStep, hl]; rfl, hl'⟩
  | remove idx =>
    obtain ⟨l, hl, hl'⟩ := celLinkRemove_holds h idx
    exact ⟨l, by rw [linkStep, hl]; rfl, hl'⟩
  | removeFirst =>
    obtain ⟨l, hl, hl'⟩ := celLinkRemoveFirst_holds h
    exact ⟨l, by rw [linkStep, hl]; rfl, hl'⟩
  | removeLast =>
    obtain ⟨l, hl, hl'⟩ := celLinkRemoveLast_holds h
    exact ⟨l, by rw [linkStep, hl]; rfl, hl'⟩
  | removeObj v comp =>
    obtain ⟨l, hl, hl'⟩ := celLinkRemoveObj_holds h v comp
    exact ⟨l, by rw [linkStep, hl]; rfl, hl'⟩
  | get idx => exact ⟨link, by rw [linkStep, celLinkGet_holds h idx]; rfl, h⟩
  | set idx v =>
    obtain ⟨l, hl, hl'⟩ := celLinkSet_holds h idx v
    exact ⟨l, by rw [linkStep, hl]; rfl, hl'⟩
  | setObj s v comp =>
    obtain ⟨l, hl, hl'⟩ := celLinkSetObj_holds h s v comp
    exact ⟨l, by rw [linkStep, hl]; rfl, hl'⟩

theorem listStep_length_le (vs : List V) (o : LinkOp V) : (listStep vs o).1.length ≤ vs.length + 1 := by
  cases o with
  | insert idx v =>
    rw [listStep]
    split_ifs
    · simp only [List.length_append, List.length_cons, List.length_take, List.length_drop]
      omega
    · exact Nat.le_succ _
  | remove idx => exact (List.length_eraseIdx_le vs idx).trans (Nat.le_succ _)
  | removeObj v comp => exact (List.length_eraseP_le).trans (Nat.le_succ _)
  | setObj s v comp => exact (replaceFirst_length _ _ vs).le.trans (Nat.le_succ _)
  | _ => simp [listStep]; try omega

theorem guarded_of_length (hmalloc : malloc.Total) (link₀ : Link V) (ops : List (LinkOp V))
    (hlen : ops.length < 2 ^ 32) : Guarded (linkStep malloc) LinkOp.Fits link₀ (.init :: ops) := by
  have hrun : ∀ (ops : List (LinkOp V)) (link : Link V) (vs : List V), link.Holds vs →
      vs.length + ops.length < 2 ^ 32 → Guarded (linkStep malloc) LinkOp.Fits link ops := by
    intro ops
    induction ops with
    | nil => exact fun link _ _ _ => guarded_nil link
    | cons o ops ih =>
      intro link vs hl hlt
      rw [List.length_cons] at hlt
      have hfit : o.Fits link := by
        intro _
        obtain ⟨as, hvs, -, hsize, -⟩ := hl.spec
        have := congrArg List.length hvs
        rw [List.length_map, List.length_map] at this
        omega
      obtain ⟨l, hstep, hl'⟩ := linkStep_refines hmalloc link vs o hl hfit
      have := listStep_length_le vs o
      exact guarded_cons hfit hstep (ih l _ hl' (by omega))
  obtain ⟨l, hinit, hl⟩ := celLinkInit_spec hmalloc link₀
  have hstep : linkStep malloc link₀ .init = some (l, .int 1) := by rw [linkStep, hinit]; rfl
  exact guarded_cons (fun h => by cases h) hstep (hrun ops l [] ⟨[], hl, rfl, Nat.two_pow_pos 32⟩ (by simpa using hlen))

/-- **The linked list refines a list**, over every run in which the counter does not wrap. -/
theorem link_refines_list (hmalloc : malloc.Total) (link₀ : Link V) (ops : List (LinkOp V))
    (hfit : Guarded (linkStep malloc) LinkOp.Fits link₀ (.init :: ops)) :
    ∃ link as, exec (linkStep malloc) link₀ (.init :: ops) =
        some (link, (specExec listStep [] (.init :: ops)).2) ∧
      as.map (valOf link.heap) = (specExec listStep [] (.init :: ops)).1.map some ∧
      (link.head :: (as ++ [link.tail])).Nodup ∧ link.size = as.length ∧
      (∀ i ≤ link.size + 1, walk (nextOf link.heap) i link.head = (link.head :: (as ++ [link.tail]))[i]?) ∧
      (∀ i ≤ link.size + 1, walk (prevOf link.heap) i link.tail =
        (link.head :: (as ++ [link.tail])).reverse[i]?) ∧
      ∀ idx, getNode link idx = some (as[idx]?.getD 0) := by
  obtain ⟨l, hinit, hl⟩ := celLinkInit_spec hmalloc link₀
  have hstep : linkStep malloc link₀ .init = some (l, .int 1) := by rw [linkStep, hinit]; rfl
  obtain ⟨link, hrun, hR⟩ := exec_refines Link.Holds (linkStep_refines hmalloc) ops l []
    ⟨[], hl, rfl, Nat.two_pow_pos 32⟩ (hfit.2 _ hstep)
  obtain ⟨as, h⟩ := hR.spec
  refine ⟨link, as, ?_, h⟩
  rw [exec_cons_of_step hstep, hrun]
  rfl

/-- A push at the front and one at the back, seen from both ends. -/
theorem link_refines_list_run : ∃ link : Link ℕ,
    exec (linkStep Malloc.bump) ⟨∅, 0, 0, 0⟩ [.init, .addFirst 7, .addLast 9, .removeFirst, .get 0, .get 1] =
      some (link, [.int 1, .void, .void, .ptr 7, .ptr 9, .ptr 0]) := by
  obtain ⟨link, as, hrun, -⟩ := link_refines_list (V := ℕ) Malloc.bump_total ⟨∅, 0, 0, 0⟩
    [.addFirst 7, .addLast 9, .removeFirst, .get 0, .get 1] (guarded_of_length Malloc.bump_total _ _ (by decide))
  exact ⟨link, hrun⟩

/-- Appending never fails, and the counter follows modulo `2 ^ 32`. -/
theorem exec_addLast (hmalloc : malloc.Total) (v : V) (n : ℕ) (link : Link V) (ns : List (ℕ × V))
    (hl : link.Nodes ns) : ∃ l ns', exec (linkStep malloc) link (List.replicate n (.addLast v)) =
      some (l, List.replicate n .void) ∧ l.Nodes ns' ∧ ns'.length = ns.length + n := by
  induction n generalizing link ns with
  | zero => exact ⟨link, ns, rfl, hl, rfl⟩
  | succ n ih =>
    rw [← List.append_nil ns] at hl
    obtain ⟨o, l, h, hl'⟩ := addBefore_spec hmalloc hl rfl v
    have hstep : linkStep malloc link (.addLast v) = some (l, .void) := by
      rw [linkStep, celLinkAddLast, h]
      rfl
    obtain ⟨l', ns', hrun, hl'', hlen⟩ := ih l _ hl'
    refine ⟨l', ns', ?_, hl'', ?_⟩
    · rw [List.replicate_succ, exec_cons_of_step hstep, hrun]
      rfl
    · rw [hlen, List.length_append]
      simp only [List.length_cons, List.length_nil]
      omega

theorem specExec_addLast (v : V) (n : ℕ) (vs : List V) :
    (specExec listStep vs (List.replicate n (.addLast v))).1.length = vs.length + n := by
  induction n generalizing vs with
  | zero => rfl
  | succ n ih =>
    rw [List.replicate_succ, specExec, ih, listStep, List.length_append, List.length_singleton]
    omega

end Refine

/-- Without a bound on the length the counter is wrong: after `2 ^ 32` calls of `cel_link_add_last`
the list has as many nodes and `link->size` is `0`. -/
theorem not_link_size_eq_length :
    ¬ ∀ ops : List (LinkOp ℕ), ∃ link outs,
      exec (linkStep Malloc.bump) ⟨∅, 0, 0, 0⟩ (.init :: ops) = some (link, outs) ∧
        link.size = (specExec listStep [] (.init :: ops)).1.length := by
  intro hall
  obtain ⟨n, hn⟩ : ∃ n : ℕ, n = 2 ^ 32 := ⟨_, rfl⟩
  obtain ⟨link, outs, hrun, hsize⟩ := hall (List.replicate n (.addLast 0))
  obtain ⟨l, hinit, hl⟩ := celLinkInit_spec (V := ℕ) Malloc.bump_total ⟨∅, 0, 0, 0⟩
  have hstep : linkStep Malloc.bump (⟨∅, 0, 0, 0⟩ : Link ℕ) .init = some (l, .int 1) := by rw [linkStep, hinit]; rfl
  obtain ⟨l', ns', hrun', hl', -⟩ := exec_addLast Malloc.bump_total 0 n l [] hl
  rw [exec_cons_of_step hstep, hrun', Option.map_some, Option.some.injEq, Prod.mk.injEq] at hrun
  rw [← hrun.1, specExec, specExec_addLast] at hsize
  have hlt : l'.size < 2 ^ 32 := by rw [hl'.2]; exact u32_lt _
  simp only [listStep, List.length_nil] at hsize
  omega

end Sarah
