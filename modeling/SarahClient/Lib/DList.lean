import SarahClient.Lib.Heap
import Mathlib.Data.List.Chain

/-!
# Doubly linked lists with two sentinels

* `DNode`: a node with its value and its two links; `nextOf`, `prevOf`, `valOf`: one field of a
  live node;
* `DList h head tail ns`: from the sentinel `head` to the sentinel `tail` the heap links exactly
  the nodes `ns`, given by address and value, in both directions;
* `setNext`, `setPrev`, `setVal`: writing one field, with what it leaves alone;
* **`DList.insert`**, **`DList.remove`**: rewiring one neighbourhood;
* **`DList.walk_next`**, **`DList.walk_prev`**: the two directions visit the same nodes;
* `Forward`: what a loop along the successor links sees; `DList.forward`, `Forward.unique`.
-/

/-- A node of a doubly linked list. -/
structure DNode (V : Type) where
  value : V
  prev : ℕ
  next : ℕ
  deriving DecidableEq, Repr

namespace DNode

open Heap

variable {V : Type}

/-- The successor link of a live node. -/
def nextOf (h : Heap (DNode V)) (a : ℕ) : Option ℕ := (h.read a).map DNode.next

/-- The predecessor link of a live node. -/
def prevOf (h : Heap (DNode V)) (a : ℕ) : Option ℕ := (h.read a).map DNode.prev

/-- The value of a live node. -/
def valOf (h : Heap (DNode V)) (a : ℕ) : Option V := (h.read a).map DNode.value

/-- `b` follows `a`, in both directions. -/
def Linked (h : Heap (DNode V)) (a b : ℕ) : Prop := nextOf h a = some b ∧ prevOf h b = some a

/-- Follow a link `n` times. -/
def walk (f : ℕ → Option ℕ) : ℕ → ℕ → Option ℕ
  | 0, p => some p
  | n + 1, p => (f p).bind (walk f n)

theorem read_of_nextOf {h : Heap (DNode V)} {a b : ℕ} (hn : nextOf h a = some b) :
    ∃ c, h.read a = some c ∧ c.next = b := Option.map_eq_some_iff.mp hn

theorem read_of_prevOf {h : Heap (DNode V)} {a b : ℕ} (hp : prevOf h a = some b) :
    ∃ c, h.read a = some c ∧ c.prev = b := Option.map_eq_some_iff.mp hp

theorem read_of_valOf {h : Heap (DNode V)} {a : ℕ} {v : V} (hv : valOf h a = some v) :
    ∃ c, h.read a = some c ∧ c.value = v := Option.map_eq_some_iff.mp hv

/-- Write the successor link of a node. -/
def setNext (h : Heap (DNode V)) (a x : ℕ) : Option (Heap (DNode V)) := h.modify a fun c => { c with next := x }

/-- Write the predecessor link of a node. -/
def setPrev (h : Heap (DNode V)) (a x : ℕ) : Option (Heap (DNode V)) := h.modify a fun c => { c with prev := x }

/-- Write the value of a node. -/
def setVal (h : Heap (DNode V)) (a : ℕ) (v : V) : Option (Heap (DNode V)) :=
  h.modify a fun c => { c with value := v }

theorem field_modify {β : Type} (g : DNode V → β) {h h' : Heap (DNode V)} {a : ℕ} {c : DNode V}
    (hr : ∀ b, h'.read b = if b = a then some c else h.read b) (b : ℕ) :
    (h'.read b).map g = if b = a then some (g c) else (h.read b).map g := by
  rw [hr b]
  split_ifs
  · rfl
  · rfl

theorem field_frame {β : Type} (g : DNode V → β) {h h' : Heap (DNode V)} {a : ℕ} {c c' : DNode V}
    (hc : h.read a = some c) (hr : ∀ b, h'.read b = if b = a then some c' else h.read b) (hg : g c' = g c)
    (b : ℕ) : (h'.read b).map g = (h.read b).map g := by
  rw [hr b]
  split_ifs with hb
  · rw [hb, hc, Option.map_some, Option.map_some, hg]
  · rfl

theorem setNext_spec {h : Heap (DNode V)} {a y : ℕ} (ha : nextOf h a = some y) (x : ℕ) :
    ∃ h', setNext h a x = some h' ∧ (∀ b, nextOf h' b = if b = a then some x else nextOf h b) ∧
      (∀ b, prevOf h' b = prevOf h b) ∧ ∀ b, valOf h' b = valOf h b := by
  obtain ⟨c, hc, -⟩ := read_of_nextOf ha
  obtain ⟨h', hm, hr⟩ := modify_spec hc fun c => { c with next := x }
  exact ⟨h', hm, field_modify next hr, field_frame prev hc hr rfl, field_frame value hc hr rfl⟩

theorem setPrev_spec {h : Heap (DNode V)} {a y : ℕ} (ha : prevOf h a = some y) (x : ℕ) :
    ∃ h', setPrev h a x = some h' ∧ (∀ b, prevOf h' b = if b = a then some x else prevOf h b) ∧
      (∀ b, nextOf h' b = nextOf h b) ∧ ∀ b, valOf h' b = valOf h b := by
  obtain ⟨c, hc, -⟩ := read_of_prevOf ha
  obtain ⟨h', hm, hr⟩ := modify_spec hc fun c => { c with prev := x }
  exact ⟨h', hm, field_modify prev hr, field_frame next hc hr rfl, field_frame value hc hr rfl⟩

theorem setVal_spec {h : Heap (DNode V)} {a : ℕ} {w : V} (ha : valOf h a = some w) (v : V) :
    ∃ h', setVal h a v = some h' ∧ (∀ b, valOf h' b = if b = a then some v else valOf h b) ∧
      (∀ b, nextOf h' b = nextOf h b) ∧ ∀ b, prevOf h' b = prevOf h b := by
  obtain ⟨c, hc, -⟩ := read_of_valOf ha
  obtain ⟨h', hm, hr⟩ := modify_spec hc fun c => { c with value := v }
  exact ⟨h', hm, field_modify value hr, field_frame next hc hr rfl, field_frame prev hc hr rfl⟩

theorem isChain_frame {h h' : Heap (DNode V)} {l : List ℕ} (hc : l.IsChain (Linked h))
    (hn : ∀ a ∈ l.dropLast, nextOf h' a = nextOf h a) (hp : ∀ b ∈ l.tail, prevOf h' b = prevOf h b) :
    l.IsChain (Linked h') := by
  induction l with
  | nil => exact .nil
  | cons a l ih =>
    cases l with
    | nil => exact .singleton a
    | cons b l =>
      rw [List.isChain_cons_cons] at hc ⊢
      simp only [List.dropLast_cons_cons, List.tail_cons] at hn hp
      refine ⟨⟨?_, ?_⟩, ih hc.2 ?_ ?_⟩
      · rw [hn a (List.mem_cons_self ..)]
        exact hc.1.1
      · rw [hp b (List.mem_cons_self ..)]
        exact hc.1.2
      · exact fun x hx => hn x (List.mem_cons_of_mem _ hx)
      · exact fun x hx => hp x (List.mem_cons_of_mem _ hx)

theorem walk_succ (f : ℕ → Option ℕ) : ∀ (n p : ℕ), walk f (n + 1) p = (walk f n p).bind f
  | 0, p => by
    rw [walk, walk, Option.bind_some]
    cases f p <;> rfl
  | n + 1, p => by
    rw [walk, walk, Option.bind_assoc]
    exact congrArg _ (funext (walk_succ f n))

theorem walk_of_isChain {f : ℕ → Option ℕ} : ∀ (l : List ℕ) (a : ℕ),
    (a :: l).IsChain (fun a b => f a = some b) → ∀ i, i ≤ l.length → walk f i a = (a :: l)[i]?
  | _, _, _, 0, _ => rfl
  | [], _, _, i + 1, hi => by simp at hi
  | b :: l, a, hc, i + 1, hi => by
    rw [List.isChain_cons_cons] at hc
    rw [walk, hc.1, Option.bind_some, walk_of_isChain l b hc.2 i (Nat.le_of_succ_le_succ hi),
      List.getElem?_cons_succ]

end DNode

open DNode Heap

variable {V : Type}

/-- The heap links exactly the nodes `ns` between the sentinels `head` and `tail`. -/
structure DList (h : Heap (DNode V)) (head tail : ℕ) (ns : List (ℕ × V)) : Prop where
  chain : (head :: (ns.map Prod.fst ++ [tail])).IsChain (Linked h)
  nodup : (head :: (ns.map Prod.fst ++ [tail])).Nodup
  value : ∀ x ∈ ns, valOf h x.1 = some x.2

namespace DList

variable {h h' : Heap (DNode V)} {head tail : ℕ} {ns xs ys : List (ℕ × V)}

/-- The addresses from sentinel to sentinel, split between two neighbours. -/
theorem split {p n : ℕ} {X Y : List ℕ} (hp : head :: xs.map Prod.fst = X ++ [p])
    (hn : ys.map Prod.fst ++ [tail] = n :: Y) :
    head :: ((xs ++ ys).map Prod.fst ++ [tail]) = X ++ p :: n :: Y := by
  rw [List.map_append, List.append_assoc, hn, ← List.cons_append, hp, List.append_assoc]
  rfl

theorem split_node {p n : ℕ} {X Y : List ℕ} (o : ℕ) (v : V) (hp : head :: xs.map Prod.fst = X ++ [p])
    (hn : ys.map Prod.fst ++ [tail] = n :: Y) :
    head :: ((xs ++ (o, v) :: ys).map Prod.fst ++ [tail]) = X ++ p :: o :: n :: Y := by
  refine split hp ?_
  rw [List.map_cons, List.cons_append, hn]

theorem exists_neighbours (head tail : ℕ) (xs ys : List (ℕ × V)) :
    ∃ X p n Y, head :: xs.map Prod.fst = X ++ [p] ∧ ys.map Prod.fst ++ [tail] = n :: Y := by
  obtain ⟨n, Y, hn⟩ := List.exists_cons_of_ne_nil (List.append_ne_nil_of_right_ne_nil (ys.map Prod.fst)
    (List.cons_ne_nil tail []))
  exact ⟨_, _, n, Y, (List.dropLast_concat_getLast (List.cons_ne_nil head (xs.map Prod.fst))).symm, hn⟩

/-- **Insertion** of a fresh node `o` between the neighbours `p` and `n`. -/
theorem insert (hl : DList h head tail (xs ++ ys)) {p n o : ℕ} {v : V} {X Y : List ℕ}
    (hp : head :: xs.map Prod.fst = X ++ [p]) (hn : ys.map Prod.fst ++ [tail] = n :: Y)
    (ho : o ∉ head :: ((xs ++ ys).map Prod.fst ++ [tail]))
    (hnext : ∀ b, nextOf h' b = if b = p then some o else if b = o then some n else nextOf h b)
    (hprev : ∀ b, prevOf h' b = if b = n then some o else if b = o then some p else prevOf h b)
    (hval : ∀ b, valOf h' b = if b = o then some v else valOf h b) :
    DList h' head tail (xs ++ (o, v) :: ys) := by
  have hchain := hl.chain
  have hnodup := hl.nodup
  rw [split hp hn] at hchain hnodup ho
  obtain ⟨hX, hpn, hY⟩ := List.isChain_append_cons_cons.mp hchain
  simp only [List.mem_append, List.mem_cons, not_or] at ho
  obtain ⟨hoX, hop, hon, hoY⟩ := ho
  rw [List.nodup_append] at hnodup
  obtain ⟨hndX, hndY, hdisj⟩ := hnodup
  simp only [List.nodup_cons, List.mem_cons, not_or] at hndY
  obtain ⟨⟨hpn', hpY⟩, hnY, hndY⟩ := hndY
  refine ⟨?_, ?_, ?_⟩
  · rw [split_node o v hp hn, List.isChain_append_cons_cons, List.isChain_cons_cons]
    refine ⟨isChain_frame hX ?_ ?_, ⟨?_, ?_⟩, ⟨?_, ?_⟩, isChain_frame hY ?_ ?_⟩
    · intro a ha
      rw [List.dropLast_concat] at ha
      rw [hnext, if_neg (hdisj a ha p (by simp)), if_neg (ne_of_mem_of_not_mem ha hoX)]
    · intro b hb
      have hb' : b ∈ X ∨ b = p := by simpa using List.mem_of_mem_tail hb
      rw [hprev, if_neg, if_neg]
      · rcases hb' with hb' | rfl
        · exact fun e => hoX (e ▸ hb')
        · exact Ne.symm hop
      · rcases hb' with hb' | rfl
        · exact hdisj b hb' n (by simp)
        · exact hpn'
    · rw [hnext, if_pos rfl]
    · rw [hprev, if_neg hon, if_pos rfl]
    · rw [hnext, if_neg hop, if_pos rfl]
    · rw [hprev, if_pos rfl]
    · intro a ha
      have ha' : a = n ∨ a ∈ Y := by simpa using List.mem_of_mem_dropLast ha
      rw [hnext, if_neg, if_neg]
      · rcases ha' with rfl | ha'
        · exact Ne.symm hon
        · exact fun e => hoY (e ▸ ha')
      · rcases ha' with rfl | ha'
        · exact Ne.symm hpn'
        · exact fun e => hpY (e ▸ ha')
    · intro b hb
      rw [List.tail_cons] at hb
      rw [hprev, if_neg (ne_of_mem_of_not_mem hb hnY), if_neg (ne_of_mem_of_not_mem hb hoY)]
  · rw [split_node o v hp hn, List.nodup_append]
    refine ⟨hndX, ?_, ?_⟩
    · simp only [List.nodup_cons, List.mem_cons, not_or]
      exact ⟨⟨Ne.symm hop, hpn', hpY⟩, ⟨hon, hoY⟩, hnY, hndY⟩
    · intro a ha b hb
      simp only [List.mem_cons] at hb
      rcases hb with rfl | rfl | hb
      · exact hdisj a ha b (by simp)
      · exact ne_of_mem_of_not_mem ha hoX
      · exact hdisj a ha b (by simpa using Or.inr hb)
  · intro x hx
    rw [List.mem_append, List.mem_cons] at hx
    have hold : x ∈ xs ++ ys → valOf h' x.1 = some x.2 := by
      intro hx
      rw [hval, if_neg, hl.value x hx]
      intro e
      have hmem : o ∈ head :: ((xs ++ ys).map Prod.fst ++ [tail]) := by
        rw [← e]
        exact List.mem_cons_of_mem _ (List.mem_append_left _ (List.mem_map_of_mem hx))
      rw [split hp hn] at hmem
      simp [hoX, hop, hon, hoY] at hmem
    rcases hx with hx | rfl | hx
    · exact hold (List.mem_append_left _ hx)
    · rw [hval, if_pos rfl]
    · exact hold (List.mem_append_right _ hx)

/-- **Removal** of the node `o` between the neighbours `p` and `n`. -/
theorem remove {o : ℕ} {v : V} (hl : DList h head tail (xs ++ (o, v) :: ys)) {p n : ℕ} {X Y : List ℕ}
    (hp : head :: xs.map Prod.fst = X ++ [p]) (hn : ys.map Prod.fst ++ [tail] = n :: Y)
    (hnext : ∀ b, b ≠ o → nextOf h' b = if b = p then some n else nextOf h b)
    (hprev : ∀ b, b ≠ o → prevOf h' b = if b = n then some p else prevOf h b)
    (hval : ∀ b, b ≠ o → valOf h' b = valOf h b) : DList h' head tail (xs ++ ys) := by
  have hchain := hl.chain
  have hnodup := hl.nodup
  rw [split_node o v hp hn] at hchain hnodup
  obtain ⟨hX, hpo, hoY⟩ := List.isChain_append_cons_cons.mp hchain
  obtain ⟨-, hY⟩ := List.isChain_cons_cons.mp hoY
  rw [List.nodup_append] at hnodup
  obtain ⟨hndX, hndY, hdisj⟩ := hnodup
  simp only [List.nodup_cons, List.mem_cons, not_or] at hndY
  obtain ⟨⟨hpo', hpn', hpY⟩, ⟨hon, hoY⟩, hnY, hndY⟩ := hndY
  have hoX : o ∉ X := fun ho => hdisj o ho o (by simp) rfl
  refine ⟨?_, ?_, ?_⟩
  · rw [split hp hn, List.isChain_append_cons_cons]
    refine ⟨isChain_frame hX ?_ ?_, ⟨?_, ?_⟩, isChain_frame hY ?_ ?_⟩
    · intro a ha
      rw [List.dropLast_concat] at ha
      rw [hnext a (ne_of_mem_of_not_mem ha hoX), if_neg (hdisj a ha p (by simp))]
    · intro b hb
      have hb' : b ∈ X ∨ b = p := by simpa using List.mem_of_mem_tail hb
      rcases hb' with hb' | rfl
      · rw [hprev b (fun e => hoX (e ▸ hb')), if_neg (hdisj b hb' n (by simp))]
      · rw [hprev b hpo', if_neg hpn']
    · rw [hnext p hpo', if_pos rfl]
    · rw [hprev n (Ne.symm hon), if_pos rfl]
    · intro a ha
      have ha' : a = n ∨ a ∈ Y := by simpa using List.mem_of_mem_dropLast ha
      rcases ha' with rfl | ha'
      · rw [hnext a (Ne.symm hon), if_neg (Ne.symm hpn')]
      · rw [hnext a (ne_of_mem_of_not_mem ha' hoY), if_neg (ne_of_mem_of_not_mem ha' hpY)]
    · intro b hb
      rw [List.tail_cons] at hb
      rw [hprev b (ne_of_mem_of_not_mem hb hoY), if_neg (ne_of_mem_of_not_mem hb hnY)]
  · rw [split hp hn, List.nodup_append]
    refine ⟨hndX, ?_, ?_⟩
    · simp only [List.nodup_cons, List.mem_cons, not_or]
      exact ⟨⟨hpn', hpY⟩, hnY, hndY⟩
    · intro a ha b hb
      refine hdisj a ha b ?_
      rw [List.mem_cons] at hb ⊢
      rcases hb with rfl | hb
      · exact .inl rfl
      · exact .inr (List.mem_cons_of_mem _ hb)
  · intro x hx
    have hx' : x ∈ xs ++ (o, v) :: ys := by
      rw [List.mem_append, List.mem_cons]
      rcases List.mem_append.mp hx with hx | hx
      · exact .inl hx
      · exact .inr (.inr hx)
    rw [hval x.1 ?_, hl.value x hx']
    rintro rfl
    have hmem : x.1 ∈ head :: ((xs ++ ys).map Prod.fst ++ [tail]) :=
      List.mem_cons_of_mem _ (List.mem_append_left _ (List.mem_map_of_mem hx))
    rw [split hp hn] at hmem
    simp [hoX, Ne.symm hpo', hon, hoY] at hmem

theorem set {o : ℕ} {v w : V} (hl : DList h head tail (xs ++ (o, v) :: ys))
    (hnext : ∀ b, nextOf h' b = nextOf h b) (hprev : ∀ b, prevOf h' b = prevOf h b)
    (hval : ∀ b, valOf h' b = if b = o then some w else valOf h b) :
    DList h' head tail (xs ++ (o, w) :: ys) := by
  have haddr : (xs ++ (o, w) :: ys).map Prod.fst = (xs ++ (o, v) :: ys).map Prod.fst := by simp
  refine ⟨?_, by rw [haddr]; exact hl.nodup, ?_⟩
  · rw [haddr]
    exact isChain_frame hl.chain (fun a _ => hnext a) (fun b _ => hprev b)
  · have hnd : ((xs ++ (o, v) :: ys).map Prod.fst).Nodup :=
      (List.nodup_append.mp (List.nodup_cons.mp hl.nodup).2).1
    rw [List.map_append, List.map_cons, List.nodup_append] at hnd
    obtain ⟨-, hnd, hdisj⟩ := hnd
    intro x hx
    rw [List.mem_append, List.mem_cons] at hx
    rcases hx with hx | rfl | hx
    · rw [hval, if_neg (hdisj x.1 (List.mem_map_of_mem hx) o (List.mem_cons_self ..))]
      exact hl.value x (List.mem_append_left _ hx)
    · rw [hval, if_pos rfl]
    · rw [hval, if_neg (ne_of_mem_of_not_mem (List.mem_map_of_mem hx) (List.nodup_cons.mp hnd).1)]
      exact hl.value x (List.mem_append_right _ (List.mem_cons_of_mem _ hx))

/-- **Forward walk** from the head sentinel. -/
theorem walk_next (hl : DList h head tail ns) {i : ℕ} (hi : i ≤ ns.length + 1) :
    walk (nextOf h) i head = (head :: (ns.map Prod.fst ++ [tail]))[i]? :=
  walk_of_isChain _ head (hl.chain.imp fun _ _ hab => hab.1) i (by simpa using hi)

/-- **Backward walk** from the tail sentinel. -/
theorem walk_prev (hl : DList h head tail ns) {i : ℕ} (hi : i ≤ ns.length + 1) :
    walk (prevOf h) i tail = (head :: (ns.map Prod.fst ++ [tail])).reverse[i]? := by
  have hrev : (head :: (ns.map Prod.fst ++ [tail])).reverse = tail :: ((ns.map Prod.fst).reverse ++ [head]) := by
    simp
  have hchain := List.isChain_reverse.mpr (hl.chain.imp fun _ _ hab => hab.2)
  rw [hrev] at hchain ⊢
  exact walk_of_isChain _ tail hchain i (by simpa using hi)

theorem live (hl : DList h head tail ns) : ∀ a ∈ head :: (ns.map Prod.fst ++ [tail]), (h.read a).isSome := by
  intro a ha
  rw [List.mem_cons, List.mem_append, List.mem_singleton] at ha
  obtain ⟨-, -, n, Y, -, hn⟩ := exists_neighbours head tail ([] : List (ℕ × V)) ns
  have hhead : Linked h head n := by
    have hchain := hl.chain
    rw [hn] at hchain
    exact (List.isChain_cons_cons.mp hchain).1
  have htail : ∃ x, Linked h x tail := by
    obtain ⟨X, p, -, -, hp, -⟩ := exists_neighbours head tail ns []
    have hchain := hl.chain
    rw [← List.cons_append, hp, List.append_assoc] at hchain
    exact ⟨p, (List.isChain_append_cons_cons.mp hchain).2.1⟩
  rcases ha with rfl | ha | rfl
  · obtain ⟨c, hc, -⟩ := read_of_nextOf hhead.1
    rw [hc]
    rfl
  · obtain ⟨x, hx, rfl⟩ := List.mem_map.mp ha
    obtain ⟨c, hc, -⟩ := read_of_valOf (hl.value x hx)
    rw [hc]
    rfl
  · obtain ⟨x, hx⟩ := htail
    obtain ⟨c, hc, -⟩ := read_of_prevOf hx.2
    rw [hc]
    rfl

theorem length_le_card (hl : DList h head tail ns) : ns.length ≤ h.keys.card := by
  rw [← List.length_map (f := Prod.fst)]
  refine Heap.length_le_card (List.nodup_append.mp (List.nodup_cons.mp hl.nodup).2).1 fun a ha => ?_
  exact Option.isSome_iff_exists.mp (hl.live a (List.mem_cons_of_mem _ (List.mem_append_left _ ha)))

end DList

/-! ## Loops along the successor links -/

/-- From the node `n` the successor links lead through the values `vs` to `tail`. -/
inductive Forward (h : Heap (DNode V)) (tail : ℕ) : ℕ → List V → Prop
  | nil : Forward h tail tail []
  | cons {n : ℕ} {c : DNode V} {vs : List V} (hne : n ≠ tail) (hc : h.read n = some c)
    (hrest : Forward h tail c.next vs) : Forward h tail n (c.value :: vs)

theorem Forward.exists_cell {h : Heap (DNode V)} {tail n : ℕ} {v : V} {vs : List V} (hv : Forward h tail n (v :: vs)) :
    n ≠ tail ∧ ∃ c, h.read n = some c ∧ c.value = v ∧ Forward h tail c.next vs := by
  cases hv with
  | cons hne hc hrest => exact ⟨hne, _, hc, rfl, hrest⟩

theorem Forward.unique {h : Heap (DNode V)} {tail n : ℕ} {vs : List V} (hv : Forward h tail n vs) :
    ∀ {ws : List V}, Forward h tail n ws → vs = ws := by
  induction hv with
  | nil =>
    intro ws hw
    cases hw with
    | nil => rfl
    | cons hne => exact absurd rfl hne
  | cons hne hc _ ih =>
    intro ws hw
    cases hw with
    | nil => exact absurd rfl hne
    | cons _ hc' hrest' =>
      rw [hc] at hc'
      cases hc'
      rw [ih hrest']

theorem forward_of_isChain {h : Heap (DNode V)} {tail : ℕ} : ∀ {ns : List (ℕ × V)} {n : ℕ} {Y : List ℕ},
    ns.map Prod.fst ++ [tail] = n :: Y → (n :: Y).IsChain (Linked h) → (n :: Y).Nodup →
    (∀ x ∈ ns, valOf h x.1 = some x.2) → Forward h tail n (ns.map Prod.snd)
  | [], n, Y, hn, _, _, _ => by
    rw [List.map_nil, List.nil_append, List.cons_eq_cons] at hn
    rw [← hn.1]
    exact .nil
  | x :: ns, n, Y, hn, hc, hnd, hv => by
    rw [List.map_cons, List.cons_append, List.cons_eq_cons] at hn
    obtain ⟨rfl, rfl⟩ := hn
    obtain ⟨m, Z, hm⟩ := List.exists_cons_of_ne_nil (List.append_ne_nil_of_right_ne_nil (ns.map Prod.fst)
      (List.cons_ne_nil tail []))
    have hne : x.1 ≠ tail := fun he => (List.nodup_cons.mp hnd).1 (by rw [he]; simp)
    obtain ⟨c, hread, hval⟩ := read_of_valOf (hv x List.mem_cons_self)
    rw [hm, List.isChain_cons_cons] at hc
    rw [hm] at hnd
    have hnext : c.next = m := by simpa [nextOf, hread] using hc.1.1
    have hrest := forward_of_isChain hm hc.2 (List.nodup_cons.mp hnd).2 fun y hy => hv y (List.mem_cons_of_mem x hy)
    rw [List.map_cons, ← hval]
    exact .cons hne hread (hnext ▸ hrest)

theorem DList.forward {h : Heap (DNode V)} {head tail : ℕ} {ns : List (ℕ × V)} (hl : DList h head tail ns) :
    ∃ n, nextOf h head = some n ∧ Forward h tail n (ns.map Prod.snd) := by
  obtain ⟨-, -, n, Y, -, hn⟩ := DList.exists_neighbours head tail ([] : List (ℕ × V)) ns
  have hchain := hl.chain
  have hnodup := hl.nodup
  rw [hn] at hchain hnodup
  rw [List.isChain_cons_cons] at hchain
  exact ⟨n, hchain.1.1, forward_of_isChain hn hchain.2 (List.nodup_cons.mp hnodup).2 hl.value⟩
