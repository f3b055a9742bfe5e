import SarahClient.Hashmap.Model

/-!
# The hash map refines a finite map

* `Buckets str m B`: bucket `i` of the table is the chain of the nodes `B i`, each where its hash code
  puts it, no name twice; `Contains`: these nodes are the entries of a finite map;
* `findNode_cases`: a search finds the one node of a name, or there is none;
* `updateNode_holds`, `addNode_holds`, `removeNodeAt_holds`, `celHashmapClear_holds`: the changes of the map;
* `rebuildHash_buckets`: growing the table moves every node and loses none;
* `HashMap.Keeps`: the same without bounds on the table, with `updateNode_keeps`, `rebuildHash_keeps`, `addNode_keeps`;
* `mapStep`, `imapStep`: the finite-map operations;
* **`hashmap_refines_finmap`**: every run refines the finite map.
-/

namespace Sarah

open Heap Machine

/-- What a node carries apart from its link. -/
structure HashEntry (V : Type) where
  key : ℕ
  value : V
  hash : ℕ

variable {V : Type}

/-- What a node stores, without its link. -/
def HashNode.entry (c : HashNode V) : HashEntry V := ⟨c.key, c.value, c.hash⟩

/-- The finite maps keyed by C strings. -/
abbrev StrMap (V : Type) := Finmap fun _ : List UInt8 => V

/-- The chain of a bucket. -/
abbrev Bucket (V : Type) := List (ℕ × HashEntry V)

section Names

variable (str : ℕ → List UInt8)

/-- The string a node is stored under. -/
def nameOf (x : ℕ × HashEntry V) : List UInt8 := str x.2.key

/-- The bucket has a node named `k` with the value `v`. -/
def Entry (L : Bucket V) (k : List UInt8) (v : V) : Prop := ∃ x ∈ L, nameOf str x = k ∧ x.2.value = v

variable {str}

theorem name_ne_of_nodup {xs ys : Bucket V} {x : ℕ × HashEntry V}
    (hnd : ((xs ++ x :: ys).map (nameOf str)).Nodup) : ∀ z ∈ xs ++ ys, nameOf str z ≠ nameOf str x := by
  rw [List.map_append, List.map_cons, List.nodup_append, List.nodup_cons] at hnd
  obtain ⟨-, ⟨hys, -⟩, hdisj⟩ := hnd
  intro z hz
  rcases List.mem_append.mp hz with hz | hz
  · exact hdisj _ (List.mem_map_of_mem hz) _ (List.mem_cons_self ..)
  · exact ne_of_mem_of_not_mem (List.mem_map_of_mem hz) hys

theorem entry_cons {x : ℕ × HashEntry V} {L : Bucket V} {k : List UInt8} {v : V} :
    Entry str (x :: L) k v ↔ (nameOf str x = k ∧ x.2.value = v) ∨ Entry str L k v := by
  simp only [Entry, List.mem_cons, or_and_right, exists_or, exists_eq_left]

theorem entry_middle {x : ℕ × HashEntry V} {xs ys : Bucket V} {k : List UInt8} {v : V} :
    Entry str (xs ++ x :: ys) k v ↔ (nameOf str x = k ∧ x.2.value = v) ∨ Entry str (xs ++ ys) k v := by
  rw [← entry_cons]
  unfold Entry
  constructor
  · rintro ⟨z, hz, h⟩
    exact ⟨z, (List.perm_middle.mem_iff).mp hz, h⟩
  · rintro ⟨z, hz, h⟩
    exact ⟨z, (List.perm_middle.mem_iff).mpr hz, h⟩

theorem not_entry_of_name_ne {L : Bucket V} {k : List UInt8} (h : ∀ z ∈ L, nameOf str z ≠ k) (v : V) :
    ¬ Entry str L k v := by
  rintro ⟨z, hz, hk, -⟩
  exact h z hz hk

end Names

/-! ## Buckets -/

/-- Bucket `i` of the table links exactly the nodes `B i`. -/
structure Buckets (str : ℕ → List UInt8) (m : HashMap V) (B : ℕ → Bucket V) : Prop where
  length_pos : 0 < m.length
  table_length : m.table.length = m.length
  chain : ∀ i, i < m.length → ∃ p, m.table[i]? = some p ∧ Chain HashNode.next HashNode.entry m.heap p (B i)
  placed : ∀ i, i < m.length → ∀ x ∈ B i, x.2.hash = celBkdrHash (nameOf str x) ∧ x.2.hash % m.length = i
  nodup : ∀ i, i < m.length → ((B i).map (nameOf str)).Nodup

/-- The nodes are the entries of `M`. -/
def Contains (str : ℕ → List UInt8) (m : HashMap V) (B : ℕ → Bucket V) (M : StrMap V) : Prop :=
  ∀ k v, M.lookup k = some v ↔ Entry str (B (celBkdrHash k % m.length)) k v

namespace Buckets

variable {str : ℕ → List UInt8} {m m' : HashMap V} {B : ℕ → Bucket V}

theorem idx_lt (hB : Buckets str m B) (k : List UInt8) : celBkdrHash k % m.length < m.length :=
  Nat.mod_lt _ hB.length_pos

theorem read_of_mem (hB : Buckets str m B) {i : ℕ} (hi : i < m.length) {x : ℕ × HashEntry V} (hx : x ∈ B i) :
    ∃ c, m.heap.read x.1 = some c ∧ c.entry = x.2 := by
  obtain ⟨p, -, hc⟩ := hB.chain i hi
  exact hc.data_of_mem hx

theorem addr_ne (hB : Buckets str m B) {i j : ℕ} (hi : i < m.length) (hj : j < m.length) (hij : i ≠ j)
    {x y : ℕ × HashEntry V} (hx : x ∈ B i) (hy : y ∈ B j) : x.1 ≠ y.1 := by
  intro e
  obtain ⟨c, hc, hcx⟩ := hB.read_of_mem hi hx
  obtain ⟨d, hd, hdy⟩ := hB.read_of_mem hj hy
  rw [e, hd, Option.some.injEq] at hc
  subst hc
  apply hij
  rw [← (hB.placed i hi x hx).2, ← (hB.placed j hj y hy).2, ← hcx, ← hdy]

theorem addr_nodup (hB : Buckets str m B) {i : ℕ} (hi : i < m.length) : ((B i).map Prod.fst).Nodup := by
  obtain ⟨p, -, hc⟩ := hB.chain i hi
  exact hc.nodup (fun e => str e.key) (hB.nodup i hi)

theorem length_lt (hB : Buckets str m B) {i : ℕ} (hi : i < m.length) : (B i).length < m.heap.keys.card + 1 := by
  obtain ⟨p, -, hc⟩ := hB.chain i hi
  exact Nat.lt_succ_of_le (hc.length_le_card (hB.addr_nodup hi))

/-- **A change of one bucket.** -/
theorem change (hB : Buckets str m B) {i : ℕ} (hi : i < m.length) {L : Bucket V}
    (hlen : m'.length = m.length) (htab : m'.table.length = m.table.length)
    (hother : ∀ j, j ≠ i → m'.table[j]? = m.table[j]?)
    (hread : ∀ j, j < m.length → j ≠ i → ∀ y ∈ B j, m'.heap.read y.1 = m.heap.read y.1)
    (hchain : ∃ p, m'.table[i]? = some p ∧ Chain HashNode.next HashNode.entry m'.heap p L)
    (hplaced : ∀ x ∈ L, x.2.hash = celBkdrHash (nameOf str x) ∧ x.2.hash % m.length = i)
    (hnodup : (L.map (nameOf str)).Nodup) : Buckets str m' (Function.update B i L) := by
  refine ⟨by rw [hlen]; exact hB.length_pos, by rw [htab, hlen, hB.table_length], ?_, ?_, ?_⟩
  · intro j hj
    rw [hlen] at hj
    by_cases hji : j = i
    · subst hji
      rwa [Function.update_self]
    · rw [Function.update_of_ne hji, hother j hji]
      obtain ⟨p, hp, hc⟩ := hB.chain j hj
      exact ⟨p, hp, hc.frame (hread j hj hji)⟩
  · intro j hj
    rw [hlen] at hj ⊢
    by_cases hji : j = i
    · subst hji
      rwa [Function.update_self]
    · rw [Function.update_of_ne hji]
      exact hB.placed j hj
  · intro j hj
    rw [hlen] at hj
    by_cases hji : j = i
    · subst hji
      rwa [Function.update_self]
    · rw [Function.update_of_ne hji]
      exact hB.nodup j hj

end Buckets

theorem Contains.change {str : ℕ → List UInt8} {m m' : HashMap V} {B : ℕ → Bucket V} {M M' : StrMap V}
    (hC : Contains str m B M) (hlen : m'.length = m.length) (k₀ : List UInt8) {L : Bucket V}
    (hne : ∀ k, k ≠ k₀ → M'.lookup k = M.lookup k)
    (hL : ∀ k v, k ≠ k₀ → (Entry str L k v ↔ Entry str (B (celBkdrHash k₀ % m.length)) k v))
    (hk₀ : ∀ v, M'.lookup k₀ = some v ↔ Entry str L k₀ v) :
    Contains str m' (Function.update B (celBkdrHash k₀ % m.length) L) M' := by
  intro k v
  rw [hlen]
  by_cases hk : k = k₀
  · subst hk
    rw [Function.update_self]
    exact hk₀ v
  · rw [hne k hk, hC k v]
    by_cases hi : celBkdrHash k % m.length = celBkdrHash k₀ % m.length
    · rw [hi, Function.update_self, hL k v hk]
    · rw [Function.update_of_ne hi]

/-! ## Searching -/

/-- The entry is stored under the string of `key`. -/
def hasName (str : ℕ → List UInt8) (key : ℕ) (e : HashEntry V) : Bool := str e.key = str key

/-- Equal pointers have equal strings, so only the strings count. -/
theorem sameKey_eq (str : ℕ → List UInt8) (key : ℕ) (c : HashNode V) :
    sameKey str key c = hasName str key c.entry := by
  rw [sameKey, hasName, Bool.eq_iff_iff, Bool.or_eq_true, decide_eq_true_eq, decide_eq_true_eq, decide_eq_true_eq]
  constructor
  · rintro (h | h)
    · rw [h]
      rfl
    · exact h.symm
  · exact fun h => .inr h.symm

section Search

variable {str : ℕ → List UInt8} {m : HashMap V} {B : ℕ → Bucket V}

/-- A search finds the node of its name, with the one before it, or null. -/
theorem findNode_cases (hB : Buckets str m B) (key : ℕ) :
    ((∃ q, findNode str m key = some (q, 0)) ∧
      ∀ z ∈ B (celBkdrHash (str key) % m.length), nameOf str z ≠ str key) ∨
    ∃ xs x ys, B (celBkdrHash (str key) % m.length) = xs ++ x :: ys ∧ nameOf str x = str key ∧ x.1 ≠ 0 ∧
      findNode str m key = some ((xs.map Prod.fst).getLastD 0, x.1) := by
  have hi := hB.idx_lt (str key)
  obtain ⟨p, hp, hc⟩ := hB.chain _ hi
  have hfuel := hB.length_lt hi
  have ht := sameKey_eq str (V := V) key
  generalize B (celBkdrHash (str key) % m.length) = L at hc hfuel ⊢
  rw [findNode, hp, Option.bind_some]
  cases hf : L.find? fun x => hasName str key x.2 with
  | none =>
    have hno : ∀ x ∈ L, hasName str key x.2 = false := by
      intro x hx
      exact Bool.eq_false_of_not_eq_true (List.find?_eq_none.mp hf x hx)
    exact .inl ⟨searchPrev_none (hasName str key) ht L _ 0 p hc hno hfuel,
      fun x hx => of_decide_eq_false (hno x hx)⟩
  | some x =>
    obtain ⟨hx, xs, ys, rfl, hxs⟩ := List.find?_eq_some_iff_append.mp hf
    obtain ⟨c, hr, -⟩ := hc.data_of_mem (x := x) (by simp)
    have hno : ∀ y ∈ xs, hasName str key y.2 = false := by
      intro y hy
      have := hxs y hy
      rwa [Bool.not_eq_true'] at this
    exact .inr ⟨xs, x, ys, rfl, of_decide_eq_true hx, ne_zero_of_read hr,
      searchPrev_some (hasName str key) ht hx xs _ 0 p hc hno hfuel⟩

end Search

/-! ## The map behind the buckets -/

section Counting

variable (M : StrMap V) (k : List UInt8) (v : V)

theorem keys_insert : (M.insert k v).keys = insert k M.keys := by
  ext a
  rw [Finmap.mem_keys, Finmap.mem_insert, Finset.mem_insert, Finmap.mem_keys]

theorem card_insert_of_lookup_eq_none {M : StrMap V} {k : List UInt8} (h : M.lookup k = none) :
    (M.insert k v).keys.card = M.keys.card + 1 := by
  rw [keys_insert, Finset.card_insert_of_notMem]
  rwa [Finmap.mem_keys, ← Finmap.lookup_eq_none]

theorem card_insert_of_lookup_eq_some {M : StrMap V} {k : List UInt8} {w : V} (h : M.lookup k = some w) :
    (M.insert k v).keys.card = M.keys.card := by
  rw [keys_insert, Finset.insert_eq_of_mem]
  rw [Finmap.mem_keys]
  exact Finmap.mem_of_lookup_eq_some h

theorem card_erase_of_lookup_eq_some {M : StrMap V} {k : List UInt8} {w : V} (h : M.lookup k = some w) :
    (M.erase k).keys.card = M.keys.card - 1 := by
  rw [Finmap.keys_erase, Finset.card_erase_of_mem]
  rw [Finmap.mem_keys]
  exact Finmap.mem_of_lookup_eq_some h

theorem card_pos_of_lookup_eq_some {M : StrMap V} {k : List UInt8} {w : V} (h : M.lookup k = some w) :
    0 < M.keys.card := Finset.card_pos.mpr ⟨k, Finmap.mem_keys.mpr (Finmap.mem_of_lookup_eq_some h)⟩

end Counting

/-- The nodes of the hash map are the entries of `M`. -/
def HashMap.Keeps (str : ℕ → List UInt8) (m : HashMap V) (M : StrMap V) : Prop :=
  ∃ B, Buckets str m B ∧ Contains str m B M

/-- The hash map holds `M`. A table at the largest threshold doubles with every further key. -/
structure HashMap.Holds (str : ℕ → List UInt8) (m : HashMap V) (M : StrMap V) : Prop where
  buckets : ∃ B, Buckets str m B ∧ Contains str m B M
  size : m.size = M.keys.card
  threshold : m.threshold = m.factor.scale m.length
  grown : 2 ^ (m.size - (2 ^ 32 - 256)) ≤ m.length

section Changes

variable {str : ℕ → List UInt8} {m : HashMap V} {M : StrMap V} {B : ℕ → Bucket V} {key : ℕ} {xs ys : Bucket V}
  {x : ℕ × HashEntry V}

theorem lookup_of_split (hC : Contains str m B M)
    (hsplit : B (celBkdrHash (str key) % m.length) = xs ++ x :: ys) (hx : nameOf str x = str key) :
    M.lookup (str key) = some x.2.value := by
  rw [hC, hsplit, entry_middle]
  exact .inl ⟨hx, rfl⟩

theorem lookup_of_absent (hC : Contains str m B M)
    (hno : ∀ z ∈ B (celBkdrHash (str key) % m.length), nameOf str z ≠ str key) : M.lookup (str key) = none := by
  refine Option.eq_none_iff_forall_ne_some.mpr fun v h => ?_
  rw [hC] at h
  exact not_entry_of_name_ne hno v h

theorem updateNode_keeps (hB : Buckets str m B) (hC : Contains str m B M)
    (hsplit : B (celBkdrHash (str key) % m.length) = xs ++ x :: ys) (hx : nameOf str x = str key) (f : V → V) :
    ∃ h, updateNode m x.1 f = some (x.2.value, { m with heap := h }) ∧
      HashMap.Keeps str { m with heap := h } (M.insert (str key) (f x.2.value)) := by
  have hi := hB.idx_lt (str key)
  have hmem : x ∈ B (celBkdrHash (str key) % m.length) := by rw [hsplit]; simp
  obtain ⟨c, hr, hcx⟩ := hB.read_of_mem hi hmem
  obtain ⟨h', hmod, hr'⟩ := modify_spec hr fun c => { c with value := f c.value }
  have hval : c.value = x.2.value := by rw [← hcx]; rfl
  have hname : nameOf str (x.1, HashNode.entry { c with value := f c.value }) = nameOf str x := by
    rw [nameOf, nameOf, ← hcx]
    rfl
  have hnd := hB.nodup _ hi
  rw [hsplit] at hnd
  have hplaced := hB.placed _ hi
  rw [hsplit] at hplaced
  have hB' : Buckets str { m with heap := h' } (Function.update B (celBkdrHash (str key) % m.length)
      (xs ++ (x.1, HashNode.entry { c with value := f c.value }) :: ys)) := by
    refine hB.change hi rfl rfl (fun _ _ => rfl) (fun j hj hji y hy => ?_) ?_ ?_ ?_
    · exact (hr' y.1).trans (if_neg (hB.addr_ne hj hi hji hy hmem))
    · obtain ⟨p, hp, hc⟩ := hB.chain _ hi
      have hnodup := hB.addr_nodup hi
      rw [hsplit] at hc hnodup
      exact ⟨p, hp, hc.update hnodup hr rfl hr'⟩
    · intro z hz
      rw [List.mem_append, List.mem_cons] at hz
      rcases hz with hz | rfl | hz
      · exact hplaced z (by simp [hz])
      · have h := hplaced x (by simp)
        rw [hname]
        rwa [← hcx] at h
      · exact hplaced z (by simp [hz])
    · rw [List.map_append, List.map_cons, hname]
      rwa [List.map_append, List.map_cons] at hnd
  have hC' : Contains str { m with heap := h' } (Function.update B (celBkdrHash (str key) % m.length)
      (xs ++ (x.1, HashNode.entry { c with value := f c.value }) :: ys))
      (M.insert (str key) (f x.2.value)) := by
    refine hC.change rfl (str key) (fun k hk => Finmap.lookup_insert_of_ne _ hk) (fun k v hk => ?_) (fun v => ?_)
    · rw [hsplit, entry_middle, entry_middle, hname, hx]
      simp [Ne.symm hk]
    · have hno := not_entry_of_name_ne (name_ne_of_nodup hnd) v
      rw [hx] at hno
      rw [Finmap.lookup_insert, entry_middle, hname, hx]
      simp only [true_and, hno, or_false, Option.some.injEq, ← hval]
      rfl
  refine ⟨h', ?_, _, hB', hC'⟩
  rw [updateNode, hr, Option.bind_some, hmod, Option.map_some, hval]

theorem updateNode_holds (hM : m.Holds str M) (hB : Buckets str m B) (hC : Contains str m B M)
    (hsplit : B (celBkdrHash (str key) % m.length) = xs ++ x :: ys) (hx : nameOf str x = str key) (f : V → V) :
    ∃ m', updateNode m x.1 f = some (x.2.value, m') ∧ m'.Holds str (M.insert (str key) (f x.2.value)) := by
  obtain ⟨h, hrun, hkeeps⟩ := updateNode_keeps hB hC hsplit hx f
  have hcard := card_insert_of_lookup_eq_some (f x.2.value) (lookup_of_split hC hsplit hx)
  exact ⟨_, hrun, hkeeps, hM.size.trans hcard.symm, hM.threshold, hM.grown⟩

theorem removeNodeAt_chain (hB : Buckets str m B) {i : ℕ} (hi : i < m.length) (hsplit : B i = xs ++ x :: ys) :
    ∃ m', removeNodeAt m i ((xs.map Prod.fst).getLastD 0) x.1 = some (x.2.value, m') ∧
      m'.length = m.length ∧ m'.threshold = m.threshold ∧ m'.factor = m.factor ∧
      m'.size = u32 (m.size + (2 ^ 32 - 1)) ∧ m'.table.length = m.table.length ∧
      (∀ j, j ≠ i → m'.table[j]? = m.table[j]?) ∧
      (∃ p, m'.table[i]? = some p ∧ Chain HashNode.next HashNode.entry m'.heap p (xs ++ ys)) ∧
      ∀ a, a ∉ (xs ++ x :: ys).map Prod.fst → m'.heap.read a = m.heap.read a := by
  obtain ⟨p, hp, hc⟩ := hB.chain i hi
  have hnd := hB.addr_nodup hi
  rw [hsplit] at hc hnd
  obtain ⟨c, hr, hcx⟩ := hc.data_of_mem (x := x) (by simp)
  have hval : c.value = x.2.value := by rw [← hcx]; rfl
  have hlt : i < m.table.length := by rw [hB.table_length]; exact hi
  rcases List.eq_nil_or_concat' xs with rfl | ⟨zs, y, rfl⟩
  · -- the first node: the bucket now starts behind it
    obtain ⟨h', hf, hr'⟩ := free_spec hr
    obtain ⟨rfl, c₁, hc₁, -, hc⟩ := hc
    rw [hr, Option.some.injEq] at hc₁
    subst hc₁
    rw [List.nil_append, List.map_cons, List.nodup_cons] at hnd
    refine ⟨{ m with heap := h', table := m.table.set i c.next, size := u32 (m.size + (2 ^ 32 - 1)) }, ?_, rfl,
      rfl, rfl, rfl, List.length_set, fun j hj => List.getElem?_set_ne (Ne.symm hj), ⟨c.next, ?_, ?_⟩, fun a ha => ?_⟩
    · rw [removeNodeAt, hr, Option.bind_some]
      simp only [List.map_nil, List.getLastD_nil, if_true, Option.bind_some, hf, Option.map_some, hval]
    · exact List.getElem?_set_self hlt
    · refine hc.frame fun z hz => ?_
      rw [hr', if_neg (ne_of_mem_of_not_mem (List.mem_map_of_mem hz) hnd.1)]
    · rw [List.nil_append, List.map_cons, List.mem_cons, not_or] at ha
      exact (hr' a).trans (if_neg ha.1)
  · -- a later node: the one before it skips it
    rw [List.append_assoc, List.singleton_append] at hc hnd
    obtain ⟨d, hy, hdy⟩ := hc.data_of_mem (x := y) (by simp)
    have hxy : x.1 ≠ y.1 := by
      rw [List.map_append, List.nodup_append] at hnd
      have h := (List.nodup_cons.mp hnd.2.1).1
      exact fun e => h (by rw [← e]; simp)
    obtain ⟨h₁, hm, hr₁⟩ := modify_spec hy fun p => { p with next := c.next }
    obtain ⟨h', hf, hr'⟩ := free_spec (h := h₁) (a := x.1) (c := c) (by rw [hr₁, if_neg hxy, hr])
    have hread : ∀ b, b ≠ x.1 → h'.read b = if b = y.1 then some { d with next := c.next } else m.heap.read b := by
      intro b hb
      rw [hr', if_neg hb, hr₁]
    have hlast : ((zs ++ [y]).map Prod.fst).getLastD 0 = y.1 := by simp
    refine ⟨{ m with heap := h', size := u32 (m.size + (2 ^ 32 - 1)) }, ?_, rfl, rfl, rfl, rfl, rfl,
      fun _ _ => rfl, ⟨p, hp, ?_⟩, fun a ha => ?_⟩
    · rw [removeNodeAt, hr, Option.bind_some, hlast, if_neg (ne_zero_of_read hy), hm, Option.map_some,
        Option.bind_some]
      simp only [hf, Option.map_some, hval]
    · rw [List.append_assoc, List.singleton_append]
      exact hc.unlink hnd hy hr (c := { d with next := c.next }) rfl rfl hread
    · have hax : a ≠ x.1 := by
        rintro rfl
        exact ha (by simp)
      have hay : a ≠ y.1 := by
        rintro rfl
        exact ha (by simp)
      exact (hread a hax).trans (if_neg hay)

theorem removeNodeAt_holds (hM : m.Holds str M) (hB : Buckets str m B) (hC : Contains str m B M)
    (hsize : m.size < 2 ^ 32) (hsplit : B (celBkdrHash (str key) % m.length) = xs ++ x :: ys)
    (hx : nameOf str x = str key) :
    ∃ m', removeNodeAt m (celBkdrHash (str key) % m.length) ((xs.map Prod.fst).getLastD 0) x.1 =
      some (x.2.value, m') ∧ m'.Holds str (M.erase (str key)) := by
  have hi := hB.idx_lt (str key)
  obtain ⟨m', hrem, hlen, hthr, hfac, hsz, htab, hother, hchain, hread⟩ := removeNodeAt_chain hB hi hsplit
  have hlook := lookup_of_split hC hsplit hx
  have hpos := card_pos_of_lookup_eq_some hlook
  have hnd := hB.nodup _ hi
  have hplaced := hB.placed _ hi
  rw [hsplit] at hnd hplaced
  have hsub : List.Sublist (xs ++ ys) (xs ++ x :: ys) := (List.sublist_cons_self x ys).append_left xs
  have hB' : Buckets str m' (Function.update B (celBkdrHash (str key) % m.length) (xs ++ ys)) := by
    refine hB.change hi hlen htab hother (fun j hj hji y hy => hread y.1 ?_) hchain
      (fun z hz => hplaced z (hsub.subset hz)) ((hsub.map _).nodup hnd)
    intro hmem
    obtain ⟨z, hz, e⟩ := List.mem_map.mp hmem
    exact hB.addr_ne hi hj (Ne.symm hji) (by rw [hsplit]; exact hz) hy e
  have hC' : Contains str m' (Function.update B (celBkdrHash (str key) % m.length) (xs ++ ys))
      (M.erase (str key)) := by
    refine hC.change hlen (str key) (fun k hk => Finmap.lookup_erase_ne hk) (fun k v hk => ?_) (fun v => ?_)
    · rw [hsplit, entry_middle, hx]
      simp [Ne.symm hk]
    · have hno := not_entry_of_name_ne (name_ne_of_nodup hnd) v
      rw [hx] at hno
      rw [Finmap.lookup_erase]
      simp [hno]
  have hsz' : m'.size = m.size - 1 := by
    rw [hsz, u32]
    have := hM.size
    omega
  refine ⟨m', hrem, ⟨_, hB', hC'⟩, ?_, ?_, ?_⟩
  · rw [hsz', hM.size, card_erase_of_lookup_eq_some hlook]
  · rw [hthr, hM.threshold, hfac, hlen]
  · rw [hsz', hlen]
    exact (Nat.pow_le_pow_right (by decide) (by omega)).trans hM.grown

end Changes

/-! ## Rebuilding -/

/-- The nodes of `A` that belong into bucket `j` of a table of `n` buckets, last one first. -/
def slot (n : ℕ) (A : Bucket V) (j : ℕ) : Bucket V := (A.filter fun x => x.2.hash % n = j).reverse

/-- The new table links exactly the nodes `A`. -/
def Relinked (n : ℕ) (h : Heap (HashNode V)) (table : List ℕ) (A : Bucket V) : Prop :=
  table.length = n ∧ ∀ j, j < n → ∃ p, table[j]? = some p ∧ Chain HashNode.next HashNode.entry h p (slot n A j)

theorem slot_concat (n : ℕ) (A : Bucket V) (x : ℕ × HashEntry V) (j : ℕ) :
    slot n (A ++ [x]) j = if x.2.hash % n = j then x :: slot n A j else slot n A j := by
  unfold slot
  rw [List.filter_append, List.filter_singleton]
  split_ifs with h
  · simp [h]
  · simp [h]

theorem mem_slot {n : ℕ} {A : Bucket V} {x : ℕ × HashEntry V} {j : ℕ} :
    x ∈ slot n A j ↔ x ∈ A ∧ x.2.hash % n = j := by
  rw [slot, List.mem_reverse, List.mem_filter, decide_eq_true_eq]

theorem relinked_step {n : ℕ} (hn : 0 < n) {h h' : Heap (HashNode V)} {table : List ℕ} {A : Bucket V}
    (hR : Relinked n h table A) {x : ℕ × HashEntry V} {c : HashNode V} (hcx : c.entry = x.2)
    (hx : x.1 ∉ A.map Prod.fst) {t : ℕ} (ht : table[x.2.hash % n]? = some t)
    (hr : ∀ b, h'.read b = if b = x.1 then some { c with next := t } else h.read b) :
    Relinked n h' (table.set (x.2.hash % n) x.1) (A ++ [x]) := by
  refine ⟨by rw [List.length_set, hR.1], fun j hj => ?_⟩
  obtain ⟨p, hp, hc⟩ := hR.2 j hj
  have hfresh : x.1 ∉ (slot n A j).map Prod.fst := by
    intro hmem
    obtain ⟨y, hy, e⟩ := List.mem_map.mp hmem
    exact hx (e ▸ List.mem_map_of_mem (mem_slot.mp hy).1)
  rw [slot_concat]
  split_ifs with hj'
  · subst hj'
    rw [hp, Option.some.injEq] at ht
    refine ⟨x.1, List.getElem?_set_self (by rw [hR.1]; exact Nat.mod_lt _ hn), ?_⟩
    have hpush := hc.push hfresh (c := { c with next := t }) ht.symm hr
    have hentry : HashNode.entry { c with next := t } = x.2 := by rw [← hcx]; rfl
    rwa [hentry] at hpush
  · refine ⟨p, by rw [List.getElem?_set_ne hj', hp], hc.frame fun y hy => ?_⟩
    rw [hr, if_neg (ne_of_mem_of_not_mem (List.mem_map_of_mem hy) hfresh)]

theorem relinkChain_spec {n : ℕ} (hn : 0 < n) (L : Bucket V) : ∀ (A : Bucket V) (e : ℕ) (h : Heap (HashNode V))
    (table : List ℕ) (fuel : ℕ), Chain HashNode.next HashNode.entry h e L → ((A ++ L).map Prod.fst).Nodup →
      Relinked n h table A → L.length < fuel →
      ∃ h' table', relinkChain n fuel e h table = some (h', table') ∧ Relinked n h' table' (A ++ L) ∧
        ∀ a, a ∉ L.map Prod.fst → h'.read a = h.read a := by
  induction L with
  | nil =>
    intro A e h table fuel hc _ hR hf
    obtain ⟨fuel, rfl⟩ := Nat.exists_eq_add_of_lt hf
    refine ⟨h, table, ?_, by rwa [List.append_nil], fun _ _ => rfl⟩
    rw [relinkChain, if_pos (show e = 0 from hc)]
  | cons x L ih =>
    intro A e h table fuel hc hnd hR hf
    obtain ⟨fuel, rfl⟩ := Nat.exists_eq_add_of_lt (Nat.zero_lt_of_lt hf)
    obtain ⟨rfl, c, hr, hcx, hc⟩ := hc
    obtain ⟨t, ht, -⟩ := hR.2 (x.2.hash % n) (Nat.mod_lt _ hn)
    obtain ⟨h₁, hm, hr₁⟩ := modify_spec hr fun c => { c with next := t }
    have hhash : c.hash = x.2.hash := by rw [← hcx]; rfl
    have hnd' := hnd
    rw [List.map_append, List.nodup_append] at hnd'
    obtain ⟨-, hndL, hdisj⟩ := hnd'
    rw [List.map_cons, List.nodup_cons] at hndL
    have hxA : x.1 ∉ A.map Prod.fst := fun hmem => hdisj _ hmem x.1 (List.mem_cons_self ..) rfl
    have hstep := relinked_step hn hR hcx hxA ht hr₁
    have hcL : Chain HashNode.next HashNode.entry h₁ c.next L := hc.frame fun y hy => by
      rw [hr₁, if_neg (ne_of_mem_of_not_mem (List.mem_map_of_mem hy) hndL.1)]
    rw [List.append_cons] at hnd ⊢
    obtain ⟨h', table', hrun, hR', hread⟩ := ih (A ++ [x]) c.next h₁ _ fuel hcL hnd hstep (by
      rw [List.length_cons] at hf
      omega)
    refine ⟨h', table', ?_, hR', fun a ha => ?_⟩
    · rw [Nat.zero_add, relinkChain, if_neg (ne_zero_of_read hr), hr, Option.bind_some, hhash, ht,
        Option.bind_some, hm, Option.bind_some, hrun]
    · rw [List.map_cons, List.mem_cons, not_or] at ha
      rw [hread a ha.2, hr₁, if_neg ha.1]

section Rebuild

variable {str : ℕ → List UInt8} {m : HashMap V} {M : StrMap V} {B : ℕ → Bucket V}

theorem Buckets.flat_addr_nodup (hB : Buckets str m B) {i : ℕ} (hi : i ≤ m.length) :
    (((List.range i).flatMap B).map Prod.fst).Nodup := by
  rw [List.map_flatMap, List.nodup_flatMap]
  refine ⟨fun j hj => hB.addr_nodup ((List.mem_range.mp hj).trans_le hi), ?_⟩
  refine List.Nodup.pairwise_of_forall_ne List.nodup_range fun j hj k hk hjk => ?_
  intro a ha hb
  obtain ⟨x, hx, rfl⟩ := List.mem_map.mp ha
  obtain ⟨y, hy, e⟩ := List.mem_map.mp hb
  exact hB.addr_ne ((List.mem_range.mp hj).trans_le hi) ((List.mem_range.mp hk).trans_le hi) hjk hx hy e.symm

theorem Buckets.flat_name_nodup (hB : Buckets str m B) :
    (((List.range m.length).flatMap B).map (nameOf str)).Nodup := by
  rw [List.map_flatMap, List.nodup_flatMap]
  refine ⟨fun j hj => hB.nodup j (List.mem_range.mp hj), ?_⟩
  refine List.Nodup.pairwise_of_forall_ne List.nodup_range fun j hj k hk hjk => ?_
  intro a ha hb
  obtain ⟨x, hx, rfl⟩ := List.mem_map.mp ha
  obtain ⟨y, hy, e⟩ := List.mem_map.mp hb
  have hxj := hB.placed j (List.mem_range.mp hj) x hx
  have hyk := hB.placed k (List.mem_range.mp hk) y hy
  rw [hxj.1] at hxj
  rw [hyk.1, e] at hyk
  exact hjk (hxj.2.symm.trans hyk.2)

theorem rebuildLoop_spec (hB : Buckets str m B) {n : ℕ} (hn : 0 < n) : ∀ (k i : ℕ) (h : Heap (HashNode V))
    (table : List ℕ), i + k = m.length →
      (∀ j, i ≤ j → j < m.length → ∀ x ∈ B j, h.read x.1 = m.heap.read x.1) →
      Relinked n h table ((List.range i).flatMap B) →
      ∃ h' table', rebuildLoop m.table n k i h table = some (h', table') ∧
        Relinked n h' table' ((List.range m.length).flatMap B)
  | 0, i, h, table, hik, _, hR => by
    rw [Nat.add_zero] at hik
    subst hik
    exact ⟨h, table, rfl, hR⟩
  | k + 1, i, h, table, hik, hread, hR => by
    have hi : i < m.length := by omega
    obtain ⟨p, hp, hc⟩ := hB.chain i hi
    have hc' := hc.frame (hread i (Nat.le_refl i) hi)
    have hflat : (List.range (i + 1)).flatMap B = (List.range i).flatMap B ++ B i := by
      rw [List.range_succ, List.flatMap_append, List.flatMap_singleton]
    have hnd := hB.flat_addr_nodup (Nat.succ_le_of_lt hi)
    rw [Nat.succ_eq_add_one, hflat] at hnd
    obtain ⟨h₁, t₁, hrun, hR₁, hread₁⟩ := relinkChain_spec hn (B i) _ p h table (h.keys.card + 1) hc' hnd hR
      (Nat.lt_succ_of_le (hc'.length_le_card (hB.addr_nodup hi)))
    rw [← hflat] at hR₁
    obtain ⟨h', t', hrun', hR'⟩ := rebuildLoop_spec hB hn k (i + 1) h₁ t₁ (by omega) (fun j hij hj x hx => by
      rw [hread₁, hread j (by omega) hj x hx]
      intro hmem
      obtain ⟨y, hy, e⟩ := List.mem_map.mp hmem
      exact hB.addr_ne hi hj (by omega) hy hx e) hR₁
    refine ⟨h', t', ?_, hR'⟩
    rw [rebuildLoop, hp, Option.bind_some, hrun, Option.bind_some, hrun']

/-- **Rebuilding** keeps every node, in the bucket where the new table wants it. -/
theorem rebuildLoop_keeps (hB : Buckets str m B) (hC : Contains str m B M) {n : ℕ} (hpos : 0 < n) :
    ∃ h t, rebuildLoop m.table n m.length 0 m.heap (List.replicate n 0) = some (h, t) ∧
      HashMap.Keeps str { m with heap := h, table := t, length := n, threshold := m.factor.scale n } M := by
  have hempty : Relinked n m.heap (List.replicate n 0) ((List.range 0).flatMap B) := by
    refine ⟨List.length_replicate, fun j hj => ⟨0, ?_, rfl⟩⟩
    rw [List.getElem?_replicate, if_pos hj]
  obtain ⟨h', t', hrun, hlen, hR⟩ := rebuildLoop_spec hB hpos m.length 0 m.heap (List.replicate n 0)
    (Nat.zero_add _) (fun _ _ _ _ _ => rfl) hempty
  have hflat : ∀ x, x ∈ (List.range m.length).flatMap B ↔ ∃ i, i < m.length ∧ x ∈ B i := by
    intro x
    rw [List.mem_flatMap]
    simp only [List.mem_range]
  refine ⟨h', t', hrun, slot n ((List.range m.length).flatMap B), ⟨hpos, hlen, hR, ?_, ?_⟩, ?_⟩
  · intro j hj x hx
    obtain ⟨hA, hj'⟩ := mem_slot.mp hx
    obtain ⟨i, hi, hxi⟩ := (hflat x).mp hA
    exact ⟨(hB.placed i hi x hxi).1, hj'⟩
  · intro j hj
    rw [slot, List.map_reverse, List.nodup_reverse]
    exact (List.filter_sublist.map _).nodup hB.flat_name_nodup
  · intro k v
    rw [hC]
    constructor
    · rintro ⟨x, hx, rfl, hv⟩
      refine ⟨x, mem_slot.mpr ⟨(hflat x).mpr ⟨_, hB.idx_lt _, hx⟩, ?_⟩, rfl, hv⟩
      rw [(hB.placed _ (hB.idx_lt _) x hx).1]
    · rintro ⟨x, hx, rfl, hv⟩
      obtain ⟨i, hi, hxi⟩ := (hflat x).mp (mem_slot.mp hx).1
      have hpl := hB.placed i hi x hxi
      rw [hpl.1] at hpl
      exact ⟨x, by rw [hpl.2]; exact hxi, rfl, hv⟩

theorem rebuildHash_buckets {mem : ℕ → Bool} (hmem : ∀ n, mem n = true) (hB : Buckets str m B)
    (hC : Contains str m B M) (hlt : m.length < 2 ^ 30) :
    ∃ m', rebuildHash mem m = some m' ∧ m'.Keeps str M ∧ m'.size = m.size ∧
      m'.threshold = m'.factor.scale m'.length ∧ 2 * m.length ≤ m'.length := by
  obtain ⟨n, hn, hle⟩ := celNextPrime_spec (m.length * 2 + 1)
  obtain ⟨h, t, hrun, hkeeps⟩ := rebuildLoop_keeps hB hC (show 0 < n by omega)
  refine ⟨_, ?_, hkeeps, rfl, rfl, show 2 * m.length ≤ n by omega⟩
  rw [rebuildHash, u32_of_lt (by omega), hn, Option.bind_some, createNodeBlocks, if_pos (hmem _)]
  simp only [hrun, Option.map_some]

theorem rebuildHash_keeps (mem : ℕ → Bool) (hB : Buckets str m B) (hC : Contains str m B M) :
    ∃ m', rebuildHash mem m = some m' ∧ m'.Keeps str M := by
  obtain ⟨n, hn, hle⟩ := celNextPrime_spec (u32 (m.length * 2 + 1))
  have hodd : 0 < u32 (m.length * 2 + 1) := by
    unfold u32
    omega
  rw [rebuildHash, hn, Option.bind_some, createNodeBlocks]
  by_cases hmem : mem (8 * n) = true
  · obtain ⟨h, t, hrun, hkeeps⟩ := rebuildLoop_keeps hB hC (hodd.trans_le hle)
    refine ⟨_, ?_, hkeeps⟩
    rw [if_pos hmem]
    simp only [hrun, Option.map_some]
  · refine ⟨m, ?_, B, hB, hC⟩
    rw [if_neg hmem]

end Rebuild

section Adding

variable {str : ℕ → List UInt8} {m : HashMap V} {M : StrMap V} {B : ℕ → Bucket V} {mem : ℕ → Bool}
  {malloc : Malloc (HashNode V)}

theorem HashMap.Holds.size_lt (hM : m.Holds str M) (hlt : m.length < 2 ^ 30) : m.size + 1 < 2 ^ 32 := by
  have h : m.size - (2 ^ 32 - 256) < 30 :=
    (Nat.pow_lt_pow_iff_right (by decide)).mp (hM.grown.trans_lt hlt)
  omega

theorem addNode_links (mem : ℕ → Bool) (hmalloc : malloc.Total) (hB : Buckets str m B)
    (hC : Contains str m B M) {key : ℕ}
    (hno : ∀ z ∈ B (celBkdrHash (str key) % m.length), nameOf str z ≠ str key) (value : V) :
    ∃ h t, addNode mem malloc str m key value =
        (if m.threshold < u32 (m.size + 1) then
          rebuildHash mem { m with heap := h, table := t, size := u32 (m.size + 1) }
        else some { m with heap := h, table := t, size := u32 (m.size + 1) }) ∧
      HashMap.Keeps str { m with heap := h, table := t, size := u32 (m.size + 1) } (M.insert (str key) value) := by
  have hi := hB.idx_lt (str key)
  obtain ⟨p, hp, hc⟩ := hB.chain _ hi
  obtain ⟨a, h₁, ha, -, hfresh, hr₁⟩ := alloc_spec hmalloc m.heap (⟨key, value, p, 0⟩ : HashNode V)
  obtain ⟨h₂, hm, hr₂⟩ := modify_spec (h := h₁) (a := a) (c := ⟨key, value, p, 0⟩) (by rw [hr₁, if_pos rfl])
    fun c => { c with hash := celBkdrHash (str key) }
  have hr : ∀ b, h₂.read b = if b = a then some ⟨key, value, p, celBkdrHash (str key)⟩ else m.heap.read b := by
    intro b
    rw [hr₂, hr₁]
    split_ifs
    · rfl
    · rfl
  have hane : ∀ j, j < m.length → ∀ y ∈ B j, y.1 ≠ a := by
    rintro j hj y hy rfl
    obtain ⟨c, hc, -⟩ := hB.read_of_mem hj hy
    rw [hfresh] at hc
    cases hc
  obtain ⟨x, hx⟩ : ∃ x : ℕ × HashEntry V, x = (a, ⟨key, value, celBkdrHash (str key)⟩) := ⟨_, rfl⟩
  have hname : nameOf str x = str key := by rw [hx]; rfl
  refine ⟨h₂, m.table.set (celBkdrHash (str key) % m.length) a, ?_, Function.update B (celBkdrHash (str key) % m.length)
    (x :: B (celBkdrHash (str key) % m.length)), ?_, ?_⟩
  · rw [addNode]
    simp only [hp, createHashmapNode, ha, hm, Option.bind_some]
  · refine hB.change hi rfl List.length_set (fun j hj => List.getElem?_set_ne (Ne.symm hj))
      (fun j hj _ y hy => (hr y.1).trans (if_neg (hane j hj y hy))) ⟨a, ?_, ?_⟩ ?_ ?_
    · exact List.getElem?_set_self (by rw [hB.table_length]; exact hi)
    · have hmemb : a ∉ (B (celBkdrHash (str key) % m.length)).map Prod.fst := by
        intro hmem
        obtain ⟨y, hy, e⟩ := List.mem_map.mp hmem
        exact hane _ hi y hy e
      have hpush := hc.push hmemb (c := ⟨key, value, p, celBkdrHash (str key)⟩) rfl hr
      rw [hx]
      exact hpush
    · intro z hz
      rcases List.mem_cons.mp hz with rfl | hz
      · rw [hname, hx]
        exact ⟨rfl, rfl⟩
      · exact hB.placed _ hi z hz
    · rw [List.map_cons, List.nodup_cons, hname]
      refine ⟨fun hmem => ?_, hB.nodup _ hi⟩
      obtain ⟨z, hz, e⟩ := List.mem_map.mp hmem
      exact hno z hz e
  · refine hC.change rfl (str key) (fun k hk => Finmap.lookup_insert_of_ne _ hk) (fun k v hk => ?_) (fun v => ?_)
    · rw [entry_cons, hname]
      simp [Ne.symm hk]
    · have hno' := not_entry_of_name_ne hno v
      rw [Finmap.lookup_insert, entry_cons, hname, hx]
      simp [hno']

theorem addNode_holds (hmem : ∀ n, mem n = true) (hmalloc : malloc.Total) (hM : m.Holds str M)
    (hB : Buckets str m B) (hC : Contains str m B M) (hlt : m.length < 2 ^ 30) {key : ℕ}
    (hno : ∀ z ∈ B (celBkdrHash (str key) % m.length), nameOf str z ≠ str key) (value : V) :
    ∃ m', addNode mem malloc str m key value = some m' ∧ m'.Holds str (M.insert (str key) value) := by
  obtain ⟨h, t, hadd, B₁, hB₁, hC₁⟩ := addNode_links mem hmalloc hB hC hno value
  have hsize : u32 (m.size + 1) = m.size + 1 := u32_of_lt (hM.size_lt hlt)
  have hcard : m.size + 1 = (M.insert (str key) value).keys.card := by
    rw [card_insert_of_lookup_eq_none _ (lookup_of_absent hC hno), ← hM.size]
  rw [hsize] at hadd hB₁ hC₁
  rw [hadd]
  have hle := m.factor.scale_le m.length
  have hthr := hM.threshold
  split_ifs with hgrow
  · obtain ⟨m', hre, hB', hsz', hthr', hlen'⟩ := rebuildHash_buckets hmem hB₁ hC₁ hlt
    refine ⟨m', hre, hB', hsz'.trans hcard, hthr', ?_⟩
    have hpow : 2 ^ (m.size + 1 - (2 ^ 32 - 256)) ≤ 2 * 2 ^ (m.size - (2 ^ 32 - 256)) := by
      rw [← Nat.pow_succ']
      exact Nat.pow_le_pow_right (by decide) (by omega)
    rw [hsz']
    exact hpow.trans ((Nat.mul_le_mul_left 2 hM.grown).trans hlen')
  · refine ⟨_, rfl, ⟨B₁, hB₁, hC₁⟩, hcard, hthr, ?_⟩
    show 2 ^ (m.size + 1 - (2 ^ 32 - 256)) ≤ m.length
    rw [show m.size + 1 - (2 ^ 32 - 256) = 0 by omega]
    exact hB.length_pos

theorem addNode_keeps (mem : ℕ → Bool) (hmalloc : malloc.Total) (hB : Buckets str m B) (hC : Contains str m B M)
    {key : ℕ} (hno : ∀ z ∈ B (celBkdrHash (str key) % m.length), nameOf str z ≠ str key) (value : V) :
    ∃ m', addNode mem malloc str m key value = some m' ∧ m'.Keeps str (M.insert (str key) value) := by
  obtain ⟨h, t, hadd, B₁, hB₁, hC₁⟩ := addNode_links mem hmalloc hB hC hno value
  rw [hadd]
  split_ifs
  · exact rebuildHash_keeps mem hB₁ hC₁
  · exact ⟨_, rfl, B₁, hB₁, hC₁⟩

end Adding

/-! ## Clearing -/

section Clearing

variable {str : ℕ → List UInt8} {m : HashMap V} {M : StrMap V} {B : ℕ → Bucket V}

theorem freeChain_spec (L : Bucket V) : ∀ (e : ℕ) (h : Heap (HashNode V)) (fuel : ℕ),
    Chain HashNode.next HashNode.entry h e L → (L.map Prod.fst).Nodup → L.length < fuel →
    ∃ h', freeChain fuel e h = some (L.map fun x => x.2.value, h') ∧
      ∀ a, a ∉ L.map Prod.fst → h'.read a = h.read a := by
  induction L with
  | nil =>
    intro e h fuel hc _ hf
    obtain ⟨fuel, rfl⟩ := Nat.exists_eq_add_of_lt hf
    exact ⟨h, by rw [freeChain, if_pos (show e = 0 from hc)]; rfl, fun _ _ => rfl⟩
  | cons x L ih =>
    intro e h fuel hc hnd hf
    obtain ⟨fuel, rfl⟩ := Nat.exists_eq_add_of_lt (Nat.zero_lt_of_lt hf)
    obtain ⟨rfl, c, hr, hcx, hc⟩ := hc
    obtain ⟨h₁, hfree, hr₁⟩ := free_spec hr
    rw [List.map_cons, List.nodup_cons] at hnd
    have hcL : Chain HashNode.next HashNode.entry h₁ c.next L := hc.frame fun y hy => by
      rw [hr₁, if_neg (ne_of_mem_of_not_mem (List.mem_map_of_mem hy) hnd.1)]
    obtain ⟨h', hrun, hread⟩ := ih c.next h₁ fuel hcL hnd.2 (by
      rw [List.length_cons] at hf
      omega)
    refine ⟨h', ?_, fun a ha => ?_⟩
    · have hval : c.value = x.2.value := by rw [← hcx]; rfl
      rw [Nat.zero_add, freeChain, if_neg (ne_zero_of_read hr), hr, Option.bind_some, hfree, Option.bind_some, hrun,
        Option.map_some, hval]
      rfl
    · rw [List.map_cons, List.mem_cons, not_or] at ha
      rw [hread a ha.2, hr₁, if_neg ha.1]

/-- Freeing the buckets from `i` on; the released values come in table order. -/
theorem clearLoop_spec (hB : Buckets str m B) : ∀ (k i : ℕ) (m₁ : HashMap V), i + k = m.length →
    m₁.length = m.length → m₁.table.length = m.length → (∀ j, j < i → m₁.table[j]? = some 0) →
    (∀ j, i ≤ j → j < m.length → m₁.table[j]? = m.table[j]? ∧ ∀ x ∈ B j, m₁.heap.read x.1 = m.heap.read x.1) →
    ∃ m', clearLoop k i m₁ = some (((List.range' i k).flatMap B).map fun x => x.2.value, m') ∧
      m'.length = m.length ∧ m'.table.length = m.length ∧ (∀ j, j < m.length → m'.table[j]? = some 0) ∧
      m'.threshold = m₁.threshold ∧ m'.factor = m₁.factor
  | 0, i, m₁, hik, hlen, htab, hdone, _ => by
    rw [Nat.add_zero] at hik
    subst hik
    exact ⟨m₁, rfl, hlen, htab, hdone, rfl, rfl⟩
  | k + 1, i, m₁, hik, hlen, htab, hdone, hrest => by
    have hi : i < m.length := by omega
    obtain ⟨p, hp, hc⟩ := hB.chain i hi
    have hc' := hc.frame (hrest i (Nat.le_refl i) hi).2
    obtain ⟨h₁, hrun, hread⟩ := freeChain_spec (B i) p m₁.heap (m₁.heap.keys.card + 1) hc' (hB.addr_nodup hi)
      (Nat.lt_succ_of_le (hc'.length_le_card (hB.addr_nodup hi)))
    obtain ⟨m', hrun', hlen', htab', hdone', hthr', hfac'⟩ := clearLoop_spec hB k (i + 1)
      { m₁ with heap := h₁, table := m₁.table.set i 0 } (by omega) hlen (by rw [← htab]; exact List.length_set)
      (fun j hj => by
        rcases Nat.lt_succ_iff_lt_or_eq.mp hj with hj | rfl
        · exact (List.getElem?_set_ne (by omega)).trans (hdone j hj)
        · exact List.getElem?_set_self (by omega))
      (fun j hij hj => by
        refine ⟨(List.getElem?_set_ne (by omega)).trans (hrest j (by omega) hj).1, fun x hx => ?_⟩
        refine (hread x.1 fun hmem => ?_).trans ((hrest j (by omega) hj).2 x hx)
        obtain ⟨y, hy, e⟩ := List.mem_map.mp hmem
        exact hB.addr_ne hi hj (by omega) hy hx e)
    refine ⟨m', ?_, hlen', htab', hdone', hthr', hfac'⟩
    rw [clearLoop, (hrest i (Nat.le_refl i) hi).1, hp, Option.bind_some, hrun, Option.bind_some, hrun',
      Option.map_some, List.range'_succ, List.flatMap_cons, List.map_append]

theorem keeps_empty {m : HashMap V} (hpos : 0 < m.length) (htab : m.table.length = m.length)
    (hnull : ∀ j, j < m.length → m.table[j]? = some 0) : m.Keeps str ∅ := by
  refine ⟨fun _ => [], ⟨hpos, htab, fun j hj => ⟨0, hnull j hj, rfl⟩, ?_, ?_⟩, ?_⟩
  · intro j hj x hx
    cases hx
  · exact fun j hj => List.nodup_nil
  · intro k v
    rw [Finmap.lookup_empty]
    simp [Entry]

theorem holds_empty {m : HashMap V} (hpos : 0 < m.length) (htab : m.table.length = m.length)
    (hnull : ∀ j, j < m.length → m.table[j]? = some 0) (hsize : m.size = 0)
    (hthr : m.threshold = m.factor.scale m.length) : m.Holds str ∅ := by
  refine ⟨keeps_empty hpos htab hnull, ?_, hthr, ?_⟩
  · rw [hsize, Finmap.keys_empty, Finset.card_empty]
  · rw [hsize, Nat.zero_sub]
    exact hpos

theorem celHashmapClear_spec [Zero V] [DecidableEq V] (hB : Buckets str m B) (rfunc : Bool) :
    ∃ vs m', celHashmapClear m rfunc = some (vs, m') ∧ 0 < m'.length ∧ m'.table.length = m'.length ∧
      (∀ j, j < m'.length → m'.table[j]? = some 0) ∧ m'.size = 0 ∧
        (m.threshold = m.factor.scale m.length → m'.threshold = m'.factor.scale m'.length) := by
  obtain ⟨m', hrun, hlen, htab, hnull, hthr, hfac⟩ := clearLoop_spec hB m.length 0 m (Nat.zero_add _) rfl
    hB.table_length (fun j hj => absurd hj (Nat.not_lt_zero j)) fun j _ _ => ⟨rfl, fun _ _ => rfl⟩
  refine ⟨_, { m' with size := 0 }, by rw [celHashmapClear, hrun]; rfl, hlen.symm ▸ hB.length_pos, htab.trans hlen.symm,
    fun j hj => hnull j (hlen ▸ hj), rfl, fun h => ?_⟩
  show m'.threshold = m'.factor.scale m'.length
  rw [hthr, hfac, hlen, h]

theorem celHashmapClear_holds [Zero V] [DecidableEq V] (hM : m.Holds str M) (rfunc : Bool) :
    ∃ vs m', celHashmapClear m rfunc = some (vs, m') ∧ m'.Holds str ∅ := by
  obtain ⟨B, hB, -⟩ := hM.buckets
  obtain ⟨vs, m', hrun, hpos, htab, hnull, hsize, hthr⟩ := celHashmapClear_spec hB rfunc
  exact ⟨vs, m', hrun, holds_empty hpos htab hnull hsize (hthr hM.threshold)⟩

/-- A cleared map is empty whatever its keys point to by now. -/
theorem celHashmapClear_keeps [Zero V] [DecidableEq V] (hM : m.Keeps str M) (rfunc : Bool) (str' : ℕ → List UInt8) :
    ∃ vs m', celHashmapClear m rfunc = some (vs, m') ∧ m'.Keeps str' ∅ := by
  obtain ⟨B, hB, -⟩ := hM
  obtain ⟨vs, m', hrun, hpos, htab, hnull, -⟩ := celHashmapClear_spec hB rfunc
  exact ⟨vs, m', hrun, keeps_empty hpos htab hnull⟩

end Clearing

/-! ## The refinement -/

section Spec

variable (str : ℕ → List UInt8)

/-- The finite-map operation that a call stands for, with its result; `0` is `NULL`. -/
def mapStep [Zero V] (M : StrMap V) : HashOp V → StrMap V × HashOut V
  | .put key v => (M.insert (str key) v, .ptr ((M.lookup (str key)).getD 0))
  | .get key => (M, .ptr ((M.lookup (str key)).getD 0))
  | .set key v => (if str key ∈ M then M.insert (str key) v else M, .ptr ((M.lookup (str key)).getD 0))
  | .remove key _ => (M.erase (str key), .ptr ((M.lookup (str key)).getD 0))
  | .exist key => (M, .int (if str key ∈ M then 1 else 0))
  | .clear _ => (∅, .void)

/-- Replace the number stored under `k`, if there is one. -/
def modifyNum (M : StrMap ℤ) (k : List UInt8) (f : ℤ → ℤ) : StrMap ℤ × HashOut ℤ :=
  match M.lookup k with
  | none => (M, .int 0)
  | some n => (M.insert k (f n), .int 1)

/-- The same for the integer map; the numbers are 32-bit integers. -/
def imapStep (M : StrMap ℤ) : IHashOp → StrMap ℤ × HashOut ℤ
  | .put key v => (M.insert (str key) v, .int 1)
  | .get key => (M, .int ((M.lookup (str key)).getD 0))
  | .set key v => modifyNum M (str key) fun _ => v
  | .inc key n => modifyNum M (str key) fun num => i32 (num + n)
  | .dec key n => modifyNum M (str key) fun num => i32 (num - n)
  | .remove key => (M.erase (str key), .int (if str key ∈ M then 1 else 0))
  | .exist key => (M, .int (if str key ∈ M then 1 else 0))
  | .clear => (∅, .void)

end Spec

/-- The table length is below `2 ^ 30` before and after the call. -/
def HashMap.Fits {O : Type} (step : HashMap V → O → Option (HashMap V × HashOut V)) (m : HashMap V) (o : O) : Prop :=
  m.length < 2 ^ 30 ∧ ∀ r, step m o = some r → r.1.length < 2 ^ 30

theorem fits_cons {O : Type} {step : HashMap V → O → Option (HashMap V × HashOut V)} {m : HashMap V} {o : O}
    {ops : List O} {r : HashMap V × HashOut V} (h : step m o = some r) (hm : m.length < 2 ^ 30)
    (hr : r.1.length < 2 ^ 30) (hops : Guarded step (HashMap.Fits step) r.1 ops) :
    Guarded step (HashMap.Fits step) m (o :: ops) := by
  refine guarded_cons ⟨hm, fun r' h' => ?_⟩ h hops
  rw [h, Option.some.injEq] at h'
  rwa [← h']

/-- The size is that of `M`, and every key of `M` is the name of exactly one node, in the bucket of its
hash code. -/
def HashMap.Represents (str : ℕ → List UInt8) (m : HashMap V) (M : StrMap V) : Prop :=
  m.size = M.keys.card ∧ ∃ B : ℕ → Bucket V,
    (∀ i, i < m.length → ∃ p, m.table[i]? = some p ∧ Chain HashNode.next HashNode.entry m.heap p (B i)) ∧
    (∀ i, i < m.length → ∀ x ∈ B i, M.lookup (nameOf str x) = some x.2.value) ∧
    ∀ k ∈ M, ∀ i, i < m.length →
      ((B i).map (nameOf str)).count k = if i = celBkdrHash k % m.length then 1 else 0

section Calls

variable {mem : ℕ → Bool} {malloc : Malloc (HashNode V)} {str : ℕ → List UInt8} {m : HashMap V} {M : StrMap V}

theorem HashMap.Holds.represents (hM : m.Holds str M) : m.Represents str M := by
  obtain ⟨B, hB, hC⟩ := hM.buckets
  refine ⟨hM.size, B, hB.chain, fun i hi x hx => ?_, fun k hk i hi => ?_⟩
  · have h := hB.placed i hi x hx
    rw [h.1] at h
    rw [hC, h.2]
    exact ⟨x, hx, rfl, rfl⟩
  · split_ifs with h
    · obtain ⟨v, hv⟩ := Finmap.mem_iff.mp hk
      obtain ⟨x, hx, hname, -⟩ := (hC k v).mp hv
      refine List.count_eq_one_of_mem (hB.nodup i hi) ?_
      rw [h, ← hname]
      exact List.mem_map_of_mem (hname ▸ hx)
    · refine List.count_eq_zero.mpr fun hmem => ?_
      obtain ⟨x, hx, hname⟩ := List.mem_map.mp hmem
      have hp := hB.placed i hi x hx
      rw [hp.1, hname] at hp
      exact h hp.2.symm

/-- A search decides between an absent and a present key, and what each call then does. -/
theorem HashMap.Holds.cases (mem : ℕ → Bool) (malloc : Malloc (HashNode V)) (hM : m.Holds str M)
    (hlt : m.length < 2 ^ 30) (key : ℕ) :
    (M.lookup (str key) = none ∧ (∃ q, findNode str m key = some (q, 0)) ∧
      ∀ v, (∀ n, mem n = true) → malloc.Total →
        ∃ m', addNode mem malloc str m key v = some m' ∧ m'.Holds str (M.insert (str key) v)) ∨
    ∃ v prev e, M.lookup (str key) = some v ∧ findNode str m key = some (prev, e) ∧ e ≠ 0 ∧
      (m.heap.read e).map HashNode.value = some v ∧
      (∀ f, ∃ m', updateNode m e f = some (v, m') ∧ m'.Holds str (M.insert (str key) (f v))) ∧
      ∃ m', removeNodeAt m (celBkdrHash (str key) % m.length) prev e = some (v, m') ∧
        m'.Holds str (M.erase (str key)) := by
  obtain ⟨B, hB, hC⟩ := hM.buckets
  rcases findNode_cases hB key with ⟨hfind, hno⟩ | ⟨xs, x, ys, hsplit, hx, hne, hfind⟩
  · exact .inl ⟨lookup_of_absent hC hno, hfind, fun v hmem hmalloc => addNode_holds hmem hmalloc hM hB hC hlt hno v⟩
  · have hi := hB.idx_lt (str key)
    obtain ⟨c, hr, hcx⟩ := hB.read_of_mem (x := x) hi (by rw [hsplit]; simp)
    refine .inr ⟨x.2.value, _, x.1, lookup_of_split hC hsplit hx, hfind, hne, ?_, fun f =>
      updateNode_holds hM hB hC hsplit hx f,
      removeNodeAt_holds hM hB hC (Nat.lt_of_succ_lt (hM.size_lt hlt)) hsplit hx⟩
    rw [hr, ← hcx]
    rfl

theorem HashMap.Keeps.cases (mem : ℕ → Bool) (hmalloc : malloc.Total) (hM : m.Keeps str M) (key : ℕ) :
    (M.lookup (str key) = none ∧ (∃ q, findNode str m key = some (q, 0)) ∧
      ∀ v, ∃ m', addNode mem malloc str m key v = some m' ∧ m'.Keeps str (M.insert (str key) v)) ∨
    ∃ v prev e, M.lookup (str key) = some v ∧ findNode str m key = some (prev, e) ∧ e ≠ 0 ∧
      (m.heap.read e).map HashNode.value = some v ∧
      ∀ f, ∃ m', updateNode m e f = some (v, m') ∧ m'.Keeps str (M.insert (str key) (f v)) := by
  obtain ⟨B, hB, hC⟩ := hM
  rcases findNode_cases hB key with ⟨hfind, hno⟩ | ⟨xs, x, ys, hsplit, hx, hne, hfind⟩
  · exact .inl ⟨lookup_of_absent hC hno, hfind, fun v => addNode_keeps mem hmalloc hB hC hno v⟩
  · have hi := hB.idx_lt (str key)
    obtain ⟨c, hr, hcx⟩ := hB.read_of_mem (x := x) hi (by rw [hsplit]; simp)
    refine .inr ⟨x.2.value, _, x.1, lookup_of_split hC hsplit hx, hfind, hne, ?_, fun f => ?_⟩
    · rw [hr, ← hcx]
      rfl
    · obtain ⟨h, hrun, hkeeps⟩ := updateNode_keeps hB hC hsplit hx f
      exact ⟨_, hrun, hkeeps⟩

theorem mem_iff_of_lookup {k : List UInt8} {v : V} (h : M.lookup k = some v) : k ∈ M :=
  Finmap.mem_of_lookup_eq_some h

theorem not_mem_of_lookup {k : List UInt8} (h : M.lookup k = none) : k ∉ M := Finmap.lookup_eq_none.mp h

theorem erase_of_lookup_eq_none {k : List UInt8} (h : M.lookup k = none) : M.erase k = M := by
  refine Finmap.ext_lookup fun a => ?_
  by_cases ha : a = k
  · rw [ha, Finmap.lookup_erase, h]
  · exact Finmap.lookup_erase_ne ha

/-- **One `cel_hashmap` call refines one finite-map operation.** -/
theorem hashStep_refines [Zero V] [DecidableEq V] (hmem : ∀ n, mem n = true) (hmalloc : malloc.Total)
    (m : HashMap V) (M : StrMap V) (o : HashOp V) (hM : m.Holds str M)
    (hfit : HashMap.Fits (hashStep mem malloc str) m o) :
    ∃ m', hashStep mem malloc str m o = some (m', (mapStep str M o).2) ∧ m'.Holds str (mapStep str M o).1 := by
  have hcases := hM.cases mem malloc hfit.1
  cases o with
  | put key v =>
    rcases hcases key with ⟨hnone, ⟨q, hq⟩, hadd⟩ | ⟨w, prev, e, hsome, hfind, hne, -, hupd, -⟩
    · obtain ⟨m', hrun, hM'⟩ := hadd v hmem hmalloc
      refine ⟨m', ?_, hM'⟩
      rw [hashStep, celHashmapPut, hq, Option.bind_some, if_neg (by simp), hrun, mapStep, hnone]
      rfl
    · obtain ⟨m', hrun, hM'⟩ := hupd fun _ => v
      refine ⟨m', ?_, hM'⟩
      rw [hashStep, celHashmapPut, hfind, Option.bind_some, if_pos hne, hrun, mapStep, hsome]
      rfl
  | get key =>
    refine ⟨m, ?_, hM⟩
    rcases hcases key with ⟨hnone, ⟨q, hq⟩, -⟩ | ⟨w, prev, e, hsome, hfind, hne, hval, -⟩
    · rw [hashStep, celHashmapGet, hq, Option.bind_some, if_pos rfl, mapStep, hnone]
      rfl
    · rw [hashStep, celHashmapGet, hfind, Option.bind_some, if_neg hne, hval, mapStep, hsome]
      rfl
  | set key v =>
    rcases hcases key with ⟨hnone, ⟨q, hq⟩, -⟩ | ⟨w, prev, e, hsome, hfind, hne, -, hupd, -⟩
    · refine ⟨m, ?_, ?_⟩
      · rw [hashStep, celHashmapSet, hq, Option.bind_some, if_pos rfl, mapStep, hnone]
        rfl
      · rw [mapStep, if_neg (not_mem_of_lookup hnone)]
        exact hM
    · obtain ⟨m', hrun, hM'⟩ := hupd fun _ => v
      refine ⟨m', ?_, ?_⟩
      · rw [hashStep, celHashmapSet, hfind, Option.bind_some, if_neg hne, hrun, mapStep, hsome]
        rfl
      · rw [mapStep, if_pos (mem_iff_of_lookup hsome)]
        exact hM'
  | remove key rfunc =>
    rcases hcases key with ⟨hnone, ⟨q, hq⟩, -⟩ | ⟨w, prev, e, hsome, hfind, hne, -, -, m', hrun, hM'⟩
    · refine ⟨m, ?_, ?_⟩
      · rw [hashStep, celHashmapRemove, hq, Option.bind_some, if_pos rfl, mapStep, hnone]
        rfl
      · rw [mapStep, erase_of_lookup_eq_none hnone]
        exact hM
    · refine ⟨m', ?_, hM'⟩
      rw [hashStep, celHashmapRemove, hfind, Option.bind_some, if_neg hne, hrun, mapStep, hsome]
      rfl
  | exist key =>
    refine ⟨m, ?_, hM⟩
    rcases hcases key with ⟨hnone, ⟨q, hq⟩, -⟩ | ⟨w, prev, e, hsome, hfind, hne, -⟩
    · rw [hashStep, celHashmapExists, hq, Option.map_some, if_pos rfl, mapStep, if_neg (not_mem_of_lookup hnone)]
      rfl
    · rw [hashStep, celHashmapExists, hfind, Option.map_some, if_neg hne, mapStep,
        if_pos (mem_iff_of_lookup hsome)]
      rfl
  | clear rfunc =>
    obtain ⟨vs, m', hrun, hM'⟩ := celHashmapClear_holds hM rfunc
    exact ⟨m', by rw [hashStep, hrun]; rfl, hM'⟩

end Calls

section IntCalls

variable {mem : ℕ → Bool} {malloc : Malloc (HashNode ℤ)} {str : ℕ → List UInt8}

theorem replaceNum_refines {m : HashMap ℤ} {M : StrMap ℤ} (hM : m.Holds str M) (hlt : m.length < 2 ^ 30) (key : ℕ)
    (f : ℤ → ℤ) :
    ∃ m', (replaceNum str m key f).map (fun r => (r.2, HashOut.int r.1)) =
      some (m', (modifyNum M (str key) f).2) ∧ m'.Holds str (modifyNum M (str key) f).1 := by
  rcases hM.cases (fun _ => true) Malloc.bump hlt key with
    ⟨hnone, ⟨q, hq⟩, -⟩ | ⟨w, prev, e, hsome, hfind, hne, -, hupd, -⟩
  · refine ⟨m, ?_, ?_⟩
    · rw [replaceNum, hq, Option.bind_some, if_pos rfl, modifyNum, hnone]
      rfl
    · rw [modifyNum, hnone]
      exact hM
  · obtain ⟨m', hrun, hM'⟩ := hupd f
    refine ⟨m', ?_, ?_⟩
    · rw [replaceNum, hfind, Option.bind_some, if_neg hne, hrun, modifyNum, hsome]
      rfl
    · rw [modifyNum, hsome]
      exact hM'

/-- **One `cel_ihashmap` call refines one finite-map operation.** -/
theorem ihashStep_refines (hmem : ∀ n, mem n = true) (hmalloc : malloc.Total) (m : HashMap ℤ) (M : StrMap ℤ)
    (o : IHashOp) (hM : m.Holds str M) (hfit : HashMap.Fits (ihashStep mem str malloc) m o) :
    ∃ m', ihashStep mem str malloc m o = some (m', (imapStep str M o).2) ∧
      m'.Holds str (imapStep str M o).1 := by
  have hcases := hM.cases mem malloc hfit.1
  cases o with
  | put key v =>
    rcases hcases key with ⟨hnone, ⟨q, hq⟩, hadd⟩ | ⟨w, prev, e, hsome, hfind, hne, -, hupd, -⟩
    · obtain ⟨m', hrun, hM'⟩ := hadd v hmem hmalloc
      refine ⟨m', ?_, hM'⟩
      rw [ihashStep, celIhashmapPut, hq, Option.bind_some, if_neg (by simp), hrun]
      rfl
    · obtain ⟨m', hrun, hM'⟩ := hupd fun _ => v
      refine ⟨m', ?_, hM'⟩
      rw [ihashStep, celIhashmapPut, hfind, Option.bind_some, if_pos hne, hrun]
      rfl
  | get key =>
    refine ⟨m, ?_, hM⟩
    rcases hcases key with ⟨hnone, ⟨q, hq⟩, -⟩ | ⟨w, prev, e, hsome, hfind, hne, hval, -⟩
    · rw [ihashStep, celIhashmapGet, celHashmapGet, hq, Option.bind_some, if_pos rfl, imapStep, hnone]
      rfl
    · rw [ihashStep, celIhashmapGet, celHashmapGet, hfind, Option.bind_some, if_neg hne, hval, imapStep, hsome]
      rfl
  | set key v => exact replaceNum_refines hM hfit.1 key fun _ => v
  | inc key n => exact replaceNum_refines hM hfit.1 key fun num => i32 (num + n)
  | dec key n => exact replaceNum_refines hM hfit.1 key fun num => i32 (num - n)
  | remove key =>
    rcases hcases key with ⟨hnone, ⟨q, hq⟩, -⟩ | ⟨w, prev, e, hsome, hfind, hne, -, -, m', hrun, hM'⟩
    · refine ⟨m, ?_, ?_⟩
      · rw [ihashStep, celIhashmapRemove, hq, Option.bind_some, if_pos rfl, imapStep,
          if_neg (not_mem_of_lookup hnone)]
        rfl
      · rw [imapStep, erase_of_lookup_eq_none hnone]
        exact hM
    · refine ⟨m', ?_, hM'⟩
      rw [ihashStep, celIhashmapRemove, hfind, Option.bind_some, if_neg hne, hrun, imapStep,
        if_pos (mem_iff_of_lookup hsome)]
      rfl
  | exist key =>
    refine ⟨m, ?_, hM⟩
    rcases hcases key with ⟨hnone, ⟨q, hq⟩, -⟩ | ⟨w, prev, e, hsome, hfind, hne, -⟩
    · rw [ihashStep, celIhashmapExists, celHashmapExists, hq, Option.map_some, if_pos rfl, imapStep,
        if_neg (not_mem_of_lookup hnone)]
      rfl
    · rw [ihashStep, celIhashmapExists, celHashmapExists, hfind, Option.map_some, if_neg hne, imapStep,
        if_pos (mem_iff_of_lookup hsome)]
      rfl
  | clear =>
    obtain ⟨vs, m', hrun, hM'⟩ := celHashmapClear_holds hM false
    exact ⟨m', by rw [ihashStep, celIhashmapClear, hrun]; rfl, hM'⟩

end IntCalls

theorem celHashmapInit_keeps {mem : ℕ → Bool} {m₀ m : HashMap V} {opacity : ℤ} (hpos : 0 < opacity) {factor : Factor}
    (h : celHashmapInit mem m₀ opacity factor = (1, m)) (str : ℕ → List UInt8) : m.Keeps str ∅ := by
  rw [celHashmapInit, if_pos hpos.le, createNodeBlocks] at h
  split_ifs at h with hmem
  · obtain ⟨-, rfl⟩ := Prod.mk.inj h
    refine keeps_empty (show 0 < opacity.toNat by omega) List.length_replicate fun j hj => ?_
    rw [List.getElem?_replicate, if_pos hj]
  · exact absurd (Prod.mk.inj h).1 (by decide)

theorem celHashmapInit_holds {mem : ℕ → Bool} (hmem : ∀ n, mem n = true) (str : ℕ → List UInt8) (m₀ : HashMap V)
    {opacity : ℤ} (hpos : 0 < opacity) (factor : Factor) :
    (celHashmapInit mem m₀ opacity factor).1 = 1 ∧ (celHashmapInit mem m₀ opacity factor).2.Holds str ∅ := by
  have hinit : celHashmapInit mem m₀ opacity factor =
      (1, { m₀ with table := List.replicate opacity.toNat 0, length := opacity.toNat, size := 0,
                    factor := factor, threshold := factor.scale opacity.toNat }) := by
    rw [celHashmapInit, if_pos hpos.le, createNodeBlocks, if_pos (hmem _)]
  rw [hinit]
  refine ⟨rfl, holds_empty ?_ List.length_replicate (fun j hj => ?_) rfl rfl⟩
  · show 0 < opacity.toNat
    omega
  · rw [List.getElem?_replicate, if_pos hj]

/-- **The hash maps refine finite maps**: every run of `cel_hashmap` and of `cel_ihashmap` calls on a
new map gives the results of the finite map keyed by strings. -/
theorem hashmap_refines_finmap [Zero V] [DecidableEq V] {mem : ℕ → Bool} (hmem : ∀ n, mem n = true)
    {malloc : Malloc (HashNode V)} (hmalloc : malloc.Total) {imalloc : Malloc (HashNode ℤ)}
    (himalloc : imalloc.Total) (str : ℕ → List UInt8) {opacity : ℤ} (hpos : 0 < opacity) (factor : Factor) :
    (∀ (m₀ : HashMap V) (ops : List (HashOp V)),
      Guarded (hashStep mem malloc str) (HashMap.Fits (hashStep mem malloc str))
        (celHashmapInit mem m₀ opacity factor).2 ops →
      (celHashmapInit mem m₀ opacity factor).1 = 1 ∧
        ∃ m, exec (hashStep mem malloc str) (celHashmapInit mem m₀ opacity factor).2 ops =
            some (m, (specExec (mapStep str) ∅ ops).2) ∧
          m.Represents str (specExec (mapStep str) ∅ ops).1) ∧
    ∀ (m₀ : HashMap ℤ) (ops : List IHashOp),
      Guarded (ihashStep mem str imalloc) (HashMap.Fits (ihashStep mem str imalloc))
        (celHashmapInit mem m₀ opacity factor).2 ops →
      (celHashmapInit mem m₀ opacity factor).1 = 1 ∧
        ∃ m, exec (ihashStep mem str imalloc) (celHashmapInit mem m₀ opacity factor).2 ops =
            some (m, (specExec (imapStep str) ∅ ops).2) ∧
          m.Represents str (specExec (imapStep str) ∅ ops).1 := by
  constructor
  · intro m₀ ops hfit
    obtain ⟨hone, hM⟩ := celHashmapInit_holds hmem str m₀ hpos factor
    obtain ⟨m, hrun, hM'⟩ := exec_refines _ (hashStep_refines hmem hmalloc) ops _ ∅ hM hfit
    exact ⟨hone, m, hrun, hM'.represents⟩
  · intro m₀ ops hfit
    obtain ⟨hone, hM⟩ := celHashmapInit_holds hmem str m₀ hpos factor
    obtain ⟨m, hrun, hM'⟩ := exec_refines _ (ihashStep_refines hmem himalloc) ops _ ∅ hM hfit
    exact ⟨hone, m, hrun, hM'.represents⟩

/-- Two keys in a table of one bucket: the second `put` rebuilds the table, and both are still there. -/
theorem hashmap_refines_finmap_run : ∃ m : HashMap ℕ,
    exec (hashStep (fun _ => true) Malloc.bump fun key => [UInt8.ofNat key])
        (celHashmapInit (fun _ => true) ⟨∅, [], 0, 0, 0, ⟨fun _ => 1, fun _ => by decide⟩⟩ 1
          ⟨fun _ => 1, fun _ => by decide⟩).2
        [.put 65 7, .put 66 8, .get 65] = some (m, [.ptr 0, .ptr 0, .ptr 7]) := by
  obtain ⟨-, m, hrun, -⟩ := (hashmap_refines_finmap (V := ℕ) (fun _ => rfl) Malloc.bump_total Malloc.bump_total
    (fun key => [UInt8.ofNat key]) (show (0 : ℤ) < 1 by decide) ⟨fun _ => 1, fun _ => by decide⟩).1
    ⟨∅, [], 0, 0, 0, ⟨fun _ => 1, fun _ => by decide⟩⟩ [.put 65 7, .put 66 8, .get 65] (by
      refine fits_cons rfl (by decide) (by decide) (fits_cons rfl (by decide) (by decide)
        (fits_cons rfl (by decide) (by decide) (guarded_nil _))))
  exact ⟨m, hrun⟩

end Sarah
