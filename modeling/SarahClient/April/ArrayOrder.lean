import SarahClient.April.Plain
import Mathlib.Data.List.Forall2

/-!
# The order of a JSON array, `april.c`

The elements of an array stand in the order in which `lua_next` visits the table, and no key says where one belongs.

* `LuaTable.entries`, `Converts`: what is visited, and what becomes of a value;
* `JsonArray`: what the array of a table with the keys `1` to `n` should be;
* `InKeyOrder`: the value visited in each place is converted as the one that belongs there;
* `jsonArray_of_inKeyOrder`, `inKeyOrder_of_jsonArray`, **`jsonArray_iff`**: it is so exactly then;
* **`not_jsonArray`**: two strings, visited the other way round.
-/

namespace Sarah

open Heap Forest

/-- The keys and values in the order of `lua_next`. -/
def LuaTable.entries : LuaTable → List (LuaKey × (LuaLeaf ⊕ LuaTable))
  | nil => []
  | leaf key value rest => (key, .inl value) :: rest.entries
  | table key value rest => (key, .inr value) :: rest.entries

/-- The item that a value becomes, and the items below it; a function has none, nor has a table that adds an item
twice. -/
inductive Converts : LuaLeaf ⊕ LuaTable → JsonItem × Forest JsonItem → Prop
  | leaf {v : LuaLeaf} {item : JsonItem} (h : leafItem v = some item) : Converts (.inl v) (item, .nil)
  | table {t : LuaTable} (h : t.Steady) :
    Converts (.inr t) (newItem (containerType t.isArray), t.forest t.isArray none none)

/-- The key of the element in place `i`, from 0 on. -/
def elementKey (i : ℕ) : LuaKey := .integer (Int64.ofInt (i + 1))

/-- **The property**: what is printed is an array of `n` elements, and each is the conversion of the value at its
key. -/
def JsonArray (malloc : Malloc (TCell JsonItem)) (gc : ℕ → Bool) (elsewhere : List UInt8 → Bool) (room : ℕ)
    (h : Heap (TCell JsonItem)) (t : LuaTable) (n : ℕ) : Prop :=
  ∃ json b root kids, jsonBuild malloc gc elsewhere room h t = some (json, b) ∧
    readForest b.heap (b.heap.keys.card + 1) json = some (.cons root kids .nil) ∧ root.type = .array ∧
    kids.trees.length = n ∧
    ∀ i < n, ∃ v x, (elementKey i, v) ∈ t.entries ∧ Converts v x ∧ kids.trees[i]? = some x

/-- The value visited in each place, and the value at the key of that place, have the same conversion. -/
def InKeyOrder (t : LuaTable) (n : ℕ) : Prop :=
  ∀ i < n, ∃ e v x, t.entries[i]? = some e ∧ (elementKey i, v) ∈ t.entries ∧ Converts e.2 x ∧ Converts v x

/-! ## Entries -/

theorem keys_eq_entries (t : LuaTable) : t.keys = t.entries.map Prod.fst := by
  induction t with
  | nil => rfl
  | leaf key value rest ih => rw [LuaTable.keys, LuaTable.entries, List.map_cons, ih]
  | table key value rest _ ih => rw [LuaTable.keys, LuaTable.entries, List.map_cons, ih]

theorem Converts.unique {v : LuaLeaf ⊕ LuaTable} {x y : JsonItem × Forest JsonItem} (hx : Converts v x)
    (hy : Converts v y) : x = y := by
  cases hx with
  | leaf hitem =>
    cases hy with
    | leaf hitem' => rw [Option.some.inj (hitem.symm.trans hitem')]
  | table _ =>
    cases hy with
    | table _ => rfl

theorem trees_forest {t : LuaTable} (hall : ∀ e ∈ t.entries, ∃ x, Converts e.2 x) (key : Option (List UInt8)) :
    List.Forall₂ (fun e x => Converts e.2 x) t.entries (t.forest true key none).trees := by
  induction t generalizing key with
  | nil => exact List.Forall₂.nil
  | leaf k v rest ih =>
    obtain ⟨x, hx⟩ := hall _ List.mem_cons_self
    have hrest := ih fun e he => hall e (List.mem_cons_of_mem _ he)
    cases hx with
    | leaf hitem =>
      rw [LuaTable.forest, hitem]
      exact List.Forall₂.cons (.leaf hitem) (hrest _)
  | table k u rest _ ih =>
    obtain ⟨x, hx⟩ := hall _ List.mem_cons_self
    have hrest := ih fun e he => hall e (List.mem_cons_of_mem _ he)
    cases hx with
    | table hsteady => exact List.Forall₂.cons (.table hsteady) (hrest _)

theorem getElem?_of_forall₂ {α β : Type} {R : α → β → Prop} {l : List α} {l' : List β} (h : List.Forall₂ R l l') {i : ℕ}
    {a : α} (ha : l[i]? = some a) : ∃ b, l'[i]? = some b ∧ R a b := by
  obtain ⟨hi, rfl⟩ := List.getElem?_eq_some_iff.mp ha
  have hi' : i < l'.length := h.length_eq ▸ hi
  exact ⟨l'[i], List.getElem?_eq_getElem hi', h.get hi hi'⟩

theorem marks_of_converts {t : LuaTable} (hall : ∀ e ∈ t.entries, ∃ x, Converts e.2 x) :
    (∀ m ∈ t.marks, m.supported = true) ∧ t.SubSteady := by
  induction t with
  | nil => exact ⟨fun m hm => absurd hm List.not_mem_nil, trivial⟩
  | leaf k v rest ih =>
    obtain ⟨hmarks, hsub⟩ := ih fun e he => hall e (List.mem_cons_of_mem _ he)
    obtain ⟨x, hx⟩ := hall _ List.mem_cons_self
    refine ⟨fun m hm => ?_, hsub⟩
    rcases List.mem_cons.mp hm with rfl | hm
    · cases hx with
      | leaf hitem => exact Option.isSome_of_mem hitem
    · exact hmarks m hm
  | table k u rest _ ih =>
    obtain ⟨hmarks, hsub⟩ := ih fun e he => hall e (List.mem_cons_of_mem _ he)
    obtain ⟨x, hx⟩ := hall _ List.mem_cons_self
    refine ⟨fun m hm => ?_, ?_, hsub⟩
    · rcases List.mem_cons.mp hm with rfl | hm
      · rfl
      · exact hmarks m hm
    · cases hx with
      | table hsteady => exact hsteady

/-! ## The keys `1` to `n` -/

section

variable {t : LuaTable} {n : ℕ} (hkeys : t.keys.Perm (LuaTable.arrayKeys n))

include hkeys

theorem isArray_of_perm : t.isArray = true := by
  rw [LuaTable.isArray, List.all_eq_true]
  intro k hk
  obtain ⟨i, -, rfl⟩ := List.mem_map.mp (hkeys.mem_iff.mp hk)
  rfl

theorem length_entries_of_perm : t.entries.length = n := by
  have hlen := hkeys.length_eq
  rw [keys_eq_entries, List.length_map, LuaTable.arrayKeys, List.length_map, List.length_range] at hlen
  exact hlen

theorem exists_elementKey (hn : n < 2 ^ 63) {e : LuaKey × (LuaLeaf ⊕ LuaTable)} (he : e ∈ t.entries) :
    ∃ i < n, e.1 = elementKey i ∧ ∀ v, (elementKey i, v) ∈ t.entries → v = e.2 := by
  have hkey : e.1 ∈ t.keys := by
    rw [keys_eq_entries]
    exact List.mem_map_of_mem he
  obtain ⟨i, hi, heq⟩ := List.mem_map.mp (hkeys.mem_iff.mp hkey)
  have hnd : (t.entries.map Prod.fst).Nodup := by
    rw [← keys_eq_entries]
    exact hkeys.nodup_iff.mpr (arrayKeys_nodup hn)
  refine ⟨i, List.mem_range.mp hi, heq.symm, fun v hv => ?_⟩
  exact congrArg Prod.snd (List.inj_on_of_nodup_map hnd hv he heq)

omit hkeys in
theorem steady_of_converts (hall : ∀ e ∈ t.entries, ∃ x, Converts e.2 x) : t.Steady := by
  obtain ⟨hmarks, hsub⟩ := marks_of_converts hall
  have hbehind : ∀ m ∈ t.marks.dropWhile fun m => !(t.isArray || m.keyed), m.supported = true := fun m hm =>
    hmarks m ((List.dropWhile_suffix _).subset hm)
  exact ⟨⟨List.pairwise_of_forall_mem_list fun _ _ m hm _ => hbehind m hm,
    fun _ m hm => hbehind m (List.mem_of_mem_tail hm)⟩, hsub⟩

variable {malloc : Malloc (TCell JsonItem)} (hmalloc : malloc.Total) {gc : ℕ → Bool} {elsewhere : List UInt8 → Bool}
  {room : ℕ} {h : Heap (TCell JsonItem)}

include hmalloc

theorem jsonArray_of_inKeyOrder (hslots : t.slots ≤ room) (hkept : t.KeysKept (conversionHeld elsewhere t))
    (horder : InKeyOrder t n) : JsonArray malloc gc elsewhere room h t n := by
  have hlen := length_entries_of_perm hkeys
  have hall : ∀ e ∈ t.entries, ∃ x, Converts e.2 x := by
    intro e he
    obtain ⟨i, hi, rfl⟩ := List.getElem_of_mem he
    obtain ⟨e', v, x, hget, -, hx, -⟩ := horder i (hlen ▸ hi)
    rw [List.getElem?_eq_getElem hi, Option.some.injEq] at hget
    exact ⟨x, by rw [hget]; exact hx⟩
  have hsteady := steady_of_converts hall
  obtain ⟨json, b, hrun⟩ := exists_jsonBuild gc hmalloc h hslots hsteady hkept
  have htrees := trees_forest hall none
  refine ⟨json, b, _, _, hrun,
    readForest_jsonBuild hmalloc hsteady hkept hrun, by rw [isArray_of_perm hkeys]; rfl, ?_, ?_⟩
  · rw [isArray_of_perm hkeys, ← htrees.length_eq, hlen]
  · intro i hi
    obtain ⟨e, v, x, hget, hmem, hx, hv⟩ := horder i hi
    obtain ⟨y, hy, hey⟩ := getElem?_of_forall₂ htrees hget
    rw [isArray_of_perm hkeys]
    exact ⟨v, x, hmem, hv, hey.unique hx ▸ hy⟩

/-- **An array that is right was visited in place.** -/
theorem inKeyOrder_of_jsonArray (hn : n < 2 ^ 63) (hkept : t.KeysKept (conversionHeld elsewhere t))
    (harray : JsonArray malloc gc elsewhere room h t n) : t.slots ≤ room ∧ InKeyOrder t n := by
  obtain ⟨json, b, root, kids, hrun, hread, -, hkidsLen, helements⟩ := harray
  have hall : ∀ e ∈ t.entries, ∃ x, Converts e.2 x := by
    intro e he
    obtain ⟨i, hi, -, hunique⟩ := exists_elementKey hkeys hn he
    obtain ⟨v, x, hmem, hx, -⟩ := helements i hi
    rw [hunique v hmem] at hx
    exact ⟨x, hx⟩
  rw [readForest_jsonBuild hmalloc (steady_of_converts hall) hkept hrun, LuaTable.json, isArray_of_perm hkeys,
    Option.some.injEq, Forest.cons.injEq] at hread
  obtain ⟨-, rfl, -⟩ := hread
  refine ⟨slots_of_jsonBuild hkept hrun, fun i hi => ?_⟩
  obtain ⟨v, x, hmem, hx, hget⟩ := helements i hi
  have hi' : i < t.entries.length := by
    rw [length_entries_of_perm hkeys]
    exact hi
  obtain ⟨y, hy, hey⟩ := getElem?_of_forall₂ (trees_forest hall none) (List.getElem?_eq_getElem hi')
  rw [hget, Option.some.injEq] at hy
  exact ⟨t.entries[i], v, x, List.getElem?_eq_getElem hi', hmem, hy ▸ hey, hx⟩

/-- **The order of a JSON array.** With the keys `1` to `n` the elements are in place, whenever the collector runs,
exactly if the stack has room, the keys inside are kept, and the values are visited in place. -/
theorem jsonArray_iff (hn : n < 2 ^ 63) : (∀ gc, JsonArray malloc gc elsewhere room h t n) ↔
    t.slots ≤ room ∧ t.KeysKept (conversionHeld elsewhere t) ∧ InKeyOrder t n := by
  constructor
  · intro hall
    obtain ⟨json, b, root, kids, hrun, -⟩ := hall fun _ => true
    have hkept := keysKept_of_jsonBuild hrun
    obtain ⟨hslots, horder⟩ := inKeyOrder_of_jsonArray hkeys hmalloc hn hkept (hall fun _ => true)
    exact ⟨hslots, hkept, horder⟩
  · rintro ⟨hslots, hkept, horder⟩ gc
    exact jsonArray_of_inKeyOrder hkeys hmalloc hslots hkept horder

end

theorem inKeyOrder_of_keys {t : LuaTable} {n : ℕ} (hkeys : t.keys = LuaTable.arrayKeys n)
    (hall : ∀ e ∈ t.entries, ∃ x, Converts e.2 x) : InKeyOrder t n := by
  intro i hi
  have hi' : i < t.entries.length := by
    rw [length_entries_of_perm (List.Perm.of_eq hkeys)]
    exact hi
  obtain ⟨x, hx⟩ := hall _ (List.getElem_mem hi')
  have hkey : t.entries[i].1 = elementKey i := by
    have hget := congrArg (·[i]?) hkeys
    simp only [keys_eq_entries, LuaTable.arrayKeys, List.getElem?_map, List.getElem?_eq_getElem hi',
      List.getElem?_range hi, Option.map_some, Option.some.injEq] at hget
    exact hget
  have hmem : (elementKey i, t.entries[i].2) ∈ t.entries := by
    rw [← hkey]
    exact List.getElem_mem hi'
  exact ⟨t.entries[i], t.entries[i].2, x, List.getElem?_eq_getElem hi', hmem, hx, hx⟩

/-! ## Two strings -/

/-- `{"a", "b"}`, visited in the order of the array part while the collector runs all the time. -/
theorem jsonArray_iff_ascending : JsonArray Malloc.bump (fun _ => true) (fun _ => false) 20 ∅
    (.leaf (.integer 1) (.string (lit "a")) (.leaf (.integer 2) (.string (lit "b")) .nil)) 2 := by
  refine (jsonArray_iff (by decide) Malloc.bump_total (by decide)).mpr
    ⟨by decide, ?_, inKeyOrder_of_keys (by decide) ?_⟩ _
  · refine keysKept_of_uniform (.inl (by decide)) ?_ _
    trivial
  · intro e he
    rcases List.mem_cons.mp he with rfl | he
    · exact ⟨_, .leaf rfl⟩
    · rcases List.mem_cons.mp he with rfl | he
      · exact ⟨_, .leaf rfl⟩
      · cases he

/-- `{[2]="b",[1]="a"}`, which is visited from the end of the hash part: `["b","a"]` is printed. -/
theorem not_jsonArray : ¬ ∀ gc elsewhere, JsonArray Malloc.bump gc elsewhere 20 ∅
    (.leaf (.integer 2) (.string (lit "b")) (.leaf (.integer 1) (.string (lit "a")) .nil)) 2 := by
  intro hall
  have hkept := keysKept_of_uniform (t := .leaf (.integer 2) (.string (lit "b"))
    (.leaf (.integer 1) (.string (lit "a")) .nil)) (.inl (by decide)) trivial
  obtain ⟨-, horder⟩ := inKeyOrder_of_jsonArray (by decide) Malloc.bump_total (by decide) (hkept _)
    (hall (fun _ => false) fun _ => false)
  obtain ⟨e, v, x, hget, hmem, hx, hv⟩ := horder 0 (by decide)
  obtain rfl : v = .inl (.string (lit "a")) := by
    rcases List.mem_cons.mp hmem with h | h
    · exact absurd (Prod.mk.inj h).1 (by decide)
    · exact (Prod.mk.inj (List.mem_singleton.mp h)).2
  cases hget
  cases hx with
  | leaf hb =>
    cases hv with
    | leaf ha =>
      exact absurd (hb.trans ha.symm) (by decide)

end Sarah
