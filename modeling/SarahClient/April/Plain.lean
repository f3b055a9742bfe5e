import SarahClient.April.Keys

/-!
# Plain tables

* `LuaTable.Plain`: nested arrays and string-keyed tables of NUL-free strings, booleans and 32-bit integers;
* `LuaTable.Short`: the arrays have indices of type `int`;
* `Coded`: the keys that the decoder gives;
* `keysKept_of_uniform`: such a table is tidy and its keys are kept;
* **`readForest_jsonBuild`**: what printing reads.
-/

namespace Sarah

open Heap Forest

/-- A NUL-free string, a boolean or a 32-bit integer. -/
def LuaLeaf.Plain : LuaLeaf → Prop
  | .boolean _ => True
  | .integer i => -2 ^ 31 ≤ i.toInt ∧ i.toInt < 2 ^ 31
  | .string s => 0 ∉ s
  | _ => False

namespace LuaTable

/-- Not empty, with distinct NUL-free strings as keys. -/
def StringKeys (t : LuaTable) : Prop :=
  t ≠ nil ∧ t.keys.Nodup ∧ ∀ k ∈ t.keys, ∃ s, k = .string s ∧ 0 ∉ s

/-- The integers `1` to `n`. -/
def arrayKeys (n : ℕ) : List LuaKey := (List.range n).map fun i : ℕ => .integer (Int64.ofInt (i + 1))

/-- Not empty, with the keys `1` to `n` in this order. -/
def ArrayKeys (t : LuaTable) : Prop := t ≠ nil ∧ ∃ n < 2 ^ 63, t.keys = arrayKeys n

/-- Every value is plain, and so are the tables inside. -/
def SubPlain : LuaTable → Prop
  | nil => True
  | leaf _ value rest => value.Plain ∧ rest.SubPlain
  | table _ t rest => ((t.StringKeys ∨ t.ArrayKeys) ∧ t.SubPlain) ∧ rest.SubPlain

/-- A nesting of non-empty arrays and string-keyed tables of plain values. -/
def Plain (t : LuaTable) : Prop := (t.StringKeys ∨ t.ArrayKeys) ∧ t.SubPlain

/-- Every array inside has fewer than `2 ^ 31` elements. -/
def SubShort : LuaTable → Prop
  | nil => True
  | leaf _ _ rest => rest.SubShort
  | table _ t rest => ((t.isArray = true → t.keys.length < 2 ^ 31) ∧ t.SubShort) ∧ rest.SubShort

/-- The table, where it is an array, and every array inside have fewer than `2 ^ 31` elements. -/
def Short (t : LuaTable) : Prop := (t.isArray = true → t.keys.length < 2 ^ 31) ∧ t.SubShort

end LuaTable

/-! ## One value -/

theorem createNumber_ofInt {i : ℤ} (h₁ : -2 ^ 31 ≤ i) (h₂ : i < 2 ^ 31) :
    (createNumber (some (Double.ofInt i))).valueint = i ∧
    (createNumber (some (Double.ofInt i))).fractional = false := by
  have hof : Double.ofInt i = .fin i := Double.ofInt_of_range (by omega) (by omega)
  have hint : (Double.fin i).toInt = i := by
    rw [Double.toInt]
    split_ifs with hhi hlo
    · have : (2 ^ 31 - 1 : ℤ) ≤ i := by exact_mod_cast hhi
      omega
    · have : i ≤ (-2 ^ 31 : ℤ) := by exact_mod_cast hlo
      omega
    · rw [Rat.num_intCast, Rat.den_intCast, Nat.cast_one, Int.tdiv_one]
  rw [hof]
  refine ⟨hint, ?_⟩
  rw [JsonItem.fractional]
  show (!(Double.fin (i : ℚ)).le (.fin (((createNumber (some (Double.fin i))).valueint : ℤ) : ℚ))) = false
  rw [show (createNumber (some (Double.fin i))).valueint = i from hint]
  simp [Double.le]

/-! ## The keys -/

/-- The keys that the decoder will give to entries from `index` on. -/
def Coded (isArray : Bool) : List LuaKey → ℤ → Prop
  | [], _ => True
  | k :: ks, index =>
    if isArray then k = .integer (Int64.ofInt index) ∧ Coded isArray ks (i32 (index + 1))
    else (∃ s, k = .string s ∧ 0 ∉ s) ∧ Coded isArray ks index

theorem place_coded {isArray : Bool} {k : LuaKey} {ks : List LuaKey} {index : ℤ} (hk : Coded isArray (k :: ks) index)
    {item : JsonItem} (hitem : item.string = none) (key : Option (List UInt8)) (sub : Forest JsonItem)
    (rest : Option (JsonItem × Forest JsonItem) → Forest JsonItem) : ∃ s index',
      place isArray (k.name key) (some (item, sub)) rest = .cons { item with string := s } sub (rest none) ∧
      itemKey { item with string := s } isArray index = (k, index') ∧ Coded isArray ks index' := by
  cases isArray with
  | true =>
    obtain ⟨rfl, hks⟩ := hk
    refine ⟨none, i32 (index + 1), ?_, rfl, hks⟩
    cases item
    cases hitem
    rfl
  | false =>
    obtain ⟨⟨s, rfl, hs⟩, hks⟩ := hk
    refine ⟨some s, index, ?_, rfl, hks⟩
    have hname : (LuaKey.string s).name key = some s := by rw [LuaKey.name, cstr_of_notMem hs]
    rw [hname]
    rfl

theorem coded_of_strings {ks : List LuaKey} (h : ∀ k ∈ ks, ∃ s, k = .string s ∧ 0 ∉ s) (index : ℤ) :
    Coded false ks index := by
  induction ks with
  | nil => trivial
  | cons k ks ih => exact ⟨h k List.mem_cons_self, ih fun k' hk' => h k' (List.mem_cons_of_mem k hk')⟩

theorem coded_of_range (n : ℕ) : ∀ start : ℤ, 1 ≤ start → start + n ≤ 2 ^ 31 →
    Coded true ((List.range n).map fun i : ℕ => .integer (Int64.ofInt (start + i))) start := by
  induction n with
  | zero => exact fun _ _ _ => trivial
  | succ n ih =>
    intro start hpos hle
    push_cast at hle
    rw [List.range_succ_eq_map, List.map_cons, List.map_map]
    refine ⟨by simp, ?_⟩
    rcases Nat.eq_zero_or_pos n with rfl | hn
    · trivial
    · rw [i32_of_range (by omega) (by omega)]
      have hshift : (fun i : ℕ => LuaKey.integer (Int64.ofInt (start + i))) ∘ Nat.succ =
          fun i : ℕ => LuaKey.integer (Int64.ofInt (start + 1 + i)) := by
        funext i
        rw [Function.comp_apply, Nat.cast_succ, show start + ((i : ℤ) + 1) = start + 1 + i by omega]
      rw [hshift]
      exact ih (start + 1) (by omega) (by omega)

theorem arrayKeys_nodup {n : ℕ} (hn : n < 2 ^ 63) : (LuaTable.arrayKeys n).Nodup := by
  refine List.Nodup.map_on (fun i hi j hj heq => ?_) List.nodup_range
  rw [List.mem_range] at hi hj
  have := congrArg Int64.toInt (LuaKey.integer.inj heq)
  rw [Int64.toInt_ofInt_of_le (by omega) (by omega), Int64.toInt_ofInt_of_le (by omega) (by omega)] at this
  omega

theorem isArray_of_strings {t : LuaTable} (h : t.StringKeys) : t.isArray = false := by
  obtain ⟨hne, -, hstr⟩ := h
  rw [LuaTable.isArray, List.all_eq_false]
  have hkeys : t.keys ≠ [] := by
    cases t with
    | nil => exact absurd rfl hne
    | leaf k v rest => exact List.cons_ne_nil _ _
    | table k v rest => exact List.cons_ne_nil _ _
  obtain ⟨k, hk⟩ := List.exists_mem_of_ne_nil _ hkeys
  obtain ⟨s, rfl, -⟩ := hstr k hk
  exact ⟨_, hk, by simp [LuaKey.isString]⟩

theorem isArray_of_array {t : LuaTable} (h : t.ArrayKeys) : t.isArray = true := by
  obtain ⟨-, n, -, hkeys⟩ := h
  rw [LuaTable.isArray, List.all_eq_true, hkeys]
  intro k hk
  obtain ⟨i, -, rfl⟩ := List.mem_map.mp hk
  rfl

/-! ## The conversion of a plain table -/

theorem marks_of_plain {t : LuaTable} (hplain : t.SubPlain) (hkeys : ∀ k ∈ t.keys, k.keyed = true) :
    ∀ m ∈ t.marks, m.keyed = true ∧ m.supported = true := by
  induction t with
  | nil => exact fun m hm => absurd hm List.not_mem_nil
  | leaf k v rest ih =>
    intro m hm
    obtain rfl | hm := List.mem_cons.mp hm
    · refine ⟨hkeys k List.mem_cons_self, ?_⟩
      cases v with
      | other => exact hplain.1.elim
      | _ => rfl
    · exact ih hplain.2 (fun k' hk' => hkeys k' (List.mem_cons_of_mem k hk')) m hm
  | table k u rest _ ih =>
    intro m hm
    obtain rfl | hm := List.mem_cons.mp hm
    · exact ⟨hkeys k List.mem_cons_self, rfl⟩
    · exact ih hplain.2 (fun k' hk' => hkeys k' (List.mem_cons_of_mem k hk')) m hm

theorem addsOnce_of_plain {t : LuaTable} (hkeys : t.StringKeys ∨ t.ArrayKeys) (hplain : t.SubPlain) :
    AddsOnce t.isArray t.marks := by
  have hkeyed : ∀ k ∈ t.keys, k.keyed = true := by
    intro k hk
    rcases hkeys with ⟨-, -, hstr⟩ | ⟨-, n, -, heq⟩
    · obtain ⟨s, rfl, -⟩ := hstr k hk
      rfl
    · rw [heq] at hk
      obtain ⟨i, -, rfl⟩ := List.mem_map.mp hk
      rfl
  exact addsOnce_of_marks (marks_of_plain hplain hkeyed)

theorem subTidy_of_plain {t : LuaTable} (hplain : t.SubPlain) : t.SubTidy := by
  induction t with
  | nil => trivial
  | leaf k v rest ih => exact ih hplain.2
  | table k u rest ihu ihr =>
    exact ⟨⟨addsOnce_of_plain hplain.1.1 hplain.1.2, ihu hplain.1.2⟩, ihr hplain.2⟩

theorem LuaTable.Plain.tidy {t : LuaTable} (h : t.Plain) : t.Tidy := ⟨addsOnce_of_plain h.1 h.2, subTidy_of_plain h.2⟩

/-- The tree that a table becomes. -/
def LuaTable.json (t : LuaTable) : Forest JsonItem :=
  .cons (newItem (containerType t.isArray)) (t.forest t.isArray none none) .nil

/-- Every table inside is an array, or all its keys are strings. -/
def LuaTable.SubUniform : LuaTable → Prop
  | .nil => True
  | .leaf _ _ rest => rest.SubUniform
  | .table _ t rest => ((t.isArray = true ∨ ∀ k ∈ t.keys, k.isString = true) ∧ t.SubUniform) ∧ rest.SubUniform

theorem keysLive_of_uniform {held : List UInt8 → Bool} {t : LuaTable} (hsub : t.SubUniform) :
    ∀ {isArray : Bool} (ks : KeyText) (present : Bool), isArray = true ∨ (∀ k ∈ t.keys, k.isString = true) →
      t.KeysLive held isArray ks present := by
  -- a string is kept, whatever the value pushes
  have hstring : ∀ {isArray : Bool} {k : LuaKey} {ks : List LuaKey} (kt : KeyText) (texts : List (List UInt8)),
      isArray = true ∨ (∀ k' ∈ k :: ks, k'.isString = true) → isArray = false →
        (kt.next held k).Live ∧ ((kt.next held k).after texts).Live := by
    intro isArray k ks kt texts hkeys hobject
    have hk := (hkeys.resolve_left fun h => by rw [hobject] at h; cases h) k List.mem_cons_self
    cases k with
    | string s => exact ⟨trivial, trivial⟩
    | _ => cases hk
  have hrest : ∀ {isArray : Bool} {k : LuaKey} {ks : List LuaKey}, isArray = true ∨
    (∀ k' ∈ k :: ks, k'.isString = true) →
      isArray = true ∨ ∀ k' ∈ ks, k'.isString = true :=
        fun h => h.imp_right fun h k' hk' => h k' (List.mem_cons_of_mem _ hk')
  induction t with
  | nil =>
    intro isArray ks present _
    trivial
  | leaf k v rest ih =>
    intro isArray ks present h
    exact ⟨fun hobject _ => (hstring ks [] h hobject).1, ih hsub _ _ (hrest h)⟩
  | table k u rest ihu ihr =>
    intro isArray ks present h
    exact ⟨ihu hsub.1.2 _ _ hsub.1.1, fun hobject => (hstring ks _ h hobject).2, ihr hsub.2 _ _ (hrest h)⟩

/-- **A table without mixed keys keeps its keys.** -/
theorem keysKept_of_uniform {t : LuaTable} (h : t.isArray = true ∨ ∀ k ∈ t.keys, k.isString = true)
    (hsub : t.SubUniform) (held : List UInt8 → Bool) : t.KeysKept held := keysLive_of_uniform hsub _ _ h

theorem uniform_of_plain {t : LuaTable} (hkeys : t.StringKeys ∨ t.ArrayKeys) :
    t.isArray = true ∨ ∀ k ∈ t.keys, k.isString = true := by
  rcases hkeys with ⟨-, -, hstr⟩ | harray
  · refine .inr fun k hk => ?_
    obtain ⟨s, rfl, -⟩ := hstr k hk
    rfl
  · exact .inl (isArray_of_array harray)

theorem subUniform_of_plain {t : LuaTable} (hplain : t.SubPlain) : t.SubUniform := by
  induction t with
  | nil => trivial
  | leaf k v rest ih => exact ih hplain.2
  | table k u rest ihu ihr => exact ⟨⟨uniform_of_plain hplain.1.1, ihu hplain.1.2⟩, ihr hplain.2⟩

theorem LuaTable.Plain.keysKept {t : LuaTable} (h : t.Plain) (held : List UInt8 → Bool) : t.KeysKept held :=
  keysKept_of_uniform (uniform_of_plain h.1) (subUniform_of_plain h.2) held

variable {malloc : Malloc (TCell JsonItem)} {gc : ℕ → Bool} {elsewhere : List UInt8 → Bool}

/-- **What printing reads** of a table that adds no value twice. -/
theorem readForest_jsonBuild (hmalloc : malloc.Total) {room : ℕ} {h : Heap (TCell JsonItem)} {t : LuaTable}
    (hsteady : t.Steady) (hkeys : t.KeysKept (conversionHeld elsewhere t)) {json : ℕ} {b : Build}
    (hrun : jsonBuild malloc gc elsewhere room h t = some (json, b)) :
    readForest b.heap (b.heap.keys.card + 1) json = some t.json := by
  rw [jsonBuild_eq gc hkeys] at hrun
  obtain ⟨json', b', cells, hrun', hown, hnd, -⟩ := textBuild_builds hmalloc (textBuild_logged hrun).1 hsteady h
  rw [hrun, Option.some.injEq, Prod.mk.injEq] at hrun'
  obtain ⟨rfl, rfl⟩ := hrun'
  exact hown.readForest (Nat.lt_succ_of_le (hown.size_le hnd))

theorem exists_jsonBuild (gc : ℕ → Bool) (hmalloc : malloc.Total) {room : ℕ} (h : Heap (TCell JsonItem)) {t : LuaTable}
    (hslots : t.slots ≤ room) (hsteady : t.Steady) (hkeys : t.KeysKept (conversionHeld elsewhere t)) :
    ∃ json b, jsonBuild malloc gc elsewhere room h t = some (json, b) := by
  obtain ⟨json, b, cells, hrun, -⟩ := textBuild_builds hmalloc hslots hsteady h
  exact ⟨json, b, (jsonBuild_eq gc hkeys).trans hrun⟩

theorem slots_of_jsonBuild {room : ℕ} {h : Heap (TCell JsonItem)} {t : LuaTable}
    (hkeys : t.KeysKept (conversionHeld elsewhere t)) {r : ℕ × Build}
    (hrun : jsonBuild malloc gc elsewhere room h t = some r) : t.slots ≤ room := by
  rw [jsonBuild_eq gc hkeys] at hrun
  exact (textBuild_logged hrun).1

end Sarah
