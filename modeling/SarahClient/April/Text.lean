import SarahClient.April.Numbers
import SarahClient.April.Plain
import SarahClient.CJson.Print

/-!
# Lua tables as JSON texts

`lua_json_encode` and `lua_json_decode` with the printer and the parser in place.

* `luaJsonEncode`, `luaJsonDecodeString`;
* `LuaTable.Convertible`: nested arrays and string-keyed tables of booleans, numbers and strings;
* `LuaTable.back`: what becomes of such a table;
* `printable_forest`, `cjsonToTable_wire`: its tree has a text, and the tree that is parsed becomes the table that comes
  back;
* **`luaJson_back`**: encoding and decoding.
-/

namespace Sarah

open Heap Forest JsonText

/-- `lua_json_encode` of a table: the string that is pushed, or nil. -/
def luaJsonEncode (malloc : Malloc (TCell JsonItem)) (gc : ℕ → Bool) (elsewhere : List UInt8 → Bool)
    (mem : ℕ → Option (ℕ → UInt8)) (pretty : Bool) (room : ℕ) (h : Heap (TCell JsonItem)) (t : LuaTable) :
    Option (Option (List UInt8)) :=
  (jsonBuild malloc gc elsewhere room h t).bind fun r =>
  (readForest r.2.heap (r.2.heap.keys.card + 1) r.1).bind fun json =>
    match json with
    | .nil => some none
    | .cons item kids _ => (cJSONPrint mem pretty item kids).map fun out => out.map cstr

/-- `lua_json_decode` of a string: the text from the error on, or a table. -/
def luaJsonDecodeString (room : ℕ) (s : List UInt8) : Option (List UInt8 ⊕ LuaTable) :=
  (cJSONParse s).bind fun
    | .error position => some (.inl ((cstr s).drop position))
    | .ok json => (luaJsonDecode room json).map .inr

/-- A value of a type that JSON has; a number is a `double`. -/
def LuaLeaf.Convertible : LuaLeaf → Prop
  | .number (some d) => d.Binary64
  | .other => False
  | _ => True

/-- What comes back for a number: nil if it is not finite, the number itself where it is greater than it is as an `int`,
and else that `int`. -/
def numberBack : Option Double → Option LuaLeaf
  | some (.fin q) =>
    if ((Double.fin q).toInt : ℚ) < q then some (.number (some (.fin q)))
    else some (.integer (Int64.ofInt (Double.fin q).toInt))
  | _ => none

/-- What comes back for a value. -/
def LuaLeaf.back : LuaLeaf → Option LuaLeaf
  | .boolean b => some (.boolean b)
  | .integer i => numberBack (some (Double.ofInt i.toInt))
  | .number d => numberBack d
  | .string s => some (.string (cstr s))
  | .other => none

namespace LuaTable

/-- Distinct NUL-free strings as keys, or `1` to `n`. -/
def Keyed (t : LuaTable) : Prop := t.StringKeys ∨ ∃ n < 2 ^ 31, t.keys = arrayKeys n

/-- Nested tables are keyed, and every value is convertible. -/
def SubConvertible : LuaTable → Prop
  | nil => True
  | leaf _ value rest => value.Convertible ∧ rest.SubConvertible
  | table _ t rest => (t.Keyed ∧ t.SubConvertible) ∧ rest.SubConvertible

/-- A nesting of arrays and string-keyed tables of values that JSON has. -/
def Convertible (t : LuaTable) : Prop := t.Keyed ∧ t.SubConvertible

/-- What comes back for a table: entries whose value is nil are missing. -/
def back : LuaTable → LuaTable
  | nil => nil
  | leaf key value rest =>
    match value.back with
    | some v => leaf key v rest.back
    | none => rest.back
  | table key t rest => table key t.back rest.back

/-- The tables inside each other. -/
def depth : LuaTable → ℕ
  | nil => 1
  | leaf _ _ rest => rest.depth
  | table _ t rest => max (t.depth + 1) rest.depth

theorem erase_of_notMem {t : LuaTable} {k : LuaKey} (h : k ∉ t.keys) : t.erase k = t := by
  induction t with
  | nil => rfl
  | leaf k' v rest ih =>
    rw [keys, List.mem_cons, not_or] at h
    rw [erase, if_neg (Ne.symm h.1), ih h.2]
  | table k' v rest _ ih =>
    rw [keys, List.mem_cons, not_or] at h
    rw [erase, if_neg (Ne.symm h.1), ih h.2]

theorem Keyed.isArray {t : LuaTable} (h : t.Keyed) :
    (t.isArray = false ∧ t.StringKeys) ∨ (t.isArray = true ∧ ∃ n < 2 ^ 31, t.keys = arrayKeys n) := by
  rcases h with hstrings | ⟨n, hn, hkeys⟩
  · exact .inl ⟨isArray_of_strings hstrings, hstrings⟩
  · refine .inr ⟨?_, n, hn, hkeys⟩
    rw [LuaTable.isArray, List.all_eq_true, hkeys]
    intro k hk
    obtain ⟨i, -, rfl⟩ := List.mem_map.mp hk
    rfl

theorem Keyed.coded {t : LuaTable} (h : t.Keyed) : Coded t.isArray t.keys 1 ∧ t.keys.Nodup := by
  rcases h.isArray with ⟨harray, -, hnd, hstr⟩ | ⟨harray, n, hn, hkeys⟩
  · rw [harray]
    exact ⟨coded_of_strings hstr 1, hnd⟩
  · have hshift : (fun i : ℕ => LuaKey.integer (Int64.ofInt (i + 1))) =
        fun i : ℕ => LuaKey.integer (Int64.ofInt (1 + i)) := by
      funext i
      rw [Int.add_comm]
    rw [harray, hkeys]
    refine ⟨?_, arrayKeys_nodup (by omega)⟩
    rw [arrayKeys, hshift]
    exact coded_of_range n 1 (le_refl 1) (by omega)

theorem marks_of_convertible {t : LuaTable} (ht : t.SubConvertible) (hkeys : ∀ k ∈ t.keys, k.keyed = true) :
    ∀ m ∈ t.marks, m.keyed = true ∧ m.supported = true := by
  induction t with
  | nil => exact fun m hm => absurd hm List.not_mem_nil
  | leaf k v rest ih =>
    intro m hm
    obtain rfl | hm := List.mem_cons.mp hm
    · refine ⟨hkeys k List.mem_cons_self, ?_⟩
      cases v with
      | other => exact ht.1.elim
      | _ => rfl
    · exact ih ht.2 (fun k' hk' => hkeys k' (List.mem_cons_of_mem k hk')) m hm
  | table k u rest _ ih =>
    intro m hm
    obtain rfl | hm := List.mem_cons.mp hm
    · exact ⟨hkeys k List.mem_cons_self, rfl⟩
    · exact ih ht.2 (fun k' hk' => hkeys k' (List.mem_cons_of_mem k hk')) m hm

theorem Keyed.addsOnce {t : LuaTable} (h : t.Keyed) (ht : t.SubConvertible) : AddsOnce t.isArray t.marks := by
  refine addsOnce_of_marks (marks_of_convertible ht fun k hk => ?_)
  rcases h with ⟨-, -, hstr⟩ | ⟨n, -, hkeys⟩
  · obtain ⟨s, rfl, -⟩ := hstr k hk
    rfl
  · rw [hkeys] at hk
    obtain ⟨i, -, rfl⟩ := List.mem_map.mp hk
    rfl

theorem subTidy_of_convertible {t : LuaTable} (ht : t.SubConvertible) : t.SubTidy := by
  induction t with
  | nil => trivial
  | leaf k v rest ih => exact ih ht.2
  | table k u rest ihu ihr => exact ⟨⟨ht.1.1.addsOnce ht.1.2, ihu ht.1.2⟩, ihr ht.2⟩

theorem Convertible.tidy {t : LuaTable} (h : t.Convertible) : t.Tidy := ⟨h.1.addsOnce h.2, subTidy_of_convertible h.2⟩

theorem Keyed.uniform {t : LuaTable} (h : t.Keyed) : t.isArray = true ∨ ∀ k ∈ t.keys, k.isString = true := by
  rcases h.isArray with ⟨-, -, -, hstr⟩ | ⟨harray, -⟩
  · refine .inr fun k hk => ?_
    obtain ⟨s, rfl, -⟩ := hstr k hk
    rfl
  · exact .inl harray

theorem subUniform_of_convertible {t : LuaTable} (ht : t.SubConvertible) : t.SubUniform := by
  induction t with
  | nil => trivial
  | leaf k v rest ih => exact ih ht.2
  | table k u rest ihu ihr => exact ⟨⟨ht.1.1.uniform, ihu ht.1.2⟩, ihr ht.2⟩

theorem Convertible.keysKept {t : LuaTable} (h : t.Convertible) (held : List UInt8 → Bool) : t.KeysKept held :=
  keysKept_of_uniform h.1.uniform (subUniform_of_convertible h.2) held

end LuaTable

/-! ## The text of the tree -/

theorem Double.ofInt_binary64 {n : ℤ} (h : n.natAbs < 2 ^ 64) : (Double.ofInt n).Binary64 := by
  have hsign : ∀ q < 2 ^ 53, ∀ k ≤ 12, (Double.fin ((n.sign * (q * 2 ^ k : ℕ) : ℤ) : ℚ)).Binary64 := by
    intro q hq k hk
    refine ⟨n.sign * q, k, ?_, by omega, by omega, by push_cast; rw [zpow_natCast]; ring⟩
    rw [abs_mul, Nat.abs_cast]
    have hle : |n.sign| ≤ 1 := by
      rcases lt_trichotomy n 0 with hn | rfl | hn
      · rw [Int.sign_eq_neg_one_of_neg hn]
        decide
      · decide
      · rw [Int.sign_eq_one_of_pos hn]
        decide
    nlinarith [abs_nonneg n.sign]
  have hlog : n.natAbs.log2 < 64 := by
    rcases Nat.eq_zero_or_pos n.natAbs with hzero | hpos
    · rw [hzero]
      decide
    · rwa [Nat.log2_lt hpos.ne']
  have hdiv : n.natAbs / 2 ^ (n.natAbs.log2 - 52) < 2 ^ 53 := by
    rw [Nat.div_lt_iff_lt_mul (by positivity), ← pow_add]
    exact Nat.lt_log2_self.trans_le (Nat.pow_le_pow_right (by decide) (by omega))
  unfold Double.ofInt
  dsimp only
  split_ifs with hround
  · exact hsign _ hdiv _ (by omega)
  · by_cases hcarry : n.natAbs / 2 ^ (n.natAbs.log2 - 52) + 1 < 2 ^ 53
    · exact hsign _ hcarry _ (by omega)
    · rw [show n.natAbs / 2 ^ (n.natAbs.log2 - 52) + 1 = 2 ^ 52 * 2 by omega, Nat.mul_assoc, ← pow_succ']
      exact hsign _ (by decide) _ (by omega)

theorem leafItem_printable {v : LuaLeaf} (hv : v.Convertible) {item : JsonItem} (hitem : leafItem v = some item)
    {s : Option (List UInt8)} {rest : Forest JsonItem} (hrest : Printable rest) :
    Printable (.cons { item with string := s } .nil rest) := by
  cases v with
  | boolean b =>
    cases hitem
    cases b <;> exact ⟨trivial, hrest⟩
  | integer i =>
    cases hitem
    refine ⟨?_, hrest⟩
    intro d hd
    obtain rfl := Option.some.inj hd
    have hrange := Int64.toInt_lt i
    have hrange' := Int64.le_toInt i
    exact Double.ofInt_binary64 (by omega)
  | number d =>
    cases hitem
    refine ⟨?_, hrest⟩
    intro d' hd
    obtain rfl : d = some d' := hd
    exact hv
  | string s =>
    cases hitem
    exact ⟨trivial, hrest⟩
  | other => exact hv.elim

/-- **The tree of a convertible table** has a text. -/
theorem printable_forest (t : LuaTable) : ∀ {isArray : Bool} {index : ℤ} {key : Option (List UInt8)},
    t.SubConvertible → Coded isArray t.keys index → Printable (t.forest isArray key none) := by
  induction t with
  | nil => exact fun _ _ => trivial
  | leaf k v rest ih =>
    intro isArray index key ht hcoded
    obtain ⟨item, hitem⟩ : ∃ item, leafItem v = some item := by
      cases v with
      | other => exact ht.1.elim
      | _ => exact ⟨_, rfl⟩
    have hname : item.string = none := by
      cases v with
      | other => cases hitem
      | _ => cases hitem; rfl
    obtain ⟨s, index', hplace, -, hcoded'⟩ := place_coded hcoded hname key .nil (rest.forest isArray (k.name key))
    rw [LuaTable.forest, hitem, Option.map_some, Option.some_or, hplace]
    exact leafItem_printable ht.1 hitem (ih ht.2 hcoded')
  | table k u rest ihu ihr =>
    intro isArray index key ht hcoded
    obtain ⟨s, index', hplace, -, hcoded'⟩ := place_coded hcoded
      (show (newItem (containerType u.isArray)).string = none from rfl) key (u.forest u.isArray none none)
      (rest.forest isArray (k.name key))
    have hkids : Printable (u.forest u.isArray none none) := ihu ht.1.2 ht.1.1.coded.1
    rw [LuaTable.forest, hplace]
    cases harray : u.isArray <;> rw [harray] at hkids <;> exact ⟨hkids, ihr ht.2 hcoded'⟩

/-! ## The tree that is parsed -/

/-- An entry of a key that the decoder gives: its item is added at once, and what is parsed for it has the key. -/
theorem place_wire {isArray : Bool} {k : LuaKey} {ks : List LuaKey} {index : ℤ} (hk : Coded isArray (k :: ks) index)
    (item : JsonItem) (key : Option (List UInt8)) (sub : Forest JsonItem)
    (rest : Option (JsonItem × Forest JsonItem) → Forest JsonItem) : ∃ s index',
      wire (place isArray (k.name key) (some (item, sub)) rest) (!isArray) =
        .cons { wireValue item with string := s } (wireKids item fun named => wire sub named)
          (wire (rest none) (!isArray)) ∧
      (∀ item' : JsonItem, itemKey { item' with string := s } isArray index = (k, index')) ∧
        Coded isArray ks index' := by
  cases isArray with
  | true =>
    obtain ⟨rfl, hks⟩ := hk
    exact ⟨none, i32 (index + 1), rfl, fun _ => rfl, hks⟩
  | false =>
    obtain ⟨⟨s, rfl, hs⟩, hks⟩ := hk
    refine ⟨some s, index, ?_, fun _ => rfl, hks⟩
    have hname : (LuaKey.string s).name key = some s := by rw [LuaKey.name, cstr_of_notMem hs]
    rw [hname]
    show Forest.cons { wireValue { item with string := some s } with string := some (cstr s) } _ _ = _
    rw [cstr_of_notMem hs]
    rfl

theorem cjsonToTable_leaf_wire {v : LuaLeaf} (hv : v.Convertible) {item : JsonItem} (hitem : leafItem v = some item)
    (s : Option (List UInt8)) {k : LuaKey} {isArray : Bool} {index index' : ℤ}
    (hkey : ∀ item' : JsonItem, itemKey { item' with string := s } isArray index = (k, index')) {room : ℕ}
    (hroom : 2 ≤ room) {acc : LuaTable} (hk : k ∉ acc.keys) (sub rest : Forest JsonItem) :
    cjsonToTable (.cons { wireValue item with string := s } sub rest) isArray room index acc =
      cjsonToTable rest isArray room index' (match v.back with
        | some v => acc.append (.leaf k v .nil)
        | none => acc) := by
  have hset : ∀ v, acc.set k (.inl v) = acc.append (.leaf k v .nil) := fun v => LuaTable.set_of_notMem hk (.inl v)
  have hstore : ¬ room < acc.storeSlots k := by
    have := acc.storeSlots_le k
    omega
  have hnumber : ∀ d,
      cjsonToTable (.cons { wireValue (createNumber d) with string := s } sub rest) isArray room index acc =
      cjsonToTable rest isArray room index' (match numberBack d with
        | some v => acc.append (.leaf k v .nil)
        | none => acc) := by
    have hnull : cjsonToTable (.cons { newItem .null with string := s } sub rest) isArray room index acc =
        cjsonToTable rest isArray room index' acc := by
      rw [cjsonToTable, hkey]
      dsimp only
      rw [if_neg hstore]
      exact congrArg _ (LuaTable.erase_of_notMem hk)
    rintro (_ | _ | q | _)
    · exact hnull
    · exact hnull
    · have hfrac : ({ createNumber (some (.fin q)) with string := s } : JsonItem).fractional =
          !decide (q ≤ ((Double.fin q).toInt : ℚ)) := rfl
      show cjsonToTable (.cons { createNumber (some (.fin q)) with string := s } sub rest) isArray room index acc = _
      rw [cjsonToTable, hkey, numberBack]
      dsimp only
      rw [if_neg hstore]
      show cjsonToTable rest isArray room index' (acc.set k (.inl (if _ then _ else _))) = _
      rw [hfrac]
      by_cases hlt : ((Double.fin q).toInt : ℚ) < q
      · rw [if_pos hlt, if_pos (by simpa using hlt), hset]
        rfl
      · rw [if_neg hlt, if_neg (by simpa using hlt), hset]
        rfl
    · exact hnull
  cases v with
  | boolean b =>
    cases hitem
    cases b <;>
    · rw [cjsonToTable, hkey]
      dsimp only
      rw [if_neg hstore]
      exact congrArg _ (hset _)
  | integer i =>
    cases hitem
    exact hnumber _
  | number d =>
    cases hitem
    exact hnumber d
  | string s' =>
    cases hitem
    rw [cjsonToTable, hkey]
    dsimp only
    rw [if_neg hstore]
    show cjsonToTable rest isArray room index' (acc.set k (.inl (.string (cstr (cstr s'))))) = _
    rw [cstr_of_notMem (zero_notMem_cstr s'), hset]
    rfl
  | other => exact hv.elim

/-- **Decoding the tree that is parsed**: the entries that come back stand behind those already decoded. -/
theorem cjsonToTable_wire (t : LuaTable) : ∀ {isArray : Bool} {room : ℕ} {index : ℤ} {acc : LuaTable}
    {key : Option (List UInt8)}, t.SubConvertible → t.slots ≤ room + 1 → (t ≠ .nil → 2 ≤ room) →
    Coded isArray t.keys index → (acc.keys ++ t.keys).Nodup →
    cjsonToTable (wire (t.forest isArray key none) (!isArray)) isArray room index acc = some (acc.append t.back) := by
  induction t with
  | nil =>
    intro isArray room index acc key _ _ _ _ _
    rw [LuaTable.forest, wire, cjsonToTable, LuaTable.back, LuaTable.append_nil]
  | leaf k v rest ih =>
    intro isArray room index acc key ht hslots hfits hcoded hnd
    rw [LuaTable.slots, max_le_iff] at hslots
    have hroom : 2 ≤ room := hfits fun h => by cases h
    obtain ⟨item, hitem⟩ : ∃ item, leafItem v = some item := by
      cases v with
      | other => exact ht.1.elim
      | _ => exact ⟨_, rfl⟩
    obtain ⟨s, index', hplace, hkey, hcoded'⟩ := place_wire hcoded item key .nil (rest.forest isArray (k.name key))
    have hnotMem : k ∉ acc.keys := fun h => (List.nodup_append.mp hnd).2.2 k h k List.mem_cons_self rfl
    rw [LuaTable.forest, hitem, Option.map_some, Option.some_or, hplace,
      cjsonToTable_leaf_wire ht.1 hitem s hkey hroom hnotMem, LuaTable.back]
    cases v.back with
    | none =>
      refine ih ht.2 hslots.2 (fun _ => hroom) hcoded' (hnd.sublist ?_)
      exact (List.Sublist.refl _).append (List.sublist_cons_self k _)
    | some v' =>
      have hnd' : ((acc.append (.leaf k v' .nil)).keys ++ rest.keys).Nodup := by
        rw [LuaTable.keys_append, List.append_assoc]
        exact hnd
      rw [ih ht.2 hslots.2 (fun _ => hroom) hcoded' hnd', LuaTable.append_assoc]
      rfl
  | table k u rest ihu ihr =>
    intro isArray room index acc key ht hslots hfits hcoded hnd
    rw [LuaTable.slots, max_le_iff, max_le_iff] at hslots
    obtain ⟨⟨hk, hu⟩, hrest⟩ := hslots
    have hroom : 2 ≤ room := hfits fun h => by cases h
    have hstore : ¬ room < acc.storeSlots k := by
      have := acc.storeSlots_le k
      omega
    obtain ⟨s, index', hplace, hkey, hcoded'⟩ := place_wire hcoded (newItem (containerType u.isArray)) key
      (u.forest u.isArray none none) (rest.forest isArray (k.name key))
    have hnotMem : k ∉ acc.keys := fun h => (List.nodup_append.mp hnd).2.2 k h k List.mem_cons_self rfl
    have hkids : cjsonToTable (wire (u.forest u.isArray none none) (!u.isArray)) u.isArray (room - 1) 1 .nil =
        some u.back :=
      ihu ht.1.2 (by omega)
        (fun hne => by have := LuaTable.two_le_slots hne; omega) ht.1.1.coded.1
        (show (LuaTable.nil.keys ++ u.keys).Nodup from ht.1.1.coded.2)
    have hnd' : ((acc.append (.table k u.back .nil)).keys ++ rest.keys).Nodup := by
      rw [LuaTable.keys_append, List.append_assoc]
      exact hnd
    have htail : cjsonToTable (wire (rest.forest isArray (k.name key) none) (!isArray)) isArray room index'
        (acc.append (.table k u.back .nil)) = some ((acc.append (.table k u.back .nil)).append rest.back) :=
      ihr ht.2 hrest (fun _ => hroom) hcoded' hnd'
    have hset : acc.set k (.inr u.back) = acc.append (.table k u.back .nil) :=
      LuaTable.set_of_notMem hnotMem (.inr u.back)
    rw [LuaTable.append_assoc] at htail
    rw [LuaTable.forest, hplace, cjsonToTable, hkey]
    dsimp only
    rw [if_neg hstore]
    rw [hset.symm] at htail
    cases harray : u.isArray with
    | false =>
      rw [harray] at hkids
      exact Option.bind_eq_some_iff.mpr ⟨u.back, hkids, htail⟩
    | true =>
      rw [harray] at hkids
      exact Option.bind_eq_some_iff.mpr ⟨u.back, hkids, htail⟩

theorem nesting_forest (t : LuaTable) : ∀ {isArray : Bool} {index : ℤ} {key : Option (List UInt8)},
    t.SubConvertible → Coded isArray t.keys index → nesting (t.forest isArray key none) + 1 = t.depth := by
  induction t with
  | nil => exact fun _ _ => rfl
  | leaf k v rest ih =>
    intro isArray index key ht hcoded
    obtain ⟨item, hitem⟩ : ∃ item, leafItem v = some item := by
      cases v with
      | other => exact ht.1.elim
      | _ => exact ⟨_, rfl⟩
    have hname : item.string = none ∧ ∀ s inside, valueNesting { item with string := s } inside = 0 := by
      cases v with
      | other => cases hitem
      | boolean b =>
        cases hitem
        cases b <;> exact ⟨rfl, fun _ _ => rfl⟩
      | _ =>
        cases hitem
        exact ⟨rfl, fun _ _ => rfl⟩
    obtain ⟨s, index', hplace, -, hcoded'⟩ := place_coded hcoded hname.1 key .nil (rest.forest isArray (k.name key))
    rw [LuaTable.forest, hitem, Option.map_some, Option.some_or, hplace, nesting, hname.2, Nat.zero_max]
    exact ih ht.2 hcoded'
  | table k u rest ihu ihr =>
    intro isArray index key ht hcoded
    obtain ⟨s, index', hplace, -, hcoded'⟩ := place_coded hcoded
      (show (newItem (containerType u.isArray)).string = none from rfl) key (u.forest u.isArray none none)
      (rest.forest isArray (k.name key))
    have hu : nesting (u.forest u.isArray none none) + 1 = u.depth := ihu ht.1.2 ht.1.1.coded.1
    have hrest : nesting (rest.forest isArray (k.name key) none) + 1 = rest.depth := ihr ht.2 hcoded'
    have hvalue : ∀ inside,
      valueNesting { newItem (containerType u.isArray) with string := s } inside = inside + 1 := by
      intro inside
      cases u.isArray <;> rfl
    rw [LuaTable.forest, hplace, nesting, hvalue, LuaTable.depth]
    omega

/-! ## Encoding and decoding -/

section Run

variable {malloc : Malloc (TCell JsonItem)} {gc : ℕ → Bool} {elsewhere : List UInt8 → Bool}
  {mem : ℕ → Option (ℕ → UInt8)} {pretty : Bool} {room : ℕ}
  {h : Heap (TCell JsonItem)} {t : LuaTable}

theorem luaJsonEncode_eq (hmalloc : malloc.Total) (ht : t.Convertible) (hslots : t.slots ≤ room) :
    luaJsonEncode malloc gc elsewhere mem pretty room h t =
      (cJSONPrint mem pretty (newItem (containerType t.isArray)) (t.forest t.isArray none none)).map
        fun out => out.map cstr := by
  obtain ⟨json, b, hrun⟩ :=
    exists_jsonBuild gc hmalloc h hslots ht.tidy.steady (ht.keysKept (conversionHeld elsewhere t))
  have hread := readForest_jsonBuild hmalloc ht.tidy.steady (ht.keysKept _) hrun
  rw [luaJsonEncode, hrun, Option.bind_some]
  dsimp only
  rw [hread, Option.bind_some, LuaTable.json]

theorem luaJsonDecode_wire (ht : t.Convertible) (hslots : t.slots ≤ room) (hroom : 3 ≤ room) :
    luaJsonDecode room (wire t.json false) = some t.back := by
  have hone := t.one_le_slots
  have hrun : cjsonToTable (wire (t.forest t.isArray none none) (!t.isArray)) t.isArray (room - 1) 1 .nil =
    some t.back :=
    cjsonToTable_wire t ht.2 (by omega)
      (fun _ => by omega) ht.1.coded.1 (show (LuaTable.nil.keys ++ t.keys).Nodup from ht.1.coded.2)
  rw [LuaTable.json, wire, luaJsonDecode, if_neg (by omega)]
  cases harray : t.isArray <;> rw [harray] at hrun <;> exact hrun

/-- A table of NUL-free strings, booleans and 32-bit integers comes back as it is. -/
theorem back_of_plain {t : LuaTable} (ht : t.SubPlain) : t.back = t := by
  induction t with
  | nil => rfl
  | leaf k v rest ih =>
    have hv : v.back = some v := by
      cases v with
      | boolean b => rfl
      | integer i =>
        have hrange := Int64.toInt_lt i
        have hrange' := Int64.le_toInt i
        have hplain := ht.1
        have hof : Double.ofInt i.toInt = .fin i.toInt := Double.ofInt_of_range (by have := hplain.1; omega)
          (by have := hplain.2; omega)
        have hint : (Double.fin (i.toInt : ℚ)).toInt = i.toInt := by
          have := (createNumber_ofInt hplain.1 hplain.2).1
          rwa [hof] at this
        rw [LuaLeaf.back, hof, numberBack, hint, if_neg (lt_irrefl _), Int64.ofInt_toInt]
      | string s => rw [LuaLeaf.back, cstr_of_notMem ht.1]
      | number d => exact ht.1.elim
      | other => exact ht.1.elim
    rw [LuaTable.back, hv, ih ht.2]
  | table k u rest ihu ihr => rw [LuaTable.back, ihu ht.1.2, ihr ht.2]

/-- **A table becomes a JSON text**, where the stack has room, memory suffices and the text is not too long, and the
text becomes the table that comes back if tables are nested at most 1000 times. A deeper one is encoded and not
decoded. -/
theorem luaJson_back (hmalloc : malloc.Total) (ht : t.Convertible) (hslots : t.slots ≤ room) (hroom : 3 ≤ room) :
    ∃ u r, text pretty t.json false 0 = some u ∧ luaJsonEncode malloc gc elsewhere mem pretty room h t = some r ∧
      (r = none → (∃ k, mem k = none) ∨ intMax < u.length + 2) ∧
        ∀ s ∈ r, s = u ∧ (t.depth ≤ nestingLimit → luaJsonDecodeString room s = some (.inr t.back)) ∧
          (nestingLimit < t.depth → ∃ e, luaJsonDecodeString room s = some (.inl e)) := by
  have hforest : Printable (t.forest t.isArray none none) := printable_forest t ht.2 ht.1.coded.1
  have hprint : Printable t.json := by
    cases harray : t.isArray <;> rw [harray] at hforest <;> rw [LuaTable.json, harray] <;> exact ⟨hforest, trivial⟩
  have hnest : nesting t.json = t.depth := by
    rw [LuaTable.json, nesting, ← nesting_forest t ht.2 ht.1.coded.1]
    cases t.isArray <;> rfl
  obtain ⟨u, hu⟩ := exists_text hprint pretty false 0
  have hzero := zero_notMem_text hprint hu
  obtain ⟨result, hrun, hout, hnone⟩ := cJSONPrint_cases mem pretty
    (newItem (containerType t.isArray)) (t.forest t.isArray none none) u.length
  refine ⟨u, result.map cstr, hu, ?_, ?_, ?_⟩
  · rw [luaJsonEncode_eq hmalloc ht hslots, hrun, Option.map_some]
  · intro hr
    by_contra hn
    rw [not_or, not_exists, not_lt] at hn
    exact hnone (Option.map_eq_none_iff.mp hr) ⟨⟨hn.1, hn.2⟩, u, hu, le_rfl⟩
  · intro s hs
    obtain ⟨out, hmem, rfl⟩ := Option.mem_map.mp hs
    obtain ⟨u', hu', rfl⟩ := hout out hmem
    obtain rfl : u = u' := Option.some.inj (hu.symm.trans hu')
    rw [cstr_append_zero hzero]
    have hparse := cJSONParse_text hprint hu
    refine ⟨rfl, fun hle => ?_, fun hlt => ?_⟩
    · rw [luaJsonDecodeString, hparse.1 (by rwa [← hnest] at hle), Option.bind_some]
      show (luaJsonDecode room (wire t.json false)).map Sum.inr = _
      rw [luaJsonDecode_wire ht hslots hroom, Option.map_some]
    · obtain ⟨position, herror⟩ := hparse.2 (by rwa [← hnest] at hlt)
      exact ⟨(cstr u).drop position, by rw [luaJsonDecodeString, herror]; rfl⟩

/-- A table with a fraction and an empty table. -/
def mixedTable : LuaTable :=
  .leaf (.string (lit "a")) (.number (some (.fin (5 / 2)))) (.table (.string (lit "b")) .nil .nil)

theorem mixedTable_convertible : mixedTable.Convertible := by
  refine ⟨.inl ⟨by decide, by decide, ?_⟩, ⟨5, -1, by decide, by decide, by decide, by norm_num⟩,
    ⟨.inr ⟨0, by decide, rfl⟩, trivial⟩, trivial⟩
  intro k hk
  simp only [mixedTable, LuaTable.keys, List.mem_cons, List.not_mem_nil, or_false] at hk
  obtain rfl | rfl := hk
  · exact ⟨lit "a", rfl, by decide⟩
  · exact ⟨lit "b", rfl, by decide⟩

theorem luaJson_back_mixed : ∃ u r, text false mixedTable.json false 0 = some u ∧
    luaJsonEncode Malloc.bump (fun _ => true) (fun _ => false) (fun _ => some fun _ => 0) false 20 ∅ mixedTable =
      some r ∧
      (r = none → (∃ k, (fun _ => some fun _ => 0 : ℕ → Option (ℕ → UInt8)) k = none) ∨ intMax < u.length + 2) ∧
        ∀ s ∈ r, s = u ∧ (mixedTable.depth ≤ nestingLimit → luaJsonDecodeString 20 s = some (.inr mixedTable.back)) ∧
          (nestingLimit < mixedTable.depth → ∃ e, luaJsonDecodeString 20 s = some (.inl e)) :=
  luaJson_back Malloc.bump_total mixedTable_convertible (by decide) (by decide)

end Run

end Sarah
