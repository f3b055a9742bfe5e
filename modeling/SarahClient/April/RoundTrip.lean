import SarahClient.April.Text

/-!
# From Lua to JSON and back

* `intKey_of_cjsonToTable`: a decoded array has keys of type `int`;
* **`cjsonToTable_forest`**: decoding what the encoder builds, as a reader sees it;
* **`jsonRoundTrip_iff`**: which tables come back;
* **`not_jsonRoundTrip`**: eleven nested tables.
-/

namespace Sarah

open Heap Forest JsonText

/-! ## The indices of an array -/

theorem mem_keys_erase {t : LuaTable} {key k : LuaKey} (h : k ∈ (t.erase key).keys) : k ∈ t.keys := by
  induction t with
  | nil => exact h
  | leaf k' v rest ih =>
    rw [LuaTable.erase] at h
    split_ifs at h
    · exact List.mem_cons_of_mem k' h
    · exact (List.mem_cons.mp h).elim (fun e => e ▸ List.mem_cons_self) fun h => List.mem_cons_of_mem k' (ih h)
  | table k' v rest _ ih =>
    rw [LuaTable.erase] at h
    split_ifs at h
    · exact List.mem_cons_of_mem k' h
    · exact (List.mem_cons.mp h).elim (fun e => e ▸ List.mem_cons_self) fun h => List.mem_cons_of_mem k' (ih h)

/-- The index of an array element is an `int`. -/
def IntKey (k : LuaKey) : Prop := ∃ i : ℤ, (-2 ^ 31 ≤ i ∧ i < 2 ^ 31) ∧ k = .integer (Int64.ofInt i)

theorem itemKey_array {item : JsonItem} {index : ℤ} (h₁ : -2 ^ 31 ≤ index) (h₂ : index < 2 ^ 31) :
    IntKey (itemKey item true index).1 ∧ -2 ^ 31 ≤ (itemKey item true index).2 ∧
      (itemKey item true index).2 < 2 ^ 31 := by
  have hrange := i32_range (index + 1)
  have hkey : itemKey item true index = (.integer (Int64.ofInt index), i32 (index + 1)) := by
    unfold itemKey
    cases item.string <;> rfl
  rw [hkey]
  exact ⟨⟨index, ⟨h₁, h₂⟩, rfl⟩, hrange⟩

theorem intKey_of_cjsonToTable {f : Forest JsonItem} {room : ℕ} {index : ℤ} {t w : LuaTable}
    (hrun : cjsonToTable f true room index t = some w) (h₁ : -2 ^ 31 ≤ index) (h₂ : index < 2 ^ 31) :
    ∀ k ∈ w.keys, k ∈ t.keys ∨ IntKey k := by
  induction f generalizing index t with
  | nil =>
    cases hrun
    exact fun k hk => .inl hk
  | cons item kids rest _ ih =>
    obtain ⟨hkey, hindex₁, hindex₂⟩ := @itemKey_array item index h₁ h₂
    have hset : ∀ value, cjsonToTable rest true room (itemKey item true index).2
        (t.set (itemKey item true index).1 value) = some w → ∀ k ∈ w.keys, k ∈ t.keys ∨ IntKey k := by
      intro value hrest k hk
      obtain hmem | hint := ih hrest hindex₁ hindex₂ k hk
      · obtain rfl | hmem := LuaTable.mem_keys_set hmem
        · exact .inr hkey
        · exact .inl hmem
      · exact .inr hint
    have herase : cjsonToTable rest true room (itemKey item true index).2
        (t.erase (itemKey item true index).1) = some w → ∀ k ∈ w.keys, k ∈ t.keys ∨ IntKey k := by
      intro hrest k hk
      exact (ih hrest hindex₁ hindex₂ k hk).imp_left mem_keys_erase
    have hroom : ¬ room < t.storeSlots (itemKey item true index).1 := by
      intro h
      rw [cjsonToTable] at hrun
      dsimp only at hrun
      rw [if_pos h] at hrun
      cases hrun
    rw [cjsonToTable] at hrun
    dsimp only at hrun
    rw [if_neg hroom] at hrun
    split at hrun
    · exact hset _ hrun
    · exact hset _ hrun
    · exact herase hrun
    · exact hset _ hrun
    · split at hrun
      · exact herase hrun
      · exact hset _ hrun
    · obtain ⟨u, -, hrest⟩ := Option.bind_eq_some_iff.mp hrun
      exact hset _ hrest
    · obtain ⟨u, -, hrest⟩ := Option.bind_eq_some_iff.mp hrun
      exact hset _ hrest
    · cases hrun

/-! ## Decoding what the encoder builds -/

/-- A table inside is decoded to itself if it is short, and only then. -/
theorem decode_iff {u : LuaTable} (hkeys : u.StringKeys ∨ u.ArrayKeys) {room : ℕ}
    (hdecode : ∀ index, Coded u.isArray u.keys index → u.keys.Nodup →
      (cjsonToTable (wire (u.forest u.isArray none none) (!u.isArray)) u.isArray room index .nil = some u ↔
        u.SubShort)) :
    cjsonToTable (wire (u.forest u.isArray none none) (!u.isArray)) u.isArray room 1 .nil = some u ↔ u.Short := by
  rcases hkeys with hkeys | hkeys
  · have harray := isArray_of_strings hkeys
    have hcoded : Coded u.isArray u.keys 1 := by
      rw [harray]
      exact coded_of_strings hkeys.2.2 1
    rw [hdecode 1 hcoded hkeys.2.1, LuaTable.Short, harray]
    exact ⟨fun h => ⟨fun h => absurd h (by decide), h⟩, fun h => h.2⟩
  · have harray := isArray_of_array hkeys
    obtain ⟨-, n, hn, heq⟩ := hkeys
    have hlen : u.keys.length = n := by rw [heq, LuaTable.arrayKeys, List.length_map, List.length_range]
    rcases Nat.lt_or_ge n (2 ^ 31) with hshort | hlong
    · have hcoded : Coded u.isArray u.keys 1 := by
        have hshift : (fun i : ℕ => LuaKey.integer (Int64.ofInt (i + 1))) =
            fun i : ℕ => LuaKey.integer (Int64.ofInt (1 + i)) := by
          funext i
          rw [Int.add_comm]
        rw [harray, heq, LuaTable.arrayKeys, hshift]
        exact coded_of_range n 1 (le_refl 1) (by omega)
      rw [hdecode 1 hcoded (by rw [heq]; exact arrayKeys_nodup hn), LuaTable.Short, hlen]
      exact ⟨fun h => ⟨fun _ => hshort, h⟩, fun h => h.2⟩
    · -- the key `2 ^ 31` is never set
      refine ⟨fun hrun => ?_, fun h => ?_⟩
      · rw [harray] at hrun
        have hmem : LuaKey.integer (Int64.ofInt ((2 ^ 31 - 1 : ℕ) + 1)) ∈ u.keys := by
          rw [heq]
          exact List.mem_map.mpr ⟨2 ^ 31 - 1, List.mem_range.mpr (by omega), rfl⟩
        obtain h | ⟨i, ⟨h₁, h₂⟩, hi⟩ := intKey_of_cjsonToTable hrun (by decide) (by decide) _ hmem
        · cases h
        · have := congrArg Int64.toInt (LuaKey.integer.inj hi)
          rw [Int64.toInt_ofInt_of_le (by decide) (by decide), Int64.toInt_ofInt_of_le (by omega) (by omega)] at this
          omega
      · have := h.1 harray
        omega

theorem LuaLeaf.Plain.back {v : LuaLeaf} (hv : v.Plain) : v.Convertible ∧ v.back = some v := by
  cases v with
  | boolean b => exact ⟨trivial, rfl⟩
  | integer i =>
    have hof : Double.ofInt i.toInt = .fin i.toInt := Double.ofInt_of_range (by have := hv.1; omega)
      (by have := hv.2; omega)
    have hint : (Double.fin (i.toInt : ℚ)).toInt = i.toInt := by
      have := (createNumber_ofInt hv.1 hv.2).1
      rwa [hof] at this
    refine ⟨trivial, ?_⟩
    rw [LuaLeaf.back, hof, numberBack, hint, if_neg (lt_irrefl _), Int64.ofInt_toInt]
  | string s =>
    refine ⟨trivial, ?_⟩
    rw [LuaLeaf.back, cstr_of_notMem hv]
  | number d => exact hv.elim
  | other => exact hv.elim

/-- **Decoding the children that a plain table became**, as a reader sees them: the entries come back behind those
already decoded, and as they were exactly if every array inside is short. -/
theorem cjsonToTable_forest (t : LuaTable) : ∀ {isArray : Bool} {room : ℕ} {index : ℤ} {acc : LuaTable}
    {key : Option (List UInt8)}, t.SubPlain → t.slots ≤ room + 1 → (t ≠ .nil → 2 ≤ room) → Coded isArray t.keys index →
    (acc.keys ++ t.keys).Nodup →
    (∀ w, cjsonToTable (wire (t.forest isArray key none) (!isArray)) isArray room index acc = some w →
      ∃ x, w = acc.append x) ∧
    (cjsonToTable (wire (t.forest isArray key none) (!isArray)) isArray room index acc = some (acc.append t) ↔
      t.SubShort) := by
  induction t with
  | nil =>
    intro isArray room index acc key _ _ _ _ _
    rw [LuaTable.forest, wire, cjsonToTable]
    refine ⟨fun w hw => ⟨.nil, ?_⟩, ?_⟩
    · rw [LuaTable.append_nil]
      exact (Option.some.inj hw).symm
    · rw [LuaTable.append_nil]
      exact ⟨fun _ => trivial, fun _ => rfl⟩
  | leaf k v rest ih =>
    intro isArray room index acc key hplain hslots hfits hcoded hnd
    rw [LuaTable.slots, max_le_iff] at hslots
    have hroom : 2 ≤ room := hfits fun h => by cases h
    obtain ⟨hconv, hback⟩ := hplain.1.back
    obtain ⟨item, hitem⟩ : ∃ item, leafItem v = some item := by
      cases v with
      | other => exact hplain.1.elim
      | _ => exact ⟨_, rfl⟩
    obtain ⟨s, index', hplace, hkey, hcoded'⟩ := place_wire hcoded item key .nil (rest.forest isArray (k.name key))
    have hnotMem : k ∉ acc.keys := fun h => (List.nodup_append.mp hnd).2.2 k h k List.mem_cons_self rfl
    have hnd' : ((acc.append (.leaf k v .nil)).keys ++ rest.keys).Nodup := by
      rw [LuaTable.keys_append, List.append_assoc]
      exact hnd
    obtain ⟨hextends, hiff⟩ := @ih _ room _ _ (k.name key) hplain.2 hslots.2 (fun _ => hroom) hcoded' hnd'
    have hrun : cjsonToTable (wire ((LuaTable.leaf k v rest).forest isArray key none)
      (!isArray)) isArray room index acc =
        cjsonToTable (wire (rest.forest isArray (k.name key) none) (!isArray)) isArray room index'
          (acc.append (.leaf k v .nil)) := by
      rw [LuaTable.forest, hitem, Option.map_some, Option.some_or, hplace,
        cjsonToTable_leaf_wire hconv hitem s hkey hroom hnotMem, hback]
    rw [hrun]
    refine ⟨fun w hw => ?_, ?_⟩
    · obtain ⟨x, rfl⟩ := hextends w hw
      exact ⟨_, LuaTable.append_assoc _ _ _⟩
    · rw [LuaTable.append_assoc] at hiff
      exact hiff
  | table k u rest ihu ihr =>
    intro isArray room index acc key hplain hslots hfits hcoded hnd
    rw [LuaTable.slots, max_le_iff, max_le_iff] at hslots
    obtain ⟨⟨hk, hu⟩, hrest⟩ := hslots
    obtain ⟨⟨hkeys, hsub⟩, hplain'⟩ := hplain
    have hroom : 2 ≤ room := hfits fun h => by cases h
    have hstore : ¬ room < acc.storeSlots k := by
      have := acc.storeSlots_le k
      omega
    obtain ⟨s, index', hplace, hkey, hcoded'⟩ := place_wire hcoded (newItem (containerType u.isArray)) key
      (u.forest u.isArray none none) (rest.forest isArray (k.name key))
    have hnotMem : k ∉ acc.keys := fun h => (List.nodup_append.mp hnd).2.2 k h k List.mem_cons_self rfl
    have hdecode : cjsonToTable (wire (u.forest u.isArray none none) (!u.isArray)) u.isArray
      (room - 1) 1 .nil = some u ↔
        u.Short :=
      decode_iff hkeys fun index hc hn =>
        (ihu hsub (by omega) (fun hne => by have := LuaTable.two_le_slots hne; omega) hc
        (show (LuaTable.nil.keys ++ u.keys).Nodup from hn)).2
    have hrun : cjsonToTable (wire ((LuaTable.table k u rest).forest isArray key none)
      (!isArray)) isArray room index acc =
        (cjsonToTable (wire (u.forest u.isArray none none) (!u.isArray)) u.isArray (room - 1) 1 .nil).bind fun u' =>
          cjsonToTable (wire (rest.forest isArray (k.name key) none) (!isArray)) isArray room index'
            (acc.append (.table k u' .nil)) := by
      have hset : ∀ u', acc.set k (.inr u') = acc.append (.table k u' .nil) := fun u' =>
        LuaTable.set_of_notMem hnotMem (.inr u')
      rw [LuaTable.forest, hplace, cjsonToTable, hkey]
      dsimp only
      rw [if_neg hstore]
      simp only [hset]
      cases u.isArray <;> rfl
    have htail : ∀ u', (∀ w, cjsonToTable (wire (rest.forest isArray (k.name key) none) (!isArray)) isArray room index'
          (acc.append (.table k u' .nil)) = some w → ∃ x, w = (acc.append (.table k u' .nil)).append x) ∧
        (cjsonToTable (wire (rest.forest isArray (k.name key) none) (!isArray)) isArray room index'
          (acc.append (.table k u' .nil)) = some ((acc.append (.table k u' .nil)).append rest) ↔ rest.SubShort) :=
      fun _ => ihr hplain' hrest (fun _ => hroom) hcoded' (by rw [LuaTable.keys_append, List.append_assoc]; exact hnd)
    rw [hrun]
    refine ⟨fun w hw => ?_, ?_⟩
    · obtain ⟨u', -, hw⟩ := Option.bind_eq_some_iff.mp hw
      obtain ⟨x, rfl⟩ := (htail u').1 w hw
      exact ⟨_, LuaTable.append_assoc _ _ _⟩
    · rw [LuaTable.SubShort, ← LuaTable.Short, ← hdecode, Option.bind_eq_some_iff]
      constructor
      · rintro ⟨u', hu', hw⟩
        obtain ⟨x, hx⟩ := (htail u').1 _ hw
        rw [LuaTable.append_assoc] at hx
        have heq := (LuaTable.table.inj (LuaTable.append_left_cancel hx)).2.1
        subst heq
        rw [← (htail u).2, LuaTable.append_assoc]
        exact ⟨hu', hw⟩
      · rintro ⟨hu', hshort⟩
        refine ⟨u, hu', ?_⟩
        have := (htail u).2.mpr hshort
        rwa [LuaTable.append_assoc] at this

theorem cjsonToTable_of_few {f : Forest JsonItem} {room : ℕ} (hroom : room < 2) (hne : f ≠ .nil) {isArray : Bool}
    {index : ℤ} : cjsonToTable f isArray room index .nil = none := by
  cases f with
  | nil => exact absurd rfl hne
  | cons item kids rest =>
    have hslots : LuaTable.nil.storeSlots (itemKey item isArray index).1 = 2 := if_neg List.not_mem_nil
    rw [cjsonToTable]
    dsimp only
    rw [hslots, if_pos hroom]

theorem wire_forest_ne_nil {t : LuaTable} (hplain : t.Plain) :
    wire (t.forest t.isArray none none) (!t.isArray) ≠ .nil := by
  have hplace : ∀ {isArray : Bool} {k : LuaKey} {x : JsonItem × Forest JsonItem}
      {rest : Option (JsonItem × Forest JsonItem) → Forest JsonItem} {named : Bool},
      isArray = true ∨ k.isString = true → wire (place isArray (k.name none) (some x) rest) named ≠ .nil := by
    intro isArray k x rest named h
    rcases h with rfl | hk
    · exact nofun
    · cases k with
      | string s => cases isArray <;> exact nofun
      | _ => cases hk
  have huniform := uniform_of_plain hplain.1
  obtain ⟨hkeys, hsub⟩ := hplain
  cases t with
  | nil => exact absurd rfl (hkeys.elim (fun h => h.1) fun h => h.1)
  | leaf k v rest =>
    obtain ⟨item, hitem⟩ : ∃ item, leafItem v = some item := by
      cases v with
      | other => exact hsub.1.elim
      | _ => exact ⟨_, rfl⟩
    rw [LuaTable.forest, hitem]
    exact hplace (huniform.imp_right fun h => h k List.mem_cons_self)
  | table k u rest =>
    rw [LuaTable.forest]
    exact hplace (huniform.imp_right fun h => h k List.mem_cons_self)

/-! ## There and back -/

/-- Parsing what is printed of the tree of a table gives that tree as a reader sees it. -/
def Inverse (malloc : Malloc (TCell JsonItem)) (gc : ℕ → Bool) (elsewhere : List UInt8 → Bool) (room : ℕ)
    (h : Heap (TCell JsonItem)) (print : Forest JsonItem → List UInt8) (parse : List UInt8 → Option (Forest JsonItem))
    (t : LuaTable) : Prop :=
  ∀ json b tree, jsonBuild malloc gc elsewhere room h t = some (json, b) →
    readForest b.heap (b.heap.keys.card + 1) json = some tree → parse (print tree) = some (wire tree false)

/-- **A plain table comes back exactly if the stack has room for it** and its arrays have indices of type `int`,
where parsing gives what was printed. -/
theorem jsonRoundTrip_iff {malloc : Malloc (TCell JsonItem)} (hmalloc : malloc.Total) (gc : ℕ → Bool)
    (elsewhere : List UInt8 → Bool) {print : Forest JsonItem → List UInt8}
    {parse : List UInt8 → Option (Forest JsonItem)} {room : ℕ} {h : Heap (TCell JsonItem)} {t : LuaTable}
    (hplain : t.Plain) (hinverse : Inverse malloc gc elsewhere room h print parse t) :
    jsonRoundTrip malloc gc elsewhere print parse room h t = some t ↔ t.slots ≤ room ∧ 3 ≤ room ∧ t.Short := by
  have hkeys := hplain.keysKept (conversionHeld elsewhere t)
  have hcall : t.slots ≤ room → luaJsonDecode room (wire t.json false) =
      cjsonToTable (wire (t.forest t.isArray none none) (!t.isArray)) t.isArray (room - 1) 1 .nil := by
    intro hslots
    have hone := t.one_le_slots
    rw [LuaTable.json, wire, luaJsonDecode, if_neg (by omega)]
    cases t.isArray <;> rfl
  have hdecode : t.slots ≤ room → (luaJsonDecode room (wire t.json false) = some t ↔ 3 ≤ room ∧ t.Short) := by
    intro hslots
    rw [hcall hslots]
    by_cases hroom : 3 ≤ room
    · rw [and_iff_right hroom]
      exact decode_iff hplain.1 fun index hc hn => (cjsonToTable_forest t hplain.2 (by omega) (fun _ => by omega) hc
        (show (LuaTable.nil.keys ++ t.keys).Nodup from hn)).2
    · -- the first key has no slot
      refine iff_of_false (fun hrun => ?_) fun h => hroom h.1
      rw [cjsonToTable_of_few (by omega) (wire_forest_ne_nil hplain)] at hrun
      cases hrun
  cases hrun : jsonBuild malloc gc elsewhere room h t with
  | none =>
    rw [jsonRoundTrip, hrun]
    refine ⟨fun h => (by cases h), fun hright => ?_⟩
    obtain ⟨json, b, hrun'⟩ := exists_jsonBuild gc hmalloc h hright.1 hplain.tidy.steady hkeys
    rw [hrun] at hrun'
    cases hrun'
  | some r =>
    obtain ⟨json, b⟩ := r
    have hslots := slots_of_jsonBuild hkeys hrun
    have hread := readForest_jsonBuild hmalloc hplain.tidy.steady hkeys hrun
    rw [jsonRoundTrip, hrun, Option.bind_some]
    dsimp only
    rw [hread, Option.bind_some, hinverse json b t.json hrun hread, Option.bind_some, hdecode hslots]
    exact ⟨fun h => ⟨hslots, h⟩, fun h => h.2⟩

/-- A string-keyed table with a number and an array. -/
def sampleTable : LuaTable :=
  .leaf (.string (lit "a")) (.integer 5) (.table (.string (lit "b")) (.leaf (.integer 1) (.boolean true) .nil) .nil)

theorem sampleTable_plain : sampleTable.Plain := by
  refine ⟨.inl ⟨by decide, by decide, ?_⟩, ⟨by decide, by decide⟩,
    ⟨.inr ⟨by decide, 1, by decide, by decide⟩, trivial, trivial⟩, trivial⟩
  intro k hk
  rw [sampleTable, LuaTable.keys, LuaTable.keys, LuaTable.keys, List.mem_cons, List.mem_singleton] at hk
  obtain rfl | rfl := hk
  · exact ⟨lit "a", rfl, by decide⟩
  · exact ⟨lit "b", rfl, by decide⟩

/-- `cJSON_PrintUnformatted`, with memory. -/
def printed : Forest JsonItem → List UInt8
  | .nil => []
  | .cons item kids _ => ((cJSONPrint (fun _ => some fun _ => 0) false item kids).bind id).getD []

/-- `cJSON_Parse`. -/
def parsed (s : List UInt8) : Option (Forest JsonItem) := (cJSONParse s).bind fun r => r.toOption

theorem sampleTable_text : text false sampleTable.json false 0 = some (lit "\x7b\"a\":5,\"b\":[true]\x7d") := by
  decide +kernel

theorem parsed_printed_sample : parsed (printed sampleTable.json) = some (wire sampleTable.json false) := by
  have hprint : Printable sampleTable.json := by
    refine ⟨⟨?_, ⟨trivial, trivial⟩, trivial⟩, trivial⟩
    intro d hd
    obtain rfl := Option.some.inj hd
    exact Double.ofInt_binary64 (by decide)
  obtain ⟨result, hrun, hout, hnone⟩ := cJSONPrint_cases (fun _ => some fun _ => 0) false
    (newItem (containerType sampleTable.isArray)) (sampleTable.forest sampleTable.isArray none none) 18
  have henough : Enough (fun _ => some fun _ => 0) 18 := ⟨nofun, by decide⟩
  cases result with
  | none => exact absurd ⟨henough, _, sampleTable_text, by decide⟩ (hnone rfl)
  | some out =>
    obtain ⟨u, hu, hcut⟩ := exists_text_of_print hprint hrun
    obtain ⟨hparse, -⟩ := cJSONParse_text hprint hu
    have hout : printed sampleTable.json = out := by
      rw [LuaTable.json, printed, hrun]
      rfl
    rw [hout, parsed, hcut, hparse (by decide)]
    rfl

theorem jsonRoundTrip_iff_sample : jsonRoundTrip Malloc.bump (fun _ => true) (fun _ => false) printed parsed 20 ∅
    sampleTable = some sampleTable := by
  refine (jsonRoundTrip_iff Malloc.bump_total (fun _ => true) (fun _ => false) sampleTable_plain
    fun json b tree hrun hread => ?_).mpr ⟨by decide, by decide, by decide, ⟨by decide, trivial⟩, trivial⟩
  rw [readForest_jsonBuild Malloc.bump_total sampleTable_plain.tidy.steady (sampleTable_plain.keysKept _) hrun,
    Option.some.injEq] at hread
  rw [← hread]
  exact parsed_printed_sample

/-- `n + 1` nested tables around `true`. -/
def nestedTable : ℕ → LuaTable
  | 0 => .leaf (.string (lit "a")) (.boolean true) .nil
  | n + 1 => .table (.string (lit "a")) (nestedTable n) .nil

theorem nestedTable_plain (n : ℕ) : (nestedTable n).Plain := by
  have hkeys : ∀ n, (nestedTable n).StringKeys := by
    intro n
    have hone : (nestedTable n).keys = [.string (lit "a")] := by cases n <;> rfl
    have hne : nestedTable n ≠ .nil := by
      intro h
      rw [h] at hone
      cases hone
    refine ⟨hne, ?_, fun k hk => ?_⟩
    · rw [hone]
      exact List.nodup_singleton _
    · rw [hone, List.mem_singleton] at hk
      exact ⟨lit "a", hk, by decide⟩
  have hsub : (nestedTable n).SubPlain := by
    induction n with
    | zero => exact ⟨trivial, trivial⟩
    | succ n ih => exact ⟨⟨.inl (hkeys n), ih⟩, trivial⟩
  exact ⟨.inl (hkeys n), hsub⟩

/-- Eleven nested tables overflow the 20 slots that a C function may use. -/
theorem not_jsonRoundTrip : ¬ ∀ (gc : ℕ → Bool) (elsewhere : List UInt8 → Bool) (print : Forest JsonItem → List UInt8)
    (parse : List UInt8 → Option (Forest JsonItem)) (t : LuaTable), t.Plain →
    Inverse Malloc.bump gc elsewhere 20 ∅ print parse t →
    jsonRoundTrip Malloc.bump gc elsewhere print parse 20 ∅ t = some t := by
  intro hall
  have hdeep : ¬ (nestedTable 10).slots ≤ 20 := by decide
  have hnone : jsonBuild Malloc.bump (fun _ => false) (fun _ => false) 20 ∅ (nestedTable 10) = none := by
    cases hrun : jsonBuild Malloc.bump (fun _ => false) (fun _ => false) 20 ∅ (nestedTable 10) with
    | none => rfl
    | some r => exact absurd (slots_of_jsonBuild ((nestedTable_plain 10).keysKept _) hrun) hdeep
  have hback := hall (fun _ => false) (fun _ => false) (fun _ => []) (fun _ => none) (nestedTable 10)
    (nestedTable_plain 10)
    fun json b tree hrun => by
      rw [hnone] at hrun
      cases hrun
  rw [jsonRoundTrip, hnone] at hback
  cases hback

end Sarah
