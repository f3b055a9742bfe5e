import SarahClient.April.Value
import SarahClient.Lib.Forest
import SarahClient.Lib.StringHeap

/-!
# Lua tables to JSON and back, `april.c`

The `cJSON` items live in a heap with the allocator `malloc`; a pointer is an address and `0` is `NULL`. `room` is
the number of free slots of the Lua stack; a push without a free slot is `none`, and so are an endless walk and a read
of a string that is freed. `gc` says at which pushes the collector runs, and `elsewhere` which strings the rest of the
program holds.

* `JsonItem`, `Build`: the items, and the pointers created and added so far;
* `addItemToArray`, `addItemToObject`;
* `tableIsArray`, `tableToJson`: the conversion of a table; `jsonBuild`: what `lua_json_encode` prints;
* `cjsonToTable`, `luaJsonDecode`, `jsonRoundTrip`: the way back.
-/

namespace Sarah

open Heap Forest StringHeap

/-- The type of an item. -/
inductive JsonType
  | invalid
  | false
  | true
  | null
  | number
  | string
  | array
  | object
  | raw
  deriving DecidableEq

/-- A `cJSON` item without its links; `none` is `NULL`, and the number `none` is NaN. -/
structure JsonItem where
  type : JsonType
  valuestring : Option (List UInt8)
  valueint : ℤ
  valuedouble : Option Double
  string : Option (List UInt8)
  deriving DecidableEq

/-- `cJSON_New_Item`, with its type. -/
def newItem (type : JsonType) : JsonItem := ⟨type, none, 0, some (.fin 0), none⟩

/-- `cJSON_CreateNumber`. -/
def createNumber (num : Option Double) : JsonItem :=
  { newItem .number with valuedouble := num, valueint := (num.map Double.toInt).getD (-2 ^ 31) }

/-- `cJSON_CreateString`. -/
def createString (s : List UInt8) : JsonItem := { newItem .string with valuestring := some (cstr s) }

/-- The items, those that were created, and those that were added, in order. -/
structure Build where
  heap : Heap (TCell JsonItem)
  created : List ℕ
  added : List ℕ

variable (malloc : Malloc (TCell JsonItem)) (gc : ℕ → Bool) (held : List UInt8 → Bool)

/-- A new item without children. -/
def create (b : Build) (item : JsonItem) : Option (ℕ × Build) :=
  (alloc malloc b.heap ⟨item, 0, 0⟩).map fun r => (r.1, { b with heap := r.2, created := b.created ++ [r.1] })

/-- `add_item_to_array`. -/
def addItemToArray (b : Build) (array item : ℕ) : Option Build :=
  if item = 0 then some b
  else
    (b.heap.read array).bind fun c =>
      if c.child = 0 then
        (modify b.heap array fun c => { c with child := item }).map fun h =>
          { b with heap := h, added := b.added ++ [item] }
      else
        -- `suffix_object` behind the last child
        (lastSibling b.heap (b.heap.keys.card + 1) c.child).bind fun child =>
          (modify b.heap child fun c => { c with next := item }).map fun h =>
            { b with heap := h, added := b.added ++ [item] }

/-- `add_item_to_object`; no key is no addition. The text behind the key is read only here, and is `none` where it is
freed. -/
def addItemToObject (b : Build) (object : ℕ) (string : Option (Option (List UInt8))) (item : ℕ) : Option Build :=
  match string with
  | none => some b
  | some text =>
    if item = 0 then some b
    else
      text.bind fun key =>
        (modify b.heap item fun c => { c with payload := { c.payload with string := some key } }).bind fun h =>
          addItemToArray { b with heap := h } object item

/-- What `lua_pushnil` and `lua_next` push while a table is visited. -/
def LuaTable.visitSlots : LuaTable → ℕ
  | .nil => 1
  | _ => 2

/-- A key that is a string (`LUA_TSTRING`). -/
def LuaKey.isString : LuaKey → Bool
  | .string _ => true
  | _ => false

/-- `table_is_array`. -/
def tableIsArray (room : ℕ) (t : LuaTable) : Option Bool :=
  if room < t.visitSlots then none else some (t.keys.all fun k => !k.isString)

/-- `lua_pushfstring(L, "%I", n)` and `lua_pop`: a pointer to the text, and the strings. -/
def pushNumber (room : ℕ) (n : ℤ) (strs : Strings UInt8) : Option (Option (TextPtr UInt8) × Strings UInt8) :=
  if room < 3 then none
  else
    let r := push gc shortString held (decimalInt n) strs
    some (some r.1, r.2)

/-- The variable `key` after an entry's key, and the strings; a key that is a string stays in the table. -/
def nextKey (room : ℕ) (k : LuaKey) (key : Option (TextPtr UInt8)) (strs : Strings UInt8) :
    Option (Option (TextPtr UInt8) × Strings UInt8) :=
  match k with
  | .integer i => pushNumber gc held room i.toInt strs
  | .number d => pushNumber gc held room (luaToInteger d) strs
  | .string s => some (some (.static s), strs)
  | .other => some (key, strs)

/-- The item for a value that is no table; `none` for a value of no case of the switch. -/
def leafItem : LuaLeaf → Option JsonItem
  | .boolean b => some (newItem (if b then .true else .false))
  | .integer i => some (createNumber (some (Double.ofInt i.toInt)))
  | .number d => some (createNumber d)
  | .string s => some (createString s)
  | .other => none

/-- The variable `value` after an entry's value that is no table. -/
def nextValue (b : Build) (v : LuaLeaf) (value : ℕ) : Option (ℕ × Build) :=
  match leafItem v with
  | none => some (value, b)
  | some item => create malloc b item

/-- `json->type == cJSON_Array ? cJSON_AddItemToArray : cJSON_AddItemToObject`. -/
def addItem (b : Build) (json : ℕ) (key : Option (Option (List UInt8))) (value : ℕ) : Option Build :=
  (b.heap.read json).bind fun c =>
    if c.payload.type = .array then addItemToArray b json value else addItemToObject b json key value

/-- `cJSON_CreateArray()` or `cJSON_CreateObject()`. -/
def containerType (isArray : Bool) : JsonType := if isArray then .array else .object

/-- What stands behind the variable `key`. -/
def keyText (strs : Strings UInt8) (key : Option (TextPtr UInt8)) : Option (Option (List UInt8)) :=
  key.map fun ptr => (strs.deref ptr).map cstr

/-- The loop of `table_to_json`, with its variables `key` and `value`, which keep their last contents. -/
def tableToJsonLoop (json : ℕ) : LuaTable → ℕ → Option (TextPtr UInt8) → ℕ → Build → Strings UInt8 →
    Option (Build × Strings UInt8)
  | .nil, _, _, _, b, strs => some (b, strs)
  | .leaf k v rest, room, key, value, b, strs =>
    if room < 2 then none
    else
      (nextKey gc held room k key strs).bind fun q => (nextValue malloc b v value).bind fun r =>
        (addItem r.2 json (keyText q.2 q.1) r.1).bind fun b => tableToJsonLoop json rest room q.1 r.1 b q.2
  | .table k t rest, room, key, _, b, strs =>
    if room < 2 then none
    else
      (nextKey gc held room k key strs).bind fun q => (tableIsArray (room - 2) t).bind fun isArray =>
        (create malloc b (newItem (containerType isArray))).bind fun r =>
          -- `table_to_json` of the value: `lua_pushnil`, then the loop
          (if room - 2 < 1 then none else tableToJsonLoop r.1 t (room - 2) none 0 r.2 q.2).bind fun u =>
            (addItem u.1 json (keyText u.2 q.1) r.1).bind fun b => tableToJsonLoop json rest room q.1 r.1 b u.2

/-- `table_to_json`. -/
def tableToJson (json : ℕ) (t : LuaTable) (room : ℕ) (b : Build) : Option (Build × Strings UInt8) :=
  if room < 1 then none else tableToJsonLoop malloc gc held json t room none 0 b .empty

/-- A string in a table, which is not freed as long as the table is not. -/
def LuaTable.holds : LuaTable → List UInt8 → Bool
  | .nil, _ => false
  | .leaf k v rest, s => k = .string s || v = .string s || rest.holds s
  | .table k t rest, s => k = .string s || t.holds s || rest.holds s

/-- The strings that a conversion finds held: by the rest of the program, and by its table. -/
def conversionHeld (elsewhere : List UInt8 → Bool) (t : LuaTable) (s : List UInt8) : Bool := elsewhere s || t.holds s

/-- The tree that `lua_json_encode` builds: the root, and what the conversion did. -/
def jsonBuild (elsewhere : List UInt8 → Bool) (room : ℕ) (h : Heap (TCell JsonItem)) (t : LuaTable) :
    Option (ℕ × Build) :=
  (tableIsArray room t).bind fun isArray => (alloc malloc h ⟨newItem (containerType isArray), 0, 0⟩).bind fun r =>
    (tableToJson malloc gc (conversionHeld elsewhere t) r.1 t room ⟨r.2, [], []⟩).map fun u => (r.1, u.1)

/-- `cJSON_Delete`. -/
def cjsonDelete (h : Heap (TCell JsonItem)) (item : ℕ) : Option (Heap (TCell JsonItem)) :=
  freeForest (h.keys.card + 1) h item

/-! ## The way back -/

/-- `item->valuedouble > item->valueint`. -/
def JsonItem.fractional (item : JsonItem) : Bool :=
  match item.valuedouble with
  | none => false
  | some d => !d.le (.fin item.valueint)

/-- `lua_seti(L, -2, index++)` or `lua_setfield(L, -2, item->string)`: the key and the next index. -/
def itemKey (item : JsonItem) (isArray : Bool) (index : ℤ) : LuaKey × ℤ :=
  match item.string with
  | none => (.integer (Int64.ofInt index), i32 (index + 1))
  | some s => if isArray then (.integer (Int64.ofInt index), i32 (index + 1)) else (.string s, index)

/-- The slots of an item above its table: the value, and in `lua_seti` and `lua_setfield` the key, where the table has
no value for it. -/
def LuaTable.storeSlots (t : LuaTable) (key : LuaKey) : ℕ := if key ∈ t.keys then 1 else 2

/-- `cjson_to_table` on the items of a list, into the table on top of the stack. Nothing is pushed for an item of
another type, and the table itself would be set. -/
def cjsonToTable : Forest JsonItem → Bool → ℕ → ℤ → LuaTable → Option LuaTable
  | .nil, _, _, _, t => some t
  | .cons item kids rest, isArray, room, index, t =>
    let key := itemKey item isArray index
    if room < t.storeSlots key.1 then none
    else
      let next (t : LuaTable) := cjsonToTable rest isArray room key.2 t
      match item.type with
      | .false => next (t.set key.1 (.inl (.boolean false)))
      | .true => next (t.set key.1 (.inl (.boolean true)))
      | .null => next (t.erase key.1)
      | .number => next (t.set key.1 (.inl (if item.fractional then .number item.valuedouble
          else .integer (Int64.ofInt item.valueint))))
      | .string =>
        -- `lua_pushstring` of `NULL` pushes nil
        match item.valuestring with
        | none => next (t.erase key.1)
        | some s => next (t.set key.1 (.inl (.string s)))
      | .array => (cjsonToTable kids true (room - 1) 1 .nil).bind fun u => next (t.set key.1 (.inr u))
      | .object => (cjsonToTable kids false (room - 1) 1 .nil).bind fun u => next (t.set key.1 (.inr u))
      | _ => none

/-- The table of `lua_json_decode` for a parsed tree. -/
def luaJsonDecode (room : ℕ) (json : Forest JsonItem) : Option LuaTable :=
  match json with
  | .nil => none
  | .cons root kids _ => if room < 1 then none else cjsonToTable kids (root.type = .array) (room - 1) 1 .nil

/-- Encode, print, parse and decode. -/
def jsonRoundTrip (elsewhere : List UInt8 → Bool) (print : Forest JsonItem → List UInt8)
    (parse : List UInt8 → Option (Forest JsonItem)) (room : ℕ) (h : Heap (TCell JsonItem)) (t : LuaTable) :
    Option LuaTable :=
  (jsonBuild malloc gc elsewhere room h t).bind fun r =>
  (readForest r.2.heap (r.2.heap.keys.card + 1) r.1).bind fun json =>
    (parse (print json)).bind (luaJsonDecode room)

end Sarah
