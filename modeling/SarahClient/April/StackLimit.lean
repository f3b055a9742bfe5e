import SarahClient.April.Tidy

/-!
# The Lua stack of the JSON conversions, `april.c` and `lib_april.c`

No function here calls `lua_checkstack`, so each run has `LUA_MINSTACK` slots beyond its arguments.

* `LuaTop`: how many values stand above the arguments, and how many stood there at most; `push`, `pop`, `next`;
* `tableIsArrayTop`, `tableToJsonTop`, `luaJsonEncodeTop`: the encoder; `cjsonToTableTop`, `luaJsonDecodeTop`: the
  decoder;
* `tableToJsonTop_spec`, `cjsonToTableTop_spec`: what a call leaves, and what it needs;
* `LuaTable.Below`, `slots_le_iff`: the needs of a table are those of the tables inside, by their depth;
* **`jsonStack_iff`**: which tables and documents fit; **`not_jsonStack`**: eleven tables, and twenty arrays.
-/

namespace Sarah

/-- `LUA_MINSTACK`. -/
def luaMinstack : ℤ := 20

/-- The values above the arguments: their number, and the largest number so far. -/
structure LuaTop where
  top : ℤ
  peak : ℤ
  le : top ≤ peak

namespace LuaTop

/-- The start of a C function. -/
def start : LuaTop := ⟨0, 0, le_rfl⟩

/-- One value more on the stack. -/
def push (s : LuaTop) : LuaTop := ⟨s.top + 1, max s.peak (s.top + 1), le_max_right _ _⟩

/-- `lua_pop`. -/
def pop (n : ℕ) (s : LuaTop) : LuaTop := ⟨s.top - n, s.peak, by have := s.le; omega⟩

/-- `lua_next` where there is an entry: the key is popped, and the next key and its value are pushed. -/
def next (s : LuaTop) : LuaTop := (s.pop 1).push.push

@[simp] theorem top_push (s : LuaTop) : s.push.top = s.top + 1 := rfl

@[simp] theorem peak_push (s : LuaTop) : s.push.peak = max s.peak (s.top + 1) := rfl

@[simp] theorem top_pop (n : ℕ) (s : LuaTop) : (s.pop n).top = s.top - n := rfl

@[simp] theorem peak_pop (n : ℕ) (s : LuaTop) : (s.pop n).peak = s.peak := rfl

@[simp] theorem top_next (s : LuaTop) : s.next.top = s.top + 1 := by
  simp only [next, top_push, top_pop]
  omega

@[simp] theorem peak_next (s : LuaTop) : s.next.peak = max s.peak (s.top + 1) := by
  have := s.le
  simp only [next, top_push, peak_push, top_pop, peak_pop]
  omega

end LuaTop

/-! ## The encoder -/

/-- The loop of `table_is_array`; behind the last entry `lua_next` pops the key. -/
def tableIsArrayLoop : LuaTable → LuaTop → LuaTop
  | .nil, s => s.pop 1
  | .leaf k _ rest, s | .table k _ rest, s => if k.isString then s.next.pop 2 else tableIsArrayLoop rest (s.next.pop 1)

/-- `table_is_array`. -/
def tableIsArrayTop (t : LuaTable) (s : LuaTop) : LuaTop := tableIsArrayLoop t s.push

/-- The switch on the type of the key: `lua_pushfstring` and `lua_pop` for a number. -/
def keyTop (k : LuaKey) (s : LuaTop) : LuaTop :=
  match k with
  | .integer _ | .number _ => s.push.pop 1
  | _ => s

/-- The loop of `table_to_json`. -/
def tableToJsonTopLoop : LuaTable → LuaTop → LuaTop
  | .nil, s => s.pop 1
  | .leaf k _ rest, s => tableToJsonTopLoop rest ((keyTop k s.next).pop 1)
  | .table k t rest, s =>
    -- `table_to_json` of the value pushes nil first
    tableToJsonTopLoop rest ((tableToJsonTopLoop t (tableIsArrayTop t (keyTop k s.next)).push).pop 1)

/-- `table_to_json`. -/
def tableToJsonTop (t : LuaTable) (s : LuaTop) : LuaTop := tableToJsonTopLoop t s.push

/-- `lua_json_encode`: at the end the text, or nil, and a boolean. -/
def luaJsonEncodeTop (t : LuaTable) : LuaTop := (tableToJsonTop t (tableIsArrayTop t .start)).push.push

/-! ## The decoder -/

/-- Items as `cJSON_Parse` builds them: only arrays and objects have children. -/
def Parsed : Forest JsonItem → Prop
  | .nil => True
  | .cons item kids rest =>
    (match item.type with
      | .array | .object => Parsed kids
      | .false | .true | .null | .number | .string => kids = .nil
      | .raw | .invalid => False) ∧ Parsed rest

/-- What `cJSON_Parse` returns: an item, its children, and that they are well formed. -/
structure Document where
  root : JsonItem
  kids : Forest JsonItem
  parsed : Parsed (.cons root kids .nil)

/-- `lua_seti` and `lua_setfield`: a key that the table has a value for is not pushed. -/
def storeTop (known : Bool) (s : LuaTop) : LuaTop := if known then s.pop 1 else s.push.pop 2

/-- The keys with a value once the item is stored; a null, and a string without a text, leave none. -/
def storedKeys (item : JsonItem) (key : LuaKey) (keys : List LuaKey) : List LuaKey :=
  match item.type with
  | .null => keys.filter (· ≠ key)
  | .string => if item.valuestring.isNone then keys.filter (· ≠ key) else key :: keys
  | _ => key :: keys

/-- `cjson_to_table`: each item is pushed, and popped by `lua_seti` or `lua_setfield`; `keys` are those of the table. -/
def cjsonToTableTop : Forest JsonItem → Bool → ℤ → List LuaKey → LuaTop → LuaTop
  | .nil, _, _, _, s => s
  | .cons item kids rest, isArray, index, keys, s =>
    let key := itemKey item isArray index
    cjsonToTableTop rest isArray key.2 (storedKeys item key.1 keys) (storeTop (key.1 ∈ keys) (match item.type with
      | .array => cjsonToTableTop kids true 1 [] s.push
      | .object => cjsonToTableTop kids false 1 [] s.push
      | .false | .true | .null | .number | .string => s.push
      | .raw | .invalid => s))

/-- `lua_json_decode`: an error text and a boolean, or the table and a boolean. -/
def luaJsonDecodeTop : Option Document → LuaTop
  | none => LuaTop.start.push.push
  | some doc => (cjsonToTableTop doc.kids (doc.root.type = .array) 1 [] LuaTop.start.push).push

/-! ## What a call leaves and needs -/

theorem keyTop_spec (k : LuaKey) (s : LuaTop) :
    (keyTop k s).top = s.top ∧ (keyTop k s).peak = max s.peak (s.top - 2 + k.slots) := by
  have := s.le
  cases k with
  | integer i | number d =>
    rw [keyTop, LuaTop.top_pop, LuaTop.peak_pop, LuaTop.top_push, LuaTop.peak_push, LuaKey.slots]
    omega
  | string s' | other => exact ⟨rfl, show s.peak = max s.peak (s.top - 2 + (2 : ℕ)) by omega⟩

theorem tableIsArrayLoop_spec (t : LuaTable) : ∀ s : LuaTop, (tableIsArrayLoop t s).top = s.top - 1 ∧
    (tableIsArrayLoop t s).peak = max s.peak (s.top - 1 + t.visitSlots) := by
  -- the walk ends at a string, or goes on with one value less
  have hentry : ∀ (k : LuaKey) (rest : LuaTable) (s : LuaTop),
    (∀ s : LuaTop, (tableIsArrayLoop rest s).top = s.top - 1 ∧
      (tableIsArrayLoop rest s).peak = max s.peak (s.top - 1 + rest.visitSlots)) →
      ∃ r, r = (if k.isString then s.next.pop 2 else tableIsArrayLoop rest (s.next.pop 1)) ∧ r.top = s.top - 1 ∧
        r.peak = max s.peak (s.top - 1 + 2) := by
    intro k rest s ih
    have hvisit : rest.visitSlots ≤ 2 := by cases rest <;> simp [LuaTable.visitSlots]
    refine ⟨_, rfl, ?_⟩
    split_ifs with hk
    · rw [LuaTop.top_pop, LuaTop.peak_pop, LuaTop.top_next, LuaTop.peak_next]
      omega
    · obtain ⟨htop, hpeak⟩ := ih (s.next.pop 1)
      rw [htop, hpeak, LuaTop.top_pop, LuaTop.peak_pop, LuaTop.top_next, LuaTop.peak_next]
      omega
  induction t with
  | nil =>
    intro s
    have := s.le
    rw [tableIsArrayLoop, LuaTable.visitSlots, LuaTop.top_pop, LuaTop.peak_pop]
    omega
  | leaf k v rest ih =>
    intro s
    obtain ⟨r, hr, htop, hpeak⟩ := hentry k rest s ih
    rw [tableIsArrayLoop, ← hr]
    exact ⟨htop, hpeak⟩
  | table k u rest _ ih =>
    intro s
    obtain ⟨r, hr, htop, hpeak⟩ := hentry k rest s ih
    rw [tableIsArrayLoop, ← hr]
    exact ⟨htop, hpeak⟩

theorem tableIsArrayTop_spec (t : LuaTable) (s : LuaTop) : (tableIsArrayTop t s).top = s.top ∧
    (tableIsArrayTop t s).peak = max s.peak (s.top + t.visitSlots) := by
  obtain ⟨htop, hpeak⟩ := tableIsArrayLoop_spec t s.push
  have hvisit : 1 ≤ t.visitSlots := by cases t <;> simp [LuaTable.visitSlots]
  rw [tableIsArrayTop, htop, hpeak, LuaTop.top_push, LuaTop.peak_push]
  omega

/-- **A call of `table_to_json`** leaves the height that it found, and needs `LuaTable.slots`. -/
theorem tableToJsonTopLoop_spec (t : LuaTable) : ∀ s : LuaTop, (tableToJsonTopLoop t s).top = s.top - 1 ∧
    (tableToJsonTopLoop t s).peak = max s.peak (s.top - 1 + t.slots) := by
  induction t with
  | nil =>
    intro s
    have := s.le
    rw [tableToJsonTopLoop, LuaTable.slots, LuaTop.top_pop, LuaTop.peak_pop]
    omega
  | leaf k v rest ih =>
    intro s
    obtain ⟨htop, hpeak⟩ := ih ((keyTop k s.next).pop 1)
    obtain ⟨hkey, hkeyPeak⟩ := keyTop_spec k s.next
    have hk := k.two_le_slots
    rw [tableToJsonTopLoop, htop, hpeak, LuaTable.slots, LuaTop.top_pop, LuaTop.peak_pop, hkey, hkeyPeak,
      LuaTop.top_next, LuaTop.peak_next, Nat.cast_max]
    omega
  | table k u rest ihu ihr =>
    intro s
    -- the stack behind the key, behind `table_is_array`, and behind the value
    obtain ⟨s₁, hs₁⟩ : ∃ s₁, keyTop k s.next = s₁ := ⟨_, rfl⟩
    obtain ⟨s₂, hs₂⟩ : ∃ s₂, tableIsArrayTop u s₁ = s₂ := ⟨_, rfl⟩
    obtain ⟨s₃, hs₃⟩ : ∃ s₃, tableToJsonTopLoop u s₂.push = s₃ := ⟨_, rfl⟩
    obtain ⟨htop₁, hpeak₁⟩ := keyTop_spec k s.next
    obtain ⟨htop₂, hpeak₂⟩ := tableIsArrayTop_spec u s₁
    obtain ⟨htop₃, hpeak₃⟩ := ihu s₂.push
    obtain ⟨htop, hpeak⟩ := ihr (s₃.pop 1)
    rw [hs₁, LuaTop.top_next] at htop₁
    rw [hs₁, LuaTop.top_next, LuaTop.peak_next] at hpeak₁
    rw [hs₂] at htop₂ hpeak₂
    rw [hs₃, LuaTop.top_push] at htop₃
    rw [hs₃, LuaTop.top_push, LuaTop.peak_push] at hpeak₃
    rw [LuaTop.top_pop] at htop
    rw [LuaTop.top_pop, LuaTop.peak_pop] at hpeak
    have hk := k.two_le_slots
    have hvisit := u.visitSlots_le_slots
    have hslots := u.one_le_slots
    rw [tableToJsonTopLoop, hs₁, hs₂, hs₃, htop, hpeak, LuaTable.slots, Nat.cast_max, Nat.cast_max, Nat.cast_add]
    refine ⟨by omega, eq_of_forall_ge_iff fun n => ?_⟩
    -- the peaks are compared by their upper bounds, without the maxima
    rw [hpeak₃, hpeak₂, hpeak₁]
    simp only [max_le_iff]
    constructor <;> intro h <;> omega

theorem tableToJsonTop_spec (t : LuaTable) (s : LuaTop) :
    (tableToJsonTop t s).top = s.top ∧ (tableToJsonTop t s).peak = max s.peak (s.top + t.slots) := by
  obtain ⟨htop, hpeak⟩ := tableToJsonTopLoop_spec t s.push
  have hslots := t.one_le_slots
  rw [tableToJsonTop, htop, hpeak, LuaTop.top_push, LuaTop.peak_push]
  omega

/-- The slots of a list of items above its table: the deepest value, and its key. -/
def storeDepth : Forest JsonItem → ℕ
  | .nil => 0
  | .cons item kids rest => (Forest.cons item kids rest).depth + 1

theorem storeTop_spec (known : Bool) (s : LuaTop) : (storeTop known s).top = s.top - 1 ∧
    (storeTop known s).peak = if known then s.peak else max s.peak (s.top + 1) := by
  cases known with
  | false =>
    refine ⟨?_, rfl⟩
    show s.top + 1 - (2 : ℕ) = s.top - 1
    omega
  | true => exact ⟨rfl, rfl⟩

theorem exists_itemTop {item : JsonItem} {kids rest : Forest JsonItem} (hitem : Parsed (.cons item kids rest))
    (isArray : Bool) (index : ℤ) (keys : List LuaKey) {s : LuaTop}
    (hkids : Parsed kids → ∀ isArray', (cjsonToTableTop kids isArray' 1 [] s.push).top = s.push.top ∧
      (cjsonToTableTop kids isArray' 1 [] s.push).peak = max s.push.peak (s.push.top + storeDepth kids)) :
    ∃ r : LuaTop, cjsonToTableTop (.cons item kids rest) isArray index keys s =
        cjsonToTableTop rest isArray (itemKey item isArray index).2
          (storedKeys item (itemKey item isArray index).1 keys)
          (storeTop ((itemKey item isArray index).1 ∈ keys) r) ∧
      r.top = s.top + 1 ∧ r.peak = max s.peak (s.top + 1 + storeDepth kids) := by
  rw [cjsonToTableTop]
  refine ⟨_, rfl, ?_⟩
  have hparsed := hitem.1
  cases htype : item.type with
  | array | object =>
    rw [htype] at hparsed
    dsimp only
    rw [(hkids hparsed _).1, (hkids hparsed _).2, LuaTop.top_push, LuaTop.peak_push]
    omega
  | false | true | null | number | string =>
    rw [htype] at hparsed
    obtain rfl : kids = .nil := hparsed
    refine ⟨rfl, ?_⟩
    rw [storeDepth, Nat.cast_zero, Int.add_zero]
    rfl
  | raw | invalid =>
    rw [htype] at hparsed
    exact hparsed.elim

/-- **A call of `cjson_to_table`** leaves the height that it found, and needs a slot for each level and one for the key.
Of the table's own items the first one alone is sure to push its key. -/
theorem cjsonToTableTop_spec {f : Forest JsonItem} (hf : Parsed f) : ∀ (isArray : Bool) (index : ℤ) (keys : List LuaKey)
    (s : LuaTop), (cjsonToTableTop f isArray index keys s).top = s.top ∧
      (keys = [] ∨ s.top + 2 ≤ s.peak →
        (cjsonToTableTop f isArray index keys s).peak = max s.peak (s.top + storeDepth f)) := by
  induction f with
  | nil =>
    intro isArray index keys s
    have := s.le
    rw [cjsonToTableTop, storeDepth]
    omega
  | cons item kids rest ihk ihr =>
    intro isArray index keys s
    have hkids : Parsed kids → ∀ isArray', (cjsonToTableTop kids isArray' 1 [] s.push).top = s.push.top ∧
        (cjsonToTableTop kids isArray' 1 [] s.push).peak = max s.push.peak (s.push.top + storeDepth kids) :=
      fun hk isArray' => ⟨(ihk hk isArray' 1 [] s.push).1, (ihk hk isArray' 1 [] s.push).2 (.inl rfl)⟩
    obtain ⟨r, hr, htop, hpeak⟩ := exists_itemTop hf isArray index keys hkids
    obtain ⟨hstoreTop, hstorePeak⟩ := storeTop_spec ((itemKey item isArray index).1 ∈ keys) r
    obtain ⟨hrestTop, hrestPeak⟩ := ihr hf.2 isArray (itemKey item isArray index).2
      (storedKeys item (itemKey item isArray index).1 keys) (storeTop ((itemKey item isArray index).1 ∈ keys) r)
    have hdepth : storeDepth (.cons item kids rest) = max (kids.depth + 1) rest.depth + 1 := rfl
    have hk : storeDepth kids = 0 ∧ kids.depth = 0 ∨ storeDepth kids = kids.depth + 1 := by
      cases kids with
      | nil => exact .inl ⟨rfl, rfl⟩
      | cons => exact .inr rfl
    have hrest : storeDepth rest = 0 ∧ rest.depth = 0 ∨ storeDepth rest = rest.depth + 1 := by
      cases rest with
      | nil => exact .inl ⟨rfl, rfl⟩
      | cons => exact .inr rfl
    rw [hr, hrestTop, hstoreTop, htop]
    refine ⟨by omega, fun hroom => ?_⟩
    -- a known key is stored where two values stood already
    have hpushed : (storeTop ((itemKey item isArray index).1 ∈ keys) r).peak = max r.peak (s.top + 2) := by
      rw [hstorePeak]
      split_ifs with hknown
      · rw [decide_eq_true_iff] at hknown
        rcases hroom with rfl | hroom
        · exact absurd hknown List.not_mem_nil
        · omega
      · omega
    rw [hrestPeak (.inr (by omega)), hpushed, hstoreTop, htop, hpeak, hdepth]
    omega

/-! ## Tables inside tables -/

namespace LuaTable

/-- The tables among the values. -/
def tables : LuaTable → List LuaTable
  | nil => []
  | leaf _ _ rest => rest.tables
  | table _ value rest => value :: rest.tables

/-- A table that lies so many levels below another one. -/
inductive Below : LuaTable → ℕ → LuaTable → Prop
  | self (t : LuaTable) : Below t 0 t
  | value {t u w : LuaTable} {d : ℕ} (h : u ∈ t.tables) (hw : Below u d w) : Below t (d + 1) w

/-- The slots for the keys and the values of a table itself. -/
def keySlots : LuaTable → ℕ
  | nil => 1
  | leaf key _ rest | table key _ rest => max key.slots rest.keySlots

theorem slots_le_iff_tables (t : LuaTable) (n : ℕ) :
    t.slots ≤ n ↔ t.keySlots ≤ n ∧ ∀ u ∈ t.tables, 2 + u.slots ≤ n := by
  induction t with
  | nil => simp [slots, keySlots, tables]
  | leaf key value rest ih =>
    rw [slots, keySlots, tables, max_le_iff, max_le_iff, ih, and_assoc]
  | table key value rest _ ih =>
    rw [slots, keySlots, tables, max_le_iff, max_le_iff, max_le_iff, ih, List.forall_mem_cons]
    tauto

/-- A table needs what the tables inside need, and two slots for each level above them. -/
theorem slots_le_iff (t : LuaTable) (n : ℕ) : t.slots ≤ n ↔ ∀ d u, Below t d u → 2 * d + u.keySlots ≤ n := by
  constructor
  · intro h d u hu
    induction hu generalizing n with
    | self t =>
      have := ((slots_le_iff_tables t n).mp h).1
      omega
    | value hmem _ ih =>
      have hinner := ((slots_le_iff_tables _ n).mp h).2 _ hmem
      have := ih (n - 2) (by omega)
      omega
  · have hinside : ∀ (t : LuaTable), (∀ u ∈ t.tables, ∀ n, (∀ d w, Below u d w → 2 * d + w.keySlots ≤ n) →
      u.slots ≤ n) →
        ∀ n, (∀ d w, Below t d w → 2 * d + w.keySlots ≤ n) → t.slots ≤ n := by
      intro t htables n h
      refine (slots_le_iff_tables t n).mpr ⟨by simpa using h 0 t (.self t), fun u hu => ?_⟩
      have htwo := h 1 u (.value hu (.self u))
      have hinner := htables u hu (n - 2) fun d w hw => by
        have := h (d + 1) w (.value hu hw)
        omega
      omega
    refine hinside t ?_ n
    clear n
    induction t with
    | nil => exact fun u hu => absurd hu List.not_mem_nil
    | leaf key value rest ih => exact ih
    | table key value rest ihv ihr =>
      intro u hu
      rcases List.mem_cons.mp hu with rfl | hu
      · exact hinside u ihv
      · exact ihr u hu

theorem keySlots_le (t : LuaTable) : 1 ≤ t.keySlots ∧ t.keySlots ≤ 3 ∧
    (t.keySlots ≤ 2 ↔ ∀ k ∈ t.keys, k.slots = 2) := by
  have hkey : ∀ k : LuaKey, 2 ≤ k.slots ∧ k.slots ≤ 3 := by
    intro k
    cases k <;> simp [LuaKey.slots]
  induction t with
  | nil => exact ⟨le_rfl, by decide, fun _ k hk => absurd hk List.not_mem_nil, fun _ => by decide⟩
  | leaf key value rest ih | table key value rest _ ih =>
    obtain ⟨hone, hthree, htwo⟩ := ih
    have := hkey key
    rw [keySlots, keys, List.forall_mem_cons, ← htwo]
    omega

end LuaTable

/-- A number is pushed once more, as a text. -/
def LuaKey.IsNumber : LuaKey → Prop
  | .integer _ | .number _ => True
  | _ => False

/-- No table lies ten levels below, and no table nine levels below has a number among its keys. -/
def LuaTable.Shallow (t : LuaTable) : Prop := ∀ d u, t.Below d u → d ≤ 9 ∧ (d = 9 → ∀ k ∈ u.keys, ¬ k.IsNumber)

theorem shallow_iff (t : LuaTable) : t.Shallow ↔ t.slots ≤ 20 := by
  rw [LuaTable.slots_le_iff]
  refine forall₃_congr fun d u hu => ?_
  obtain ⟨hone, hthree, htwo⟩ := u.keySlots_le
  have hkeys : (∀ k ∈ u.keys, ¬ k.IsNumber) ↔ u.keySlots ≤ 2 := by
    rw [htwo]
    refine forall₂_congr fun k _ => ?_
    cases k <;> simp [LuaKey.IsNumber, LuaKey.slots]
  rw [hkeys]
  omega

/-! ## Which conversions fit -/

/-- **The property of the encoder**: it stays within its slots, and each call leaves the height that it found. -/
structure EncodesOnStack (t : LuaTable) : Prop where
  peak : (luaJsonEncodeTop t).peak ≤ luaMinstack
  calls : ∀ d u, t.Below d u → ∀ s, (tableIsArrayTop u s).top = s.top ∧ (tableToJsonTop u s).top = s.top

/-- The lists of items that the loops of `cjson_to_table` walk, from each place on. -/
inductive Inside : Forest JsonItem → Forest JsonItem → Prop
  | self (f : Forest JsonItem) : Inside f f
  | kids {item : JsonItem} {kids rest f : Forest JsonItem} (h : Inside kids f) : Inside (.cons item kids rest) f
  | rest {item : JsonItem} {kids rest f : Forest JsonItem} (h : Inside rest f) : Inside (.cons item kids rest) f

/-- **The property of the decoder**: the same; above the table that a call fills it leaves nothing. -/
structure DecodesOnStack (json : Option Document) : Prop where
  peak : (luaJsonDecodeTop json).peak ≤ luaMinstack
  calls : ∀ doc, json = some doc → ∀ f, Inside doc.kids f → ∀ isArray index keys s,
    (cjsonToTableTop f isArray index keys s).top = s.top

theorem luaJsonEncodeTop_peak (t : LuaTable) : (luaJsonEncodeTop t).peak = max 2 t.slots := by
  obtain ⟨harray, harrayPeak⟩ := tableIsArrayTop_spec t .start
  obtain ⟨htop, hpeak⟩ := tableToJsonTop_spec t (tableIsArrayTop t .start)
  have hvisit := t.visitSlots_le_slots
  have hslots := t.one_le_slots
  have hstart : LuaTop.start.top = 0 ∧ LuaTop.start.peak = 0 := ⟨rfl, rfl⟩
  rw [luaJsonEncodeTop, LuaTop.peak_push, LuaTop.peak_push, LuaTop.top_push, htop, hpeak, harray, harrayPeak, hstart.1,
    hstart.2]
  omega

theorem Parsed.kids {item : JsonItem} {kids rest : Forest JsonItem} (h : Parsed (.cons item kids rest)) :
    Parsed kids := by
  have hitem := h.1
  cases htype : item.type with
  | array | object =>
    rw [htype] at hitem
    exact hitem
  | false | true | null | number | string =>
    rw [htype] at hitem
    obtain rfl : kids = .nil := hitem
    trivial
  | raw | invalid =>
    rw [htype] at hitem
    exact hitem.elim

theorem Parsed.inside {f g : Forest JsonItem} (hf : Parsed f) (h : Inside f g) : Parsed g := by
  induction h with
  | self f => exact hf
  | kids _ ih => exact ih hf.kids
  | rest _ ih => exact ih hf.2

theorem luaJsonDecodeTop_peak (doc : Document) :
    (luaJsonDecodeTop (some doc)).peak = max 2 (1 + storeDepth doc.kids) := by
  obtain ⟨htop, hpeak⟩ := cjsonToTableTop_spec doc.parsed.kids (doc.root.type = .array) 1 [] LuaTop.start.push
  have hstart : LuaTop.start.push.top = 1 ∧ LuaTop.start.push.peak = 1 := ⟨rfl, rfl⟩
  rw [luaJsonDecodeTop, LuaTop.peak_push, htop, hpeak (.inl rfl), hstart.1, hstart.2]
  omega

theorem storeDepth_le_iff (f : Forest JsonItem) {n : ℕ} (hn : 0 < n) : storeDepth f ≤ n ↔ f.depth < n := by
  cases f with
  | nil => exact iff_of_true (Nat.zero_le n) hn
  | cons item kids rest => exact Iff.rfl

theorem encodesOnStack_iff (t : LuaTable) : EncodesOnStack t ↔ t.slots ≤ 20 := by
  have hpeak := luaJsonEncodeTop_peak t
  constructor
  · rintro ⟨hle, -⟩
    rw [luaMinstack] at hle
    omega
  · intro hslots
    refine ⟨?_, fun _ u _ s => ⟨(tableIsArrayTop_spec u s).1, (tableToJsonTop_spec u s).1⟩⟩
    rw [luaMinstack]
    omega

theorem decodesOnStack_iff (json : Option Document) :
    DecodesOnStack json ↔ ∀ doc, json = some doc → doc.kids.depth < 19 := by
  constructor
  · rintro ⟨hle, -⟩ doc rfl
    rw [luaMinstack, luaJsonDecodeTop_peak] at hle
    exact (storeDepth_le_iff doc.kids (by decide)).mp (by omega)
  · intro hdepth
    refine ⟨?_, fun doc _ f hf isArray index keys s =>
      (cjsonToTableTop_spec (doc.parsed.kids.inside hf) isArray index keys s).1⟩
    cases json with
    | none => decide
    | some doc =>
      have := (storeDepth_le_iff doc.kids (by decide)).mpr (hdepth doc rfl)
      rw [luaMinstack, luaJsonDecodeTop_peak]
      omega

/-- **Which conversions fit.** The encoder stays within its slots for tables that no table lies ten levels below, nor
nine levels with a number as a key; the decoder does for texts that are refused, and for documents with no item nineteen
levels below the root. -/
theorem jsonStack_iff (parse : List UInt8 → Option Document) : (∀ t, EncodesOnStack t ↔ t.Shallow) ∧
    ∀ text, DecodesOnStack (parse text) ↔ ∀ doc, parse text = some doc → doc.kids.depth < 19 :=
  ⟨fun t => (encodesOnStack_iff t).trans (shallow_iff t).symm, fun text => decodesOnStack_iff (parse text)⟩

/-- `{a = {a = … {}}}`. -/
def tableTower : ℕ → LuaTable
  | 0 => .nil
  | n + 1 => .table (.string (lit "a")) (tableTower n) .nil

/-- `[[…]]`. -/
def arrayTower : ℕ → Forest JsonItem
  | 0 => .nil
  | n + 1 => .cons (newItem .array) (arrayTower n) .nil

theorem parsed_arrayTower : ∀ n, Parsed (arrayTower n)
  | 0 => trivial
  | n + 1 => ⟨parsed_arrayTower n, trivial⟩

/-- Ten tables below the first one, and nineteen arrays below the first one, take the twenty-first slot. -/
theorem not_jsonStack : ¬ EncodesOnStack (tableTower 10) ∧
    ¬ DecodesOnStack (some ⟨newItem .array, arrayTower 19, parsed_arrayTower 20⟩) := by
  rw [encodesOnStack_iff, decodesOnStack_iff]
  exact ⟨by decide, fun h => absurd (h _ rfl) (by decide)⟩

end Sarah
