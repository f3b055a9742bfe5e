import SarahClient.April.Model
import SarahClient.Lib.Block

/-!
# The value codec of the LevelDB binding, `lua_leveldb.c`

A value is stored as a type mark and a text. The library, `printf` and `strtod` of floats and the JSON texts are
parameters; a read outside a text or a value is `none`.

* `putText`, `luaLeveldbPut`; `nullTerminatedAdjust`, `pushValue`, `luaLeveldbGet`, `luaLeveldbIteratorValue`;
* `pushValue_string`, `pushValue_integer`, `pushValue_boolean`: what comes back;
* **`codec_iff`**: which scalars come back; **`not_codec`**: the empty string.
-/

namespace Sarah

open Heap Forest Block

/-- A value of Lua. -/
abbrev LuaValue := LuaLeaf ⊕ LuaTable

/-- The parts outside the binding: the library's stores and reads, the texts of floats and of JSON trees, and the
stack slots, the allocator, the collector's runs and the other strings of the program for the JSON conversion. -/
structure LevelEnv (D : Type) where
  put : D → List UInt8 → List UInt8 → D
  get : D → List UInt8 → Option (List UInt8)
  iterValue : D → List UInt8 → Option (List UInt8)
  formatFloat : Option Double → List UInt8
  strtod : List UInt8 → Option Double
  print : Forest JsonItem → Option (List UInt8)
  parse : List UInt8 → Option (Forest JsonItem)
  room : ℕ
  malloc : Malloc (TCell JsonItem)
  gc : ℕ → Bool
  elsewhere : List UInt8 → Bool

/-- The library returns exactly the bytes that were stored. -/
def LevelEnv.Stores {D : Type} (env : LevelEnv D) : Prop :=
  ∀ d key val, env.get (env.put d key val) key = some val ∧ env.iterValue (env.put d key val) key = some val

/-- What `lua_leveldb_put` does: it stores, or it raises an error. -/
inductive PutOut (D : Type)
  | stored (d : D)
  | raised

/-- What `get` and the iterator push. -/
inductive GotOut
  | nil
  | value (v : LuaValue)
  | raised

variable {D : Type} (env : LevelEnv D)

/-- `val` with its terminating NUL, and `vallen`; the error of an unsupported type is the inner `none`. -/
def putText (v : LuaValue) : Option (Option (List UInt8 × ℕ)) :=
  match v with
  | .inl (.string s) => some (some (lit "s" ++ cstr s ++ [0], s.length + 1))
  | .inl (.integer i) =>
    let val := lit "i" ++ decimalInt i.toInt
    some (some (val ++ [0], val.length))
  | .inl (.number d) =>
    let val := lit "d" ++ env.formatFloat d
    some (some (val ++ [0], val.length))
  | .inl (.boolean b) => some (some ((if b then lit "b1" else lit "b0") ++ [0], 2))
  | .inl .other => some none
  | .inr t =>
    (jsonBuild env.malloc env.gc env.elsewhere env.room ∅ t).bind fun r =>
      (readForest r.2.heap (r.2.heap.keys.card + 1) r.1).map fun json =>
        (env.print json).map fun text =>
          let val := lit "t" ++ text
          (val ++ [0], val.length)

/-- `lua_leveldb_put`; the library reads `vallen` bytes of `val`. -/
def luaLeveldbPut (d : D) (key : List UInt8) (v : LuaValue) : Option (PutOut D) :=
  (putText env v).bind fun r =>
    match r with
    | none => some .raised
    | some (val, vallen) => if vallen ≤ val.length then some (.stored (env.put d key (val.take vallen))) else none

/-- `null_terminated_adjust`. -/
def nullTerminatedAdjust (val : List UInt8) : Option (List UInt8) :=
  let e := i32 ((val.length : ℤ) - 1)
  if e < 0 then none else (moveDown 1 1 e.toNat val).bind fun val => store val e.toNat 0

/-- The switch on the type mark, shared by `get` and the iterator. -/
def pushValue (val : List UInt8) : Option GotOut :=
  val[0]?.bind fun mark =>
    if mark = 115 then some (.value (.inl (.string (val.drop 1))))
    else if mark = 105 then
      (nullTerminatedAdjust val).map fun val => .value (.inl (.integer (Int64.ofInt (atoi val))))
    else if mark = 100 then (nullTerminatedAdjust val).map fun val => .value (.inl (.number (env.strtod (cstr val))))
    else if mark = 98 then val[1]?.map fun c => .value (.inl (.boolean (c = 49)))
    else if mark = 116 then
      (nullTerminatedAdjust val).bind fun val =>
        match env.parse (cstr val) with
        | none => some .raised
        | some json => (luaJsonDecode env.room json).map fun t => .value (.inr t)
    else some (.value (.inl (.string val)))

/-- `lua_leveldb_get`. -/
def luaLeveldbGet (d : D) (key : List UInt8) : Option GotOut :=
  match env.get d key with
  | none => some .nil
  | some val => if val.length < 2 then some .nil else pushValue env val

/-- `lua_leveldb_iterator_value`, where the iterator stands on the key. -/
def luaLeveldbIteratorValue (d : D) (key : List UInt8) : Option GotOut :=
  match env.iterValue d key with
  | none => some .nil
  | some val => pushValue env val

/-! ## What comes back -/

variable {env}

theorem nullTerminatedAdjust_cons (c : UInt8) {s : List UInt8} (hlen : s.length < 2 ^ 31) :
    nullTerminatedAdjust (c :: s) = some (s ++ [0]) := by
  have he : i32 (((c :: s).length : ℤ) - 1) = s.length := by
    rw [List.length_cons, Nat.cast_succ, add_sub_cancel_right]
    exact i32_of_range (by omega) (by omega)
  obtain ⟨val, hmove, hval, hget⟩ := moveDown_spec 1 s.length 1 (c :: s) (le_refl 1) (by rw [List.length_cons]; omega)
  rw [List.length_cons] at hval
  rw [nullTerminatedAdjust, he, if_neg (by omega), Int.toNat_natCast, hmove, Option.bind_some, store_of_lt (by omega),
    Option.some.injEq]
  apply List.ext_getElem?
  intro j
  rw [List.getElem?_set, hget]
  rcases Nat.lt_trichotomy j s.length with hlt | rfl | hgt
  · rw [if_neg (by omega), if_pos (by omega), List.getElem?_cons_succ, List.getElem?_append_left hlt]
  · rw [if_pos rfl, if_pos (by omega), List.getElem?_append_right (le_refl _), Nat.sub_self]
    rfl
  · rw [if_neg (by omega), if_neg (by omega), List.getElem?_eq_none (by rw [List.length_cons]; omega),
      List.getElem?_eq_none (by rw [List.length_append, List.length_singleton]; omega)]

theorem pushValue_string (s : List UInt8) : pushValue env (115 :: s) = some (.value (.inl (.string s))) := rfl

theorem pushValue_boolean (b : Bool) :
    pushValue env (if b then lit "b1" else lit "b0") = some (.value (.inl (.boolean b))) := by
  cases b <;> rfl

theorem pushValue_integer (i : Int64) : pushValue env (105 :: decimalInt i.toInt) =
    some (.value (.inl (.integer (Int64.ofInt (atoi (decimalInt i.toInt ++ [0])))))) := by
  have hlen := decimalInt_length_le i.le_toInt i.toInt_lt
  have hmark : pushValue env (105 :: decimalInt i.toInt) = (nullTerminatedAdjust (105 :: decimalInt i.toInt)).map
      fun val => .value (.inl (.integer (Int64.ofInt (atoi val)))) := rfl
  rw [hmark, nullTerminatedAdjust_cons 105 (by omega), Option.map_some]

/-- A string, an integer or a boolean. -/
def LuaLeaf.Scalar : LuaLeaf → Prop
  | .string _ | .integer _ | .boolean _ => True
  | _ => False

/-- A scalar that comes back: no empty string, no NUL before the last byte, no integer of more than 32 bits. -/
def LuaLeaf.Storable : LuaLeaf → Prop
  | .string s => s ≠ [] ∧ 0 ∉ s.dropLast
  | .integer i => -2 ^ 31 ≤ i.toInt ∧ i.toInt < 2 ^ 31
  | .boolean _ => True
  | _ => False

/-- `put` stores the value without reading outside its text, and both readers give it back. -/
def CodecReturns (env : LevelEnv D) (d : D) (key : List UInt8) (v : LuaLeaf) : Prop :=
  ∃ d', luaLeveldbPut env d key (.inl v) = some (.stored d') ∧ luaLeveldbGet env d' key = some (.value (.inl v)) ∧
    luaLeveldbIteratorValue env d' key = some (.value (.inl v))

theorem codecReturns_of_put (hstores : env.Stores) {d : D} {key val : List UInt8} {v : LuaLeaf}
    (hput : luaLeveldbPut env d key (.inl v) = some (.stored (env.put d key val))) :
    CodecReturns env d key v ↔ 2 ≤ val.length ∧ pushValue env val = some (.value (.inl v)) := by
  obtain ⟨hget, hiter⟩ := hstores d key val
  have hgetter : luaLeveldbGet env (env.put d key val) key = if val.length < 2 then
    some .nil else pushValue env val := by
    rw [luaLeveldbGet, hget]
  have hiterator : luaLeveldbIteratorValue env (env.put d key val) key = pushValue env val := by
    rw [luaLeveldbIteratorValue, hiter]
  constructor
  · rintro ⟨d', hput', hgot, -⟩
    rw [hput, Option.some.injEq, PutOut.stored.injEq] at hput'
    rw [← hput', hgetter] at hgot
    split_ifs at hgot with hlen
    · cases hgot
    · exact ⟨Nat.not_lt.mp hlen, hgot⟩
  · rintro ⟨hlen, hpush⟩
    exact ⟨env.put d key val, hput, by rw [hgetter, if_neg (Nat.not_lt.mpr hlen), hpush], by rw [hiterator, hpush]⟩

/-- The library reads `1 + s.length` bytes, and the text holds one NUL behind the C string. -/
theorem putString (s : List UInt8) (d : D) (key : List UInt8) : luaLeveldbPut env d key (.inl (.string s)) =
    if 0 ∈ s.dropLast then none else some (.stored (env.put d key (115 :: s))) := by
  have htext : luaLeveldbPut env d key (.inl (.string s)) =
      if s.length + 1 ≤ (115 :: (cstr s ++ [0])).length then
        some (.stored (env.put d key ((115 :: (cstr s ++ [0])).take (s.length + 1)))) else none := rfl
  rw [htext, List.length_cons, List.length_append, List.length_singleton]
  by_cases hzero : 0 ∈ s
  · obtain ⟨p, q, rfl, hp⟩ := List.eq_append_cons_of_mem hzero
    rw [cstr_append_zero hp, List.length_append, List.length_cons, List.dropLast_append_cons]
    rcases List.eq_nil_or_concat' q with rfl | ⟨q, c, rfl⟩
    · -- the NUL is the last byte, and the text's own NUL stands for it
      have hdrop : (0 : UInt8) ∉ p ++ [0].dropLast := by
        rw [List.dropLast_singleton, List.append_nil]
        exact hp
      rw [if_pos (by simp), if_neg hdrop, List.length_nil, List.take_of_length_le (by simp)]
    · have hdrop : (0 : UInt8) ∈ p ++ (0 :: (q ++ [c])).dropLast := by
        rw [List.dropLast_cons_of_ne_nil (by simp)]
        exact List.mem_append_right p List.mem_cons_self
      rw [if_neg (by simp), if_pos hdrop]
  · have hdrop : 0 ∉ s.dropLast := fun h => hzero (List.mem_of_mem_dropLast h)
    rw [cstr_of_notMem hzero, if_pos (by omega), if_neg hdrop, List.take_succ_cons, List.take_left]

theorem putInteger (i : Int64) (d : D) (key : List UInt8) : luaLeveldbPut env d key (.inl (.integer i)) =
    some (.stored (env.put d key (105 :: decimalInt i.toInt))) := by
  have htext : luaLeveldbPut env d key (.inl (.integer i)) =
      if (105 :: decimalInt i.toInt).length ≤ (105 :: decimalInt i.toInt ++ [0]).length then
        some (.stored (env.put d key ((105 :: decimalInt i.toInt ++ [0]).take (105 :: decimalInt i.toInt).length)))
      else none := rfl
  rw [htext, if_pos (by simp), List.take_left]

theorem putBoolean (b : Bool) (d : D) (key : List UInt8) : luaLeveldbPut env d key (.inl (.boolean b)) =
    some (.stored (env.put d key (if b then lit "b1" else lit "b0"))) := by
  cases b <;> rfl

theorem ofInt_atoi_iff (i : Int64) :
    Int64.ofInt (atoi (decimalInt i.toInt ++ [0])) = i ↔ -2 ^ 31 ≤ i.toInt ∧ i.toInt < 2 ^ 31 := by
  rw [← atoi_decimalInt_iff i.le_toInt i.toInt_lt 0]
  show _ ↔ atoi (decimalInt i.toInt ++ [0]) = i.toInt
  have hrange := i32_range (strtoll (cstr (decimalInt i.toInt ++ [0])))
  constructor
  · intro h
    rw [← Int64.toInt_inj, Int64.toInt_ofInt_of_le (by rw [atoi]; omega) (by rw [atoi]; omega)] at h
    exact h
  · intro h
    rw [h, Int64.ofInt_toInt]

/-- **Which scalars come back.** -/
theorem codec_iff (hstores : env.Stores) (d : D) (key : List UInt8) {v : LuaLeaf} (hv : v.Scalar) :
    CodecReturns env d key v ↔ v.Storable := by
  cases v with
  | string s =>
    by_cases hzero : 0 ∈ s.dropLast
    · constructor
      · rintro ⟨d', hput, -⟩
        rw [putString, if_pos hzero] at hput
        cases hput
      · exact fun h => absurd hzero h.2
    · rw [codecReturns_of_put hstores (by rw [putString, if_neg hzero]), pushValue_string, List.length_cons]
      constructor
      · rintro ⟨hlen, -⟩
        refine ⟨?_, hzero⟩
        rintro rfl
        rw [List.length_nil] at hlen
        omega
      · rintro ⟨hne, -⟩
        exact ⟨Nat.succ_le_succ (List.length_pos_iff.mpr hne), rfl⟩
  | integer i =>
    have hlen : 2 ≤ (105 :: decimalInt i.toInt).length :=
      Nat.succ_le_succ (List.length_pos_iff.mpr (decimalInt_ne_nil i.toInt))
    rw [codecReturns_of_put hstores (putInteger i d key), pushValue_integer, LuaLeaf.Storable, ← ofInt_atoi_iff]
    constructor
    · rintro ⟨-, h⟩
      exact LuaLeaf.integer.inj (Sum.inl.inj (GotOut.value.inj (Option.some.inj h)))
    · exact fun h => ⟨hlen, by rw [h]⟩
  | boolean b =>
    rw [codecReturns_of_put hstores (putBoolean b d key)]
    exact ⟨fun _ => trivial, fun _ => ⟨by cases b <;> decide, pushValue_boolean b⟩⟩
  | number d => exact hv.elim
  | other => exact hv.elim

/-- A library that keeps a function from keys to values. -/
def functionEnv : LevelEnv (List UInt8 → Option (List UInt8)) where
  put d key val := fun k => if k = key then some val else d k
  get d key := d key
  iterValue d key := d key
  formatFloat _ := []
  strtod _ := none
  print _ := none
  parse _ := none
  room := 20
  malloc := Malloc.bump
  gc _ := true
  elsewhere _ := false

theorem functionEnv_stores : functionEnv.Stores := fun _ _ _ => ⟨if_pos rfl, if_pos rfl⟩

theorem codec_iff_negative : CodecReturns functionEnv (fun _ => none) (lit "k") (.integer (-7)) :=
  (codec_iff functionEnv_stores (fun _ => none) (lit "k") (v := .integer (-7)) trivial).mpr ⟨by decide, by decide⟩

/-- `get` takes the stored mark of the empty string for no value. -/
theorem not_codec : ¬ ∀ v : LuaLeaf, v.Scalar → CodecReturns functionEnv (fun _ => none) (lit "k") v := by
  intro hall
  obtain ⟨d', hput, hget, -⟩ := hall (.string []) trivial
  rw [putString, if_neg (by decide), Option.some.injEq, PutOut.stored.injEq] at hput
  subst hput
  cases hget

end Sarah
