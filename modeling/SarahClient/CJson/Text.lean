import SarahClient.April.Model
import SarahClient.CJson.Number

/-!
# The text of a tree

What `cJSON_Print` and `cJSON_PrintUnformatted` are for: the text that stands for a tree, and the tree that stands for
the text.

* `escapeChar`, `stringText`, `leafText`, `valueText`, `text`: the text; `none` where there is none;
* `Printable`: the trees that have a text of their own;
* `wire`: what a reader sees of a tree. The members of an object have names, other items have none; a number that is
  not finite is `null`, and `true` has the integer value 1;
* `nesting`: how deeply arrays and objects are nested.
-/

namespace Sarah.JsonText

open Stdio

/-! ## Strings -/

/-- `sprintf` with `%04x`. -/
def hex4 (n : ℕ) : List UInt8 :=
  let digits := (Nat.toDigits 16 n).map fun c => UInt8.ofNat c.toNat
  List.replicate (4 - digits.length) 48 ++ digits

/-- What stands for a byte of a string. -/
def escapeChar (c : UInt8) : List UInt8 :=
  if 31 < c.toNat ∧ c ≠ 34 ∧ c ≠ 92 then [c]
  else
    92 :: match c with
      | 92 => [92]
      | 34 => [34]
      | 8 => [98]
      | 12 => [102]
      | 10 => [110]
      | 13 => [114]
      | 9 => [116]
      | c => 117 :: hex4 c.toNat

/-- A string in quotes; `NULL` is the empty string. -/
def stringText (s : Option (List UInt8)) : List UInt8 := 34 :: ((cstr (s.getD [])).flatMap escapeChar ++ [34])

/-! ## Trees -/

/-- The text of an item that is no array and no object. -/
def leafText (item : JsonItem) : Option (List UInt8) :=
  match item.type with
  | .null => some (lit "null")
  | .false => some (lit "false")
  | .true => some (lit "true")
  | .number => printNumber item.valuedouble
  | .string => some (stringText item.valuestring)
  | .raw => item.valuestring.map cstr
  | _ => none

section Layout

variable (format : Bool)

/-- The indentation of a member at a depth. -/
def indent (object : Bool) (depth : ℕ) : List UInt8 := if format && object then List.replicate depth 9 else []

/-- The name in front of a value. -/
def label (object : Bool) (item : JsonItem) : List UInt8 :=
  if object then stringText item.string ++ 58 :: (if format then [9] else []) else []

/-- What stands behind a value in front of the items `rest`. -/
def behind (object : Bool) (rest : Forest JsonItem) : List UInt8 :=
  match rest with
  | .nil => if format && object then [10] else []
  | _ => 44 :: (if format then [if object then 10 else 32] else [])

/-- The text of a value at a depth, from that of the items inside. -/
def valueText (item : JsonItem) (depth : ℕ) (inside : Bool → ℕ → Option (List UInt8)) : Option (List UInt8) :=
  match item.type with
  | .array => (inside false (depth + 1)).map fun t => 91 :: (t ++ [93])
  | .object => (inside true (depth + 1)).map fun t =>
      123 :: ((if format then [10] else []) ++ (t ++ (indent format true depth ++ [125])))
  | _ => leafText item

/-- The text of the items of an array or an object at a depth. -/
def text : Forest JsonItem → Bool → ℕ → Option (List UInt8)
  | .nil, _, _ => some []
  | .cons item kids rest, object, depth =>
    (valueText format item depth fun object depth => text kids object depth).bind fun value =>
      (text rest object depth).map fun more =>
        indent format object depth ++ (label format object item ++ (value ++ (behind format object rest ++ more)))

end Layout

/-- The items that have a text of their own. -/
def Printable : Forest JsonItem → Prop
  | .nil => True
  | .cons item kids rest =>
    (match item.type with
      | .array | .object => Printable kids
      | .number => ∀ d ∈ item.valuedouble, d.Binary64
      | .raw | .invalid => False
      | _ => True) ∧ Printable rest

/-- What a reader sees of a value. -/
def wireValue (item : JsonItem) : JsonItem :=
  match item.type with
  | .true => { newItem .true with valueint := 1 }
  | .number =>
    match item.valuedouble with
    | some (.fin q) => createNumber (some (.fin q))
    | _ => newItem .null
  | .string => createString (item.valuestring.getD [])
  | type => newItem type

/-- What a reader sees of an item. -/
def wireItem (named : Bool) (item : JsonItem) : JsonItem :=
  { wireValue item with string := if named then some (cstr (item.string.getD [])) else none }

/-- What a reader sees of the items inside a value. -/
def wireKids (item : JsonItem) (inside : Bool → Forest JsonItem) : Forest JsonItem :=
  match item.type with
  | .array => inside false
  | .object => inside true
  | _ => .nil

/-- What a reader sees of the items of an array or an object. -/
def wire : Forest JsonItem → Bool → Forest JsonItem
  | .nil, _ => .nil
  | .cons item kids rest, named => .cons (wireItem named item) (wireKids item fun named => wire kids named)
    (wire rest named)

/-- The arrays and objects inside each other in a value. -/
def valueNesting (item : JsonItem) (inside : ℕ) : ℕ :=
  match item.type with
  | .array | .object => inside + 1
  | _ => 0

/-- The number of arrays and objects inside each other. -/
def nesting : Forest JsonItem → ℕ
  | .nil => 0
  | .cons item kids rest => max (valueNesting item (nesting kids)) (nesting rest)

theorem leaf_inside {item : JsonItem} (harray : item.type ≠ .array) (hobject : item.type ≠ .object)
    (inside : Bool → Forest JsonItem) (n : ℕ) : wireKids item inside = .nil ∧ valueNesting item n = 0 := by
  unfold wireKids valueNesting
  cases htype : item.type with
  | array => exact absurd htype harray
  | object => exact absurd htype hobject
  | _ => exact ⟨rfl, rfl⟩

end Sarah.JsonText
