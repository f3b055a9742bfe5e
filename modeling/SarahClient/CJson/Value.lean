import SarahClient.Json
import SarahClient.CJson.Accepted
import SarahClient.CJson.Print

/-!
# Values and their text

The items of `cJSON.c` as the values that the callers look at.

* `CJson.item`, `CJson.kids`: the items that are built for a value;
* `viewValue`, `viewMembers`: the value that items stand for;
* `printCJson`, `parseCJson`: `cJSON_PrintUnformatted` and `cJSON_Parse` on values;
* `CJson.seen`: what a reader sees of a value;
* **`parseCJson_text`**: the text of a value is read as what is seen of it.
-/

namespace Sarah

open JsonText

/-! ## Values and items -/

namespace CJson

/-- The item of a value. -/
def item : CJson → JsonItem
  | null => newItem .null
  | bool b => newItem (if b then .true else .false)
  | number v => createNumber (some v)
  | string s => createString s
  | array _ => newItem .array
  | object _ => newItem .object

mutual

/-- The items inside a value. -/
def kids : CJson → Forest JsonItem
  | array items => elements items
  | object members => named members
  | _ => .nil

/-- The items of an array. -/
def elements : List CJson → Forest JsonItem
  | [] => .nil
  | v :: items => .cons v.item v.kids (elements items)

/-- The items of an object, with their names. -/
def named : List (List UInt8 × CJson) → Forest JsonItem
  | [] => .nil
  | (name, v) :: members => .cons { v.item with string := some name } v.kids (named members)

end

mutual

/-- What a reader sees of a value: a string up to its NUL, and no number that is not finite. -/
def seen : CJson → CJson
  | null => null
  | bool b => bool b
  | number (.fin q) => number (.fin q)
  | number _ => null
  | string s => string (cstr s)
  | array items => array (seenElements items)
  | object members => object (seenMembers members)

/-- The elements as a reader sees them. -/
def seenElements : List CJson → List CJson
  | [] => []
  | v :: items => v.seen :: seenElements items

/-- The members as a reader sees them: names end at a NUL. -/
def seenMembers : List (List UInt8 × CJson) → List (List UInt8 × CJson)
  | [] => []
  | (name, v) :: members => (cstr name, v.seen) :: seenMembers members

end

mutual

/-- The numbers are `double`s. -/
def Doubles : CJson → Prop
  | number v => v.Binary64
  | array items => DoublesElements items
  | object members => DoublesMembers members
  | _ => True

/-- `Doubles` for every element. -/
def DoublesElements : List CJson → Prop
  | [] => True
  | v :: items => v.Doubles ∧ DoublesElements items

/-- `Doubles` for every member. -/
def DoublesMembers : List (List UInt8 × CJson) → Prop
  | [] => True
  | (_, v) :: members => v.Doubles ∧ DoublesMembers members

end

/-- Arrays and objects inside each other. -/
def nesting (v : CJson) : ℕ := JsonText.nesting (.cons v.item v.kids .nil)

end CJson

/-- The text of a value. -/
def CJson.text (v : CJson) : Option (List UInt8) := JsonText.text false (.cons v.item v.kids .nil) false 0

/-- The value of an item, from those inside. -/
def viewValue (item : JsonItem) (inside : List (List UInt8 × CJson)) : CJson :=
  match item.type with
  | .false => .bool false
  | .true => .bool true
  | .number => (item.valuedouble.map CJson.number).getD .null
  | .string => .string (item.valuestring.getD [])
  | .array => .array (inside.map Prod.snd)
  | .object => .object inside
  | _ => .null

/-- The values of items, with their names. -/
def viewMembers : Forest JsonItem → List (List UInt8 × CJson)
  | .nil => []
  | .cons item kids rest => (item.string.getD [], viewValue item (viewMembers kids)) :: viewMembers rest

/-- `cJSON_Parse`; a failure is `none`. -/
def parseCJson (text : List UInt8) : Option CJson :=
  match cJSONParse text with
  | some (.ok (.cons item kids _)) => some (viewValue item (viewMembers kids))
  | _ => none

/-- `cJSON_PrintUnformatted`; `NULL` is `none`. -/
def printCJson (memory : ℕ → Option (ℕ → UInt8)) (v : CJson) : Option (List UInt8) :=
  (cJSONPrint memory false v.item v.kids).bind fun out => out.map cstr

theorem view_fields (item : JsonItem) (inside : List (List UInt8 × CJson)) :
    (viewValue (wireValue item) inside).valueint = (wireValue item).valueint ∧
      (viewValue (wireValue item) inside).valuestring = (wireValue item).valuestring ∧
      some (viewValue (wireValue item) inside).valuedouble = (wireValue item).valuedouble := by
  unfold wireValue
  cases item.type with
  | number =>
    cases item.valuedouble with
    | none => exact ⟨rfl, rfl, rfl⟩
    | some d => cases d <;> exact ⟨rfl, rfl, rfl⟩
  | _ => exact ⟨rfl, rfl, rfl⟩

namespace CJson

/-! ## What is read of a text -/

theorem printable_cons {v : CJson} (h : v.Doubles) (hkids : Printable v.kids) (name : Option (List UInt8))
    {rest : Forest JsonItem}
    (hrest : Printable rest) : Printable (.cons { v.item with string := name } v.kids rest) := by
  refine ⟨?_, hrest⟩
  cases v with
  | number v =>
    intro d hd
    cases hd
    exact h
  | bool b => cases b <;> trivial
  | array items => exact hkids
  | object members => exact hkids
  | _ => trivial

mutual

theorem printable_kids (v : CJson) (h : v.Doubles) : Printable v.kids := by
  cases v with
  | array items => exact printable_elements items h
  | object members => exact printable_named members h
  | _ => trivial

theorem printable_elements (items : List CJson) (h : DoublesElements items) : Printable (elements items) := by
  cases items with
  | nil => trivial
  | cons v items =>
    exact printable_cons h.1 (printable_kids v h.1) v.item.string (printable_elements items h.2)

theorem printable_named (members : List (List UInt8 × CJson)) (h : DoublesMembers members) :
    Printable (named members) := by
  cases members with
  | nil => trivial
  | cons m members =>
    exact printable_cons h.1 (printable_kids m.2 h.1) (some m.1) (printable_named members h.2)

end

theorem viewValue_wire {v : CJson} (name : Option (List UInt8)) {inside : List (List UInt8 × CJson)}
    (harray : ∀ items, v = array items → inside.map Prod.snd = seenElements items)
    (hobject : ∀ members, v = object members → inside = seenMembers members) :
    viewValue (wireValue { v.item with string := name }) inside = v.seen := by
  cases v with
  | null => rfl
  | bool b => cases b <;> rfl
  | number v => cases v <;> rfl
  | string s => exact congrArg string (cstr_of_notMem (zero_notMem_cstr s))
  | array items => exact congrArg array (harray items rfl)
  | object members => exact congrArg object (hobject members rfl)

mutual

theorem viewMembers_kids (v : CJson) : (∀ items, v = array items →
      (viewMembers (wireKids v.item fun named => wire v.kids named)).map Prod.snd = seenElements items) ∧
    ∀ members, v = object members →
      viewMembers (wireKids v.item fun named => wire v.kids named) = seenMembers members := by
  cases v with
  | array items => exact ⟨fun _ h => (by cases h; exact viewMembers_elements items), fun _ h => (by cases h)⟩
  | object members => exact ⟨fun _ h => (by cases h), fun _ h => (by cases h; exact viewMembers_named members)⟩
  | _ => exact ⟨fun _ h => (by cases h), fun _ h => (by cases h)⟩

theorem viewMembers_elements (items : List CJson) :
    (viewMembers (wire (elements items) false)).map Prod.snd = seenElements items := by
  cases items with
  | nil => rfl
  | cons v items =>
    obtain ⟨harray, hobject⟩ := viewMembers_kids v
    have hvalue := viewValue_wire v.item.string harray hobject
    have hrest := viewMembers_elements items
    rw [elements, wire, viewMembers, List.map_cons, hrest, seenElements]
    exact congrArg (· :: _) hvalue

theorem viewMembers_named (members : List (List UInt8 × CJson)) :
    viewMembers (wire (named members) true) = seenMembers members := by
  cases members with
  | nil => rfl
  | cons m members =>
    obtain ⟨harray, hobject⟩ := viewMembers_kids m.2
    have hvalue := viewValue_wire (some m.1) harray hobject
    have hrest := viewMembers_named members
    rw [named, wire, viewMembers, hrest, seenMembers]
    exact congrArg (fun w => (cstr m.1, w) :: _) hvalue

end

end CJson

section Text

variable {memory : ℕ → Option (ℕ → UInt8)} {v : CJson} {s : List UInt8}

/-- **The text of a value** is read as what is seen of it, if arrays and objects are nested at most 1000 times, and is
refused else. -/
theorem parseCJson_text (h : v.Doubles) (hprint : printCJson memory v = some s) :
    (v.nesting ≤ nestingLimit → parseCJson s = some v.seen) ∧ (nestingLimit < v.nesting → parseCJson s = none) := by
  obtain ⟨result, hrun, hout⟩ := Option.bind_eq_some_iff.mp hprint
  obtain ⟨out, rfl, rfl⟩ := Option.map_eq_some_iff.mp hout
  have hprintable : Printable (.cons v.item v.kids .nil) :=
    CJson.printable_cons h (v.printable_kids h) v.item.string trivial
  obtain ⟨result', hrun', htext, -⟩ := cJSONPrint_cases memory false v.item v.kids 0
  rw [hrun, Option.some.injEq] at hrun'
  obtain ⟨u, hu, rfl⟩ := htext out hrun'.symm
  rw [cstr_append_zero (zero_notMem_text hprintable hu)]
  obtain ⟨hok, hdeep⟩ := cJSONParse_text hprintable hu
  refine ⟨fun hle => ?_, fun hlt => ?_⟩
  · obtain ⟨harray, hobject⟩ := v.viewMembers_kids
    rw [parseCJson, hok hle, wire, wire]
    exact congrArg some (CJson.viewValue_wire v.item.string harray hobject)
  · obtain ⟨position, herror⟩ := hdeep hlt
    rw [parseCJson, herror]

/-- A value of `double`s is printed, unless memory is missing or its text is too long. -/
theorem printCJson_none (h : v.Doubles) (hnone : printCJson memory v = none) :
    (∃ k, memory k = none) ∨ ∃ t, v.text = some t ∧ intMax < t.length + 2 := by
  have hprintable : Printable (.cons v.item v.kids .nil) :=
    CJson.printable_cons h (v.printable_kids h) v.item.string trivial
  obtain ⟨t, ht⟩ := exists_text hprintable false false 0
  obtain ⟨result, hrun, -, hfail⟩ := cJSONPrint_cases memory false v.item v.kids t.length
  rw [printCJson, hrun, Option.bind_some, Option.map_eq_none_iff] at hnone
  by_contra hn
  rw [not_or, not_exists, not_exists] at hn
  exact hfail hnone ⟨⟨hn.1, not_lt.mp fun hlt => hn.2 t ⟨ht, hlt⟩⟩, t, ht, le_rfl⟩

end Text

end Sarah
