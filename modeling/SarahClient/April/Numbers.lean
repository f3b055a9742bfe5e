import SarahClient.April.StackLimit
import Mathlib.Data.Rat.Floor

/-!
# The numbers of a JSON document in the decoder

* `JsonAt`: the item at a position of a document, the numbers of the siblings from the outermost list on;
* `cjsonToTableStores`: `cjson_to_table` with a record of what it stores for the number items, and where;
* `cjsonToTableStores_fst`: without the record it is `cjsonToTable`;
* `values_of_jsonAt`: each number item is stored once;
* **`cjsonNumber_iff`**: when what is stored equals `valuedouble`.
-/

namespace Sarah

open Forest

/-! ## Positions -/

/-- The item at a position; only arrays and objects have children. -/
inductive JsonAt : Forest JsonItem → List ℕ → JsonItem → Prop
  | here {item : JsonItem} {kids rest : Forest JsonItem} : JsonAt (.cons item kids rest) [0] item
  | kids {item it : JsonItem} {kids rest : Forest JsonItem} {p : List ℕ}
    (hitem : item.type = .array ∨ item.type = .object)
      (h : JsonAt kids p it) : JsonAt (.cons item kids rest) (0 :: p) it
  | rest {item it : JsonItem} {kids rest : Forest JsonItem} {i : ℕ} {p : List ℕ} (h : JsonAt rest (i :: p) it) :
      JsonAt (.cons item kids rest) ((i + 1) :: p) it

/-- The numbers stored, each with the position of its item. -/
abbrev Stores := List (List ℕ × LuaLeaf)

namespace Stores

/-- The stores of the children of the first item. -/
def below (s : Stores) : Stores := s.map fun e => (0 :: e.1, e.2)

/-- The position as counted with one more item in front. -/
def bump : List ℕ → List ℕ
  | [] => []
  | i :: p => (i + 1) :: p

/-- The stores of the items behind the first one. -/
def later (s : Stores) : Stores := s.map fun e => (bump e.1, e.2)

/-- What is stored for the item at a position. -/
def values (s : Stores) (p : List ℕ) : List LuaLeaf := (s.filter fun e => e.1 = p).map Prod.snd

theorem values_append (s s' : Stores) (p : List ℕ) : values (s ++ s') p = values s p ++ values s' p := by
  rw [values, List.filter_append, List.map_append]
  rfl

@[simp] theorem values_nil (p : List ℕ) : values [] p = [] := rfl

theorem values_map {g : List ℕ → List ℕ} {p p' : List ℕ} (hg : ∀ e, g e = p' ↔ e = p) (s : Stores) :
    values (s.map fun e => (g e.1, e.2)) p' = values s p := by
  induction s with
  | nil => rfl
  | cons e s ih =>
    have hcons (s : Stores) (e : List ℕ × LuaLeaf) (p : List ℕ) :
        values (e :: s) p = if e.1 = p then e.2 :: values s p else values s p := by
      by_cases he : e.1 = p
      · simp [values, he]
      · simp [values, he]
    rw [List.map_cons, hcons, hcons, ih]
    simp only [hg]

theorem values_map_of_ne {g : List ℕ → List ℕ} {p : List ℕ} (hg : ∀ e, g e ≠ p) (s : Stores) :
    values (s.map fun e => (g e.1, e.2)) p = [] := by
  rw [values, List.map_eq_nil_iff, List.filter_eq_nil_iff]
  intro e he
  obtain ⟨e', -, rfl⟩ := List.mem_map.mp he
  simpa using hg e'.1

@[simp] theorem values_below (s : Stores) (p : List ℕ) : values (below s) (0 :: p) = values s p :=
  values_map (fun _ => by simp) s

@[simp] theorem values_below_succ (s : Stores) (i : ℕ) (p : List ℕ) : values (below s) ((i + 1) :: p) = [] :=
  values_map_of_ne (fun _ => by simp) s

@[simp] theorem values_later (s : Stores) (i : ℕ) (p : List ℕ) : values (later s) ((i + 1) :: p) = values s (i :: p) :=
  values_map (fun e => by cases e <;> simp [bump]) s

@[simp] theorem values_later_zero (s : Stores) (p : List ℕ) : values (later s) (0 :: p) = [] :=
  values_map_of_ne (fun e => by cases e <;> simp [bump]) s

end Stores

/-! ## The decoder with its stores -/

/-- `item->valuedouble > item->valueint ? item->valuedouble : item->valueint`. -/
def numberValue (item : JsonItem) : LuaLeaf :=
  if item.fractional then .number item.valuedouble else .integer (Int64.ofInt item.valueint)

/-- `cjson_to_table`, with what it stores for number items. -/
def cjsonToTableStores : Forest JsonItem → Bool → ℕ → ℤ → LuaTable → Option (LuaTable × Stores)
  | .nil, _, _, _, t => some (t, [])
  | .cons item kids rest, isArray, room, index, t =>
    let key := itemKey item isArray index
    if room < t.storeSlots key.1 then none
    else
      let next (t : LuaTable) (own : Stores) :=
        (cjsonToTableStores rest isArray room key.2 t).map fun r => (r.1, own ++ Stores.later r.2)
      match item.type with
      | .false => next (t.set key.1 (.inl (.boolean false))) []
      | .true => next (t.set key.1 (.inl (.boolean true))) []
      | .null => next (t.erase key.1) []
      | .number => next (t.set key.1 (.inl (numberValue item))) [([0], numberValue item)]
      | .string =>
        match item.valuestring with
        | none => next (t.erase key.1) []
        | some s => next (t.set key.1 (.inl (.string s))) []
      | .array => (cjsonToTableStores kids true (room - 1) 1 .nil).bind fun u =>
          next (t.set key.1 (.inr u.1)) (Stores.below u.2)
      | .object => (cjsonToTableStores kids false (room - 1) 1 .nil).bind fun u =>
          next (t.set key.1 (.inr u.1)) (Stores.below u.2)
      | _ => none

/-- **The record changes nothing.** -/
theorem cjsonToTableStores_fst (f : Forest JsonItem) : ∀ (isArray : Bool) (room : ℕ) (index : ℤ) (t : LuaTable),
    (cjsonToTableStores f isArray room index t).map Prod.fst = cjsonToTable f isArray room index t := by
  induction f with
  | nil =>
    intro isArray room index t
    rfl
  | cons item kids rest ihk ihr =>
    intro isArray room index t
    have hnext (own : Stores) (t : LuaTable) :
        ((cjsonToTableStores rest isArray room (itemKey item isArray index).2 t).map fun r =>
          (r.1, own ++ Stores.later r.2)).map Prod.fst =
        cjsonToTable rest isArray room (itemKey item isArray index).2 t := by
      rw [Option.map_map, ← ihr]
      rfl
    have hkids (isArray' : Bool) :
        ((cjsonToTableStores kids isArray' (room - 1) 1 .nil).bind fun u =>
          (cjsonToTableStores rest isArray room (itemKey item isArray index).2
            (t.set (itemKey item isArray index).1 (.inr u.1))).map fun r =>
              (r.1, Stores.below u.2 ++ Stores.later r.2)).map Prod.fst =
        (cjsonToTable kids isArray' (room - 1) 1 .nil).bind fun u =>
          cjsonToTable rest isArray room (itemKey item isArray index).2
            (t.set (itemKey item isArray index).1 (.inr u)) := by
      rw [← ihk, Option.map_bind, Option.bind_map]
      refine congrArg _ ?_
      funext u
      exact hnext _ _
    rw [cjsonToTableStores, cjsonToTable]
    dsimp only
    by_cases hroom : room < t.storeSlots (itemKey item isArray index).1
    · rw [if_pos hroom, if_pos hroom]
      rfl
    · rw [if_neg hroom, if_neg hroom]
      cases item.type with
      | false | true | null | number => exact hnext _ _
      | string => cases item.valuestring <;> exact hnext _ _
      | array | object => exact hkids _
      | invalid | raw => rfl

/-- The stores of one item: that of a number, those of the children, or none. -/
inductive OwnStores (item : JsonItem) (kids : Forest JsonItem) (room : ℕ) : Stores → Prop
  | number (h : item.type = .number) : OwnStores item kids room [([0], numberValue item)]
  | container {isArray : Bool} {u : LuaTable × Stores} (h : item.type = .array ∨ item.type = .object)
      (hu : cjsonToTableStores kids isArray room 1 .nil = some u) : OwnStores item kids room (Stores.below u.2)
  | none (h : item.type ≠ .number ∧ item.type ≠ .array ∧ item.type ≠ .object) : OwnStores item kids room []

theorem cjsonToTableStores_cons {item : JsonItem} {kids rest : Forest JsonItem} {isArray : Bool} {room : ℕ} {index : ℤ}
    {t : LuaTable} {r : LuaTable × Stores}
    (h : cjsonToTableStores (.cons item kids rest) isArray room index t = some r) :
    ∃ own t' r', OwnStores item kids (room - 1) own ∧
      cjsonToTableStores rest isArray room (itemKey item isArray index).2 t' = some r' ∧
      r.2 = own ++ Stores.later r'.2 := by
  have hnext {own : Stores} {t' : LuaTable} (hown : OwnStores item kids (room - 1) own)
      (h : (cjsonToTableStores rest isArray room (itemKey item isArray index).2 t').map
        (fun r => (r.1, own ++ Stores.later r.2)) = some r) :
      ∃ own t' r', OwnStores item kids (room - 1) own ∧
        cjsonToTableStores rest isArray room (itemKey item isArray index).2 t' = some r' ∧
        r.2 = own ++ Stores.later r'.2 := by
    obtain ⟨r', hr', hr⟩ := Option.map_eq_some_iff.mp h
    exact ⟨own, t', r', hown, hr', hr ▸ rfl⟩
  have hkids {isArray' : Bool} (hitem : item.type = .array ∨ item.type = .object)
      (h : ((cjsonToTableStores kids isArray' (room - 1) 1 .nil).bind fun u =>
        (cjsonToTableStores rest isArray room (itemKey item isArray index).2
          (t.set (itemKey item isArray index).1 (.inr u.1))).map fun r =>
            (r.1, Stores.below u.2 ++ Stores.later r.2)) = some r) :
      ∃ own t' r', OwnStores item kids (room - 1) own ∧
        cjsonToTableStores rest isArray room (itemKey item isArray index).2 t' = some r' ∧
        r.2 = own ++ Stores.later r'.2 := by
    obtain ⟨u, hu, h⟩ := Option.bind_eq_some_iff.mp h
    exact hnext (.container hitem hu) h
  rw [cjsonToTableStores] at h
  dsimp only at h
  by_cases hroom : room < t.storeSlots (itemKey item isArray index).1
  · rw [if_pos hroom] at h
    cases h
  rw [if_neg hroom] at h
  cases htype : item.type with
  | number =>
    rw [htype] at h
    exact hnext (.number htype) h
  | false | true | null =>
    rw [htype] at h
    exact hnext (.none (by rw [htype]; decide)) h
  | string =>
    rw [htype] at h
    have hown : OwnStores item kids (room - 1) [] := .none (by rw [htype]; decide)
    cases hvalue : item.valuestring with
    | none =>
      rw [hvalue] at h
      exact hnext hown h
    | some s =>
      rw [hvalue] at h
      exact hnext hown h
  | array =>
    rw [htype] at h
    exact hkids (.inl htype) h
  | object =>
    rw [htype] at h
    exact hkids (.inr htype) h
  | invalid | raw =>
    rw [htype] at h
    cases h

theorem OwnStores.values_succ {item : JsonItem} {kids : Forest JsonItem} {room : ℕ} {own : Stores}
    (h : OwnStores item kids room own) (i : ℕ) (p : List ℕ) : Stores.values own ((i + 1) :: p) = [] := by
  cases h with
  | number h => simp [Stores.values]
  | container h hu => exact Stores.values_below_succ _ i p
  | none h => rfl

/-- **In every document each number item is stored once.** -/
theorem values_of_jsonAt {f : Forest JsonItem} {p : List ℕ} {item : JsonItem} (hat : JsonAt f p item)
    (hnumber : item.type = .number) : ∀ {isArray : Bool} {room : ℕ} {index : ℤ} {t : LuaTable} {r : LuaTable × Stores},
    cjsonToTableStores f isArray room index t = some r → Stores.values r.2 p = [numberValue item] := by
  induction hat with
  | here =>
    intro isArray room index t r h
    obtain ⟨own, t', r', hown, -, hr⟩ := cjsonToTableStores_cons h
    rw [hr, Stores.values_append, Stores.values_later_zero, List.append_nil]
    cases hown with
    | number => rfl
    | container hitem => rcases hitem with hitem | hitem <;> rw [hnumber] at hitem <;> cases hitem
    | none hne => exact absurd hnumber hne.1
  | @kids item it kids rest p hitem hat ih =>
    intro isArray room index t r h
    obtain ⟨own, t', r', hown, -, hr⟩ := cjsonToTableStores_cons h
    rw [hr, Stores.values_append, Stores.values_later_zero, List.append_nil]
    cases hown with
    | number hn => rcases hitem with hitem | hitem <;> rw [hn] at hitem <;> cases hitem
    | container _ hu => exact (Stores.values_below _ p).trans (ih hnumber hu)
    | none hne => exact hitem.elim (fun h => absurd h hne.2.1) fun h => absurd h hne.2.2
  | rest hat ih =>
    intro isArray room index t r h
    obtain ⟨own, t', r', hown, hr', hr⟩ := cjsonToTableStores_cons h
    rw [hr, Stores.values_append, hown.values_succ, List.nil_append, Stores.values_later]
    exact ih hnumber hr'

theorem LuaTable.storeSlots_le (t : LuaTable) (key : LuaKey) : 1 ≤ t.storeSlots key ∧ t.storeSlots key ≤ 2 := by
  unfold LuaTable.storeSlots
  split_ifs <;> decide

/-- **The decoder runs through a parsed document** exactly with a stack slot for each level and one for a key. -/
theorem cjsonToTableStores_isSome_iff {f : Forest JsonItem} (hf : Parsed f) : ∀ {room : ℕ} {t : LuaTable},
    t.keys = [] ∨ 2 ≤ room → ∀ (isArray : Bool) (index : ℤ),
      ((cjsonToTableStores f isArray room index t).isSome ↔ storeDepth f ≤ room) := by
  induction f with
  | nil =>
    intro room t _ isArray index
    exact iff_of_true rfl (Nat.zero_le room)
  | cons item kids rest ihk ihr =>
    intro room t hroom isArray index
    have hdepth : storeDepth (.cons item kids rest) = max (kids.depth + 1) rest.depth + 1 := rfl
    have hslots := t.storeSlots_le (itemKey item isArray index).1
    rw [cjsonToTableStores]
    dsimp only
    rcases Nat.lt_or_ge room 2 with hfew | henough
    · -- no key is known, and the first one does not fit
      have hnew : (itemKey item isArray index).1 ∉ t.keys := by
        rw [hroom.resolve_right (Nat.not_le.mpr hfew)]
        exact List.not_mem_nil
      rw [LuaTable.storeSlots, if_neg hnew, if_pos hfew, hdepth]
      exact iff_of_false (fun h => by cases h) (by omega)
    have hnext (own : Stores)
      (t : LuaTable) : ((cjsonToTableStores rest isArray room (itemKey item isArray index).2 t).map
        fun r => (r.1, own ++ Stores.later r.2)).isSome ↔ storeDepth rest ≤ room := by
      rw [Option.isSome_map]
      exact ihr hf.2 (.inr henough) isArray _
    have hrest : storeDepth rest ≤ room ↔ rest.depth < room := storeDepth_le_iff rest (by omega)
    have hleaf (hk : kids = .nil) : storeDepth rest ≤ room ↔ storeDepth (.cons item kids rest) ≤ room := by
      have hzero : kids.depth = 0 := by rw [hk, depth]
      rw [hrest, hdepth]
      omega
    have hdown (hk : Parsed kids)
      (isArray' : Bool) : ((cjsonToTableStores kids isArray' (room - 1) 1 .nil).bind fun u =>
        (cjsonToTableStores rest isArray room (itemKey item isArray index).2
          (t.set (itemKey item isArray index).1 (.inr u.1))).map fun r =>
            (r.1, Stores.below u.2 ++ Stores.later r.2)).isSome ↔ storeDepth (.cons item kids rest) ≤ room := by
      have hkids := ihk hk (.inl rfl : LuaTable.nil.keys = [] ∨ 2 ≤ room - 1) isArray' 1
      rw [storeDepth_le_iff kids (by omega)] at hkids
      have hboth : storeDepth (.cons item kids rest) ≤ room ↔ kids.depth < room - 1 ∧ storeDepth rest ≤ room := by
        rw [hrest, hdepth]
        omega
      rw [hboth, ← hkids]
      cases hu : cjsonToTableStores kids isArray' (room - 1) 1 .nil with
      | none => exact iff_of_false (fun h => by cases h) (fun h => by cases h.1)
      | some u => exact (hnext _ _).trans ⟨fun h => ⟨rfl, h⟩, fun h => h.2⟩
    have hitem := hf.1
    rw [if_neg (by omega)]
    cases htype : item.type with
    | false | true | null | number =>
      rw [htype] at hitem
      exact (hnext _ _).trans (hleaf hitem)
    | string =>
      rw [htype] at hitem
      cases item.valuestring <;> exact (hnext _ _).trans (hleaf hitem)
    | array | object =>
      rw [htype] at hitem
      exact hdown hitem _
    | invalid | raw =>
      rw [htype] at hitem
      exact hitem.elim

/-! ## The value of a number -/

/-- A number item as `parse_number` builds it from a finite number. -/
structure JsonItem.Holds (item : JsonItem) (q : ℚ) : Prop where
  type : item.type = .number
  valuedouble : item.valuedouble = some (.fin q)
  valueint : item.valueint = (Double.fin q).toInt

/-- The number that a Lua value is. -/
def LuaLeaf.real : LuaLeaf → Option Double
  | .integer i => some (.fin i.toInt)
  | .number d => d
  | _ => none

theorem tdiv_le_of_nonneg {q : ℚ} (hq : 0 ≤ q) : ((q.num.tdiv q.den : ℤ) : ℚ) ≤ q := by
  rw [Int.tdiv_eq_ediv_of_nonneg (Rat.num_nonneg.mpr hq), ← Rat.floor_def']
  exact Int.floor_le q

theorem le_tdiv_of_nonpos {q : ℚ} (hq : q ≤ 0) : q ≤ ((q.num.tdiv q.den : ℤ) : ℚ) := by
  have hneg := tdiv_le_of_nonneg (neg_nonneg.mpr hq)
  rw [Rat.neg_num, Rat.neg_den, Int.neg_tdiv] at hneg
  push_cast at hneg
  linarith

theorem toInt_le_of_pos {q : ℚ} (hq : 0 < q) : (((Double.fin q).toInt : ℤ) : ℚ) ≤ q := by
  rw [Double.toInt]
  split_ifs with hhi hlo
  · exact_mod_cast hhi
  · linarith
  · exact tdiv_le_of_nonneg hq.le

theorem le_toInt_of_nonpos {q : ℚ} (hq : q ≤ 0) : q ≤ (((Double.fin q).toInt : ℤ) : ℚ) := by
  rw [Double.toInt]
  split_ifs with hhi hlo
  · linarith
  · exact_mod_cast hlo
  · exact le_tdiv_of_nonpos hq

theorem toInt_eq_of_den {q : ℚ} (hq : q.den = 1) (hlo : -2 ^ 31 ≤ q) (hhi : q ≤ 2 ^ 31 - 1) :
    (((Double.fin q).toInt : ℤ) : ℚ) = q := by
  rw [Double.toInt]
  split_ifs with hhi' hlo'
  · rw [le_antisymm hhi hhi']
    norm_num
  · rw [le_antisymm hlo' hlo]
    norm_num
  · rw [hq, Nat.cast_one, Int.tdiv_one]
    exact (Rat.den_eq_one_iff q).mp hq

theorem JsonItem.Holds.fractional_iff {item : JsonItem} {q : ℚ} (h : item.Holds q) :
    item.fractional = true ↔ (((Double.fin q).toInt : ℤ) : ℚ) < q := by
  rw [JsonItem.fractional, h.valuedouble, h.valueint]
  simp [Double.le]

/-- **What the decoder makes of a number equals it when the number is positive, or an integer that is not below
`int`.** -/
theorem numberValue_iff {item : JsonItem} {q : ℚ} (h : item.Holds q) :
    (numberValue item).real = some (.fin q) ↔ 0 < q ∨ (q.den = 1 ∧ -2 ^ 31 ≤ q) := by
  obtain ⟨hlo, hhi⟩ := (Double.fin q).toInt_range
  by_cases hfrac : item.fractional = true
  · rw [numberValue, if_pos hfrac, LuaLeaf.real, h.valuedouble, eq_self, true_iff]
    have hlt := h.fractional_iff.mp hfrac
    exact .inl (not_le.mp fun hq => absurd (le_toInt_of_nonpos hq) (not_le.mpr hlt))
  · rw [numberValue, if_neg hfrac, LuaLeaf.real, h.valueint, Int64.toInt_ofInt_of_le (by omega) (by omega)]
    have hle : q ≤ ((Double.fin q).toInt : ℤ) := not_lt.mp fun hlt => hfrac (h.fractional_iff.mpr hlt)
    have hq : some (Double.fin ((Double.fin q).toInt : ℤ)) = some (.fin q) ↔ (((Double.fin q).toInt : ℤ) : ℚ) = q := by
      simp
    rw [hq]
    constructor
    · intro heq
      refine .inr ⟨(Rat.den_eq_one_iff q).mpr ?_, ?_⟩
      · rw [← heq, Rat.num_intCast]
      · rw [← heq]
        exact_mod_cast hlo
    · rintro (hpos | ⟨hden, hlow⟩)
      · exact le_antisymm (toInt_le_of_pos hpos) hle
      · refine toInt_eq_of_den hden hlow (hle.trans ?_)
        have : (Double.fin q).toInt ≤ 2 ^ 31 - 1 := by omega
        exact_mod_cast this

/-- **The property**: the decoder runs through the document, into an empty table, and stores the number `q` once for the
item at the position. -/
def StoresNumber (f : Forest JsonItem) (isArray : Bool) (room : ℕ) (p : List ℕ) (q : ℚ) : Prop :=
  ∃ r v, cjsonToTableStores f isArray room 1 .nil = some r ∧ Stores.values r.2 p = [v] ∧ v.real = some (.fin q)

theorem JsonAt.ne_nil {f : Forest JsonItem} {p : List ℕ} {item : JsonItem} (h : JsonAt f p item) : f ≠ .nil := by
  rintro rfl
  cases h

/-- **A number anywhere in a document is stored as itself exactly when** the stack has a slot for each level and one for
a key, and the number is positive, or an integer not below the range of `int`. -/
theorem cjsonNumber_iff {f : Forest JsonItem} (hf : Parsed f) (isArray : Bool) (room : ℕ) {p : List ℕ} {item : JsonItem}
    (hat : JsonAt f p item) {q : ℚ} (hitem : item.Holds q) :
    StoresNumber f isArray room p q ↔ f.depth + 1 ≤ room ∧ (0 < q ∨ (q.den = 1 ∧ -2 ^ 31 ≤ q)) := by
  have hdepth : storeDepth f = f.depth + 1 := by
    cases f with
    | nil => exact absurd rfl hat.ne_nil
    | cons => rfl
  have hrun := cjsonToTableStores_isSome_iff hf (.inl rfl : LuaTable.nil.keys = [] ∨ 2 ≤ room) isArray 1
  rw [← hdepth, ← hrun, ← numberValue_iff hitem]
  constructor
  · rintro ⟨r, v, hr, hv, hreal⟩
    rw [values_of_jsonAt hat hitem.type hr] at hv
    rw [hr, (List.cons.inj hv).1]
    exact ⟨rfl, hreal⟩
  · rintro ⟨hsome, hreal⟩
    obtain ⟨r, hr⟩ := Option.isSome_iff_exists.mp hsome
    exact ⟨r, numberValue item, hr, values_of_jsonAt hat hitem.type hr, hreal⟩

/-- The document `{"rate": [q]}`. -/
def rateDocument (q : ℚ) : Forest JsonItem :=
  .cons { newItem .array with string := some (lit "rate") } (.cons (createNumber (some (.fin q))) .nil .nil) .nil

theorem parsed_rateDocument (q : ℚ) : Parsed (rateDocument q) := ⟨⟨rfl, trivial⟩, trivial⟩

theorem jsonAt_rate (q : ℚ) : JsonAt (rateDocument q) [0, 0] (createNumber (some (.fin q))) := .kids (.inl rfl) .here

theorem createNumber_holds (q : ℚ) : (createNumber (some (.fin q))).Holds q := ⟨rfl, rfl, rfl⟩

theorem cjsonNumber_iff_half : StoresNumber (rateDocument (1 / 2)) false 19 [0, 0] (1 / 2) :=
  (cjsonNumber_iff (parsed_rateDocument _) false 19 (jsonAt_rate _) (createNumber_holds _)).mpr
    ⟨by decide, .inl (by norm_num)⟩

/-- `-1.5` is stored as `-1`. -/
theorem not_cjsonNumber : ¬ ∀ (f : Forest JsonItem) (isArray : Bool) (p : List ℕ) (item : JsonItem) (q : ℚ), Parsed f →
    JsonAt f p item → item.Holds q → StoresNumber f isArray 19 p q := by
  intro hall
  obtain ⟨r, v, hr, hv, hreal⟩ :=
    hall _ false _ _ _ (parsed_rateDocument (-3 / 2)) (jsonAt_rate _) (createNumber_holds _)
  rw [values_of_jsonAt (jsonAt_rate _) rfl hr] at hv
  rw [← (List.cons.inj hv).1, numberValue_iff (createNumber_holds _)] at hreal
  rcases hreal with hpos | ⟨hden, -⟩
  · norm_num at hpos
  · revert hden
    decide +kernel

end Sarah
