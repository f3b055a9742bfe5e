import SarahClient.CInt
import SarahClient.Lib.Block

/-!
# The growing array of `cel_array.c`

`items` is the block behind the pointer; an access outside it is `none`. `0 : V` is the `NULL` value.
Allocations succeed.

* `celArrayInit`, `resizeArray`, `celArrayAdd`, `celArrayInsert`, `celArrayDel`, `celArrayGet`, `celArraySet`;
* `CelArray.Holds`: the array holds a list;
* one lemma for each function; **`celArrayDel_holds`** needs a slot behind the last element.
-/

namespace Sarah

open Block

/-- `cel_array_t`. -/
structure CelArray (V : Type) where
  items : List V
  length : ℕ
  size : ℕ
  deriving DecidableEq

variable {V : Type} [Zero V]

/-- `create_array_blocks`. -/
def createArrayBlocks (blocks : ℕ) : List V := List.replicate blocks 0

/-- `cel_array_init`. -/
def celArrayInit (opacity : ℤ) : CelArray V :=
  let n := (if opacity < 0 then 16 else opacity).toNat
  ⟨createArrayBlocks n, n, 0⟩

/-- `resize_array`. -/
def resizeArray (array : CelArray V) (opacity : ℕ) : Option (CelArray V) :=
  if array.size ≤ array.items.length then
    (copyIn (createArrayBlocks opacity) 0 (array.items.take array.size)).map fun items =>
      { array with items := items, length := opacity }
  else none

/-- The growth shared by `cel_array_add` and `cel_array_insert`. -/
def growArray (array : CelArray V) : Option (CelArray V) :=
  if array.length ≤ array.size then resizeArray array (u32 (array.size * 2 + 1)) else some array

/-- `cel_array_add`. -/
def celArrayAdd (array : CelArray V) (value : V) : Option (CelArray V) :=
  (growArray array).bind fun array => (store array.items array.size value).map fun items =>
    { array with items := items, size := u32 (array.size + 1) }

/-- `cel_array_insert`: nothing is inserted at `size` or behind it. -/
def celArrayInsert (array : CelArray V) (idx : ℕ) (value : V) : Option (CelArray V) :=
  if idx < array.size then
    (growArray array).bind fun array =>
      -- `items[i] = items[i - 1]` for `i` from `size` down to `idx + 1`
      (moveUp 1 idx (array.size - idx) array.items).bind fun items =>
        (store items idx value).map fun items => { array with items := items, size := u32 (array.size + 1) }
  else some array

/-- `cel_array_del`, with the element that it returns. -/
def celArrayDel (array : CelArray V) (idx : ℕ) : Option (V × CelArray V) :=
  if array.size ≤ idx then some (0, array)
  else
    array.items[idx]?.bind fun old =>
      -- `items[i] = items[i + 1]` for `i` from `idx` to `size - 1`
      (moveDown 1 (idx + 1) (array.size - idx) array.items).map fun items =>
        (old, { array with items := items, size := u32 (array.size + (2 ^ 32 - 1)) })

/-- `cel_array_get`: `NULL` outside the array. -/
def celArrayGet (array : CelArray V) (idx : ℕ) : Option V :=
  if array.size ≤ idx then some 0 else array.items[idx]?

/-- `cel_array_set`, with the old element. -/
def celArraySet (array : CelArray V) (idx : ℕ) (value : V) : Option (V × CelArray V) :=
  if array.size ≤ idx then some (0, array)
  else
    array.items[idx]?.bind fun old => (store array.items idx value).map fun items =>
      (old, { array with items := items })

/-! ## The list in an array -/

/-- The array holds the elements `vs`. -/
structure CelArray.Holds (array : CelArray V) (vs : List V) : Prop where
  size : array.size = vs.length
  block : array.items.length = array.length
  fits : array.size ≤ array.length
  bound : array.length < 2 ^ 32
  items : ∀ j < vs.length, array.items[j]? = vs[j]?

/-- The array can take one more element: it has a free slot, or its next length is no wrapped number. -/
def CelArray.Grows (array : CelArray V) : Prop := array.size = array.length → array.size * 2 + 1 < 2 ^ 32

variable {array : CelArray V} {vs : List V}

theorem celArrayInit_holds {opacity : ℤ} (h : opacity < 2 ^ 31) : (celArrayInit opacity : CelArray V).Holds [] := by
  refine ⟨rfl, List.length_replicate, Nat.zero_le _, ?_, fun j hj => absurd hj (Nat.not_lt_zero j)⟩
  dsimp only [celArrayInit]
  split_ifs <;> omega

theorem growArray_holds (h : array.Holds vs) (hg : array.Grows) :
    ∃ a, growArray array = some a ∧ a.Holds vs ∧ a.size < a.length := by
  have hsize := h.size
  have hblock := h.block
  have hfits := h.fits
  unfold growArray
  by_cases hfull : array.length ≤ array.size
  · have heq : array.size = array.length := by omega
    have hsmall := hg heq
    have htake : (array.items.take array.size).length = array.size := by rw [List.length_take]; omega
    rw [if_pos hfull, u32_of_lt hsmall, resizeArray, if_pos (by omega)]
    obtain ⟨items, hcopy⟩ : ∃ items, copyIn (createArrayBlocks (array.size * 2 + 1)) 0 (array.items.take array.size) =
        some items := ⟨_, copyIn_of_le (by rw [htake, createArrayBlocks, List.length_replicate]; omega)⟩
    have hlen := copyIn_length hcopy
    rw [createArrayBlocks, List.length_replicate] at hlen
    rw [hcopy, Option.map_some]
    refine ⟨_, rfl, ⟨hsize, hlen, ?_, hsmall, fun j hj => ?_⟩, ?_⟩
    · dsimp only
      omega
    · dsimp only
      rw [copyIn_getElem? hcopy, if_pos (by omega), Nat.sub_zero, List.getElem?_take_of_lt (by omega)]
      exact h.items j hj
    · dsimp only
      omega
  · rw [if_neg hfull]
    exact ⟨array, rfl, h, by omega⟩

theorem celArrayAdd_holds (h : array.Holds vs) (hg : array.Grows) (value : V) :
    ∃ a, celArrayAdd array value = some a ∧ a.Holds (vs ++ [value]) := by
  obtain ⟨a, hgrow, ha, hlt⟩ := growArray_holds h hg
  have hsize := ha.size
  have hblock := ha.block
  have hbound := ha.bound
  rw [celArrayAdd, hgrow, Option.bind_some, store_of_lt (by omega), Option.map_some]
  refine ⟨_, rfl, ?_, ?_, ?_, hbound, fun j hj => ?_⟩
  · dsimp only
    rw [u32_of_lt (by omega), List.length_append, List.length_singleton, hsize]
  · rw [List.length_set]
    exact hblock
  · dsimp only
    rw [u32_of_lt (by omega)]
    omega
  · rw [List.length_append, List.length_singleton] at hj
    rw [List.getElem?_set]
    by_cases hlast : a.size = j
    · rw [if_pos hlast, if_pos (by omega), List.getElem?_append_right (by omega), ← hlast, hsize, Nat.sub_self]
      rfl
    · rw [if_neg hlast, List.getElem?_append_left (by omega)]
      exact ha.items j (by omega)

theorem celArrayInsert_holds (h : array.Holds vs) (hg : array.Grows) {idx : ℕ} (hidx : idx < vs.length) (value : V) :
    ∃ a, celArrayInsert array idx value = some a ∧ a.Holds (vs.take idx ++ value :: vs.drop idx) := by
  obtain ⟨a, hgrow, ha, hlt⟩ := growArray_holds h hg
  have hsize := ha.size
  have hblock := ha.block
  have hbound := ha.bound
  obtain ⟨items, hmove, hlen, hget⟩ := moveUp_spec 1 idx (a.size - idx) a.items (by omega)
  have htake : (vs.take idx).length = idx := by rw [List.length_take]; omega
  rw [celArrayInsert, if_pos (by rw [h.size]; exact hidx), hgrow, Option.bind_some, hmove, Option.bind_some,
    store_of_lt (by omega), Option.map_some]
  refine ⟨_, rfl, ?_, ?_, ?_, hbound, fun j hj => ?_⟩
  · dsimp only
    rw [u32_of_lt (by omega), List.length_append, List.length_cons, List.length_drop, htake, hsize]
    omega
  · rw [List.length_set, hlen]
    exact hblock
  · dsimp only
    rw [u32_of_lt (by omega)]
    omega
  · rw [List.length_append, List.length_cons, List.length_drop, htake] at hj
    rw [List.getElem?_set]
    rcases Nat.lt_trichotomy j idx with hlt | rfl | hgt
    · rw [if_neg (by omega), hget, if_neg (by omega), List.getElem?_append_left (by omega),
        List.getElem?_take_of_lt hlt]
      exact ha.items j (by omega)
    · rw [if_pos rfl, if_pos (by omega), List.getElem?_append_right (by omega), htake, Nat.sub_self]
      rfl
    · rw [if_neg (by omega), hget, if_pos (by omega), List.getElem?_append_right (by omega), htake,
        show j - idx = j - 1 - idx + 1 by omega, List.getElem?_cons_succ, List.getElem?_drop,
        show idx + (j - 1 - idx) = j - 1 by omega]
      exact ha.items (j - 1) (by omega)

theorem celArrayInsert_of_le (h : array.Holds vs) {idx : ℕ} (hidx : vs.length ≤ idx) (value : V) :
    celArrayInsert array idx value = some array := by
  rw [celArrayInsert, if_neg (by rw [h.size]; omega)]

/-- **Deleting** reads the slot behind the last element. -/
theorem celArrayDel_holds (h : array.Holds vs) {idx : ℕ} (hidx : idx < vs.length) (hroom : array.size < array.length) :
    ∃ a, celArrayDel array idx = some (vs[idx], a) ∧ a.Holds (vs.eraseIdx idx) := by
  have hsize := h.size
  have hblock := h.block
  have hbound := h.bound
  obtain ⟨items, hmove, hlen, hget⟩ := moveDown_spec 1 (array.size - idx) (idx + 1) array.items (by omega) (by omega)
  have hdown : u32 (array.size + (2 ^ 32 - 1)) = array.size - 1 := by
    unfold u32
    omega
  rw [celArrayDel, if_neg (by omega), h.items idx hidx, List.getElem?_eq_getElem hidx, Option.bind_some, hmove,
    Option.map_some]
  refine ⟨_, rfl, ?_, ?_, ?_, hbound, fun j hj => ?_⟩
  · dsimp only
    rw [hdown, List.length_eraseIdx_of_lt hidx, hsize]
  · exact hlen.trans hblock
  · dsimp only
    rw [hdown]
    omega
  · rw [List.length_eraseIdx_of_lt hidx] at hj
    dsimp only
    rw [hget, List.getElem?_eraseIdx]
    by_cases hlt : j < idx
    · rw [if_neg (by omega), if_pos hlt]
      exact h.items j (by omega)
    · rw [if_pos (by omega), if_neg hlt]
      exact h.items (j + 1) (by omega)

theorem celArrayDel_of_le (h : array.Holds vs) {idx : ℕ} (hidx : vs.length ≤ idx) :
    celArrayDel array idx = some (0, array) := by
  rw [celArrayDel, if_pos (by rw [h.size]; exact hidx)]

theorem celArrayGet_holds (h : array.Holds vs) (idx : ℕ) : celArrayGet array idx = some (vs[idx]?.getD 0) := by
  unfold celArrayGet
  rw [h.size]
  split_ifs with hidx
  · rw [List.getElem?_eq_none hidx, Option.getD_none]
  · rw [not_le] at hidx
    rw [h.items idx hidx, List.getElem?_eq_getElem hidx, Option.getD_some]

theorem celArraySet_holds (h : array.Holds vs) (idx : ℕ) (value : V) :
    ∃ a, celArraySet array idx value = some (vs[idx]?.getD 0, a) ∧ a.Holds (vs.set idx value) := by
  unfold celArraySet
  by_cases hidx : array.size ≤ idx
  · have hle : vs.length ≤ idx := by rw [← h.size]; exact hidx
    rw [if_pos hidx, List.getElem?_eq_none hle, List.set_eq_of_length_le hle]
    exact ⟨array, rfl, h⟩
  · have hlt : idx < vs.length := by rw [← h.size]; omega
    have hsize := h.size
    have hblock := h.block
    have hfits := h.fits
    rw [if_neg hidx, h.items idx hlt, List.getElem?_eq_getElem hlt, Option.bind_some, store_of_lt (by omega),
      Option.map_some, Option.getD_some]
    refine ⟨_, rfl, ?_, ?_, hfits, h.bound, fun j hj => ?_⟩
    · rw [List.length_set]
      exact hsize
    · rw [List.length_set]
      exact hblock
    · rw [List.length_set] at hj
      rw [List.getElem?_set, List.getElem?_set]
      split_ifs
      · rfl
      · omega
      · exact h.items j hj

end Sarah
