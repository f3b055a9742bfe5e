import SarahClient.Array.Model
import Mathlib.Data.Int.Basic

/-!
# The array of integers of `cel_array.c`

`cel_intArray_t` has the fields of `cel_array_t` with `int` slots. The element type is left open; the code stores `int`.

* `resizeIntArray`, `celIntArrayAdd`, `celIntArrayInsert`, `celIntArrayDel`, `celIntArrayGetObj`, `celIntArrayDelObj`,
  and the two macros `celIntArrayGet`, `celIntArraySet`;
* `growIntArray_eq`: a full array with elements cannot grow, its resize copies pointers instead of integers;
* **`celIntArrayDelObj_iff`**: when removing by value removes that value.
-/

namespace Sarah

open Block

variable {V : Type}

section Growing

variable [Zero V]

/-- `cel_intArray_init`. -/
def celIntArrayInit (opacity : ℕ) : CelArray V := ⟨createArrayBlocks opacity, opacity, 0⟩

/-- `resize_intArray`: it copies `size * sizeof(int *)` bytes, which is two `int` slots for each element. -/
def resizeIntArray (array : CelArray V) (opacity : ℕ) : Option (CelArray V) :=
  if 2 * array.size ≤ array.items.length then
    (copyIn (createArrayBlocks opacity) 0 (array.items.take (2 * array.size))).map fun items =>
      { array with items := items, length := opacity }
  else none

/-- The growth shared by `cel_intArray_add` and `cel_intArray_insert`. -/
def growIntArray (array : CelArray V) : Option (CelArray V) :=
  if array.length ≤ array.size then resizeIntArray array (u32 (array.size * 2 + 1)) else some array

/-- `cel_intArray_add`. -/
def celIntArrayAdd (array : CelArray V) (val : V) : Option (ℤ × CelArray V) :=
  (growIntArray array).bind fun array => (store array.items array.size val).map fun items =>
    (1, { array with items := items, size := u32 (array.size + 1) })

/-- `cel_intArray_insert`. -/
def celIntArrayInsert (array : CelArray V) (idx : ℕ) (val : V) : Option (ℤ × CelArray V) :=
  if array.size ≤ idx then some (0, array)
  else
    (growIntArray array).bind fun array =>
      (moveUp 1 idx (array.size - idx) array.items).bind fun items =>
        (store items idx val).map fun items => (1, { array with items := items, size := u32 (array.size + 1) })

end Growing

/-- `cel_intArray_del`. -/
def celIntArrayDel (array : CelArray V) (idx : ℕ) : Option (ℤ × CelArray V) :=
  if array.size ≤ idx then some (0, array)
  else
    (moveDown 1 (idx + 1) (array.size - idx) array.items).map fun items =>
      (1, { array with items := items, size := u32 (array.size + (2 ^ 32 - 1)) })

/-- The macro `cel_intArray_get`: no check at all. -/
def celIntArrayGet (array : CelArray V) (idx : ℕ) : Option V := array.items[idx]?

/-- The macro `cel_intArray_set`. -/
def celIntArraySet (array : CelArray V) (idx : ℕ) (val : V) : Option (CelArray V) :=
  (store array.items idx val).map fun items => { array with items := items }

section Search

variable [DecidableEq V]

/-- The search loop from slot `i` with `k` slots left; the `return 0` behind it is the answer for an absent value. -/
def intArrayFind (items : List V) (val : V) : ℕ → ℕ → Option ℤ
  | 0, _ => some 0
  | k + 1, i => items[i]?.bind fun v => if v = val then some (i32 i) else intArrayFind items val k (i + 1)

/-- `cel_intArray_get_obj`. -/
def celIntArrayGetObj (array : CelArray V) (val : V) : Option ℤ := intArrayFind array.items val array.size 0

/-- `cel_intArray_del_obj`; the index becomes an unsigned argument. -/
def celIntArrayDelObj (array : CelArray V) (val : V) : Option (ℤ × CelArray V) :=
  (celIntArrayGetObj array val).bind fun i =>
    if i = -1 then some (0, array) else celIntArrayDel array (i % 2 ^ 32).toNat

end Search

variable {array : CelArray V} {vs : List V}

/-! ## Growing -/

/-- An array with elements and no free slot cannot grow: its block has no `2 * size` slots. An empty one gets one
slot. -/
theorem growIntArray_eq [Zero V] (hblock : array.items.length = array.length) (hfits : array.size ≤ array.length) :
    growIntArray array =
      if array.size < array.length then some array
      else if array.size = 0 then some { array with items := [0], length := 1 } else none := by
  unfold growIntArray
  by_cases hlt : array.size < array.length
  · rw [if_neg (by omega), if_pos hlt]
  · rw [if_pos (by omega), if_neg hlt, resizeIntArray]
    by_cases hzero : array.size = 0
    · have hnil : array.items = [] := List.length_eq_zero_iff.mp (by omega)
      rw [if_pos hzero, hzero, hnil, if_pos (Nat.zero_le _)]
      rfl
    · rw [if_neg hzero, if_neg (by omega)]

/-! ## Removing by value -/

theorem celIntArrayDel_eq [Zero V] (hblock : array.items.length = array.length) (hfits : array.size ≤ array.length)
    {idx : ℕ} (hidx : idx < array.size) : celIntArrayDel array idx = (celArrayDel array idx).map fun r => (1, r.2) := by
  have hread : array.items[idx]? = some array.items[idx] := List.getElem?_eq_getElem (by omega)
  rw [celIntArrayDel, celArrayDel, if_neg (by omega), if_neg (by omega), hread, Option.bind_some, Option.map_map]
  rfl

theorem celIntArrayDel_full (hblock : array.items.length = array.length) (hfull : array.size = array.length) {idx : ℕ}
    (hidx : idx < array.size) : celIntArrayDel array idx = none := by
  have hmove : moveDown 1 (idx + 1) (array.size - idx) array.items = none := by
    rw [← Option.not_isSome_iff_eq_none, moveDown_isSome (Nat.le_add_left 1 idx)]
    omega
  rw [celIntArrayDel, if_neg (by omega), hmove, Option.map_none]

section Search

variable [DecidableEq V]

/-- The search finds the first occurrence, and answers `0` for an absent value. -/
theorem intArrayFind_eq (items : List V) (val : V) : ∀ (vs : List V) (i : ℕ),
    (∀ j < vs.length, items[i + j]? = vs[j]?) →
    intArrayFind items val vs.length i = some (if val ∈ vs then i32 (i + vs.idxOf val : ℕ) else 0)
  | [], _, _ => rfl
  | v :: vs, i, h => by
    have hhead : items[i]? = some v := h 0 (Nat.succ_pos _)
    rw [List.length_cons, intArrayFind, hhead, Option.bind_some]
    by_cases hv : v = val
    · rw [if_pos hv, if_pos (by rw [hv]; exact List.mem_cons_self), hv, List.idxOf_cons_self, Nat.add_zero]
    · have htail : ∀ j < vs.length, items[i + 1 + j]? = vs[j]? := by
        intro j hj
        have hnext := h (j + 1) (Nat.succ_lt_succ hj)
        rw [List.getElem?_cons_succ] at hnext
        rw [← hnext]
        congr 1
        omega
      have hmem : val ∈ v :: vs ↔ val ∈ vs := by
        rw [List.mem_cons]
        exact or_iff_right fun he => hv he.symm
      rw [if_neg hv, intArrayFind_eq items val vs (i + 1) htail, List.idxOf_cons_ne _ hv]
      simp only [hmem]
      congr 3
      omega

theorem celIntArrayGetObj_eq (h : array.Holds vs) (val : V) :
    celIntArrayGetObj array val = some (if val ∈ vs then i32 (vs.idxOf val : ℕ) else 0) := by
  have hfind := intArrayFind_eq array.items val vs 0 fun j hj => by
    rw [Nat.zero_add]
    exact h.items j hj
  rw [Nat.zero_add] at hfind
  rw [celIntArrayGetObj, h.size, hfind]

theorem index_int_roundtrip {n : ℕ} (h : n + 1 < 2 ^ 32) : i32 n ≠ -1 ∧ (i32 n % 2 ^ 32).toNat = n := by
  unfold i32
  omega

/-- **The property of a removal.** -/
def RemovesFirst (array : CelArray V) (vs : List V) (val : V) : Prop :=
  ∃ a, celIntArrayDelObj array val = some (if val ∈ vs then 1 else 0, a) ∧ a.Holds (vs.erase val) ∧
    (val ∉ vs → a = array)

theorem celIntArrayDelObj_of_mem (h : array.Holds vs) {val : V} (hmem : val ∈ vs) :
    celIntArrayDelObj array val = celIntArrayDel array (vs.idxOf val) := by
  have hidx : vs.idxOf val < vs.length := List.idxOf_lt_length_iff.mpr hmem
  have hsize := h.size
  have hfits := h.fits
  have hbound := h.bound
  obtain ⟨hne, hback⟩ := @index_int_roundtrip (vs.idxOf val) (by omega)
  rw [celIntArrayDelObj, celIntArrayGetObj_eq h, if_pos hmem, Option.bind_some, if_neg hne, hback]

theorem celIntArrayDelObj_of_notMem (h : array.Holds vs) {val : V} (hmem : val ∉ vs) :
    celIntArrayDelObj array val = celIntArrayDel array 0 := by
  rw [celIntArrayDelObj, celIntArrayGetObj_eq h, if_neg hmem, Option.bind_some]
  rfl

/-- **Removing by value** removes exactly the first occurrence when the value is there and the block has a free slot,
and changes nothing when the array is empty. In every other case it fails. -/
theorem celIntArrayDelObj_iff [Zero V] (h : array.Holds vs) (val : V) :
    RemovesFirst array vs val ↔ (val ∈ vs ∧ array.size < array.length) ∨ vs = [] := by
  have hsize := h.size
  have hfits := h.fits
  unfold RemovesFirst
  by_cases hmem : val ∈ vs
  · have hidx : vs.idxOf val < vs.length := List.idxOf_lt_length_iff.mpr hmem
    rw [celIntArrayDelObj_of_mem h hmem]
    by_cases hroom : array.size < array.length
    · obtain ⟨a, hdel, ha⟩ := celArrayDel_holds h hidx hroom
      refine iff_of_true ⟨a, ?_, ?_, fun hn => absurd hmem hn⟩ (.inl ⟨hmem, hroom⟩)
      · rw [celIntArrayDel_eq h.block hfits (by omega), hdel, if_pos hmem]
        rfl
      · rw [List.eraseIdx_idxOf_eq_erase] at ha
        exact ha
    · rw [celIntArrayDel_full h.block (by omega) (by omega)]
      refine iff_of_false ?_ ?_
      · rintro ⟨a, ha, -⟩
        cases ha
      · rintro (⟨-, hlt⟩ | rfl)
        · exact hroom hlt
        · exact absurd hmem List.not_mem_nil
  · rw [celIntArrayDelObj_of_notMem h hmem, if_neg hmem]
    cases vs with
    | nil =>
      have hout : celIntArrayDel array 0 = some (0, array) := by
        rw [celIntArrayDel, if_pos (by rw [hsize]; exact Nat.zero_le 0)]
      exact iff_of_true ⟨array, hout, h, fun _ => rfl⟩ (.inr rfl)
    | cons v vs =>
      rw [List.length_cons] at hsize
      refine iff_of_false ?_ ?_
      · rintro ⟨a, ha, -⟩
        -- the deletion of slot 0 never answers 0
        rw [celIntArrayDel, if_neg (by omega)] at ha
        obtain ⟨items, -, heq⟩ := Option.map_eq_some_iff.mp ha
        exact absurd (congrArg Prod.fst heq) Int.one_ne_zero
      · rintro (⟨hin, -⟩ | hnil)
        · exact hmem hin
        · exact List.cons_ne_nil v vs hnil

end Search

/-- The array `5, 7, 5` in a block of four slots. -/
def someIntArray : CelArray ℤ := ⟨[5, 7, 5, 0], 4, 3⟩

theorem someIntArray_holds : someIntArray.Holds [5, 7, 5] := by
  refine ⟨rfl, rfl, by decide, by decide, fun j hj => ?_⟩
  match j with
  | 0 | 1 | 2 => rfl

/-- Seven is removed. -/
theorem celIntArrayDelObj_iff_seven : RemovesFirst someIntArray [5, 7, 5] 7 :=
  (celIntArrayDelObj_iff someIntArray_holds 7).mpr (.inl ⟨by decide, by decide⟩)

/-- An absent value: the code removes the first element and reports success. -/
theorem not_celIntArrayDelObj : ¬ ∀ (array : CelArray ℤ) (vs : List ℤ), array.Holds vs →
    ∀ val, RemovesFirst array vs val := by
  intro hall
  obtain ⟨a, ha, -, -⟩ := hall someIntArray [5, 7, 5] someIntArray_holds 9
  have hcode : (celIntArrayDelObj someIntArray 9).map Prod.fst = some 0 := congrArg (Option.map Prod.fst) ha
  revert hcode
  decide

end Sarah
