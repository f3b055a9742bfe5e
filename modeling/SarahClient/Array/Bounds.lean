import SarahClient.Array.IntArray
import SarahClient.Lib.Machine

/-!
# The slots that the arrays touch

A call that reads or writes a slot outside the block, or copies from or to one, is `none`.

* `ArrayOp`, `arrayStep`, `intArrayStep`: one call on an array;
* `CelArray.Valid`: the block has `length` slots and `size` of them are in use; every call keeps it;
* `ArrayOp.Inside`, `ArrayOp.IntInside`: when one call stays inside; `arrayStep_isSome`, `intArrayStep_isSome`;
* **`arrayRuns_iff`**: the runs that stay inside.
-/

namespace Sarah

open Block Machine

variable {V : Type}

/-- A call on an array. -/
inductive ArrayOp (V : Type)
  | add (value : V)
  | insert (idx : ℕ) (value : V)
  | del (idx : ℕ)
  | get (idx : ℕ)
  | set (idx : ℕ) (value : V)

/-- What a call returns. -/
inductive ArrayOut (V : Type)
  | void
  | int (n : ℤ)
  | item (v : V)

section Steps

variable [Zero V]

/-- One call on a `cel_array_t`. -/
def arrayStep (array : CelArray V) : ArrayOp V → Option (CelArray V × ArrayOut V)
  | .add v => (celArrayAdd array v).map fun a => (a, .void)
  | .insert idx v => (celArrayInsert array idx v).map fun a => (a, .void)
  | .del idx => (celArrayDel array idx).map fun r => (r.2, .item r.1)
  | .get idx => (celArrayGet array idx).map fun v => (array, .item v)
  | .set idx v => (celArraySet array idx v).map fun r => (r.2, .item r.1)

/-- One call on a `cel_intArray_t`. -/
def intArrayStep (array : CelArray V) : ArrayOp V → Option (CelArray V × ArrayOut V)
  | .add v => (celIntArrayAdd array v).map fun r => (r.2, .int r.1)
  | .insert idx v => (celIntArrayInsert array idx v).map fun r => (r.2, .int r.1)
  | .del idx => (celIntArrayDel array idx).map fun r => (r.2, .int r.1)
  | .get idx => (celIntArrayGet array idx).map fun v => (array, .item v)
  | .set idx v => (celIntArraySet array idx v).map fun a => (a, .void)

end Steps

/-- The block has `length` slots, and `size` of them are in use. -/
structure CelArray.Valid (array : CelArray V) : Prop where
  block : array.items.length = array.length
  fits : array.size ≤ array.length
  bound : array.length < 2 ^ 32

/-- When a call on a `cel_array_t` stays inside: a full array is not shortened, and does not grow beyond what
`unsigned int` counts. -/
def ArrayOp.Inside (array : CelArray V) : ArrayOp V → Prop
  | .add _ => array.Grows
  | .insert idx _ => idx < array.size → array.Grows
  | .del idx => idx < array.size → array.size < array.length
  | .get _ | .set _ _ => True

/-- When a call on a `cel_intArray_t` stays inside: a full array with elements neither grows nor is shortened, and the
macros are used with an index inside the block. -/
def ArrayOp.IntInside (array : CelArray V) : ArrayOp V → Prop
  | .add _ => array.size = array.length → array.size = 0
  | .insert idx _ | .del idx => idx < array.size → array.size < array.length
  | .get idx | .set idx _ => idx < array.length

variable {array : CelArray V}

theorem CelArray.Holds.valid {vs : List V} (h : array.Holds vs) : array.Valid := ⟨h.block, h.fits, h.bound⟩

theorem CelArray.Valid.holds (h : array.Valid) : array.Holds (array.items.take array.size) := by
  have hblock := h.block
  have hfits := h.fits
  refine ⟨?_, hblock, hfits, h.bound, fun j hj => ?_⟩
  · rw [List.length_take]
    omega
  · rw [List.length_take] at hj
    exact (List.getElem?_take_of_lt (by omega)).symm

theorem CelArray.Valid.stored {a : CelArray V} (h : a.Valid) (hlt : a.size < a.length) {items : List V}
    (hlen : items.length = a.items.length) :
    ({ a with items := items, size := u32 (a.size + 1) } : CelArray V).Valid := by
  have hbound := h.bound
  refine ⟨hlen.trans h.block, ?_, hbound⟩
  show u32 (a.size + 1) ≤ a.length
  rw [u32_of_lt (by omega)]
  omega

section CelArray

variable [Zero V]

theorem celArrayInit_valid (opacity : Int32) : (celArrayInit opacity.toInt : CelArray V).Valid :=
  (celArrayInit_holds (Int32.toInt_lt opacity)).valid

/-! ## `cel_array_t` -/

/-- A full array whose next length wraps around gets a block without a free slot. -/
theorem growArray_of_wraps (h : array.Valid) (hg : ¬ array.Grows) {a : CelArray V} (ha : growArray array = some a) :
    a.size = array.size ∧ a.items.length ≤ a.size := by
  have hbound := h.bound
  simp only [CelArray.Grows, not_forall, not_lt] at hg
  obtain ⟨hfull, hwraps⟩ := hg
  rw [growArray, if_pos (by omega), resizeArray] at ha
  split_ifs at ha
  obtain ⟨items, hcopy, rfl⟩ := Option.map_eq_some_iff.mp ha
  have hlen := copyIn_length hcopy
  rw [createArrayBlocks, List.length_replicate] at hlen
  refine ⟨rfl, ?_⟩
  show items.length ≤ array.size
  unfold u32 at hlen
  omega

theorem celArrayAdd_isSome (h : array.Valid) (value : V) : (celArrayAdd array value).isSome = true ↔ array.Grows := by
  constructor
  · intro hsome
    by_contra hg
    obtain ⟨a', ha'⟩ := Option.isSome_iff_exists.mp hsome
    obtain ⟨a, ha, hstore⟩ := Option.bind_eq_some_iff.mp ha'
    obtain ⟨-, hle⟩ := growArray_of_wraps h hg ha
    obtain ⟨items, hitems, -⟩ := Option.map_eq_some_iff.mp hstore
    have hlt : a.size < a.items.length := store_isSome.mp (by rw [hitems]; rfl)
    omega
  · intro hg
    obtain ⟨a, ha, -⟩ := celArrayAdd_holds h.holds hg value
    rw [ha]
    rfl

theorem celArrayInsert_isSome (h : array.Valid) (idx : ℕ) (value : V) :
    (celArrayInsert array idx value).isSome = true ↔ (idx < array.size → array.Grows) := by
  have hsize := h.holds.size
  by_cases hidx : idx < array.size
  · simp only [hidx, true_imp_iff]
    constructor
    · intro hsome
      by_contra hg
      obtain ⟨a', ha'⟩ := Option.isSome_iff_exists.mp hsome
      rw [celArrayInsert, if_pos hidx] at ha'
      obtain ⟨a, ha, hmove⟩ := Option.bind_eq_some_iff.mp ha'
      obtain ⟨hsame, hle⟩ := growArray_of_wraps h hg ha
      obtain ⟨items, hitems, -⟩ := Option.bind_eq_some_iff.mp hmove
      have hroom := moveUp_isSome.mp (by rw [hitems]; rfl)
      omega
    · intro hg
      obtain ⟨a, ha, -⟩ := celArrayInsert_holds h.holds hg (show idx < _ by omega) value
      rw [ha]
      rfl
  · rw [celArrayInsert_of_le h.holds (by omega)]
    exact iff_of_true rfl fun hlt => absurd hlt hidx

theorem celArrayDel_isSome (h : array.Valid) (idx : ℕ) :
    (celArrayDel array idx).isSome = true ↔ (idx < array.size → array.size < array.length) := by
  have hblock := h.block
  have hfits := h.fits
  by_cases hidx : idx < array.size
  · have hread : array.items[idx]? = some array.items[idx] := List.getElem?_eq_getElem (by omega)
    rw [celArrayDel, if_neg (by omega), hread, Option.bind_some, Option.isSome_map,
      moveDown_isSome (Nat.le_add_left 1 idx)]
    omega
  · rw [celArrayDel, if_pos (by omega)]
    exact iff_of_true rfl fun hlt => absurd hlt hidx

theorem arrayStep_isSome (h : array.Valid) (o : ArrayOp V) : (arrayStep array o).isSome = true ↔ o.Inside array := by
  cases o with
  | add v =>
    rw [arrayStep, Option.isSome_map]
    exact celArrayAdd_isSome h v
  | insert idx v =>
    rw [arrayStep, Option.isSome_map]
    exact celArrayInsert_isSome h idx v
  | del idx =>
    rw [arrayStep, Option.isSome_map]
    exact celArrayDel_isSome h idx
  | get idx =>
    rw [arrayStep, celArrayGet_holds h.holds]
    exact iff_of_true rfl trivial
  | set idx v =>
    obtain ⟨a, ha, -⟩ := celArraySet_holds h.holds idx v
    rw [arrayStep, ha]
    exact iff_of_true rfl trivial

theorem arrayStep_valid (h : array.Valid) {o : ArrayOp V} {r : CelArray V × ArrayOut V}
    (hr : arrayStep array o = some r) :
    r.1.Valid := by
  have hinside := (arrayStep_isSome h o).mp (by rw [hr]; rfl)
  have hsize := h.holds.size
  cases o with
  | add v =>
    obtain ⟨a, ha, hholds⟩ := celArrayAdd_holds h.holds hinside v
    rw [arrayStep, ha] at hr
    cases hr
    exact hholds.valid
  | insert idx v =>
    rw [arrayStep] at hr
    by_cases hidx : idx < array.size
    · obtain ⟨a, ha, hholds⟩ := celArrayInsert_holds h.holds (hinside hidx) (show idx < _ by omega) v
      rw [ha] at hr
      cases hr
      exact hholds.valid
    · rw [celArrayInsert_of_le h.holds (by omega)] at hr
      cases hr
      exact h
  | del idx =>
    rw [arrayStep] at hr
    by_cases hidx : idx < array.size
    · obtain ⟨a, ha, hholds⟩ := celArrayDel_holds h.holds (show idx < _ by omega) (hinside hidx)
      rw [ha] at hr
      cases hr
      exact hholds.valid
    · rw [celArrayDel_of_le h.holds (by omega)] at hr
      cases hr
      exact h
  | get idx =>
    rw [arrayStep, celArrayGet_holds h.holds] at hr
    cases hr
    exact h
  | set idx v =>
    obtain ⟨a, ha, hholds⟩ := celArraySet_holds h.holds idx v
    rw [arrayStep, ha] at hr
    cases hr
    exact hholds.valid

end CelArray

section IntArray

variable [Zero V]

/-! ## `cel_intArray_t` -/

theorem celIntArrayInit_valid (opacity : UInt32) : (celIntArrayInit opacity.toNat : CelArray V).Valid :=
  ⟨List.length_replicate, Nat.zero_le _, opacity.toNat_lt⟩

theorem growIntArray_of_room (h : array.Valid) (hroom : array.size = array.length → array.size = 0) :
    ∃ a, growIntArray array = some a ∧ a.Valid ∧ a.size = array.size ∧ a.size < a.length := by
  have hfits := h.fits
  rw [growIntArray_eq h.block hfits]
  by_cases hlt : array.size < array.length
  · rw [if_pos hlt]
    exact ⟨array, rfl, h, rfl, hlt⟩
  · have hzero : array.size = 0 := hroom (by omega)
    rw [if_neg hlt, if_pos hzero]
    have hone : (1 : ℕ) < 2 ^ 32 := by decide
    refine ⟨_, rfl, ⟨rfl, ?_, hone⟩, rfl, ?_⟩
    · show array.size ≤ 1
      omega
    · show array.size < 1
      omega

theorem growIntArray_full (h : array.Valid) (hfull : array.size = array.length) (hpos : array.size ≠ 0) :
    growIntArray array = none := by
  rw [growIntArray_eq h.block h.fits, if_neg (by omega), if_neg hpos]

theorem celIntArrayAdd_spec (h : array.Valid) (val : V) :
    (celIntArrayAdd array val = none ∧ ¬ (array.size = array.length → array.size = 0)) ∨
      ((array.size = array.length → array.size = 0) ∧ ∃ r, celIntArrayAdd array val = some r ∧ r.2.Valid) := by
  by_cases hroom : array.size = array.length → array.size = 0
  · obtain ⟨a, ha, hvalid, -, hlt⟩ := growIntArray_of_room h hroom
    have hblock := hvalid.block
    refine .inr ⟨hroom, (1, { a with items := a.items.set a.size val, size := u32 (a.size + 1) }), ?_,
      hvalid.stored hlt List.length_set⟩
    rw [celIntArrayAdd, ha, Option.bind_some, store_of_lt (by omega), Option.map_some]
  · refine .inl ⟨?_, hroom⟩
    obtain ⟨hfull, hpos⟩ := Classical.not_imp.mp hroom
    rw [celIntArrayAdd, growIntArray_full h hfull hpos, Option.bind_none]

theorem celIntArrayInsert_spec (h : array.Valid) {idx : ℕ} (hidx : idx < array.size) (val : V) :
    (celIntArrayInsert array idx val = none ∧ ¬ array.size < array.length) ∨
      (array.size < array.length ∧ ∃ r, celIntArrayInsert array idx val = some r ∧ r.2.Valid) := by
  have hfits := h.fits
  have hblock := h.block
  rw [celIntArrayInsert, if_neg (by omega)]
  by_cases hroom : array.size < array.length
  · obtain ⟨items, hmove, hlen, -⟩ := moveUp_spec 1 idx (array.size - idx) array.items (by omega)
    have hgrow : growIntArray array = some array := by rw [growIntArray_eq hblock hfits, if_pos hroom]
    refine .inr ⟨hroom, (1, { array with items := items.set idx val, size := u32 (array.size + 1) }), ?_,
      h.stored hroom (List.length_set.trans hlen)⟩
    rw [hgrow, Option.bind_some, hmove, Option.bind_some, store_of_lt (by omega), Option.map_some]
  · refine .inl ⟨?_, hroom⟩
    rw [growIntArray_full h (by omega) (by omega), Option.bind_none]

theorem celIntArrayDel_spec (h : array.Valid) {idx : ℕ} (hidx : idx < array.size) :
    (celIntArrayDel array idx = none ∧ ¬ array.size < array.length) ∨
      (array.size < array.length ∧ ∃ r, celIntArrayDel array idx = some r ∧ r.2.Valid) := by
  have hfits := h.fits
  have hsize := h.holds.size
  by_cases hroom : array.size < array.length
  · obtain ⟨a, ha, hholds⟩ := celArrayDel_holds h.holds (show idx < _ by omega) hroom
    refine .inr ⟨hroom, (1, a), ?_, hholds.valid⟩
    rw [celIntArrayDel_eq h.block hfits hidx, ha, Option.map_some]
  · exact .inl ⟨celIntArrayDel_full h.block (by omega) hidx, hroom⟩

/-- One call stays inside exactly when it should, and then keeps the block and its fields in step. -/
theorem intArrayStep_spec (h : array.Valid) (o : ArrayOp V) :
    (intArrayStep array o = none ∧ ¬ o.IntInside array) ∨
      (o.IntInside array ∧ ∃ r, intArrayStep array o = some r ∧ r.1.Valid) := by
  have hblock := h.block
  cases o with
  | add v =>
    rw [intArrayStep]
    rcases celIntArrayAdd_spec h v with ⟨hnone, hout⟩ | ⟨hin, r, hr, hvalid⟩
    · exact .inl ⟨by rw [hnone]; rfl, hout⟩
    · exact .inr ⟨hin, _, by rw [hr]; rfl, hvalid⟩
  | insert idx v =>
    rw [intArrayStep]
    by_cases hidx : idx < array.size
    · rcases celIntArrayInsert_spec h hidx v with ⟨hnone, hout⟩ | ⟨hin, r, hr, hvalid⟩
      · exact .inl ⟨by rw [hnone]; rfl, fun hi => hout (hi hidx)⟩
      · exact .inr ⟨fun _ => hin, _, by rw [hr]; rfl, hvalid⟩
    · refine .inr ⟨fun hlt => absurd hlt hidx, (array, .int 0), ?_, h⟩
      rw [celIntArrayInsert, if_pos (by omega), Option.map_some]
  | del idx =>
    rw [intArrayStep]
    by_cases hidx : idx < array.size
    · rcases celIntArrayDel_spec h hidx with ⟨hnone, hout⟩ | ⟨hin, r, hr, hvalid⟩
      · exact .inl ⟨by rw [hnone]; rfl, fun hi => hout (hi hidx)⟩
      · exact .inr ⟨fun _ => hin, _, by rw [hr]; rfl, hvalid⟩
    · refine .inr ⟨fun hlt => absurd hlt hidx, (array, .int 0), ?_, h⟩
      rw [celIntArrayDel, if_pos (by omega), Option.map_some]
  | get idx =>
    rw [intArrayStep, celIntArrayGet]
    by_cases hidx : idx < array.length
    · have hlt : idx < array.items.length := by omega
      exact .inr ⟨hidx, (array, .item array.items[idx]), by rw [List.getElem?_eq_getElem hlt]; rfl, h⟩
    · exact .inl ⟨by rw [List.getElem?_eq_none (by omega)]; rfl, hidx⟩
  | set idx v =>
    rw [intArrayStep, celIntArraySet]
    by_cases hidx : idx < array.length
    · refine .inr ⟨hidx, ({ array with items := array.items.set idx v }, .void), ?_, ?_⟩
      · rw [store_of_lt (by omega), Option.map_some, Option.map_some]
      · exact ⟨List.length_set.trans hblock, h.fits, h.bound⟩
    · exact .inl ⟨by rw [store, if_neg (by omega)]; rfl, hidx⟩

theorem intArrayStep_isSome (h : array.Valid) (o : ArrayOp V) :
    (intArrayStep array o).isSome = true ↔ o.IntInside array := by
  rcases intArrayStep_spec h o with ⟨hnone, hout⟩ | ⟨hin, r, hr, -⟩
  · rw [hnone]
    exact iff_of_false Bool.false_ne_true hout
  · rw [hr]
    exact iff_of_true rfl hin

theorem intArrayStep_valid (h : array.Valid) {o : ArrayOp V} {r : CelArray V × ArrayOut V}
    (hr : intArrayStep array o = some r) : r.1.Valid := by
  rcases intArrayStep_spec h o with ⟨hnone, -⟩ | ⟨-, r', hr', hvalid⟩
  · rw [hnone] at hr
    cases hr
  · rw [hr'] at hr
    cases hr
    exact hvalid

end IntArray

/-! ## Runs -/

/-- **Slots in range.** A run of calls on a new array touches only slots of its blocks exactly when each call does: for
`cel_array_t`, no full array is shortened and no length wraps around; for `cel_intArray_t`, no full array with elements
grows or is shortened, and the macros get an index inside the block. -/
theorem arrayRuns_iff [Zero V] :
    (∀ (opacity : Int32) (ops : List (ArrayOp V)),
      (exec arrayStep (celArrayInit opacity.toInt) ops).isSome = true ↔
        Guarded arrayStep (fun array o => o.Inside array) (celArrayInit opacity.toInt) ops) ∧
      ∀ (opacity : UInt32) (ops : List (ArrayOp V)),
        (exec intArrayStep (celIntArrayInit opacity.toNat) ops).isSome = true ↔
          Guarded intArrayStep (fun array o => o.IntInside array) (celIntArrayInit opacity.toNat) ops := by
  constructor
  · intro opacity ops
    exact exec_isSome_iff CelArray.Valid (fun _ _ _ h hr => arrayStep_valid h hr)
      (fun _ o h => arrayStep_isSome h o) ops _
      (celArrayInit_valid opacity)
  · intro opacity ops
    exact exec_isSome_iff CelArray.Valid (fun _ _ _ h hr => intArrayStep_valid h hr)
      (fun _ o h => intArrayStep_isSome h o) ops _ (celIntArrayInit_valid opacity)

/-- One element in a block of one slot: deleting it reads the next slot, and a second element needs a resize that copies
from behind the block. -/
theorem not_arrayRuns : ¬ ((∀ (opacity : Int32), 0 ≤ opacity → ∀ ops : List (ArrayOp ℤ),
    (exec arrayStep (celArrayInit opacity.toInt) ops).isSome = true) ∧
      ∀ (opacity : UInt32) (ops : List (ArrayOp ℤ)),
        (exec intArrayStep (celIntArrayInit opacity.toNat) ops).isSome = true) := by
  rintro ⟨hall, -⟩
  have hrun := hall 1 (by decide) [.add 5, .del 0]
  revert hrun
  decide

/-- The macros take any index. -/
example : (exec intArrayStep (celIntArrayInit 4 : CelArray ℤ) [.add 5, .get 4]).isSome = false := by decide

end Sarah
