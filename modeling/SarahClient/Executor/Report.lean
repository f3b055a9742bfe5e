import SarahClient.Executor.DataBuffer

/-!
# What `appendData` and `insertData` report

The Lua functions answer `true` for the code 0, which the executor returns for a full buffer, for a string that was cut
off, and for an index behind the data as well.

* `luaExecutorAppendData`, `luaExecutorInsertData`: the Lua functions on strings without NUL;
* `AppendTruthful`, `InsertTruthful`: the answer is `true` exactly when the whole string is in its place;
* `Fits`: the whole string fits; `Refuses`: the buffer would have to grow, and cannot;
* **`report_iff`**: when the answers are truthful.
-/

namespace Sarah

open Block

variable {mem : ℕ → Bool}

/-! ## The Lua functions -/

/-- `lua_executor_append_data`. -/
def luaExecutorAppendData (mem : ℕ → Bool) (ex : Executor) (data : List UInt8) : Option (Bool × Executor) :=
  (sarahExecutorDataAppend mem ex (cstr data)).map fun r => (r.1 = 0, r.2)

/-- The index that `lua_executor_insert_data` computes, before it is decremented. -/
def insertIndex (ex : Executor) (index : ℤ) : ℤ :=
  if i32 index < 0 then ex.dataBuffer.size + i32 index + 1 else i32 index

/-- `lua_executor_insert_data`; `none` inside is the error for an index below 1. -/
def luaExecutorInsertData (mem : ℕ → Bool) (ex : Executor) (index : ℤ) (data : List UInt8) :
    Option (Option (Bool × Executor)) :=
  if insertIndex ex index < 1 then some none
  else
    (sarahExecutorDataInsert mem ex (insertIndex ex index - 1).toNat (cstr data)).map fun r => some (r.1 = 0, r.2)

/-! ## Truthful answers -/

/-- Any state of the data buffer, under any limit. -/
structure Buffered (ex : Executor) (xs : List UInt8) : Prop where
  limit : ex.maxDatalen < 2 ^ 32
  opacity : ex.dataBuffer.opacity < 2 ^ 31
  holds : ex.dataBuffer.Holds xs

/-- **The property of an append.** -/
def AppendTruthful (mem : ℕ → Bool) (ex : Executor) (xs data : List UInt8) : Prop :=
  ∃ r, luaExecutorAppendData mem ex data = some r ∧ (r.1 = true ↔ r.2.dataBuffer.Holds (xs ++ data))

/-- The position that an index asks for, from 1 or from the end of `n` bytes. -/
def requested (n : ℕ) (index : ℤ) : ℤ := (if index < 0 then n + index + 1 else index) - 1

/-- The string lies at its position, with `xs` around it. -/
def Inserted (ex : Executor) (xs : List UInt8) (index : ℤ) (data : List UInt8) : Prop :=
  ∃ p : ℕ, requested xs.length index = p ∧ p ≤ xs.length ∧ ex.dataBuffer.Holds (xs.take p ++ data ++ xs.drop p)

/-- **The property of an insertion**: it raises an error, or its answer is right. -/
def InsertTruthful (mem : ℕ → Bool) (ex : Executor) (xs : List UInt8) (index : ℤ) (data : List UInt8) : Prop :=
  ∃ out, luaExecutorInsertData mem ex index data = some out ∧
    ∀ r, out = some r → (r.1 = true ↔ Inserted r.2 xs index data)

/-- The whole string fits under the limit, and the buffer can hold it. -/
def Fits (mem : ℕ → Bool) (ex : Executor) (data : List UInt8) : Prop :=
  ex.dataBuffer.size + data.length ≤ ex.maxDatalen ∧
    CanHold mem ex.dataBuffer.opacity (ex.dataBuffer.size + data.length)

/-- The size that the code wants to reach: the limit, or the size that it measures in 32 bits. -/
def wantedSize (ex : Executor) (data : List UInt8) : ℕ := min ex.maxDatalen (u32 (ex.dataBuffer.size + data.length))

/-- The allocation that `resize_buffer` is asked for, as an `int`. -/
def wantedOpacity (n : ℕ) : ℤ := i32 (u32 (2 * n + 1))

/-- The buffer would have to grow, and its allocation is not granted. -/
def Refuses (mem : ℕ → Bool) (ex : Executor) (data : List UInt8) : Prop :=
  ex.dataBuffer.opacity ≤ wantedSize ex data ∧
    ¬ (0 ≤ wantedOpacity (wantedSize ex data) ∧ mem (wantedOpacity (wantedSize ex data)).toNat = true)

/-- The limit is not reached, and the string goes in whole or not at all. -/
def WholeOrNothing (mem : ℕ → Bool) (ex : Executor) (data : List UInt8) : Prop :=
  ex.dataBuffer.size < ex.maxDatalen ∧ (Fits mem ex data ∨ Refuses mem ex data)

/-- The index is an `int`. -/
def IsInt (index : ℤ) : Prop := i32 index = index

/-- When an insertion is truthful: its index is refused, or not behind the data, and the string goes in whole at the
index that was asked for, or not at all. -/
def InsertHonest (mem : ℕ → Bool) (ex : Executor) (index : ℤ) (data : List UInt8) : Prop :=
  insertIndex ex index < 1 ∨
    insertIndex ex index ≤ ex.dataBuffer.size + 1 ∧
      (IsInt index ∧ data = [] ∨
        ex.dataBuffer.size < ex.maxDatalen ∧ (IsInt index ∧ Fits mem ex data ∨ Refuses mem ex data))

/-! ## The length that is handed on -/

section Length

variable {ex : Executor} {xs data : List UInt8}

theorem Buffered.size_eq (hex : Buffered ex xs) : ex.dataBuffer.size = xs.length := by
  rw [hex.holds.2]
  rfl

theorem Buffered.size_lt (hex : Buffered ex xs) : xs.length < ex.dataBuffer.opacity := hex.holds.1

theorem Buffered.holdsData (hex : Buffered ex xs) (hlt : ex.dataBuffer.size < ex.maxDatalen) : HoldsData ex xs :=
  ⟨hex.limit, hex.opacity, hex.holds, hex.size_eq ▸ hlt.le⟩

theorem Buffered.unique (hex : Buffered ex xs) {ys : List UInt8} (hys : ex.dataBuffer.Holds ys) : ys = xs :=
  hys.spec.1.symm.trans hex.holds.spec.1

theorem size_add_dataLength (hM : ex.maxDatalen < 2 ^ 32) (hlt : ex.dataBuffer.size < ex.maxDatalen)
    (data : List UInt8) : u32 (ex.dataBuffer.size + dataLength ex data) = wantedSize ex data := by
  unfold wantedSize dataLength u32
  split_ifs <;> omega

theorem growFor_dataLength (mem : ℕ → Bool) (hM : ex.maxDatalen < 2 ^ 32) (hlt : ex.dataBuffer.size < ex.maxDatalen)
    (data : List UInt8) : growFor mem ex.dataBuffer (dataLength ex data) =
      if ex.dataBuffer.opacity ≤ wantedSize ex data then
        resizeBuffer mem ex.dataBuffer (wantedOpacity (wantedSize ex data))
      else some (1, ex.dataBuffer) := by
  rw [growFor, size_add_dataLength hM hlt, wantedOpacity, Nat.mul_comm 2]

theorem resizeBuffer_refused {sb : Strbuff} {n : ℤ} (h : ¬ (0 ≤ n ∧ mem n.toNat = true)) :
    resizeBuffer mem sb n = some (0, sb) := by
  rw [resizeBuffer, createBuffer, if_neg h]

theorem not_granted_of_resizeBuffer {sb : Strbuff} {n : ℤ} {q : ℤ × Strbuff} (h : resizeBuffer mem sb n = some q)
    (hq : q.1 = 0) : ¬ (0 ≤ n ∧ mem n.toNat = true) := by
  intro hgrant
  rw [resizeBuffer, createBuffer, if_pos hgrant] at h
  dsimp only at h
  split_ifs at h
  all_goals
    obtain ⟨b, -, rfl⟩ := Option.map_eq_some_iff.mp h
    exact absurd hq one_ne_zero

theorem growFor_of_refuses (hex : Buffered ex xs) (hlt : ex.dataBuffer.size < ex.maxDatalen)
    (h : Refuses mem ex data) : growFor mem ex.dataBuffer (dataLength ex data) = some (0, ex.dataBuffer) := by
  rw [growFor_dataLength mem hex.limit hlt, if_pos h.1, resizeBuffer_refused h.2]

theorem refuses_of_growFor (hex : Buffered ex xs) (hlt : ex.dataBuffer.size < ex.maxDatalen) {q : ℤ × Strbuff}
    (h : growFor mem ex.dataBuffer (dataLength ex data) = some q) (hq : q.1 = 0) : Refuses mem ex data := by
  rw [growFor_dataLength mem hex.limit hlt] at h
  by_cases hfull : ex.dataBuffer.opacity ≤ wantedSize ex data
  · rw [if_pos hfull] at h
    exact ⟨hfull, not_granted_of_resizeBuffer h hq⟩
  · rw [if_neg hfull] at h
    cases h
    exact absurd hq one_ne_zero

/-- A string that is refused is not empty, and neither is what is handed on of it. -/
theorem ne_nil_of_refuses (hex : Buffered ex xs) (h : Refuses mem ex data) : data ≠ [] ∧ dataLength ex data ≠ 0 := by
  have hsize := hex.size_eq
  have hroom := hex.size_lt
  have hM := hex.limit
  have hopacity := hex.opacity
  obtain ⟨hfull, -⟩ := h
  unfold wantedSize u32 at hfull
  constructor
  · rintro rfl
    rw [List.length_nil] at hfull
    omega
  · unfold dataLength u32
    split_ifs <;> omega

theorem i32_dataLength (hne : dataLength ex data ≠ 0) (hM : ex.maxDatalen < 2 ^ 32) :
    i32 (dataLength ex data) ≠ 0 := by
  have hlt : dataLength ex data < 2 ^ 32 := by
    unfold dataLength u32
    split_ifs <;> omega
  unfold i32
  omega

theorem Fits.serves (h : Fits mem ex data) (hM : ex.maxDatalen < 2 ^ 32) : Serves mem ex data := by
  obtain ⟨hle, hcan⟩ := h
  refine .inr ⟨.inl (by omega), ?_⟩
  rwa [Nat.min_eq_left (by omega)]

/-- When an attempt leaves a buffer that is longer by the whole string, the string fits. -/
theorem fits_of_attempted (hex : Buffered ex xs) (hlt : ex.dataBuffer.size < ex.maxDatalen) (hne : data ≠ [])
    {sb' : Strbuff} (h : Attempted mem ex.dataBuffer (dataLength ex data) sb') {ys : List UInt8} (hys : sb'.Holds ys)
    (hlen : ys.length = xs.length + data.length) : Fits mem ex data := by
  have hsize := hex.size_eq
  have hroom := hex.size_lt
  have hpos := List.length_pos_iff.mpr hne
  have hys' : sb'.size = ys.length := by rw [hys.2]; rfl
  have hwanted : ex.dataBuffer.size + data.length ≤ ex.maxDatalen := by
    rcases h with rfl | ⟨q, -, -, -, hsize'⟩
    · omega
    · rw [size_add_dataLength hex.limit hlt] at hsize'
      have := Nat.mod_le (ex.dataBuffer.size + data.length) (2 ^ 32)
      unfold wantedSize u32 at hsize'
      omega
  have hserves := serves_of_attempted hex.limit (by omega) hlt h hys (by omega)
  refine ⟨hwanted, ?_⟩
  have hcan := (hserves.resolve_left (by omega)).2
  rwa [Nat.min_eq_left (by omega)] at hcan

/-- An attempt with its code: refused, or the code 0. -/
structure CallAnswers (mem : ℕ → Bool) (ex : Executor) (data : List UInt8) (op : Option (ℤ × Executor)) : Prop where
  refused : Refuses mem ex data → op = some (i32 (dataLength ex data), ex)
  attempted : ∀ r, op = some r → ¬ Refuses mem ex data →
    r.1 = 0 ∧ Attempted mem ex.dataBuffer (dataLength ex data) r.2.dataBuffer

/-- An answer is right exactly when the string goes in whole or is refused. -/
theorem CallAnswers.truthful_iff {op : Option (ℤ × Executor)} (hop : CallAnswers mem ex data op) (hex : Buffered ex xs)
    (hlt : ex.dataBuffer.size < ex.maxDatalen) (hne : data ≠ []) {ys : List UInt8}
    (hlen : ys.length = xs.length + data.length)
    (hfits : Fits mem ex data → ∃ ex', op = some (0, ex') ∧ ex'.dataBuffer.Holds ys) :
    (∃ r, op = some r ∧ (r.1 = 0 ↔ r.2.dataBuffer.Holds ys)) ↔ Fits mem ex data ∨ Refuses mem ex data := by
  constructor
  · rintro ⟨r, hr, htruth⟩
    by_cases hrefuses : Refuses mem ex data
    · exact .inr hrefuses
    · obtain ⟨hcode, hattempt⟩ := hop.attempted r hr hrefuses
      exact .inl (fits_of_attempted hex hlt hne hattempt (htruth.mp hcode) hlen)
  · rintro (h | h)
    · obtain ⟨ex', hrun, hys⟩ := hfits h
      exact ⟨_, hrun, iff_of_true rfl hys⟩
    · refine ⟨_, hop.refused h, iff_of_false (i32_dataLength (ne_nil_of_refuses hex h).2 hex.limit) fun hys => ?_⟩
      have hpos := List.length_pos_iff.mpr hne
      have hsame := congrArg List.length (hex.unique hys)
      omega

end Length

/-! ## Appending -/

section Append

variable {ex : Executor} {xs data : List UInt8}

theorem append_answers (hex : Buffered ex xs) (hlt : ex.dataBuffer.size < ex.maxDatalen) :
    CallAnswers mem ex data (sarahExecutorDataAppend mem ex data) where
  refused := fun h => by
    rw [sarahExecutorDataAppend, if_neg (not_le.mpr hlt), celStrbuffAppendFrom, Int.toNat_one, appendFromLoop,
      growFor_of_refuses hex hlt h, Option.bind_some, if_pos rfl, Option.map_some, if_pos rfl]
  attempted := fun r hr hnot => by
    rw [sarahExecutorDataAppend, if_neg (not_le.mpr hlt)] at hr
    obtain ⟨q, hq, rfl⟩ := Option.map_eq_some_iff.mp hr
    refine ⟨?_, append_attempted (hex.holdsData hlt).buffer_length hq⟩
    have hcode : q.1 ≠ 0 := by
      obtain ⟨g, hgrow, hq⟩ := Option.bind_eq_some_iff.mp hq
      have hg : g.1 ≠ 0 := fun h0 => hnot (refuses_of_growFor hex hlt hgrow h0)
      rw [if_neg hg] at hq
      split_ifs at hq
      · obtain ⟨c, -, hq⟩ := Option.bind_eq_some_iff.mp hq
        obtain ⟨b, -, hq⟩ := Option.bind_eq_some_iff.mp hq
        cases hq
        exact one_ne_zero
      · obtain ⟨b, -, hq⟩ := Option.bind_eq_some_iff.mp hq
        cases hq
        exact one_ne_zero
    exact if_neg hcode

theorem append_of_fits (hex : Buffered ex xs) (hlt : ex.dataBuffer.size < ex.maxDatalen) (h : Fits mem ex data) :
    ∃ ex', sarahExecutorDataAppend mem ex data = some (0, ex') ∧ ex'.dataBuffer.Holds (xs ++ data) := by
  obtain ⟨ex', hrun, hex', -⟩ := append_of_serves (hex.holdsData hlt) (h.serves hex.limit)
  refine ⟨ex', hrun, ?_⟩
  have hholds := hex'.holds
  have hsize := hex.size_eq
  rwa [limitedStep, List.take_of_length_le (by have := h.1; omega)] at hholds

theorem fits_nil (hex : Buffered ex xs) (hlt : ex.dataBuffer.size < ex.maxDatalen) : Fits mem ex [] := by
  have hsize := hex.size_eq
  have hroom := hex.size_lt
  exact ⟨hlt.le, .inl (by rw [List.length_nil]; omega)⟩

theorem appendTruthful_iff (hex : Buffered ex xs) (hdata : 0 ∉ data) :
    AppendTruthful mem ex xs data ↔ data = [] ∨ WholeOrNothing mem ex data := by
  have hlua : AppendTruthful mem ex xs data ↔ ∃ r, sarahExecutorDataAppend mem ex data = some r ∧
      (r.1 = 0 ↔ r.2.dataBuffer.Holds (xs ++ data)) := by
    unfold AppendTruthful luaExecutorAppendData
    rw [cstr_of_notMem hdata]
    constructor
    · rintro ⟨b, hb, htruth⟩
      obtain ⟨r, hr, rfl⟩ := Option.map_eq_some_iff.mp hb
      exact ⟨r, hr, decide_eq_true_iff.symm.trans htruth⟩
    · rintro ⟨r, hr, htruth⟩
      exact ⟨_, Option.map_eq_some_iff.mpr ⟨r, hr, rfl⟩, decide_eq_true_iff.trans htruth⟩
  rw [hlua]
  by_cases hfull : ex.maxDatalen ≤ ex.dataBuffer.size
  · -- a full buffer answers `true`
    rw [sarahExecutorDataAppend, if_pos hfull, or_iff_left fun h => absurd h.1 (not_lt.mpr hfull)]
    constructor
    · rintro ⟨r, hr, htruth⟩
      cases hr
      exact List.append_right_eq_self.mp (hex.unique (htruth.mp rfl))
    · rintro rfl
      exact ⟨_, rfl, iff_of_true rfl (by rw [List.append_nil]; exact hex.holds)⟩
  · have hlt := not_le.mp hfull
    by_cases hnil : data = []
    · subst hnil
      obtain ⟨ex', hrun, hholds⟩ := @append_of_fits mem ex xs [] hex hlt (fits_nil hex hlt)
      exact iff_of_true ⟨_, hrun, iff_of_true rfl hholds⟩ (.inl rfl)
    · rw [or_iff_right hnil, WholeOrNothing, and_iff_right hlt]
      exact (append_answers hex hlt).truthful_iff hex hlt hnil List.length_append (append_of_fits hex hlt)

end Append

/-! ## Inserting -/

section Insert

variable {ex : Executor} {xs data : List UInt8} {index : ℤ}

theorem insert_answers (hex : Buffered ex xs) (hlt : ex.dataBuffer.size < ex.maxDatalen) {p : ℕ}
    (hp : p ≤ ex.dataBuffer.size) : CallAnswers mem ex data (sarahExecutorDataInsert mem ex p data) where
  refused := fun h => by
    rw [sarahExecutorDataInsert, if_neg (not_le.mpr hlt), celStrbuffInsertFrom, Int.toNat_one, insertFromLoop,
      if_neg (not_lt.mpr hp), growFor_of_refuses hex hlt h, Option.bind_some, if_pos rfl, Option.map_some, if_pos rfl]
  attempted := fun r hr hnot => by
    rw [sarahExecutorDataInsert, if_neg (not_le.mpr hlt)] at hr
    obtain ⟨q, hq, rfl⟩ := Option.map_eq_some_iff.mp hr
    refine ⟨?_, insert_attempted (hex.holdsData hlt).buffer_length hq⟩
    have hcode : q.1 ≠ 0 := by
      rw [celStrbuffInsertFrom, Int.toNat_one, insertFromLoop, if_neg (not_lt.mpr hp)] at hq
      obtain ⟨g, hgrow, hq⟩ := Option.bind_eq_some_iff.mp hq
      have hg : g.1 ≠ 0 := fun h0 => hnot (refuses_of_growFor hex hlt hgrow h0)
      rw [if_neg hg] at hq
      obtain ⟨b, -, hq⟩ := Option.bind_eq_some_iff.mp hq
      obtain ⟨b', -, hq⟩ := Option.bind_eq_some_iff.mp hq
      cases hq
      exact one_ne_zero
    exact if_neg hcode

theorem insert_of_fits (hex : Buffered ex xs) (hlt : ex.dataBuffer.size < ex.maxDatalen) {p : ℕ} (hp : p ≤ xs.length)
    (h : Fits mem ex data) : ∃ ex', sarahExecutorDataInsert mem ex p data = some (0, ex') ∧
      ex'.dataBuffer.Holds (xs.take p ++ data ++ xs.drop p) := by
  obtain ⟨ex', hrun, hex', -⟩ := insert_of_serves (hex.holdsData hlt) (.inr (h.serves hex.limit))
  refine ⟨ex', hrun, ?_⟩
  have hholds := hex'.holds
  have hsize := hex.size_eq
  rwa [limitedStep, if_pos hp, List.take_of_length_le (l := data) (by have := h.1; omega)] at hholds

/-- An index that is an `int` asks for the position that the code computes. -/
theorem requested_eq (hex : Buffered ex xs) (hint : IsInt index) :
    requested xs.length index = insertIndex ex index - 1 := by
  unfold requested insertIndex
  rw [hint, hex.size_eq]

theorem isInt_of_requested (hex : Buffered ex xs) {p : ℕ} (hp : requested xs.length index = p) (hle : p ≤ xs.length) :
    IsInt index := by
  have hroom := hex.size_lt
  have hopacity := hex.opacity
  refine i32_of_range ?_ ?_
  all_goals
    unfold requested at hp
    split_ifs at hp <;> omega

theorem inserted_iff (hex : Buffered ex xs) (hindex : ¬ insertIndex ex index < 1) (ex' : Executor) :
    Inserted ex' xs index data ↔ IsInt index ∧ (insertIndex ex index - 1).toNat ≤ xs.length ∧
      ex'.dataBuffer.Holds (xs.take (insertIndex ex index - 1).toNat ++ data ++
        xs.drop (insertIndex ex index - 1).toNat) := by
  constructor
  · rintro ⟨p, hp, hle, hholds⟩
    have hint := isInt_of_requested hex hp hle
    have hpos : (insertIndex ex index - 1).toNat = p := by
      rw [← requested_eq hex hint, hp, Int.toNat_natCast]
    rw [hpos]
    exact ⟨hint, hle, hholds⟩
  · rintro ⟨hint, hle, hholds⟩
    refine ⟨_, ?_, hle, hholds⟩
    rw [requested_eq hex hint]
    omega

theorem length_inserted (xs data : List UInt8) (p : ℕ) :
    (xs.take p ++ data ++ xs.drop p).length = xs.length + data.length := by
  simp only [List.length_append, List.length_take, List.length_drop]
  omega

theorem insertTruthful_iff_of_index (hdata : 0 ∉ data) (hindex : ¬ insertIndex ex index < 1) :
    InsertTruthful mem ex xs index data ↔
      ∃ r, sarahExecutorDataInsert mem ex (insertIndex ex index - 1).toNat data = some r ∧
        (r.1 = 0 ↔ Inserted r.2 xs index data) := by
  unfold InsertTruthful luaExecutorInsertData
  rw [if_neg hindex, cstr_of_notMem hdata]
  constructor
  · rintro ⟨out, hout, htruth⟩
    obtain ⟨r, hr, rfl⟩ := Option.map_eq_some_iff.mp hout
    exact ⟨r, hr, decide_eq_true_iff.symm.trans (htruth _ rfl)⟩
  · rintro ⟨r, hr, htruth⟩
    refine ⟨_, Option.map_eq_some_iff.mpr ⟨r, hr, rfl⟩, fun q hq => ?_⟩
    cases hq
    exact decide_eq_true_iff.trans htruth

theorem insertTruthful_iff (hex : Buffered ex xs) (hdata : 0 ∉ data) :
    InsertTruthful mem ex xs index data ↔ InsertHonest mem ex index data := by
  by_cases hindex : insertIndex ex index < 1
  · refine iff_of_true ⟨none, ?_, fun _ h => by cases h⟩ (.inl hindex)
    rw [luaExecutorInsertData, if_pos hindex]
  rw [insertTruthful_iff_of_index hdata hindex, InsertHonest, or_iff_right hindex]
  have hins := @inserted_iff ex xs data index hex hindex
  have hsize := hex.size_eq
  generalize hp : (insertIndex ex index - 1).toNat = p at *
  have hle : insertIndex ex index ≤ ex.dataBuffer.size + 1 ↔ p ≤ xs.length := by omega
  rw [hle]
  by_cases hfull : ex.maxDatalen ≤ ex.dataBuffer.size
  · -- a full buffer answers `true`
    rw [sarahExecutorDataInsert, if_pos hfull, or_iff_left fun h => absurd h.1 (not_lt.mpr hfull)]
    constructor
    · rintro ⟨r, hr, htruth⟩
      cases hr
      obtain ⟨hint, hple, hholds⟩ := (hins ex).mp (htruth.mp rfl)
      have hsame := congrArg List.length (hex.unique hholds)
      rw [length_inserted] at hsame
      exact ⟨hple, hint, List.length_eq_zero_iff.mp (by omega)⟩
    · rintro ⟨hple, hint, rfl⟩
      refine ⟨_, rfl, iff_of_true rfl ((hins ex).mpr ⟨hint, hple, ?_⟩)⟩
      rw [List.append_nil, List.take_append_drop]
      exact hex.holds
  have hlt := not_le.mp hfull
  by_cases hple : p ≤ xs.length
  · rw [and_iff_right hple, and_iff_right hlt]
    have hanswers := @insert_answers mem ex xs data hex hlt p (by omega)
    by_cases hint : IsInt index
    · rw [and_iff_right hint, and_iff_right hint]
      have hholds : ∀ ex', Inserted ex' xs index data ↔ ex'.dataBuffer.Holds (xs.take p ++ data ++ xs.drop p) := by
        intro ex'
        rw [hins ex', and_iff_right hint, and_iff_right hple]
      simp only [hholds]
      by_cases hnil : data = []
      · subst hnil
        obtain ⟨ex', hrun, hys⟩ := @insert_of_fits mem ex xs [] hex hlt p hple (fits_nil hex hlt)
        exact iff_of_true ⟨_, hrun, iff_of_true rfl hys⟩ (.inl rfl)
      · rw [or_iff_right hnil]
        exact hanswers.truthful_iff hex hlt hnil (length_inserted xs data p) (insert_of_fits hex hlt hple)
    · -- the string goes to a place that nobody asked for
      have hnot : ∀ ex', ¬ Inserted ex' xs index data := fun ex' h => hint ((hins ex').mp h).1
      rw [or_iff_right fun h => hint h.1, or_iff_right fun h => hint h.1]
      constructor
      · rintro ⟨r, hr, htruth⟩
        by_contra hrefuses
        exact hnot r.2 (htruth.mp (hanswers.attempted r hr hrefuses).1)
      · intro h
        exact ⟨_, hanswers.refused h,
          iff_of_false (i32_dataLength (ne_nil_of_refuses hex h).2 hex.limit) (hnot ex)⟩
  · -- an index behind the data answers `true`
    refine iff_of_false ?_ fun h => hple h.1
    rintro ⟨r, hr, htruth⟩
    rw [sarahExecutorDataInsert, if_neg hfull, celStrbuffInsertFrom, Int.toNat_one, insertFromLoop,
      if_pos (by omega)] at hr
    cases hr
    exact hple ((hins _).mp (htruth.mp rfl)).2.1

end Insert

/-- **What the Lua functions report** is true exactly when: the string is empty, or the limit is not reached and the
whole string fits or the buffer refuses to grow; for an insertion, its index is refused as well, or asks for a position
in the data. -/
theorem report_iff (mem : ℕ → Bool) {ex : Executor} {xs data : List UInt8} (hex : Buffered ex xs) (hdata : 0 ∉ data) :
    (AppendTruthful mem ex xs data ↔ data = [] ∨ WholeOrNothing mem ex data) ∧
    ∀ index, InsertTruthful mem ex xs index data ↔ InsertHonest mem ex index data :=
  ⟨appendTruthful_iff hex hdata, fun _ => insertTruthful_iff hex hdata⟩

theorem buffered_init {node : Node} {ex : Executor} (h : sarahExecutorInit mem node = some (.ok ex)) {limit : ℕ}
    (hlimit : limit < 2 ^ 32) : Buffered { ex with maxDatalen := limit } [] :=
  have hex := holdsData_init h hlimit
  ⟨hex.limit, hex.opacity, hex.holds⟩

/-- Two bytes under the limit 3. -/
theorem report_iff_two : ∃ ex, sarahExecutorInit (fun _ => true) plainNode = some (.ok ex) ∧
    AppendTruthful (fun _ => true) { ex with maxDatalen := 3 } [] (lit "ab") := by
  obtain ⟨ex, hex⟩ : ∃ ex, sarahExecutorInit (fun _ => true) plainNode = some (.ok ex) := ⟨_, rfl⟩
  have hbuffered : Buffered { ex with maxDatalen := 3 } [] := buffered_init hex (by decide)
  have hsize : ex.dataBuffer.size = 0 := hbuffered.size_eq
  refine ⟨ex, hex, (report_iff (fun _ => true) hbuffered (by decide +kernel)).1.mpr (.inr ⟨?_,
    .inl ⟨?_, .inr ⟨?_, rfl⟩⟩⟩)⟩
  all_goals
    dsimp only
    rw [hsize]
    decide

/-- Four bytes under the limit 3: three are stored, and the answer is `true`. -/
theorem not_report : ¬ ∀ ex, sarahExecutorInit (fun _ => true) plainNode = some (.ok ex) → ∀ data, 0 ∉ data →
    AppendTruthful (fun _ => true) { ex with maxDatalen := 3 } [] data := by
  intro hall
  obtain ⟨ex, hex⟩ : ∃ ex, sarahExecutorInit (fun _ => true) plainNode = some (.ok ex) := ⟨_, rfl⟩
  have hbuffered : Buffered { ex with maxDatalen := 3 } [] := buffered_init hex (by decide)
  have hsize : ex.dataBuffer.size = 0 := hbuffered.size_eq
  have hopacity : ex.dataBuffer.opacity = 1024 * 64 + 1 := by
    cases hex
    rfl
  have hdata : (0 : UInt8) ∉ lit "abcd" := by decide +kernel
  rcases (appendTruthful_iff hbuffered hdata).mp (hall ex hex _ hdata) with hnil | ⟨-, hfits | hrefuses⟩
  · exact absurd hnil (by decide)
  · have hle := hfits.1
    dsimp only at hle
    rw [hsize] at hle
    exact absurd hle (by decide)
  · have hle := hrefuses.1
    unfold wantedSize at hle
    dsimp only at hle
    rw [hopacity] at hle
    omega

end Sarah
