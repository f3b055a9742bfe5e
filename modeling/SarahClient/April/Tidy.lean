import SarahClient.April.Model
import Mathlib.Data.List.Pairwise
import Mathlib.Data.List.TakeWhile

/-!
# Which tables become trees

* `Mark`, `LuaTable.marks`: an entry as `table_to_json` meets it;
* `AddsOnce`, `LuaTable.Tidy`: every value is added once; `NoneTwice`, `LuaTable.Steady`: none is added twice;
* `LuaTable.slots`: the stack slots of a conversion;
* `Pend`, `Scan`: the loop's variable `value`, entry by entry;
* **`scan_iff_addsOnce`**, **`scanOnce_iff_noneTwice`**.
-/

namespace Sarah

/-- An entry: whether its key sets the variable `key`, and whether its value makes a new item. -/
structure Mark where
  keyed : Bool
  supported : Bool

/-- A key that the loop takes for a name or an index. -/
def LuaKey.keyed : LuaKey → Bool
  | .other => false
  | _ => true

namespace LuaTable

/-- The marks of the entries, in the order of the visit. -/
def marks : LuaTable → List Mark
  | nil => []
  | leaf key value rest => ⟨key.keyed, (leafItem value).isSome⟩ :: rest.marks
  | table key _ rest => ⟨key.keyed, true⟩ :: rest.marks

/-- No key is a string. -/
def isArray (t : LuaTable) : Bool := t.keys.all fun k => !k.isString

end LuaTable

/-- Each value is added once. Where a key is known from the first entry on, no unsupported value follows a supported
one. The entries before the first key add nothing: one supported value among them is added by the first key, if that
comes with an unsupported value and all values behind it are supported. -/
def AddsOnce (isArray : Bool) (marks : List Mark) : Prop :=
  let unkeyed := fun m : Mark => !(isArray || m.keyed)
  ((∀ m ∈ marks.takeWhile unkeyed, m.supported = false) ∧
    (marks.dropWhile unkeyed).Pairwise fun m m' => m.supported = true → m'.supported = true) ∨
  ((marks.takeWhile unkeyed).countP (fun m => m.supported) = 1 ∧
    ∃ m ms, marks.dropWhile unkeyed = m :: ms ∧ m.supported = false ∧ ∀ m' ∈ ms, m'.supported = true)

theorem addsOnce_of_marks {isArray : Bool} {marks : List Mark} (h : ∀ m ∈ marks, m.keyed = true ∧ m.supported = true) :
    AddsOnce isArray marks := by
  refine .inl ⟨fun m hm => ?_, ?_⟩
  · have hunkeyed := List.mem_takeWhile_imp hm
    rw [(h m ((List.takeWhile_prefix _).subset hm)).1, Bool.or_true] at hunkeyed
    cases hunkeyed
  · exact List.pairwise_of_forall_mem_list fun _ _ m hm _ => (h m ((List.dropWhile_suffix _).subset hm)).2

/-- No value is added twice: from the first key on no unsupported value follows a supported one, and where a supported
value stands before that key, all values behind its entry are supported. -/
def NoneTwice (isArray : Bool) (marks : List Mark) : Prop :=
  let unkeyed := fun m : Mark => !(isArray || m.keyed)
  ((marks.dropWhile unkeyed).Pairwise fun m m' => m.supported = true → m'.supported = true) ∧
    ((∃ m ∈ marks.takeWhile unkeyed, m.supported = true) →
      ∀ m ∈ (marks.dropWhile unkeyed).tail, m.supported = true)

namespace LuaTable

/-- Every table inside adds each value once. -/
def SubTidy : LuaTable → Prop
  | nil => True
  | leaf _ _ rest => rest.SubTidy
  | table _ t rest => (AddsOnce t.isArray t.marks ∧ t.SubTidy) ∧ rest.SubTidy

/-- The table and every table inside add each value once. -/
def Tidy (t : LuaTable) : Prop := AddsOnce t.isArray t.marks ∧ t.SubTidy

/-- No table inside adds a value twice. -/
def SubSteady : LuaTable → Prop
  | nil => True
  | leaf _ _ rest => rest.SubSteady
  | table _ t rest => (NoneTwice t.isArray t.marks ∧ t.SubSteady) ∧ rest.SubSteady

/-- The table and the tables inside add no value twice. -/
def Steady (t : LuaTable) : Prop := NoneTwice t.isArray t.marks ∧ t.SubSteady

end LuaTable

/-- An entry's key and value, and the text of a key that is a number. -/
def LuaKey.slots : LuaKey → ℕ
  | .integer _ | .number _ => 3
  | _ => 2

/-- The stack slots that the conversion uses at most. -/
def LuaTable.slots : LuaTable → ℕ
  | .nil => 1
  | .leaf key _ rest => max key.slots rest.slots
  | .table key t rest => max (max key.slots (2 + t.slots)) rest.slots

theorem LuaKey.two_le_slots (k : LuaKey) : 2 ≤ k.slots := by
  cases k <;> simp [slots]

theorem LuaTable.visitSlots_le_slots (t : LuaTable) : t.visitSlots ≤ t.slots := by
  cases t with
  | nil => exact le_refl 1
  | leaf key value rest => exact le_max_of_le_left key.two_le_slots
  | table key value rest => exact le_max_of_le_left (le_max_of_le_left key.two_le_slots)

theorem LuaTable.two_le_slots {t : LuaTable} (h : t ≠ nil) : 2 ≤ t.slots := by
  cases t with
  | nil => exact absurd rfl h
  | leaf key value rest => exact le_max_of_le_left key.two_le_slots
  | table key value rest => exact le_max_of_le_left (le_max_of_le_left key.two_le_slots)

theorem LuaTable.one_le_slots (t : LuaTable) : 1 ≤ t.slots := by
  refine le_trans ?_ t.visitSlots_le_slots
  cases t <;> simp [visitSlots]

/-! ## The variable `value` -/

/-- `NULL`, an item that is not added yet, or one that is. -/
inductive Pend
  | fresh
  | waiting
  | added
  deriving DecidableEq

namespace Pend

/-- An entry's value; an item that was never added must not be lost. -/
def make (supported : Bool) (st : Pend) : Option Pend :=
  if supported then if st = waiting then none else some waiting else some st

/-- An entry's value, where an item may be lost. -/
def next (supported : Bool) (st : Pend) : Pend := if supported then waiting else st

theorem next_of_make {supported : Bool} {st st' : Pend} (h : st.make supported = some st') :
    st' = st.next supported := by
  unfold make at h
  unfold next
  split_ifs at h ⊢ <;> exact (Option.some.inj h).symm

/-- The addition at the end of an entry; an item must not be added twice. -/
def put (hasKey : Bool) (st : Pend) : Option Pend :=
  if hasKey then
    match st with
    | fresh => some fresh
    | waiting => some added
    | added => none
  else some st

end Pend

/-- The loop adds every value once. -/
def Scan (hasKey : Bool) (st : Pend) : List Mark → Prop
  | [] => st ≠ .waiting
  | m :: ms => ∃ st₁ st₂, st.make m.supported = some st₁ ∧ st₁.put (hasKey || m.keyed) = some st₂ ∧
      Scan (hasKey || m.keyed) st₂ ms

/-- The loop adds no value twice. -/
def ScanOnce (hasKey : Bool) (st : Pend) : List Mark → Prop
  | [] => True
  | m :: ms => ∃ st', (st.next m.supported).put (hasKey || m.keyed) = some st' ∧ ScanOnce (hasKey || m.keyed) st' ms

theorem Scan.once {hasKey : Bool} {st : Pend} {ms : List Mark} (h : Scan hasKey st ms) : ScanOnce hasKey st ms := by
  induction ms generalizing hasKey st with
  | nil => trivial
  | cons m ms ih =>
    obtain ⟨st₁, st₂, hmake, hput, hrest⟩ := h
    obtain rfl := Pend.next_of_make hmake
    exact ⟨st₂, hput, ih hrest⟩

theorem scan_added (ms : List Mark) : Scan true .added ms ↔ ∀ m ∈ ms, m.supported = true := by
  induction ms with
  | nil => simp [Scan]
  | cons m ms ih =>
    cases hm : m.supported with
    | false => simp [Scan, hm, Pend.make, Pend.put]
    | true => simp [Scan, hm, Pend.make, Pend.put, ih]

theorem scan_fresh (ms : List Mark) :
    Scan true .fresh ms ↔ ms.Pairwise fun m m' => m.supported = true → m'.supported = true := by
  induction ms with
  | nil => simp [Scan]
  | cons m ms ih =>
    cases hm : m.supported with
    | false => simp [Scan, hm, Pend.make, Pend.put, ih]
    | true =>
      have hadded : Scan true .fresh (m :: ms) ↔ Scan true .added ms := by simp [Scan, hm, Pend.make, Pend.put]
      rw [hadded, scan_added, List.pairwise_cons]
      constructor
      · intro hall
        refine ⟨fun m' hm' _ => hall m' hm', ?_⟩
        exact List.pairwise_iff_forall_sublist.mpr fun hsub _ => hall _ (hsub.subset (by simp))
      · exact fun h m' hm' => h.1 m' hm' hm

theorem scan_unkeyed_waiting (ms : List Mark) : Scan false .waiting ms ↔
    (∀ m ∈ ms.takeWhile fun m => !m.keyed, m.supported = false) ∧
      ∃ m ms', (ms.dropWhile fun m => !m.keyed) = m :: ms' ∧ m.supported = false ∧ ∀ m' ∈ ms', m'.supported = true := by
  induction ms with
  | nil => simp [Scan]
  | cons m ms ih =>
    cases hk : m.keyed with
    | false =>
      cases hm : m.supported with
      | false => simp [Scan, hm, hk, Pend.make, Pend.put, ih]
      | true => simp [Scan, hm, hk, Pend.make]
    | true =>
      cases hm : m.supported with
      | false => simp [Scan, hm, hk, Pend.make, Pend.put, scan_added]
      | true => simp [Scan, hm, hk, Pend.make]

/-- **The loop adds every value once exactly for the tables of `AddsOnce`.** -/
theorem scan_iff_addsOnce (isArray : Bool) (ms : List Mark) : Scan isArray .fresh ms ↔ AddsOnce isArray ms := by
  cases isArray with
  | true =>
    rw [scan_fresh, AddsOnce]
    cases ms <;> simp
  | false =>
    induction ms with
    | nil => simp [Scan, AddsOnce]
    | cons m ms ih =>
      cases hk : m.keyed with
      | false =>
        cases hm : m.supported with
        | false => simpa [Scan, AddsOnce, hm, hk, Pend.make, Pend.put] using ih
        | true =>
          simp only [Scan, hm, hk, Pend.make, Pend.put]
          simp [AddsOnce, hm, hk, scan_unkeyed_waiting]
      | true =>
        have hkeyed := scan_fresh (m :: ms)
        simp only [Scan, hk, Bool.or_true] at hkeyed ⊢
        rw [hkeyed]
        simp [AddsOnce, hk]

theorem scanOnce_added (ms : List Mark) : ScanOnce true .added ms ↔ ∀ m ∈ ms, m.supported = true := by
  induction ms with
  | nil => simp [ScanOnce]
  | cons m ms ih => cases hm : m.supported <;> simp [ScanOnce, hm, Pend.next, Pend.put, ih]

theorem scanOnce_fresh (ms : List Mark) :
    ScanOnce true .fresh ms ↔ ms.Pairwise fun m m' => m.supported = true → m'.supported = true := by
  induction ms with
  | nil => simp [ScanOnce]
  | cons m ms ih =>
    cases hm : m.supported with
    | false => simp [ScanOnce, hm, Pend.next, Pend.put, ih]
    | true =>
      have hadded : ScanOnce true .fresh (m :: ms) ↔ ScanOnce true .added ms := by
        simp [ScanOnce, hm, Pend.next, Pend.put]
      rw [hadded, scanOnce_added, List.pairwise_cons]
      constructor
      · intro hall
        refine ⟨fun m' hm' _ => hall m' hm', ?_⟩
        exact List.pairwise_iff_forall_sublist.mpr fun hsub _ => hall _ (hsub.subset (by simp))
      · exact fun h m' hm' => h.1 m' hm' hm

theorem scanOnce_unkeyed_waiting (ms : List Mark) : ScanOnce false .waiting ms ↔
    ∀ m ∈ (ms.dropWhile fun m => !m.keyed).tail, m.supported = true := by
  induction ms with
  | nil => simp [ScanOnce]
  | cons m ms ih =>
    have hnext : Pend.next m.supported .waiting = .waiting := by cases m.supported <;> rfl
    cases hk : m.keyed with
    | false => simp [ScanOnce, hk, hnext, Pend.put, ih]
    | true => simp [ScanOnce, hk, hnext, Pend.put, scanOnce_added]

/-- Where all later values are supported, none follows a supported one that is not. -/
theorem pairwise_of_tail {ms : List Mark} (h : ∀ m ∈ ms.tail, m.supported = true) :
    ms.Pairwise fun m m' => m.supported = true → m'.supported = true := by
  cases ms with
  | nil => exact List.Pairwise.nil
  | cons m ms =>
    refine List.pairwise_cons.mpr ⟨fun m' hm' _ => h m' hm', ?_⟩
    exact List.pairwise_iff_forall_sublist.mpr fun hsub _ => h _ (hsub.subset (by simp))

/-- **The loop adds no value twice exactly for the tables of `NoneTwice`.** -/
theorem scanOnce_iff_noneTwice (isArray : Bool) (ms : List Mark) : ScanOnce isArray .fresh ms ↔
    NoneTwice isArray ms := by
  cases isArray with
  | true =>
    rw [scanOnce_fresh, NoneTwice]
    cases ms <;> simp
  | false =>
    induction ms with
    | nil => simp [ScanOnce, NoneTwice]
    | cons m ms ih =>
      cases hk : m.keyed with
      | false =>
        cases hm : m.supported with
        | false => simpa [ScanOnce, NoneTwice, hm, hk, Pend.next, Pend.put] using ih
        | true =>
          have hwaits : ScanOnce false .fresh (m :: ms) ↔ ScanOnce false .waiting ms := by
            simp [ScanOnce, hm, hk, Pend.next, Pend.put]
          rw [hwaits, scanOnce_unkeyed_waiting]
          simp only [NoneTwice, Bool.false_or, hk, Bool.not_false, List.takeWhile_cons_of_pos,
            List.dropWhile_cons_of_pos, List.exists_mem_cons_iff, hm, true_or, forall_const]
          exact ⟨fun h => ⟨pairwise_of_tail h, h⟩, fun h => h.2⟩
      | true =>
        have hkeyed := scanOnce_fresh (m :: ms)
        simp only [ScanOnce, hk, Bool.or_true] at hkeyed ⊢
        rw [hkeyed]
        simp [NoneTwice, hk]

theorem AddsOnce.noneTwice {isArray : Bool} {ms : List Mark} (h : AddsOnce isArray ms) : NoneTwice isArray ms :=
  (scanOnce_iff_noneTwice isArray ms).mp ((scan_iff_addsOnce isArray ms).mpr h).once

namespace LuaTable

theorem SubTidy.steady {t : LuaTable} (h : t.SubTidy) : t.SubSteady := by
  induction t with
  | nil => trivial
  | leaf key value rest ih => exact ih h
  | table key value rest ihv ihr => exact ⟨⟨h.1.1.noneTwice, ihv h.1.2⟩, ihr h.2⟩

theorem Tidy.steady {t : LuaTable} (h : t.Tidy) : t.Steady := ⟨h.1.noneTwice, h.2.steady⟩

end LuaTable

end Sarah
