import SarahClient.Lib.Block
import Mathlib.Data.Nat.Bitwise
import Mathlib.Data.Set.Basic
import Mathlib.Tactic.IntervalCases

/-!
# Sets of numbers as bits of a memory block

Bit `n` of a block is bit `n % 8` of byte `n / 8`; an access outside the block is `none`.

* `setBit`, `clearBit`, `getBit`, `writeBit`; `bits`: the numbers whose bit is set;
* **`writeBit_spec`**: writing a bit inside the block changes no other;
* **`setBit_spec`**: setting a bit inside the block adds its number and nothing else;
* `writeBits`, **`writeBits_spec`**: writing bits with different numbers, one after the other;
* `Marks.add`, `Marks.Has`: a set that marks elements by several positions each (a Bloom filter);
* **`Marks.has_foldl`**: an element that was added is never missed.
-/

namespace BitBlock

open Block

/-- The mask of bit `k` of a byte. -/
def mask (k : ℕ) : UInt8 := 1 <<< UInt8.ofNat (k % 8)

/-- Set bit `n`. -/
def setBit (b : List UInt8) (n : ℕ) : Option (List UInt8) :=
  b[n / 8]?.bind fun c => store b (n / 8) (c ||| mask n)

/-- Clear bit `n`. -/
def clearBit (b : List UInt8) (n : ℕ) : Option (List UInt8) :=
  b[n / 8]?.bind fun c => store b (n / 8) (c &&& ~~~mask n)

/-- Set or clear bit `n`. -/
def writeBit (b : List UInt8) (n : ℕ) (v : Bool) : Option (List UInt8) := if v then setBit b n else clearBit b n

/-- Write bits one after the other. -/
def writeBits (b : List UInt8) : List (ℕ × Bool) → Option (List UInt8)
  | [] => some b
  | w :: ws => (writeBit b w.1 w.2).bind fun b => writeBits b ws

/-- Bit `n`. -/
def getBit (b : List UInt8) (n : ℕ) : Option Bool := b[n / 8]?.map fun c => c &&& mask n ≠ 0

/-- The numbers whose bit is set. -/
def bits (b : List UInt8) : Set ℕ := {n | getBit b n = some true}

theorem toNat_mask (n : ℕ) : (mask n).toNat = 2 ^ (n % 8) := by
  have hn : n % 8 < 8 := Nat.mod_lt n (by decide)
  unfold mask
  generalize n % 8 = k at hn ⊢
  interval_cases k <;> rfl

theorem and_mask_ne_zero_iff (c : UInt8) (n : ℕ) : c &&& mask n ≠ 0 ↔ c.toNat.testBit (n % 8) = true := by
  rw [Ne, ← UInt8.toNat_inj, UInt8.toNat_and, toNat_mask, Nat.and_two_pow]
  cases c.toNat.testBit (n % 8) <;> simp

theorem getBit_eq_some {b : List UInt8} {n : ℕ} (h : n < 8 * b.length) :
    getBit b n = some ((getBit b n).getD false) := by
  rw [getBit, List.getElem?_eq_getElem (show n / 8 < b.length by omega), Option.map_some, Option.getD_some]

theorem or_mask_and_mask (c : UInt8) (k n : ℕ) :
    (c ||| mask k) &&& mask n ≠ 0 ↔ k % 8 = n % 8 ∨ c &&& mask n ≠ 0 := by
  rw [and_mask_ne_zero_iff, and_mask_ne_zero_iff, UInt8.toNat_or, toNat_mask, Nat.testBit_or, Nat.testBit_two_pow,
    Bool.or_eq_true, decide_eq_true_eq, or_comm]

theorem and_not_mask_and_mask (c : UInt8) (k n : ℕ) :
    (c &&& ~~~mask k) &&& mask n ≠ 0 ↔ k % 8 ≠ n % 8 ∧ c &&& mask n ≠ 0 := by
  have hn : n % 8 < 8 := Nat.mod_lt n (by decide)
  have hnot : (~~~mask k).toNat = 2 ^ 8 - ((mask k).toNat + 1) := by
    rw [UInt8.toNat_not, UInt8.size]
    omega
  rw [and_mask_ne_zero_iff, and_mask_ne_zero_iff, UInt8.toNat_and, Nat.testBit_and, hnot,
    Nat.testBit_two_pow_sub_succ (mask k).toNat_lt, toNat_mask, Nat.testBit_two_pow, decide_eq_true hn, Bool.true_and,
    Bool.and_eq_true, Bool.not_eq_true', decide_eq_false_iff_not, and_comm]

/-- The byte with bit `n` written. -/
def writeByte (c : UInt8) (n : ℕ) (v : Bool) : UInt8 := if v then c ||| mask n else c &&& ~~~mask n

theorem writeByte_and_mask (c : UInt8) (k n : ℕ) (v : Bool) :
    decide (writeByte c k v &&& mask n ≠ 0) = if k % 8 = n % 8 then v else decide (c &&& mask n ≠ 0) := by
  cases v with
  | true =>
    rw [writeByte, if_pos rfl]
    simp only [or_mask_and_mask]
    split_ifs with h
    · exact decide_eq_true (.inl h)
    · simp only [h, false_or]
  | false =>
    rw [writeByte, if_neg Bool.false_ne_true]
    simp only [and_not_mask_and_mask]
    split_ifs with h
    · exact decide_eq_false fun hand => hand.1 h
    · simp only [ne_eq, h, not_false_eq_true, true_and]

theorem writeBit_of_lt {b : List UInt8} {n : ℕ} (hn : n / 8 < b.length) (v : Bool) :
    writeBit b n v = some (b.set (n / 8) (writeByte b[n / 8] n v)) := by
  cases v with
  | true => rw [writeBit, if_pos rfl, setBit, List.getElem?_eq_getElem hn, Option.bind_some, store_of_lt hn]; rfl
  | false =>
    rw [writeBit, if_neg Bool.false_ne_true, clearBit, List.getElem?_eq_getElem hn, Option.bind_some, store_of_lt hn]
    rfl

/-- **Writing a bit.** -/
theorem writeBit_spec {b : List UInt8} {n : ℕ} (h : n < 8 * b.length) (v : Bool) :
    ∃ b', writeBit b n v = some b' ∧ b'.length = b.length ∧ ∀ m, getBit b' m = if m = n then
      some v else getBit b m := by
  have hn : n / 8 < b.length := by omega
  refine ⟨_, writeBit_of_lt hn v, List.length_set, fun m => ?_⟩
  rw [getBit, List.getElem?_set]
  by_cases hm : n / 8 = m / 8
  · have hsame : n % 8 = m % 8 ↔ m = n := by omega
    rw [if_pos hm, if_pos hn, Option.map_some, writeByte_and_mask, getBit, ← hm, List.getElem?_eq_getElem hn,
      Option.map_some]
    simp only [hsame]
    exact apply_ite some (m = n) _ _
  · rw [if_neg hm, if_neg fun heq => hm (by rw [heq]), getBit]

/-- **Setting a bit.** -/
theorem setBit_spec {b : List UInt8} {n : ℕ} (h : n < 8 * b.length) :
    ∃ b', setBit b n = some b' ∧ b'.length = b.length ∧ ∀ m, m ∈ bits b' ↔ m = n ∨ m ∈ bits b := by
  obtain ⟨b', hset, hlen, hget⟩ := writeBit_spec h true
  refine ⟨b', hset, hlen, fun m => ?_⟩
  rw [bits, Set.mem_ofPred_eq, hget]
  split_ifs with hm
  · exact iff_of_true rfl (.inl hm)
  · exact (or_iff_right hm).symm

/-- **Writing bits** with different numbers: each has its value in the end, and no other has changed. -/
theorem writeBits_spec : ∀ {ws : List (ℕ × Bool)} {b : List UInt8}, (ws.map Prod.fst).Nodup →
    (∀ w ∈ ws, w.1 < 8 * b.length) → ∃ b', writeBits b ws = some b' ∧ b'.length = b.length ∧
      (∀ w ∈ ws, getBit b' w.1 = some w.2) ∧ ∀ m, m ∉ ws.map Prod.fst → getBit b' m = getBit b m
  | [], b, _, _ => ⟨b, rfl, rfl, fun _ hw => absurd hw List.not_mem_nil, fun _ _ => rfl⟩
  | w :: ws, b, hnodup, hin => by
    obtain ⟨hnew, hrest⟩ := List.nodup_cons.mp hnodup
    obtain ⟨b₁, hwrite, hlen₁, hget₁⟩ := writeBit_spec (hin w List.mem_cons_self) w.2
    obtain ⟨b', hwrites, hlen, hvalues, hframe⟩ := writeBits_spec (b := b₁) hrest fun x hx => by
      rw [hlen₁]
      exact hin x (List.mem_cons_of_mem _ hx)
    refine ⟨b', by rw [writeBits, hwrite, Option.bind_some, hwrites], hlen.trans hlen₁, fun x hx => ?_, fun m hm => ?_⟩
    · rcases List.mem_cons.mp hx with rfl | hx
      · rw [hframe _ hnew, hget₁, if_pos rfl]
      · exact hvalues x hx
    · rw [List.map_cons, List.mem_cons, not_or] at hm
      rw [hframe m hm.2, hget₁, if_neg hm.1]

end BitBlock

namespace Marks

variable {α : Type} (positions : α → Set ℕ)

/-- Mark all positions of an element. -/
def add (s : Set ℕ) (x : α) : Set ℕ := s ∪ positions x

/-- All positions of an element are marked. -/
def Has (s : Set ℕ) (x : α) : Prop := positions x ⊆ s

theorem subset_foldl (xs : List α) (s : Set ℕ) : s ⊆ xs.foldl (add positions) s := by
  induction xs generalizing s with
  | nil => exact subset_rfl
  | cons x xs ih => exact Set.subset_union_left.trans (ih (add positions s x))

/-- **No false negatives.** -/
theorem has_foldl {xs : List α} {x : α} (hx : x ∈ xs) (s : Set ℕ) : Has positions (xs.foldl (add positions) s) x := by
  induction xs generalizing s with
  | nil => cases hx
  | cons y xs ih =>
    rcases List.mem_cons.mp hx with rfl | hx
    · exact Set.subset_union_right.trans (subset_foldl positions xs (add positions s x))
    · exact ih hx (add positions s y)

end Marks
