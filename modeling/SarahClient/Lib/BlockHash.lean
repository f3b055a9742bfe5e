import Mathlib.Data.List.Basic

/-!
# Hashing a stream block by block

`f` absorbs one block of `n` elements into the chaining state.

* `absorb k s xs`: absorb the first `k` blocks of `xs`; `blocks s xs`: all its whole blocks;
  `rest xs`: what is left over.
* **`blocks_append`**, **`rest_append`**: absorbing `xs ++ ys` continues from the state after `xs`
  with `rest xs ++ ys`, so a stream may be hashed in pieces of any lengths.
-/

namespace BlockHash

variable {α S : Type} (n : ℕ) (f : S → List α → S)

/-- Absorb the first `k` blocks. -/
def absorb : ℕ → S → List α → S
  | 0, s, _ => s
  | k + 1, s, xs => absorb k (f s (xs.take n)) (xs.drop n)

/-- Absorb all whole blocks. -/
def blocks (s : S) (xs : List α) : S := absorb n f (xs.length / n) s xs

/-- The elements after the last whole block. -/
def rest (xs : List α) : List α := xs.drop (n * (xs.length / n))

variable {n}

theorem length_rest (xs : List α) : (rest n xs).length = xs.length % n := by
  rw [rest, List.length_drop]
  have := Nat.div_add_mod xs.length n
  omega

theorem rest_of_lt {xs : List α} (h : xs.length < n) : rest n xs = xs := by
  rw [rest, Nat.div_eq_of_lt h, Nat.mul_zero, List.drop_zero]

theorem absorb_add : ∀ (j k : ℕ) (s : S) (xs : List α),
    absorb n f (j + k) s xs = absorb n f k (absorb n f j s xs) (xs.drop (n * j))
  | 0, k, s, xs => by rw [Nat.zero_add, Nat.mul_zero, List.drop_zero]; rfl
  | j + 1, k, s, xs => by
    rw [Nat.succ_add, absorb, absorb_add j k, List.drop_drop, absorb, Nat.mul_succ, Nat.add_comm n]

theorem absorb_append : ∀ (k : ℕ) (s : S) (xs ys : List α), n * k ≤ xs.length →
    absorb n f k s (xs ++ ys) = absorb n f k s xs
  | 0, _, _, _, _ => rfl
  | k + 1, s, xs, ys, h => by
    rw [Nat.mul_succ] at h
    rw [absorb, absorb, List.take_append_of_le_length (by omega), List.drop_append_of_le_length (by omega),
      absorb_append k _ _ _ (by rw [List.length_drop]; omega)]

/-- The length of a stream, counted from its last whole block before `ys`. -/
theorem length_append_div (hn : 0 < n) (xs ys : List α) :
    (xs ++ ys).length / n = xs.length / n + (rest n xs ++ ys).length / n := by
  have hsplit : (xs ++ ys).length = (rest n xs ++ ys).length + n * (xs.length / n) := by
    have := Nat.div_add_mod xs.length n
    rw [List.length_append, List.length_append, length_rest]
    omega
  rw [hsplit, Nat.add_mul_div_left _ _ hn, Nat.add_comm]

theorem drop_append_rest (xs ys : List α) :
    (xs ++ ys).drop (n * (xs.length / n)) = rest n xs ++ ys := by
  rw [rest, List.drop_append_of_le_length (Nat.mul_div_le _ _)]

/-- **Absorbing goes on** with what was left over. -/
theorem blocks_append (hn : 0 < n) (s : S) (xs ys : List α) :
    blocks n f s (xs ++ ys) = blocks n f (blocks n f s xs) (rest n xs ++ ys) := by
  rw [blocks, length_append_div hn, absorb_add, absorb_append f _ _ _ _ (Nat.mul_div_le _ _),
    drop_append_rest]
  rfl

/-- **What is left over** after more input. -/
theorem rest_append (hn : 0 < n) (xs ys : List α) : rest n (xs ++ ys) = rest n (rest n xs ++ ys) := by
  rw [rest, length_append_div hn, Nat.mul_add, ← List.drop_drop, drop_append_rest]
  rfl

theorem blocks_of_lt {xs : List α} (h : xs.length < n) (s : S) : blocks n f s xs = s := by
  rw [blocks, Nat.div_eq_of_lt h, absorb]

theorem rest_block (hn : 0 < n) {b : List α} (h : b.length = n) (ys : List α) :
    rest n (b ++ ys) = rest n ys := by
  have hb : rest n b = [] := by
    rw [rest, h, Nat.div_self hn, Nat.mul_one, List.drop_of_length_le (Nat.le_of_eq h)]
  rw [rest_append hn, hb, List.nil_append]

theorem blocks_block (hn : 0 < n) {b : List α} (h : b.length = n) (s : S) (ys : List α) :
    blocks n f s (b ++ ys) = blocks n f (f s b) ys := by
  have hb : rest n b = [] := by
    rw [rest, h, Nat.div_self hn, Nat.mul_one, List.drop_of_length_le (Nat.le_of_eq h)]
  have hs : blocks n f s b = f s b := by
    rw [blocks, h, Nat.div_self hn, absorb, absorb, List.take_of_length_le (Nat.le_of_eq h)]
  rw [blocks_append f hn, hs, hb, List.nil_append]

end BlockHash
