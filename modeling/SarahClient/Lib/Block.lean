import Mathlib.Data.List.Basic
import Mathlib.Data.List.GetD

/-!
# Bounds-checked memory blocks

A block is the list of the cells of one allocation; an access outside the block is `none`.

* `store`, `copyIn` (`memcpy` into the block), `fill` (`memset`);
* `moveUp`, `moveDown`: the two overlapping one-cell-at-a-time shifts;
* `copyIn_getElem?`, **`moveUp_spec`**, **`moveDown_spec`**: every cell after the operation;
* `store_isSome`, `copyIn_isSome`, `moveUp_isSome`, `moveDown_isSome`: when an operation stays inside the block.
-/

namespace Block

variable {α : Type}

/-- Write one cell. -/
def store (b : List α) (i : ℕ) (v : α) : Option (List α) :=
  if i < b.length then some (b.set i v) else none

/-- Copy `src` to offset `off`. -/
def copyIn (b : List α) (off : ℕ) (src : List α) : Option (List α) :=
  if off + src.length ≤ b.length then some (b.take off ++ src ++ b.drop (off + src.length)) else none

/-- Set `n` cells from offset `off` to `v`. -/
def fill (b : List α) (off n : ℕ) (v : α) : Option (List α) := copyIn b off (List.replicate n v)

/-- Move the `k` cells from `l` up by `d`, highest cell first. -/
def moveUp (d l : ℕ) : ℕ → List α → Option (List α)
  | 0, b => some b
  | k + 1, b => b[l + k]?.bind fun v => (store b (l + k + d) v).bind (moveUp d l k)

/-- Move the `k` cells from `i` down by `d`, lowest cell first. -/
def moveDown (d : ℕ) : ℕ → ℕ → List α → Option (List α)
  | _, 0, b => some b
  | i, k + 1, b => b[i]?.bind fun v => (store b (i - d) v).bind (moveDown d (i + 1) k)

theorem store_of_lt {b : List α} {i : ℕ} (h : i < b.length) (v : α) : store b i v = some (b.set i v) :=
  if_pos h

theorem copyIn_of_le {b src : List α} {off : ℕ} (h : off + src.length ≤ b.length) :
    copyIn b off src = some (b.take off ++ src ++ b.drop (off + src.length)) := if_pos h

theorem copyIn_append (xs ys src : List α) (h : src.length ≤ ys.length) :
    copyIn (xs ++ ys) xs.length src = some (xs ++ src ++ ys.drop src.length) := by
  rw [copyIn_of_le (by simp; omega), List.take_left, List.drop_append, List.drop_of_length_le (by omega),
    List.nil_append]
  congr 3
  omega

theorem fill_append (xs ys : List α) (v : α) {n : ℕ} (h : n ≤ ys.length) :
    fill (xs ++ ys) xs.length n v = some (xs ++ List.replicate n v ++ ys.drop n) := by
  have := copyIn_append xs ys (List.replicate n v) (by simpa using h)
  rwa [List.length_replicate] at this

theorem copyIn_length {b b' src : List α} {off : ℕ} (h : copyIn b off src = some b') :
    b'.length = b.length := by
  unfold copyIn at h
  split_ifs at h with hle
  cases h
  simp only [List.length_append, List.length_take, List.length_drop]
  omega

theorem copyIn_getElem? {b b' src : List α} {off : ℕ} (h : copyIn b off src = some b') (j : ℕ) :
    b'[j]? = if off ≤ j ∧ j < off + src.length then src[j - off]? else b[j]? := by
  unfold copyIn at h
  split_ifs at h with hle
  cases h
  have ht : (b.take off).length = off := by rw [List.length_take]; omega
  split_ifs with hj
  · rw [List.append_assoc, List.getElem?_append_right (by omega), ht,
      List.getElem?_append_left (by omega)]
  · by_cases hlt : j < off
    · rw [List.append_assoc, List.getElem?_append_left (by omega), List.getElem?_take_of_lt hlt]
    · rw [List.getElem?_append_right (by rw [List.length_append]; omega), List.getElem?_drop,
        List.length_append, ht]
      congr 1
      omega

/-- **The upward shift**: each moved cell holds what its origin held before the shift. -/
theorem moveUp_spec (d l : ℕ) : ∀ (k : ℕ) (b : List α), l + k + d ≤ b.length →
    ∃ b', moveUp d l k b = some b' ∧ b'.length = b.length ∧
      ∀ j, b'[j]? = if l + d ≤ j ∧ j < l + k + d then b[j - d]? else b[j]?
  | 0, b, _ => ⟨b, rfl, rfl, fun j => by rw [if_neg (by omega)]⟩
  | k + 1, b, h => by
    have hv : l + k < b.length := by omega
    obtain ⟨b', hb', hlen, hget⟩ := moveUp_spec d l k (b.set (l + k + d) b[l + k]) (by
      rw [List.length_set]; omega)
    refine ⟨b', ?_, by rw [hlen, List.length_set], fun j => ?_⟩
    · rw [moveUp, List.getElem?_eq_getElem hv, Option.bind_some, store_of_lt (by omega), Option.bind_some, hb']
    · rw [hget j, List.getElem?_set, List.getElem?_set]
      by_cases hj : j = l + k + d
      · subst hj
        rw [if_neg (by omega), if_pos rfl, if_pos (by omega), if_pos (by omega), ← List.getElem?_eq_getElem hv]
        congr 1
        omega
      · rw [if_neg (Ne.symm hj)]
        split_ifs <;> first | rfl | omega

/-- **The downward shift**: each moved cell holds what its origin held before the shift. -/
theorem moveDown_spec (d : ℕ) : ∀ (k i : ℕ) (b : List α), d ≤ i → i + k ≤ b.length →
    ∃ b', moveDown d i k b = some b' ∧ b'.length = b.length ∧
      ∀ j, b'[j]? = if i - d ≤ j ∧ j < i + k - d then b[j + d]? else b[j]?
  | 0, i, b, _, _ => ⟨b, rfl, rfl, fun j => by rw [if_neg (by omega)]⟩
  | k + 1, i, b, hd, h => by
    have hv : i < b.length := by omega
    obtain ⟨b', hb', hlen, hget⟩ := moveDown_spec d k (i + 1) (b.set (i - d) b[i]) (by omega) (by
      rw [List.length_set]; omega)
    refine ⟨b', ?_, by rw [hlen, List.length_set], fun j => ?_⟩
    · rw [moveDown, List.getElem?_eq_getElem hv, Option.bind_some, store_of_lt (by omega), Option.bind_some, hb']
    · rw [hget j, List.getElem?_set, List.getElem?_set]
      by_cases hj : j = i - d
      · subst hj
        rw [if_neg (by omega), if_pos rfl, if_pos (by omega), if_pos (by omega), ← List.getElem?_eq_getElem hv]
        congr 1
        omega
      · rw [if_neg (Ne.symm hj)]
        split_ifs <;> first | rfl | omega

/-! ## Staying inside -/

theorem store_isSome {b : List α} {i : ℕ} {v : α} : (store b i v).isSome = true ↔ i < b.length := by
  unfold store
  split_ifs with h
  · exact iff_of_true rfl h
  · exact iff_of_false Bool.false_ne_true h

theorem copyIn_isSome {b src : List α} {off : ℕ} : (copyIn b off src).isSome = true ↔ off + src.length ≤ b.length := by
  unfold copyIn
  split_ifs with h
  · exact iff_of_true rfl h
  · exact iff_of_false Bool.false_ne_true h

theorem moveUp_isSome {d l k : ℕ} {b : List α} : (moveUp d l k b).isSome = true ↔ k = 0 ∨ l + k + d ≤ b.length := by
  constructor
  · intro h
    cases k with
    | zero => exact .inl rfl
    | succ k =>
      obtain ⟨b', hb'⟩ := Option.isSome_iff_exists.mp h
      rw [moveUp] at hb'
      obtain ⟨v, -, hb'⟩ := Option.bind_eq_some_iff.mp hb'
      obtain ⟨c, hc, -⟩ := Option.bind_eq_some_iff.mp hb'
      have hlt : l + k + d < b.length := store_isSome.mp (by rw [hc]; rfl)
      exact .inr (by omega)
  · rintro (rfl | h)
    · rfl
    · obtain ⟨b', hb', -⟩ := moveUp_spec d l k b h
      rw [hb']
      rfl

theorem moveDown_isSome {d : ℕ} : ∀ {k i : ℕ} {b : List α}, d ≤ i →
    ((moveDown d i k b).isSome = true ↔ k = 0 ∨ i + k ≤ b.length)
  | 0, _, _, _ => iff_of_true rfl (.inl rfl)
  | k + 1, i, b, hd => by
    constructor
    · intro h
      obtain ⟨b', hb'⟩ := Option.isSome_iff_exists.mp h
      rw [moveDown] at hb'
      obtain ⟨v, hv, hb'⟩ := Option.bind_eq_some_iff.mp hb'
      obtain ⟨c, hc, hb'⟩ := Option.bind_eq_some_iff.mp hb'
      have hi : i < b.length := (List.getElem?_eq_some_iff.mp hv).1
      rw [store_of_lt (by omega)] at hc
      cases hc
      have hrec := (moveDown_isSome (k := k) (Nat.le_succ_of_le hd)).mp (by rw [hb']; rfl)
      rw [List.length_set] at hrec
      exact .inr (by omega)
    · intro h
      obtain ⟨b', hb', -⟩ := moveDown_spec d (k + 1) i b hd (by omega)
      rw [hb']
      rfl

end Block
