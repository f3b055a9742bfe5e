import Mathlib.Data.Nat.Bitwise
import Mathlib.Tactic.Ring
import Mathlib.Tactic.Positivity

/-!
# Numbers as groups of bits

A stream of bits, most significant bit first, and its groups of `n` bits.

* `bits`, `value`: the bits of a number and the number of some bits; `value_bits`, `bits_value`;
* `stream`, `groups`: numbers of `n` bits one behind the other, and a stream cut into such numbers;
* **`groups_stream`**, **`stream_groups`**: each undoes the other; `groups_append`: a cut between two groups;
* **`regroup_regroup`**: a stream that is cut in another way, with some bits added, and cut back.
-/

namespace BitGroups

/-! ## Bits of a number -/

/-- The last `n` bits of a number. -/
def bits : ℕ → ℕ → List Bool
  | 0, _ => []
  | n + 1, x => x.testBit n :: bits n x

/-- The number of some bits. -/
def value (bs : List Bool) : ℕ := bs.foldl (fun n b => 2 * n + b.toNat) 0

@[simp] theorem length_bits (n x : ℕ) : (bits n x).length = n := by
  induction n with
  | zero => rfl
  | succ n ih => simp [bits, ih]

theorem bits_add (m n x : ℕ) : bits (m + n) x = bits m (x / 2 ^ n) ++ bits n x := by
  induction m with
  | zero => simp [bits]
  | succ m ih => rw [Nat.succ_add, bits, ih, bits, List.cons_append, ← Nat.testBit_add]

theorem foldl_value (bs : List Bool) (a : ℕ) :
    bs.foldl (fun n b => 2 * n + b.toNat) a = a * 2 ^ bs.length + value bs := by
  induction bs generalizing a with
  | nil => simp [value]
  | cons b bs ih =>
    rw [value, List.foldl_cons, List.foldl_cons, ih, ih (2 * 0 + b.toNat), List.length_cons, pow_succ]
    ring

theorem value_append (bs cs : List Bool) : value (bs ++ cs) = value bs * 2 ^ cs.length + value cs := by
  rw [value, List.foldl_append, foldl_value]
  rfl

@[simp] theorem value_cons (b : Bool) (bs : List Bool) : value (b :: bs) = b.toNat * 2 ^ bs.length + value bs := by
  simpa [value] using value_append [b] bs

theorem value_lt (bs : List Bool) : value bs < 2 ^ bs.length := by
  induction bs with
  | nil => simp [value]
  | cons b bs ih =>
    rw [value_cons, List.length_cons, pow_succ]
    cases b <;> simp <;> omega

@[simp] theorem value_bits (n x : ℕ) : value (bits n x) = x % 2 ^ n := by
  induction n with
  | zero => simp [bits, value, Nat.mod_one]
  | succ n ih =>
    rw [bits, value_cons, length_bits, ih, Nat.testBit_eq_decide_div_mod_eq, Nat.mod_pow_succ]
    rcases Nat.mod_two_eq_zero_or_one (x / 2 ^ n) with h | h <;> simp [h]
    omega

theorem bits_congr {n x y : ℕ} (h : x % 2 ^ n = y % 2 ^ n) : bits n x = bits n y := by
  induction n with
  | zero => rfl
  | succ n ih =>
    have hhigh : x.testBit n = y.testBit n := by
      have hbit := congrArg (fun z => z.testBit n) h
      simpa [Nat.testBit_mod_two_pow] using hbit
    have hlow : x % 2 ^ n = y % 2 ^ n := by
      rw [← Nat.mod_mod_of_dvd x (pow_dvd_pow 2 (Nat.le_succ n)), h,
        Nat.mod_mod_of_dvd y (pow_dvd_pow 2 (Nat.le_succ n))]
    rw [bits, bits, hhigh, ih hlow]

theorem bits_append (m n x y : ℕ) : bits m x ++ bits n y = bits (m + n) (x * 2 ^ n + y % 2 ^ n) := by
  have hpos : 0 < 2 ^ n := Nat.two_pow_pos n
  have hhigh : (x * 2 ^ n + y % 2 ^ n) / 2 ^ n = x := by
    rw [Nat.mul_comm, Nat.mul_add_div hpos, Nat.div_eq_of_lt (Nat.mod_lt y hpos), Nat.add_zero]
  rw [bits_add, hhigh]
  congr 1
  apply bits_congr
  rw [Nat.mul_add_mod_self_right, Nat.mod_mod]

theorem bits_value (bs : List Bool) : bits bs.length (value bs) = bs := by
  induction bs with
  | nil => rfl
  | cons b bs ih =>
    have hone : bits 1 b.toNat = [b] := by cases b <;> rfl
    have happ := bits_append 1 bs.length b.toNat (value bs)
    rw [hone, ih, Nat.mod_eq_of_lt (value_lt bs), List.singleton_append] at happ
    rw [value_cons, List.length_cons, Nat.add_comm, happ]

/-! ## Streams and groups -/

/-- Numbers of `n` bits, one behind the other. -/
def stream (n : ℕ) (xs : List ℕ) : List Bool := xs.flatMap (bits n)

/-- The first `k` groups of `n` bits. -/
def groups (n : ℕ) : ℕ → List Bool → List ℕ
  | 0, _ => []
  | k + 1, bs => value (bs.take n) :: groups n k (bs.drop n)

@[simp] theorem length_stream (n : ℕ) (xs : List ℕ) : (stream n xs).length = n * xs.length := by
  induction xs with
  | nil => rfl
  | cons x xs ih =>
    rw [stream, List.flatMap_cons, List.length_append, length_bits, ← stream, ih, List.length_cons]
    ring

@[simp] theorem length_groups (n k : ℕ) (bs : List Bool) : (groups n k bs).length = k := by
  induction k generalizing bs with
  | zero => rfl
  | succ k ih => simp [groups, ih]

@[simp] theorem stream_append (n : ℕ) (xs ys : List ℕ) : stream n (xs ++ ys) = stream n xs ++ stream n ys :=
  List.flatMap_append

@[simp] theorem stream_cons (n x : ℕ) (xs : List ℕ) : stream n (x :: xs) = bits n x ++ stream n xs := List.flatMap_cons

@[simp] theorem stream_nil (n : ℕ) : stream n [] = [] := rfl

theorem groups_stream {n : ℕ} (xs : List ℕ) (h : ∀ x ∈ xs, x < 2 ^ n) (bs : List Bool) :
    groups n xs.length (stream n xs ++ bs) = xs := by
  induction xs with
  | nil => rfl
  | cons x xs ih =>
    rw [List.length_cons, groups, stream_cons, List.append_assoc, List.take_left' (length_bits n x), value_bits,
      List.drop_left' (length_bits n x), ih fun y hy => h y (by simp [hy]), Nat.mod_eq_of_lt (h x (by simp))]

theorem stream_groups {n k : ℕ} {bs : List Bool} (h : n * k ≤ bs.length) :
    stream n (groups n k bs) = bs.take (n * k) := by
  induction k generalizing bs with
  | zero => simp [groups]
  | succ k ih =>
    have hsucc : n * (k + 1) = n + n * k := by ring
    have hfirst : bits n (value (bs.take n)) = bs.take n := by
      have hv := bits_value (bs.take n)
      rwa [List.length_take_of_le (by omega)] at hv
    rw [groups, stream_cons, hfirst, ih (by rw [List.length_drop]; omega), hsucc, List.take_add]

theorem groups_append {n j : ℕ} {bs : List Bool} (h : bs.length = n * j) (k : ℕ) (cs : List Bool) :
    groups n (j + k) (bs ++ cs) = groups n j bs ++ groups n k cs := by
  induction j generalizing bs with
  | zero =>
    have hnil : bs = [] := List.length_eq_zero_iff.mp (by simpa using h)
    simp [hnil, groups]
  | succ j ih =>
    have hsucc : n * (j + 1) = n + n * j := by ring
    rw [Nat.succ_add, groups, groups, List.take_append_of_le_length (by omega),
      List.drop_append_of_le_length (by omega), ih (by rw [List.length_drop]; omega), List.cons_append]

theorem groups_lt {n k x : ℕ} {bs : List Bool} (h : x ∈ groups n k bs) : x < 2 ^ n := by
  induction k generalizing bs with
  | zero => cases h
  | succ k ih =>
    rw [groups, List.mem_cons] at h
    rcases h with rfl | h
    · exact (value_lt _).trans_le (Nat.pow_le_pow_right (by omega) (List.length_take_le n bs))
    · exact ih h

/-- **Cut in another way and cut back**: the bits added behind the stream are not seen. -/
theorem regroup_regroup {m n k : ℕ} {xs : List ℕ} {bs : List Bool} (h : ∀ x ∈ xs, x < 2 ^ m)
    (hlow : m * xs.length ≤ n * k) (hhigh : n * k ≤ m * xs.length + bs.length) :
    groups m xs.length (stream n (groups n k (stream m xs ++ bs))) = xs := by
  rw [stream_groups (by simpa using hhigh), List.take_append, List.take_of_length_le (by simpa using hlow)]
  exact groups_stream xs h _

end BitGroups
