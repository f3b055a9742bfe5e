import Mathlib.Data.List.Basic
import Mathlib.Algebra.Order.Ring.Int

/-!
# C integers and C strings

The client runs on 64-bit Linux: `int` and `unsigned int` have 32 bits, `char` is signed.

* `u32`, `i32`: conversion to `unsigned int` and to `int`;
* `cstr`: the C string at the start of a block, up to its first NUL; `lit`: a string literal;
* `decimal`, `strncmpEq`.
-/

namespace Sarah

/-- Tables of four words are indexed by `Fin 4`. -/
instance neZeroFour : NeZero 4 := ⟨by decide⟩

/-- Conversion to `unsigned int`. -/
def u32 (n : ℕ) : ℕ := n % 2 ^ 32

/-- Conversion to `int` (two's complement). -/
def i32 (n : ℤ) : ℤ := (n + 2 ^ 31) % 2 ^ 32 - 2 ^ 31

theorem u32_of_lt {n : ℕ} (h : n < 2 ^ 32) : u32 n = n := Nat.mod_eq_of_lt h

theorem u32_lt (n : ℕ) : u32 n < 2 ^ 32 := Nat.mod_lt _ (by decide)

theorem i32_of_range {n : ℤ} (h₁ : -2 ^ 31 ≤ n) (h₂ : n < 2 ^ 31) : i32 n = n := by
  unfold i32; omega

theorem i32_range (n : ℤ) : -2 ^ 31 ≤ i32 n ∧ i32 n < 2 ^ 31 := by
  unfold i32; omega

/-- The bytes before the first NUL. -/
def cstr (b : List UInt8) : List UInt8 := b.takeWhile (· ≠ 0)

/-- Membership in a table of texts is decided byte by byte. -/
instance lawfulText : LawfulBEq (List UInt8) := inferInstance

/-- The bytes of a string literal. -/
def lit (s : String) : List UInt8 := s.toList.map fun c => UInt8.ofNat c.toNat

/-- An unsigned number as `printf` writes it. -/
def decimal (n : ℕ) : List UInt8 := (Nat.toDigits 10 n).map fun c => UInt8.ofNat c.toNat

/-- `strncmp(a, b, n) == 0`. -/
def strncmpEq (a b : List UInt8) (n : ℕ) : Bool := (cstr a).take n = (cstr b).take n

theorem zero_notMem_cstr (b : List UInt8) : 0 ∉ cstr b := by
  intro h
  have hall := List.all_takeWhile (p := fun c : UInt8 => decide (c ≠ 0)) (l := b)
  exact absurd (List.all_eq_true.mp hall 0 h) (by decide)

theorem cstr_append_zero {s : List UInt8} (h : 0 ∉ s) (t : List UInt8) : cstr (s ++ 0 :: t) = s := by
  induction s with
  | nil => simp [cstr]
  | cons c s ih =>
    simp only [List.mem_cons, not_or] at h
    simp only [cstr, List.cons_append, List.takeWhile_cons] at ih ⊢
    rw [if_pos (by simpa using Ne.symm h.1), ih h.2]

theorem cstr_append_zeros (b : List UInt8) (n : ℕ) : cstr (b ++ List.replicate n 0) = cstr b := by
  induction b with
  | nil => cases n <;> rfl
  | cons c b ih =>
    simp only [cstr, List.cons_append, List.takeWhile_cons] at ih ⊢
    rw [ih]

theorem cstr_of_notMem {s : List UInt8} (h : 0 ∉ s) : cstr s = s := by
  have happ := cstr_append_zeros s 1
  rw [show List.replicate 1 (0 : UInt8) = 0 :: [] from rfl, cstr_append_zero h] at happ
  exact happ.symm

end Sarah
