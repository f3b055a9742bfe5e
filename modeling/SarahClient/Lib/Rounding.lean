import Mathlib.Algebra.Order.Floor.Ring
import Mathlib.Data.Int.Log
import Mathlib.Tactic.FieldSimp
import Mathlib.Tactic.Linarith
import Mathlib.Tactic.Positivity
import Mathlib.Tactic.Ring

/-!
# Rounding to significant digits

* `nearest`: the nearest integer, halves to even; `roundAt u`: the nearest multiple of `u`;
* `unit b p e x`: the place value of the last of `p` digits of `x` in base `b`, at least `b ^ e`;
* `digitUnit b p x`: the same without a least place value; `digits_nearest`: the `p` digits of a number;
* `roundAt_eq`: what lies close to a multiple is rounded to it;
* **`roundAt_unit_eq`**: a number of `p` digits in base `b` is recovered from any number whose distance is less than
  `1 / (2 * b ^ p)` of it;
* **`roundAt_unit_of_place`**: so it is from enough digits in another base.
-/

namespace Rounding

variable {K : Type} [Field K] [LinearOrder K] [IsStrictOrderedRing K] [FloorRing K]

/-- The nearest integer; of two the even one. -/
def nearest (x : K) : ℤ :=
  if x - ⌊x⌋ < 1 / 2 ∨ (x - ⌊x⌋ = 1 / 2 ∧ ⌊x⌋ % 2 = 0) then ⌊x⌋ else ⌊x⌋ + 1

/-- The nearest multiple of `u`. -/
def roundAt (u x : K) : K := nearest (x / u) * u

/-- The place value of the last digit. -/
def unit (b p : ℕ) (e : ℤ) (x : K) : K := (b : K) ^ max (Int.log b x - (p - 1)) e

theorem abs_nearest_sub_le (x : K) : |(nearest x : K) - x| ≤ 1 / 2 := by
  have hlow : (⌊x⌋ : K) ≤ x := Int.floor_le x
  have hhigh : x < ⌊x⌋ + 1 := Int.lt_floor_add_one x
  unfold nearest
  split_ifs with h
  · rw [abs_sub_comm, abs_of_nonneg (by linarith)]
    rcases h with h | ⟨h, -⟩ <;> linarith
  · rw [not_or, not_lt] at h
    push_cast
    rw [abs_of_nonneg (by linarith)]
    linarith [h.1]

theorem nearest_eq {x : K} {n : ℤ} (h : |x - n| < 1 / 2) : nearest x = n := by
  have hhalf := abs_nearest_sub_le x
  have hlt : |((nearest x - n : ℤ) : K)| < 1 := by
    push_cast
    calc |(nearest x : K) - n| = |((nearest x : K) - x) + (x - n)| := by ring_nf
      _ ≤ |(nearest x : K) - x| + |x - n| := abs_add_le _ _
      _ < 1 := by linarith
  have hint : |nearest x - n| < 1 := by exact_mod_cast hlt
  rw [abs_lt] at hint
  omega

theorem nearest_intCast (n : ℤ) : nearest (n : K) = n := nearest_eq (by rw [sub_self, abs_zero]; positivity)

omit [IsStrictOrderedRing K] in
theorem le_nearest {x : K} {n : ℤ} (h : (n : K) ≤ x) : n ≤ nearest x := by
  have hfloor : n ≤ ⌊x⌋ := Int.le_floor.mpr h
  unfold nearest
  split_ifs <;> omega

theorem nearest_le {x : K} {n : ℤ} (h : x ≤ n) : nearest x ≤ n := by
  rcases h.eq_or_lt with h | h
  · rw [h, nearest_intCast]
  · have hfloor : ⌊x⌋ < n := Int.floor_lt.mpr h
    unfold nearest
    split_ifs <;> omega

theorem abs_roundAt_sub_le {u : K} (hu : 0 < u) (x : K) : |roundAt u x - x| ≤ u / 2 := by
  have hsplit : roundAt u x - x = ((nearest (x / u) : K) - x / u) * u := by
    rw [roundAt, sub_mul, div_mul_cancel₀ x hu.ne']
  rw [hsplit, abs_mul, abs_of_pos hu]
  calc |(nearest (x / u) : K) - x / u| * u ≤ 1 / 2 * u := mul_le_mul_of_nonneg_right (abs_nearest_sub_le _) hu.le
    _ = u / 2 := by ring

/-- **What lies close to a multiple** is rounded to it. -/
theorem roundAt_eq {u x : K} {n : ℤ} (hu : 0 < u) (h : |x - n * u| < u / 2) : roundAt u x = n * u := by
  have hnear : |x / u - n| < 1 / 2 := by
    have hsplit : x / u - n = (x - n * u) / u := by field_simp
    rw [hsplit, abs_div, abs_of_pos hu, div_lt_iff₀ hu]
    linarith
  rw [roundAt, nearest_eq hnear]

variable {b p : ℕ} {e : ℤ} {x y : K}

theorem unit_pos (hb : 1 < b) : 0 < unit b p e x := zpow_pos (by exact_mod_cast (by omega : 0 < b)) _

theorem lt_pow_mul_unit (hb : 1 < b) : x < (b : K) ^ p * unit b p e x := by
  have hb' : (1 : K) < b := by exact_mod_cast hb
  have hb0 : (b : K) ≠ 0 := by positivity
  calc x < (b : K) ^ (Int.log b x + 1) := Int.lt_zpow_succ_log_self hb x
    _ ≤ (b : K) ^ ((p : ℤ) + max (Int.log b x - (p - 1)) e) := zpow_le_zpow_right₀ hb'.le (by omega)
    _ = (b : K) ^ p * unit b p e x := by rw [zpow_add₀ hb0, zpow_natCast, unit]

/-- What lies within half a unit of `x` has no higher place value than `x`. -/
theorem exp_le_of_close (hb : 1 < b) {k : ℤ} (hy : 0 < y) (hgrid : x = k * unit b p e x)
    (hclose : |y - x| < unit b p e x / 2) :
    max (Int.log b y - (p - 1)) e ≤ max (Int.log b x - (p - 1)) e := by
  have hu := unit_pos (p := p) (e := e) (x := x) hb
  have hb0 : (b : K) ≠ 0 := by
    have : (0 : K) < b := by exact_mod_cast (by omega : 0 < b)
    exact this.ne'
  have hk : k + 1 ≤ (b : ℤ) ^ p := by
    have hlt : (k : K) * unit b p e x < (b : K) ^ p * unit b p e x := hgrid ▸ lt_pow_mul_unit hb
    have hlt' : (k : K) < (b : K) ^ p := lt_of_mul_lt_mul_right hlt hu.le
    have : k < (b : ℤ) ^ p := by exact_mod_cast hlt'
    omega
  have hy' : y < (b : K) ^ p * unit b p e x := by
    have hstep : y < x + unit b p e x := by
      have := (abs_lt.mp hclose).2
      linarith
    calc y < ((k + 1 : ℤ) : K) * unit b p e x := by push_cast; linarith [hgrid]
      _ ≤ ((b : ℤ) ^ p : ℤ) * unit b p e x := mul_le_mul_of_nonneg_right (by exact_mod_cast hk) hu.le
      _ = (b : K) ^ p * unit b p e x := by push_cast; rfl
  have hlog : Int.log b y < p + max (Int.log b x - (p - 1)) e := by
    rw [← Int.lt_zpow_iff_log_lt hb hy, zpow_add₀ hb0, zpow_natCast]
    exact hy'
  omega

/-- Where `y` lies below the power of the base that `x` lies above, `x` is that power. -/
theorem eq_zpow_log_of_lt (hb : 1 < b) (hp : 0 < p) {k : ℤ} (hx : 0 < x) (hgrid : x = k * unit b p e x)
    (hnear : |y - x| < unit b p e x / 2) (hunit : unit b p e x = (b : K) ^ (Int.log b x - (p - 1)))
    (hbelow : y < (b : K) ^ Int.log b x) :
    x = (b : K) ^ Int.log b x ∧ x = (b : K) ^ (p - 1) * unit b p e x := by
  have hu := unit_pos (p := p) (e := e) (x := x) hb
  have hb0 : (b : K) ≠ 0 := by
    have : (0 : K) < b := by exact_mod_cast (by omega : 0 < b)
    exact this.ne'
  have hpower : (b : K) ^ Int.log b x = ((b : ℤ) ^ (p - 1) : ℤ) * unit b p e x := by
    rw [hunit, Int.cast_pow, Int.cast_natCast, ← zpow_natCast, ← zpow_add₀ hb0]
    congr 1
    omega
  have hlow : ((b : ℤ) ^ (p - 1) : ℤ) * unit b p e x ≤ k * unit b p e x := by
    rw [← hpower, ← hgrid]
    exact Int.zpow_log_le_self hb hx
  have hhigh : ((k - (b : ℤ) ^ (p - 1) : ℤ) : K) * unit b p e x < 1 * unit b p e x := by
    have := (abs_lt.mp hnear).1
    push_cast at hpower ⊢
    linarith [hgrid, hpower]
  have h₁ : (b : ℤ) ^ (p - 1) ≤ k := by exact_mod_cast le_of_mul_le_mul_right hlow hu
  have h₂ : k - (b : ℤ) ^ (p - 1) < 1 := by exact_mod_cast lt_of_mul_lt_mul_right hhigh hu.le
  have hk : k = (b : ℤ) ^ (p - 1) := by omega
  have hx' : x = ((b : ℤ) ^ (p - 1) : ℤ) * unit b p e x := hk ▸ hgrid
  refine ⟨hx'.trans hpower.symm, ?_⟩
  rwa [Int.cast_pow, Int.cast_natCast] at hx'

/-- **Recovery.** A number of at most `p` digits is what its close neighbours are rounded to. -/
theorem roundAt_unit_eq (hb : 1 < b) (hp : 0 < p) {k : ℤ} (hx : 0 < x) (hgrid : x = k * unit b p e x)
    (hclose : |y - x| * (2 * (b : K) ^ p) < x) : roundAt (unit b p e y) y = x := by
  have hu := unit_pos (p := p) (e := e) (x := x) hb
  have hb1 : (1 : K) < b := by exact_mod_cast hb
  have hb0 : (0 : K) < b := by linarith
  have hpow : (1 : K) ≤ (b : K) ^ p := one_le_pow₀ hb1.le
  have hnear : |y - x| < unit b p e x / 2 := by
    have h := hclose.trans (lt_pow_mul_unit (p := p) (e := e) hb)
    have hsplit : |y - x| * 2 * (b : K) ^ p < unit b p e x * (b : K) ^ p := by linarith
    linarith [lt_of_mul_lt_mul_right hsplit (by linarith)]
  have hy : 0 < y := by
    have := (abs_lt.mp (lt_of_le_of_lt (le_mul_of_one_le_right (abs_nonneg _) (by linarith)) hclose)).1
    linarith
  have hexp := exp_le_of_close hb hy hgrid hnear
  rcases hexp.eq_or_lt with heq | hlt
  · -- the same place value
    have hunit : unit b p e y = unit b p e x := by rw [unit, unit, heq]
    have hround := roundAt_eq (n := k) hu (by rw [← hgrid]; exact hnear)
    rw [hunit, hround, ← hgrid]
  · -- `x` is a power of the base, and `y` lies below it
    have hunit : unit b p e x = (b : K) ^ (Int.log b x - (p - 1)) := by rw [unit, max_eq_left (by omega)]
    have hbelow : y < (b : K) ^ Int.log b x := (Int.lt_zpow_iff_log_lt hb hy).mpr (by omega)
    obtain ⟨hxpow, hpower⟩ := eq_zpow_log_of_lt hb hp hx hgrid hnear hunit hbelow
    have hlog : Int.log b x - 1 ≤ Int.log b y := by
      rw [← Int.zpow_le_iff_le_log hb hy, zpow_sub_one₀ hb0.ne', ← hxpow, ← div_eq_mul_inv, div_le_iff₀ hb0]
      have hfar : x - y ≤ |y - x| := by rw [abs_sub_comm]; exact le_abs_self _
      have hhalf : 2 * |y - x| ≤ x := by nlinarith [abs_nonneg (y - x)]
      have hb2 : (2 : K) ≤ b := by exact_mod_cast hb
      nlinarith
    have hunity : unit b p e x = unit b p e y * b := by
      rw [hunit, unit, ← zpow_add_one₀ hb0.ne']
      congr 1
      omega
    have huy := unit_pos (p := p) (e := e) (x := y) hb
    have hgridy : x = ((k * b : ℤ) : K) * unit b p e y := by
      rw [hgrid, hunity]
      push_cast
      ring
    have hneary : |y - ((k * b : ℤ) : K) * unit b p e y| < unit b p e y / 2 := by
      have hxy : x = (b : K) ^ p * unit b p e y := by
        calc x = (b : K) ^ (p - 1) * unit b p e x := hpower
          _ = (b : K) ^ (p - 1) * b * unit b p e y := by rw [hunity]; ring
          _ = (b : K) ^ p * unit b p e y := by rw [← pow_succ, Nat.sub_add_cancel hp]
      rw [← hgridy]
      have hscaled : |y - x| * 2 * (b : K) ^ p < unit b p e y * (b : K) ^ p := by
        calc |y - x| * 2 * (b : K) ^ p = |y - x| * (2 * (b : K) ^ p) := by ring
          _ < x := hclose
          _ = unit b p e y * (b : K) ^ p := by rw [mul_comm]; exact hxy
      linarith [lt_of_mul_lt_mul_right hscaled (by linarith)]
    rw [roundAt_eq huy hneary, ← hgridy]

/-! ## Digits in another base -/

/-- The place value of the last of `p` digits. -/
def digitUnit (b p : ℕ) (x : K) : K := (b : K) ^ (Int.log b x - (p - 1))

theorem digitUnit_pos (hb : 1 < b) : 0 < digitUnit b p x := zpow_pos (by exact_mod_cast (by omega : 0 < b)) _

/-- The digits of a number, with a carry into one more place where they are all rounded up. -/
theorem digits_nearest (hb : 1 < b) (hp : 0 < p) (hx : 0 < x) :
    (b : ℤ) ^ (p - 1) ≤ nearest (x / digitUnit b p x) ∧ nearest (x / digitUnit b p x) ≤ (b : ℤ) ^ p := by
  have hb0 : (b : K) ≠ 0 := by
    have : (0 : K) < b := by exact_mod_cast (by omega : 0 < b)
    exact this.ne'
  have hplace := digitUnit_pos (p := p) (x := x) hb
  constructor
  · refine le_nearest ((le_div_iff₀ hplace).mpr ?_)
    have hpow : ((b : ℤ) ^ (p - 1) : ℤ) * digitUnit b p x = (b : K) ^ Int.log b x := by
      rw [digitUnit, Int.cast_pow, Int.cast_natCast, ← zpow_natCast, ← zpow_add₀ hb0]
      congr 1
      omega
    rw [hpow]
    exact Int.zpow_log_le_self hb hx
  · refine nearest_le ((div_le_iff₀ hplace).mpr ?_)
    have hpow : ((b : ℤ) ^ p : ℤ) * digitUnit b p x = (b : K) ^ (Int.log b x + 1) := by
      rw [digitUnit, Int.cast_pow, Int.cast_natCast, ← zpow_natCast, ← zpow_add₀ hb0]
      congr 1
      omega
    rw [hpow]
    exact (Int.lt_zpow_succ_log_self hb x).le

/-- **`q` digits in base `c` determine a number of `p` digits in base `b`** if `b ^ p < c ^ (q - 1)`. -/
theorem roundAt_unit_of_place (hb : 1 < b) (hp : 0 < p) {c q : ℕ} (hc : 1 < c) (hpow : b ^ p < c ^ (q - 1)) {k : ℤ}
    (hx : 0 < x) (hgrid : x = k * unit b p e x) (hclose : |y - x| ≤ digitUnit c q x / 2) :
    roundAt (unit b p e y) y = x := by
  refine roundAt_unit_eq hb hp hx hgrid ?_
  have hq : 0 < q := by
    rcases Nat.eq_zero_or_pos q with rfl | hq
    · rw [Nat.zero_sub, pow_zero] at hpow
      have := Nat.one_le_pow p b (by omega)
      omega
    · exact hq
  have hc0 : (c : K) ≠ 0 := by
    have : (0 : K) < c := by exact_mod_cast (by omega : 0 < c)
    exact this.ne'
  have hlast : (c : K) ^ (q - 1) * digitUnit c q x ≤ x := by
    have hsplit : (c : K) ^ (q - 1) * digitUnit c q x = (c : K) ^ Int.log c x := by
      rw [digitUnit, ← zpow_natCast, ← zpow_add₀ hc0]
      congr 1
      omega
    rw [hsplit]
    exact Int.zpow_log_le_self hc hx
  have hpow' : (b : K) ^ p < (c : K) ^ (q - 1) := by exact_mod_cast hpow
  have hb' : (0 : K) ≤ (b : K) ^ p := by positivity
  calc |y - x| * (2 * (b : K) ^ p) ≤ digitUnit c q x / 2 * (2 * (b : K) ^ p) :=
        mul_le_mul_of_nonneg_right hclose (by linarith)
    _ = (b : K) ^ p * digitUnit c q x := by ring
    _ < (c : K) ^ (q - 1) * digitUnit c q x := mul_lt_mul_of_pos_right hpow' (digitUnit_pos hc)
    _ ≤ x := hlast

end Rounding
