import SarahClient.Json
import SarahClient.Lib.Rounding
import SarahClient.Lib.Stdio
import Mathlib.Data.List.DropRight
import Mathlib.Data.Rat.Floor

/-!
# The text of a number, `print_number` and `parse_number`

* `Double.round`: the `double` nearest to a rational; `Double.Binary64`: the values of a `double`, where zero has no
  sign;
* `strtod`: reading a decimal, rounded correctly; `sprintfG`: `%1.15g` and `%1.17g`, rounded correctly;
* `printNumber`: the text that `print_number` chooses.
-/

namespace Sarah

open Rounding Stdio

namespace Double

/-- The nearest `double`; from `2 ^ 1024` on it is infinite. -/
def round (q : ℚ) : Double :=
  let r := roundAt (unit 2 53 (-1074) |q|) |q|
  if 2 ^ 1024 ≤ r then if q < 0 then .ninf else .pinf
  else .fin (if q < 0 then -r else r)

/-- A finite value has 53 binary digits. -/
def Binary64 : Double → Prop
  | .fin q => ∃ m e : ℤ, |m| < 2 ^ 53 ∧ -1074 ≤ e ∧ e ≤ 971 ∧ q = m * 2 ^ e
  | _ => True

end Double

/-! ## Reading -/

/-- The exponent at the start of a text, and the text behind it. -/
def strtodExponent : List UInt8 → ℤ × List UInt8
  | [] => (0, [])
  | c :: t =>
    let digits := (unsign t).takeWhile isdigit
    if (c = 69 ∨ c = 101) ∧ digits ≠ [] then
      (if t.head? = some 45 then -digitsValue digits else digitsValue digits, (unsign t).dropWhile isdigit)
    else (0, c :: t)

/-- The digits with a point in them: those before the point, those behind it, and the text behind them. -/
def strtodDigits (s : List UInt8) : List UInt8 × List UInt8 × List UInt8 :=
  match s.dropWhile isdigit with
  | 46 :: t => (s.takeWhile isdigit, t.takeWhile isdigit, t.dropWhile isdigit)
  | t => (s.takeWhile isdigit, [], t)

/-- `strtod` of a text without blanks and letters other than `e`: the value and the text behind it, or no conversion. -/
def strtod (s : List UInt8) : Option (Double × List UInt8) :=
  let r := strtodDigits (unsign s)
  let digits := r.1 ++ r.2.1
  if digits = [] then none
  else
    let e := strtodExponent r.2.2
    let value : ℚ := digitsValue digits * 10 ^ (e.1 - r.2.1.length)
    some (Double.round (if s.head? = some 45 then -value else value), e.2)

/-! ## Writing -/

/-- The `p` significant digits of a positive number, and the exponent of the first of them. -/
def significant (p : ℕ) (x : ℚ) : ℕ × ℤ :=
  let n := (nearest (x / digitUnit 10 p x)).toNat
  if n = 10 ^ p then (10 ^ (p - 1), Int.log 10 x + 1) else (n, Int.log 10 x)

/-- Digits with a point, if any stand behind it. -/
def pointed (whole fraction : List UInt8) : List UInt8 := whole ++ if fraction = [] then [] else 46 :: fraction

/-- An exponent has at least two digits. -/
def exponentText (e : ℤ) : List UInt8 :=
  101 :: (if e < 0 then 45 else 43) :: ((if e.natAbs < 10 then [48] else []) ++ decimal e.natAbs)

/-- The significant digits `ds` with the exponent `e` of the first one, in the style of `%g`. -/
def styled (p : ℕ) (ds : List UInt8) (e : ℤ) : List UInt8 :=
  if e < -4 ∨ p ≤ e then pointed (ds.take 1) (ds.drop 1) ++ exponentText e
  else if e < 0 then pointed [48] (List.replicate (-e - 1).toNat 48 ++ ds)
  else pointed (ds.take (e + 1).toNat ++ List.replicate ((e + 1).toNat - ds.length) 48) (ds.drop (e + 1).toNat)

/-- `%g` with `p` significant digits, of which zeros at the end are left out. -/
def sprintfG (p : ℕ) (q : ℚ) : List UInt8 :=
  if q = 0 then [48]
  else
    let r := significant p |q|
    (if q < 0 then [45] else []) ++ styled p ((decimal r.1).rdropWhile (· = 48)) r.2

/-- `print_number`; `none` where the text does not fit into its buffer. -/
def printNumber (d : Option Double) : Option (List UInt8) :=
  let text := match d with
    | some (.fin q) =>
      let t := sprintfG 15 q
      if (strtod t).map Prod.fst = some (.fin q) then t else sprintfG 17 q
    | _ => lit "null"
  if 25 < text.length then none else some text

/-! ## Values of a `double` -/

namespace Double

theorem Binary64.grid {q : ℚ} (h : (Double.fin q).Binary64) (hq : q ≠ 0) :
    (∃ k : ℤ, |q| = k * unit 2 53 (-1074) |q|) ∧ |q| < 2 ^ 1024 := by
  obtain ⟨m, e, hm, he₁, he₂, rfl⟩ := h
  have hpow : (0 : ℚ) < 2 ^ e := zpow_pos (by norm_num) e
  have habs : |(m : ℚ) * 2 ^ e| = (|m| : ℤ) * 2 ^ e := by rw [abs_mul, abs_of_pos hpow, Int.cast_abs]
  have hlt : ((|m| : ℤ) : ℚ) < 2 ^ 53 := by exact_mod_cast hm
  have hpos : (0 : ℚ) < |(m : ℚ) * 2 ^ e| := abs_pos.mpr hq
  have hlog : Int.log 2 |(m : ℚ) * 2 ^ e| < 53 + e := by
    rw [← Int.lt_zpow_iff_log_lt (by decide) hpos, habs, Nat.cast_ofNat, zpow_add₀ (by norm_num)]
    exact mul_lt_mul_of_pos_right (by exact_mod_cast hlt) hpow
  constructor
  · refine ⟨|m| * 2 ^ (e - max (Int.log 2 |(m : ℚ) * 2 ^ e| - (53 - 1)) (-1074)).toNat, ?_⟩
    rw [unit]
    generalize hlast : max (Int.log 2 |(m : ℚ) * 2 ^ e| - (((53 : ℕ) : ℤ) - 1)) (-1074) = last
    have hle : last ≤ e := by
      push_cast at hlast
      omega
    rw [habs]
    push_cast
    rw [mul_assoc, ← zpow_natCast, ← zpow_add₀ (by norm_num)]
    congr 2
    push_cast at hlast
    omega
  · calc |(m : ℚ) * 2 ^ e| = (|m| : ℤ) * 2 ^ e := habs
      _ < 2 ^ 53 * 2 ^ e := mul_lt_mul_of_pos_right hlt hpow
      _ ≤ 2 ^ 53 * 2 ^ (971 : ℤ) :=
        mul_le_mul_of_nonneg_left (zpow_le_zpow_right₀ (by norm_num) he₂) (by norm_num)
      _ = 2 ^ 1024 := by rw [zpow_ofNat, ← pow_add]

/-- **17 digits determine a `double`.** -/
theorem Binary64.round_of_close {q y : ℚ} (h : (Double.fin q).Binary64) (hq : q ≠ 0)
    (hclose : |y - q| ≤ digitUnit 10 17 |q| / 2) :
    Double.round y = .fin q := by
  obtain ⟨⟨k, hgrid⟩, hlt⟩ := h.grid hq
  have hpos : 0 < |q| := abs_pos.mpr hq
  have hround : roundAt (unit 2 53 (-1074) |y|) |y| = |q| :=
    roundAt_unit_of_place (by decide) (by decide) (by decide) (by decide) hpos hgrid
      ((abs_abs_sub_abs_le y q).trans hclose)
  have hnear : |y - q| < |q| := by
    have hplace : digitUnit 10 17 |q| ≤ |q| := by
      calc digitUnit 10 17 |q| ≤ ((10 : ℕ) : ℚ) ^ Int.log 10 |q| :=
        zpow_le_zpow_right₀ (by norm_num) (by push_cast; omega)
        _ ≤ |q| := Int.zpow_log_le_self (by decide) hpos
    linarith
  have hsign : y < 0 ↔ q < 0 := by
    rcases lt_or_gt_of_ne hq with hneg | hpos'
    · rw [abs_of_neg hneg] at hnear
      exact iff_of_true (by linarith [(abs_lt.mp hnear).2]) hneg
    · rw [abs_of_pos hpos'] at hnear
      exact iff_of_false (by linarith [(abs_lt.mp hnear).1]) hpos'.not_gt
  unfold Double.round
  dsimp only
  rw [hround, if_neg (not_le.mpr hlt)]
  by_cases hneg : q < 0
  · rw [if_pos (hsign.mpr hneg), abs_of_neg hneg, neg_neg]
  · rw [if_neg (mt hsign.mp hneg), abs_of_nonneg (not_lt.mp hneg)]

theorem round_zero : Double.round 0 = .fin 0 := by
  unfold Double.round
  rw [abs_zero, roundAt, zero_div, show nearest (0 : ℚ) = 0 from nearest_intCast 0]
  norm_num

end Double

/-! ## The digits of a text -/

theorem foldl_digits (s : List UInt8) (n : ℕ) :
    s.foldl (fun n c => 10 * n + (c.toNat - 48)) n = n * 10 ^ s.length + digitsValue s := by
  induction s using List.reverseRecOn with
  | nil => rw [List.foldl_nil, List.length_nil, pow_zero, mul_one]; rfl
  | append_singleton s c ih =>
    unfold digitsValue at ih ⊢
    rw [List.foldl_append, List.foldl_append, ih, List.length_append, List.length_singleton, pow_succ]
    simp only [List.foldl_cons, List.foldl_nil]
    ring

theorem digitsValue_append (s t : List UInt8) :
    digitsValue (s ++ t) = digitsValue s * 10 ^ t.length + digitsValue t := by
  rw [← foldl_digits, digitsValue, List.foldl_append]
  rfl

theorem digitsValue_zeros (n : ℕ) : digitsValue (List.replicate n 48) = 0 := by
  induction n with
  | zero => rfl
  | succ n ih => rw [List.replicate_succ', digitsValue_append, ih]; rfl

theorem isdigit_zeros (n : ℕ) : ∀ c ∈ List.replicate n (48 : UInt8), isdigit c = true := by
  intro c hc
  rw [List.eq_of_mem_replicate hc]
  rfl

theorem isdigit_append {s t : List UInt8} (hs : ∀ c ∈ s, isdigit c = true) (ht : ∀ c ∈ t, isdigit c = true) :
    ∀ c ∈ s ++ t, isdigit c = true := fun c hc => (List.mem_append.mp hc).elim (hs c) (ht c)

theorem length_decimal {p n : ℕ} (hp : 0 < p) (h₁ : 10 ^ (p - 1) ≤ n) (h₂ : n < 10 ^ p) : (decimal n).length = p := by
  have hlt := digitsValue_lt (isdigit_of_mem_decimal n)
  rw [digitsValue_decimal] at hlt
  have hlen := decimal_length_le hp h₂
  have := (Nat.pow_lt_pow_iff_right (by decide : 1 < 10)).mp (h₁.trans_lt hlt)
  omega

theorem rdropWhile_zeros (s : List UInt8) : ∃ z, s = s.rdropWhile (· = 48) ++ List.replicate z 48 := by
  refine ⟨(s.rtakeWhile (· = 48)).length, ?_⟩
  have hzeros : s.rtakeWhile (· = 48) = List.replicate (s.rtakeWhile (· = 48)).length 48 :=
    List.eq_replicate_iff.mpr ⟨rfl, fun c hc => by simpa using List.mem_rtakeWhile_imp hc⟩
  rw [← hzeros, List.rdropWhile_append_rtakeWhile]

/-- **The significant digits**, and the number that they write. -/
theorem significant_spec {p : ℕ} (hp : 0 < p) {x : ℚ} (hx : 0 < x) :
    10 ^ (p - 1) ≤ (significant p x).1 ∧ (significant p x).1 < 10 ^ p ∧
      ((significant p x).1 : ℚ) * 10 ^ ((significant p x).2 + 1 - p) = roundAt (digitUnit 10 p x) x := by
  obtain ⟨hlow, hhigh⟩ := digits_nearest (b := 10) (p := p) (by decide) hp hx
  push_cast at hlow hhigh
  generalize hn : nearest (x / digitUnit 10 p x) = n at hlow hhigh
  have hround : roundAt (digitUnit 10 p x) x = n * 10 ^ (Int.log 10 x - (p - 1)) := by
    rw [roundAt, hn, digitUnit, Nat.cast_ofNat]
  have hnat : ((n.toNat : ℕ) : ℤ) = n := Int.toNat_of_nonneg (le_trans (by positivity) hlow)
  have hnatq : ((n.toNat : ℕ) : ℚ) = n := by exact_mod_cast hnat
  have hlow' : 10 ^ (p - 1) ≤ n.toNat := by
    rw [← hnat] at hlow
    exact_mod_cast hlow
  have hhigh' : n.toNat ≤ 10 ^ p := by
    rw [← hnat] at hhigh
    exact_mod_cast hhigh
  unfold significant
  dsimp only
  rw [hn, hround]
  split_ifs with hcarry
  · -- all digits were rounded up
    refine ⟨le_rfl, Nat.pow_lt_pow_right (by decide) (by omega), ?_⟩
    have hten : (n : ℚ) = 10 ^ ((p - 1 : ℕ) : ℤ) * 10 := by
      rw [← hnatq, hcarry, zpow_natCast, ← pow_succ, Nat.sub_add_cancel hp]
      push_cast
      rfl
    dsimp only
    rw [hten, show Int.log 10 x + 1 + 1 - (p : ℤ) = Int.log 10 x - (p - 1) + 1 by ring, zpow_add_one₀ (by norm_num)]
    push_cast
    rw [← zpow_natCast]
    ring
  · refine ⟨hlow', lt_of_le_of_ne hhigh' hcarry, ?_⟩
    dsimp only
    rw [hnatq, show Int.log 10 x + 1 - (p : ℤ) = Int.log 10 x - (p - 1) by ring]

/-! ## Reading what was written -/

theorem isdigit_toNat {c : UInt8} (h : isdigit c = true) : 48 ≤ c.toNat ∧ c.toNat ≤ 57 := by
  simpa only [isdigit, decide_eq_true_eq] using h

theorem unsign_digit {c : UInt8} (hc : isdigit c = true) (s : List UInt8) : unsign (c :: s) = c :: s := by
  have hrange := isdigit_toNat hc
  unfold unsign
  split
  · rename_i heq
    obtain rfl := (List.cons.inj heq).1
    exact absurd hrange (by decide)
  · rename_i heq
    obtain rfl := (List.cons.inj heq).1
    exact absurd hrange (by decide)
  · rfl

section Reading

variable {whole fraction rest : List UInt8}

theorem strtodDigits_pointed (hw : ∀ c ∈ whole, isdigit c = true) (hf : ∀ c ∈ fraction, isdigit c = true)
    (hrest : Stops isdigit rest) (hpoint : rest.head? ≠ some 46) :
    strtodDigits (pointed whole fraction ++ rest) = (whole, fraction, rest) := by
  unfold strtodDigits pointed
  split_ifs with hnil
  · rw [hnil, List.append_nil, takeWhile_run hw hrest, dropWhile_run hw hrest]
    split
    · exact absurd rfl hpoint
    · rfl
  · have hstop : Stops isdigit (46 :: fraction ++ rest) := .cons (by decide)
    rw [List.append_assoc, takeWhile_run hw hstop, dropWhile_run hw hstop]
    show (whole, (fraction ++ rest).takeWhile isdigit, (fraction ++ rest).dropWhile isdigit) = _
    rw [takeWhile_run hf hrest, dropWhile_run hf hrest]

theorem strtodExponent_exponentText (e : ℤ) : strtodExponent (exponentText e) = (e, []) := by
  have hdigits : ∀ c ∈ (if e.natAbs < 10 then [48] else []) ++ decimal e.natAbs, isdigit c = true := by
    refine isdigit_append (fun c hc => ?_) (isdigit_of_mem_decimal _)
    split_ifs at hc
    · rw [List.mem_singleton.mp hc]
      rfl
    · cases hc
  have hvalue : digitsValue ((if e.natAbs < 10 then [48] else []) ++ decimal e.natAbs) = e.natAbs := by
    rw [digitsValue_append, digitsValue_decimal]
    split_ifs
    · rw [show digitsValue [48] = 0 from rfl, Nat.zero_mul, Nat.zero_add]
    · rw [show digitsValue [] = 0 from rfl, Nat.zero_mul, Nat.zero_add]
  have hne : (if e.natAbs < 10 then [48] else []) ++ decimal e.natAbs ≠ [] :=
    List.append_ne_nil_of_right_ne_nil _ (decimal_ne_nil _)
  rw [exponentText]
  generalize (if e.natAbs < 10 then [48] else []) ++ decimal e.natAbs = digits at hdigits hvalue hne
  have htake : digits.takeWhile isdigit = digits := List.takeWhile_eq_self_iff.mpr hdigits
  have hdrop : digits.dropWhile isdigit = [] := List.dropWhile_eq_nil_iff.mpr hdigits
  unfold strtodExponent
  dsimp only
  by_cases hneg : e < 0
  · rw [if_pos hneg]
    simp only [unsign, htake, hdrop, hvalue, List.head?_cons]
    rw [if_pos ⟨.inr trivial, hne⟩, if_pos trivial]
    congr 1
    omega
  · rw [if_neg hneg]
    simp only [unsign, htake, hdrop, hvalue, List.head?_cons]
    rw [if_pos ⟨.inr trivial, hne⟩, if_neg (by decide)]
    congr 1
    omega

theorem strtod_pointed (P : Prop) [Decidable P] (hw : ∀ c ∈ whole, isdigit c = true)
    (hf : ∀ c ∈ fraction, isdigit c = true) (hne : whole ≠ []) {e : ℤ} {exponent : List UInt8}
    (hexp : exponent = [] ∧ e = 0 ∨ exponent = exponentText e) :
    strtod ((if P then [45] else []) ++ (pointed whole fraction ++ exponent)) =
      some (Double.round (if P then -(digitsValue (whole ++ fraction) * 10 ^ (e - fraction.length))
        else digitsValue (whole ++ fraction) * 10 ^ (e - fraction.length)), []) := by
  have hread : strtodExponent exponent = (e, []) ∧ Stops isdigit exponent ∧ exponent.head? ≠ some 46 := by
    rcases hexp with ⟨rfl, rfl⟩ | rfl
    · exact ⟨rfl, .nil, nofun⟩
    · exact ⟨strtodExponent_exponentText e, .cons (by decide), by rw [exponentText, List.head?_cons]; decide⟩
  obtain ⟨c, w, rfl⟩ := List.exists_cons_of_ne_nil hne
  have hc := hw c List.mem_cons_self
  have hcons : pointed (c :: w) fraction ++ exponent = c :: (pointed w fraction ++ exponent) := by
    rw [pointed, List.cons_append, List.cons_append]
    rfl
  have hunsign : unsign ((if P then [45] else []) ++ (pointed (c :: w) fraction ++ exponent)) =
      pointed (c :: w) fraction ++ exponent := by
    split_ifs
    · rfl
    · rw [List.nil_append, hcons, unsign_digit hc]
  have hsign : ((if P then [45] else []) ++ (pointed (c :: w) fraction ++ exponent)).head? = some 45 ↔ P := by
    split_ifs with hP
    · exact iff_of_true rfl hP
    · refine iff_of_false (fun h => ?_) hP
      rw [List.nil_append, hcons, List.head?_cons, Option.some.injEq] at h
      rw [h] at hc
      exact absurd hc (by decide)
  unfold strtod
  rw [hunsign, strtodDigits_pointed hw hf hread.2.1 hread.2.2]
  dsimp only
  rw [if_neg (List.append_ne_nil_of_left_ne_nil hne _), hread.1]
  simp only [hsign]

theorem styled_eq {ds : List UInt8} (hds : ∀ c ∈ ds, isdigit c = true) (hne : ds ≠ []) (p : ℕ) (e : ℤ) :
    ∃ whole fraction exponent e', styled p ds e = pointed whole fraction ++ exponent ∧ (∀ c ∈ whole, isdigit c = true) ∧
      (∀ c ∈ fraction, isdigit c = true) ∧ whole ≠ [] ∧ (exponent = [] ∧ e' = 0 ∨ exponent = exponentText e') ∧
      (digitsValue (whole ++ fraction) * 10 ^ (e' - fraction.length) : ℚ) =
        digitsValue ds * 10 ^ (e + 1 - ds.length) := by
  have hpos := List.length_pos_of_ne_nil hne
  have htake : ∀ k, ∀ c ∈ ds.take k, isdigit c = true := fun k c hc => hds c (List.mem_of_mem_take hc)
  have hdrop : ∀ k, ∀ c ∈ ds.drop k, isdigit c = true := fun k c hc => hds c (List.mem_of_mem_drop hc)
  unfold styled
  split_ifs with hexp hneg
  · -- one digit before the point
    have hone : ds.take 1 ≠ [] := by
      rw [Ne, List.take_eq_nil_iff]
      exact fun h => h.elim (by decide) hne
    refine ⟨_, _, _, e, rfl, htake 1, hdrop 1, hone, .inr rfl, ?_⟩
    rw [List.take_append_drop, List.length_drop]
    congr 2
    omega
  · -- zeros behind the point
    have hzero : ∀ c ∈ [(48 : UInt8)], isdigit c = true := List.forall_mem_singleton.mpr rfl
    refine ⟨_, _, [], 0, (List.append_nil _).symm, hzero, isdigit_append (isdigit_zeros _) hds, List.cons_ne_nil _ _,
      .inl ⟨rfl, rfl⟩, ?_⟩
    have hvalue : digitsValue ([48] ++ (List.replicate (-e - 1).toNat 48 ++ ds)) = digitsValue ds := by
      rw [digitsValue_append, digitsValue_append, digitsValue_zeros, show digitsValue [48] = 0 from rfl, Nat.zero_mul,
        Nat.zero_mul, Nat.zero_add, Nat.zero_add]
    rw [hvalue, List.length_append, List.length_replicate]
    congr 2
    omega
  · have hwhole : ds.take (e + 1).toNat ++ List.replicate ((e + 1).toNat - ds.length) 48 ≠ [] := by
      refine List.append_ne_nil_of_left_ne_nil ?_ _
      rw [Ne, List.take_eq_nil_iff]
      exact fun h => h.elim (by omega) hne
    refine ⟨_, _, [], 0, (List.append_nil _).symm, isdigit_append (htake _) (isdigit_zeros _), hdrop _, hwhole,
      .inl ⟨rfl, rfl⟩, ?_⟩
    rcases le_or_gt ds.length (e + 1).toNat with hle | hgt
    · -- zeros before the point
      rw [List.take_of_length_le hle, List.drop_of_length_le hle, List.append_nil, digitsValue_append,
        digitsValue_zeros, List.length_replicate, List.length_nil, Nat.cast_zero, sub_zero, zpow_zero]
      push_cast
      rw [add_zero, mul_one, ← zpow_natCast]
      congr 2
      omega
    · rw [show (e + 1).toNat - ds.length = 0 by omega, List.replicate_zero, List.append_nil, List.take_append_drop,
        List.length_drop]
      congr 2
      omega

/-- **A text in the style of `%g`** is read as its digits and its exponent say. -/
theorem strtod_styled (P : Prop) [Decidable P] {ds : List UInt8} (hds : ∀ c ∈ ds, isdigit c = true) (hne : ds ≠ [])
    (p : ℕ) (e : ℤ) : strtod ((if P then [45] else []) ++ styled p ds e) =
      some (Double.round (if P then -(digitsValue ds * 10 ^ (e + 1 - ds.length))
        else digitsValue ds * 10 ^ (e + 1 - ds.length)), []) := by
  obtain ⟨whole, fraction, exponent, e', hstyled, hw, hf, hwne, hexp, hvalue⟩ := styled_eq hds hne p e
  rw [hstyled, strtod_pointed P hw hf hwne hexp, hvalue]

end Reading

theorem strip_decimal {n : ℕ} (hn : 0 < n) : ∃ z, decimal n = (decimal n).rdropWhile (· = 48) ++ List.replicate z 48 ∧
    (∀ c ∈ (decimal n).rdropWhile (· = 48), isdigit c = true) ∧ (decimal n).rdropWhile (· = 48) ≠ [] ∧
      digitsValue ((decimal n).rdropWhile (· = 48)) * 10 ^ z = n := by
  obtain ⟨z, hz⟩ := rdropWhile_zeros (decimal n)
  have hvalue : digitsValue ((decimal n).rdropWhile (· = 48)) * 10 ^ z = n := by
    have h := digitsValue_decimal n
    rwa [hz, digitsValue_append, digitsValue_zeros, Nat.add_zero, List.length_replicate] at h
  refine ⟨z, hz, fun c hc => isdigit_of_mem_decimal n c ((List.rdropWhile_prefix _ _).subset hc), fun hnil => ?_,
    hvalue⟩
  rw [hnil, show digitsValue [] = 0 from rfl, Nat.zero_mul] at hvalue
  omega

/-- **What `%g` writes is read as the number rounded to its digits.** -/
theorem strtod_sprintfG {p : ℕ} (hp : 0 < p) {q : ℚ} (hq : q ≠ 0) :
    ∃ y, strtod (sprintfG p q) = some (Double.round y, []) ∧
    |y - q| ≤ digitUnit 10 p |q| / 2 := by
  have hpos : 0 < |q| := abs_pos.mpr hq
  obtain ⟨hlow, hhigh, hvalue⟩ := significant_spec hp hpos
  obtain ⟨z, hz, hds, hne, hstrip⟩ := strip_decimal (lt_of_lt_of_le (Nat.pow_pos (by decide)) hlow)
  have hlen := length_decimal hp hlow hhigh
  rw [hz, List.length_append, List.length_replicate] at hlen
  rw [sprintfG, if_neg hq]
  dsimp only
  refine ⟨_, strtod_styled (q < 0) hds hne p (significant p |q|).2, ?_⟩
  generalize (decimal (significant p |q|).1).rdropWhile (· = 48) = ds at hstrip hlen
  have hround : (digitsValue ds * 10 ^ ((significant p |q|).2 + 1 - ds.length) : ℚ) =
    roundAt (digitUnit 10 p |q|) |q| := by
    rw [← hvalue, ← hstrip]
    push_cast
    rw [mul_assoc, ← zpow_natCast, ← zpow_add₀ (by norm_num)]
    congr 2
    omega
  rw [hround]
  have hclose := abs_roundAt_sub_le (digitUnit_pos (p := p) (x := |q|) (by decide : 1 < 10)) |q|
  rcases lt_or_ge q 0 with hneg | hnonneg
  · rw [if_pos hneg]
    rw [abs_of_neg hneg] at hclose ⊢
    rwa [show -roundAt (digitUnit 10 p (-q)) (-q) - q = -(roundAt (digitUnit 10 p (-q)) (-q) - -q) by ring, abs_neg]
  · rw [if_neg (not_lt.mpr hnonneg)]
    rwa [abs_of_nonneg hnonneg] at hclose ⊢

/-! ## What is left of a text -/

theorem length_unsign_le (s : List UInt8) : (unsign s).length ≤ s.length := by
  unfold unsign
  split
  · exact Nat.le_succ _
  · exact Nat.le_succ _
  · exact le_rfl

theorem length_strtodExponent_le (s : List UInt8) : (strtodExponent s).2.length ≤ s.length := by
  cases s with
  | nil => exact le_rfl
  | cons c t =>
    have hdrop := (List.dropWhile_suffix (l := unsign t) isdigit).length_le
    have hunsign := length_unsign_le t
    unfold strtodExponent
    dsimp only
    by_cases hexp : (c = 69 ∨ c = 101) ∧ (unsign t).takeWhile isdigit ≠ []
    · rw [if_pos hexp, List.length_cons]
      dsimp only
      omega
    · rw [if_neg hexp]

theorem length_strtodDigits (s : List UInt8) : (strtodDigits s).1.length + (strtodDigits s).2.1.length +
    (strtodDigits s).2.2.length ≤ s.length := by
  have hsplit : ∀ t : List UInt8, (t.takeWhile isdigit).length + (t.dropWhile isdigit).length = t.length := fun t => by
    rw [← List.length_append, List.takeWhile_append_dropWhile]
  have hs := hsplit s
  unfold strtodDigits
  split
  · rename_i t heq
    rw [heq, List.length_cons] at hs
    have ht := hsplit t
    dsimp only
    omega
  · dsimp only
    rw [List.length_nil]
    omega

theorem length_strtod_lt {s t : List UInt8} {d : Double} (h : strtod s = some (d, t)) : t.length < s.length := by
  have hunsign := length_unsign_le s
  have hdigits := length_strtodDigits (unsign s)
  have hexp := length_strtodExponent_le (strtodDigits (unsign s)).2.2
  unfold strtod at h
  dsimp only at h
  by_cases hnil : (strtodDigits (unsign s)).1 ++ (strtodDigits (unsign s)).2.1 = []
  · rw [if_pos hnil] at h
    cases h
  · rw [if_neg hnil] at h
    have hpos := List.length_pos_of_ne_nil hnil
    rw [List.length_append] at hpos
    obtain ⟨-, rfl⟩ := Prod.mk.inj (Option.some.inj h)
    omega

/-! ## The characters of a number -/

/-- A character that `parse_number` takes over. -/
def numberChar (c : UInt8) : Bool := isdigit c || c = 43 || c = 45 || c = 46 || c = 69 || c = 101

theorem numberChar_of_isdigit {c : UInt8} (h : isdigit c = true) : numberChar c = true := by
  rw [numberChar, h]
  rfl

theorem numberChar_pointed {whole fraction : List UInt8} (hw : ∀ c ∈ whole, isdigit c = true)
    (hf : ∀ c ∈ fraction, isdigit c = true) : ∀ c ∈ pointed whole fraction, numberChar c = true := by
  intro c hc
  unfold pointed at hc
  split_ifs at hc
  · rw [List.append_nil] at hc
    exact numberChar_of_isdigit (hw c hc)
  · rcases List.mem_append.mp hc with hc | hc
    · exact numberChar_of_isdigit (hw c hc)
    · rcases List.mem_cons.mp hc with rfl | hc
      · rfl
      · exact numberChar_of_isdigit (hf c hc)

theorem numberChar_exponentText (e : ℤ) : ∀ c ∈ exponentText e, numberChar c = true := by
  intro c hc
  rw [exponentText, List.mem_cons, List.mem_cons, List.mem_append] at hc
  rcases hc with rfl | rfl | hc | hc
  · rfl
  · split_ifs <;> rfl
  · split_ifs at hc
    · rw [List.mem_singleton.mp hc]
      rfl
    · cases hc
  · exact numberChar_of_isdigit (isdigit_of_mem_decimal _ c hc)

/-- What `%g` writes begins with a sign or a digit, and consists of the characters that are read back. -/
theorem sprintfG_chars {p : ℕ} (hp : 0 < p) (q : ℚ) : (∀ c ∈ sprintfG p q, numberChar c = true) ∧
    ∃ c t, sprintfG p q = c :: t ∧ (c = 45 ∨ isdigit c = true) := by
  by_cases hq : q = 0
  · rw [sprintfG, if_pos hq]
    exact ⟨List.forall_mem_singleton.mpr rfl, 48, [], rfl, .inr rfl⟩
  · obtain ⟨hlow, -, -⟩ := significant_spec hp (abs_pos.mpr hq)
    obtain ⟨-, -, hds, hne, -⟩ := strip_decimal (lt_of_lt_of_le (Nat.pow_pos (by decide)) hlow)
    obtain ⟨whole, fraction, exponent, e, hstyled, hw, hf, hwne, hexp, -⟩ := styled_eq hds hne p (significant p |q|).2
    rw [sprintfG, if_neg hq]
    dsimp only
    rw [hstyled]
    constructor
    · intro c hc
      rw [List.mem_append, List.mem_append] at hc
      rcases hc with hc | hc | hc
      · split_ifs at hc
        · rw [List.mem_singleton.mp hc]
          rfl
        · cases hc
      · exact numberChar_pointed hw hf c hc
      · rcases hexp with ⟨rfl, -⟩ | rfl
        · cases hc
        · exact numberChar_exponentText e c hc
    · obtain ⟨c, w, rfl⟩ := List.exists_cons_of_ne_nil hwne
      split_ifs
      · exact ⟨45, _, rfl, .inl rfl⟩
      · exact ⟨c, _, rfl, .inr (hw c List.mem_cons_self)⟩

theorem length_styled {p : ℕ} {ds : List UInt8} (hne : ds ≠ []) (hds : ds.length ≤ p) {e : ℤ} (he : e.natAbs < 1000) :
    (styled p ds e).length ≤ p + 6 := by
  have hpos := List.length_pos_of_ne_nil hne
  have hexp : (exponentText e).length ≤ 5 := by
    have hlen := decimal_length_le (k := 3) (by decide) (n := e.natAbs) (by omega)
    rw [exponentText, List.length_cons, List.length_cons, List.length_append]
    split_ifs with hten
    · have := decimal_length_le (k := 1) (by decide) (n := e.natAbs) (by omega)
      rw [List.length_singleton]
      omega
    · rw [List.length_nil]
      omega
  have hpointed : ∀ whole fraction, (pointed whole fraction).length ≤ whole.length + fraction.length + 1 := by
    intro whole fraction
    unfold pointed
    split_ifs <;> simp only [List.length_append, List.length_nil, List.length_cons] <;> omega
  unfold styled
  split_ifs with hsmall hneg
  · have := hpointed (ds.take 1) (ds.drop 1)
    rw [List.length_take, List.length_drop] at this
    rw [List.length_append]
    omega
  · have := hpointed [48] (List.replicate (-e - 1).toNat 48 ++ ds)
    rw [List.length_singleton, List.length_append, List.length_replicate] at this
    omega
  · have := hpointed (ds.take (e + 1).toNat ++ List.replicate ((e + 1).toNat - ds.length) 48) (ds.drop (e + 1).toNat)
    rw [List.length_append, List.length_take, List.length_replicate, List.length_drop] at this
    omega

theorem Double.Binary64.log_range {q : ℚ} (h : (Double.fin q).Binary64) (hq : q ≠ 0) :
    -324 ≤ Int.log 10 |q| ∧ Int.log 10 |q| < 309 := by
  have hpos : 0 < |q| := abs_pos.mpr hq
  constructor
  · obtain ⟨m, e, -, he, -, rfl⟩ := h
    have hm : m ≠ 0 := by
      rintro rfl
      exact hq (by rw [Int.cast_zero, zero_mul])
    have hone : (1 : ℚ) ≤ |(m : ℚ)| := by exact_mod_cast Int.one_le_abs hm
    rw [← Int.zpow_le_iff_le_log (by decide) hpos]
    have hten : (2 : ℚ) ^ 1074 ≤ 10 ^ 324 := by exact_mod_cast (by decide +kernel : 2 ^ 1074 ≤ 10 ^ 324)
    calc (((10 : ℕ) : ℚ) ^ (-324 : ℤ)) = (10 ^ 324)⁻¹ := by rw [Nat.cast_ofNat, zpow_neg, zpow_ofNat]
      _ ≤ (2 ^ 1074)⁻¹ := inv_anti₀ (by positivity) hten
      _ = 2 ^ (-1074 : ℤ) := by rw [zpow_neg, zpow_ofNat]
      _ ≤ 2 ^ e := zpow_le_zpow_right₀ (by norm_num) he
      _ ≤ |(m : ℚ)| * 2 ^ e := le_mul_of_one_le_left (zpow_nonneg (by norm_num) e) hone
      _ = |(m : ℚ) * 2 ^ e| := by rw [abs_mul, abs_of_pos (zpow_pos (by norm_num : (0 : ℚ) < 2) e)]
  · have hten : (2 : ℚ) ^ 1024 ≤ 10 ^ 309 := by exact_mod_cast (by decide +kernel : 2 ^ 1024 ≤ 10 ^ 309)
    rw [← Int.lt_zpow_iff_log_lt (by decide) hpos, Nat.cast_ofNat, zpow_ofNat]
    exact (h.grid hq).2.trans_le hten

theorem length_sprintfG {p : ℕ} (hp : 0 < p) {q : ℚ} (h : (Double.fin q).Binary64) : (sprintfG p q).length ≤ p + 7 := by
  by_cases hq : q = 0
  · rw [sprintfG, if_pos hq, List.length_singleton]
    omega
  · obtain ⟨hlow, hhigh, -⟩ := significant_spec hp (abs_pos.mpr hq)
    obtain ⟨z, hz, -, hne, -⟩ := strip_decimal (lt_of_lt_of_le (Nat.pow_pos (by decide)) hlow)
    have hlen := length_decimal hp hlow hhigh
    rw [hz, List.length_append] at hlen
    have hexp : (significant p |q|).2.natAbs < 1000 := by
      obtain ⟨hlog₁, hlog₂⟩ := h.log_range hq
      unfold significant
      dsimp only
      split_ifs <;> dsimp only <;> omega
    have := length_styled hne (Nat.le.intro hlen) hexp
    rw [sprintfG, if_neg hq]
    dsimp only
    rw [List.length_append]
    split_ifs
    · rw [List.length_singleton]
      omega
    · rw [List.length_nil]
      omega

theorem strtod_zero : strtod [48] = some (.fin 0, []) := by
  have hnil : ∀ c ∈ ([] : List UInt8), isdigit c = true := fun c hc => absurd hc List.not_mem_nil
  have hzero : ∀ c ∈ [(48 : UInt8)], isdigit c = true := List.forall_mem_singleton.mpr rfl
  have h := strtod_pointed False hzero hnil (List.cons_ne_nil _ _) (.inl ⟨rfl, rfl⟩)
  rw [if_neg not_false, if_neg not_false, show digitsValue ([48] ++ []) = 0 from rfl, Nat.cast_zero, zero_mul,
    Double.round_zero] at h
  exact h

/-- **A number is read back from its text**: with 15 digits where the program has tried it, else with 17. -/
theorem printNumber_fin {q : ℚ} (h : (Double.fin q).Binary64) : ∃ p, 0 < p ∧ p ≤ 17 ∧
    printNumber (some (.fin q)) = some (sprintfG p q) ∧ strtod (sprintfG p q) = some (.fin q, []) := by
  have hlen : ∀ p, 0 < p → p ≤ 17 → ¬ 25 < (sprintfG p q).length := by
    intro p hp hle
    have := length_sprintfG hp h
    omega
  by_cases hq : q = 0
  · have hread : strtod (sprintfG 15 q) = some (.fin q, []) := by rw [hq, sprintfG, if_pos rfl, strtod_zero]
    refine ⟨15, by decide, by decide, ?_, hread⟩
    simp only [printNumber, hread, Option.map_some, if_true, if_neg (hlen 15 (by decide) (by decide))]
  · obtain ⟨y, hy, -⟩ := strtod_sprintfG (p := 15) (by decide) hq
    obtain ⟨z, hz, hclose⟩ := strtod_sprintfG (p := 17) (by decide) hq
    by_cases h15 : Double.round y = .fin q
    · rw [h15] at hy
      refine ⟨15, by decide, by decide, ?_, hy⟩
      simp only [printNumber, hy, Option.map_some, if_true, if_neg (hlen 15 (by decide) (by decide))]
    · refine ⟨17, by decide, le_rfl, ?_, by rw [hz, h.round_of_close hq hclose]⟩
      simp only [printNumber, hy, Option.map_some, Option.some.injEq, if_neg h15, if_neg (hlen 17 (by decide) le_rfl)]

namespace Double

theorem round_binary64 (q : ℚ) : (Double.round q).Binary64 := by
  have hu : (0 : ℚ) < unit 2 53 (-1074) |q| := unit_pos (by decide)
  have hunit : unit 2 53 (-1074) |q| = 2 ^ max (Int.log 2 |q| - 52) (-1074) := by
    rw [unit, Nat.cast_ofNat]
    norm_num
  have hsign : ∀ r : ℚ, (Double.fin r).Binary64 → (Double.fin (if q < 0 then -r else r)).Binary64 := by
    rintro r ⟨m, e, hm, he₁, he₂, rfl⟩
    split_ifs
    · exact ⟨-m, e, by rwa [abs_neg], he₁, he₂, by push_cast; ring⟩
    · exact ⟨m, e, hm, he₁, he₂, rfl⟩
  unfold Double.round
  dsimp only
  by_cases hinf : 2 ^ 1024 ≤ roundAt (unit 2 53 (-1074) |q|) |q|
  · rw [if_pos hinf]
    split_ifs <;> trivial
  · rw [if_neg hinf]
    refine hsign _ ?_
    rw [not_le] at hinf
    have hlow : 0 ≤ nearest (|q| / unit 2 53 (-1074) |q|) :=
      le_nearest (by rw [Int.cast_zero]; exact div_nonneg (abs_nonneg q) hu.le)
    have hhigh : nearest (|q| / unit 2 53 (-1074) |q|) ≤ 2 ^ 53 := by
      refine nearest_le ?_
      rw [div_le_iff₀ hu]
      exact_mod_cast (lt_pow_mul_unit (K := ℚ) (b := 2) (p := 53) (e := -1074) (x := |q|) (by decide)).le
    have hbig : 971 < max (Int.log 2 |q| - 52) (-1074) → 2 ^ 52 ≤ nearest (|q| / unit 2 53 (-1074) |q|) := by
      intro hlast
      refine le_nearest ?_
      have hpos : 0 < |q| := by
        refine lt_of_le_of_ne (abs_nonneg q) fun hzero => ?_
        rw [← hzero, Int.log_zero_right] at hlast
        omega
      rw [le_div_iff₀ hu, hunit]
      push_cast
      calc (2 : ℚ) ^ 52 * 2 ^ max (Int.log 2 |q| - 52) (-1074) = ((2 : ℕ) : ℚ) ^ Int.log 2 |q| := by
            rw [← zpow_natCast, ← zpow_add₀ (by norm_num), Nat.cast_ofNat]
            congr 1
            omega
        _ ≤ |q| := Int.zpow_log_le_self (by decide) hpos
    have hmin : -1074 ≤ max (Int.log 2 |q| - 52) (-1074) := le_max_right _ _
    unfold roundAt at hinf ⊢
    rw [hunit] at hinf hlow hhigh hbig ⊢
    generalize max (Int.log 2 |q| - 52) (-1074) = e at *
    generalize nearest (|q| / 2 ^ e) = n at *
    have htop : ∀ (m : ℤ) (k : ℕ), 2 ^ k ≤ m → 1024 ≤ k + e → (2 : ℚ) ^ 1024 ≤ m * 2 ^ e := by
      intro m k hm hk
      calc (2 : ℚ) ^ 1024 = 2 ^ (1024 : ℤ) := by rw [zpow_ofNat]
        _ ≤ 2 ^ (k + e) := zpow_le_zpow_right₀ (by norm_num) hk
        _ = 2 ^ k * 2 ^ e := by rw [zpow_add₀ (by norm_num), zpow_natCast]
        _ ≤ m * 2 ^ e := mul_le_mul_of_nonneg_right (by exact_mod_cast hm) (zpow_nonneg (by norm_num) e)
    rcases lt_or_eq_of_le hhigh with hlt | rfl
    · refine ⟨n, e, by rwa [abs_of_nonneg hlow], hmin, ?_, rfl⟩
      by_contra hlarge
      exact absurd (htop n 52 (hbig (not_le.mp hlarge)) (by omega)) (not_le.mpr hinf)
    · -- rounded up to one more digit
      refine ⟨2 ^ 52, e + 1, by decide, by omega, ?_, ?_⟩
      · by_contra hlarge
        exact absurd (htop (2 ^ 53) 53 le_rfl (by omega)) (not_le.mpr hinf)
      · rw [zpow_add_one₀ (by norm_num)]
        push_cast
        ring

end Double

end Sarah
