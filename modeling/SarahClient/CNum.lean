import SarahClient.CInt
import Mathlib.Data.List.Induction
import Mathlib.Data.List.TakeWhile

/-!
# Numbers in decimal

* `strtoll`, `atoi`: reading a number from a C string;
* `decimalInt`: a number as `%d` and `%lld` write it;
* **`strtoll_digits`**: a run of digits is read as its number;
* **`strtoll_decimalInt`**, **`atoi_decimalInt_iff`**: what is read back.
-/

namespace Sarah

/-- `isspace` in the C locale. -/
def isspace (c : UInt8) : Bool := c = 32 ∨ (9 ≤ c.toNat ∧ c.toNat ≤ 13)

/-- `isdigit` in the C locale. -/
def isdigit (c : UInt8) : Bool := 48 ≤ c.toNat ∧ c.toNat ≤ 57

/-- The number that a run of digits writes. -/
def digitsValue (s : List UInt8) : ℕ := s.foldl (fun n c => 10 * n + (c.toNat - 48)) 0

/-- `strtoll(s, NULL, 10)`, which saturates. -/
def strtoll (s : List UInt8) : ℤ :=
  let clamp (n : ℤ) := max (-2 ^ 63) (min (2 ^ 63 - 1) n)
  match s.dropWhile isspace with
  | 45 :: s => clamp (-digitsValue (s.takeWhile isdigit))
  | 43 :: s => clamp (digitsValue (s.takeWhile isdigit))
  | s => clamp (digitsValue (s.takeWhile isdigit))

/-- `atoi` of the C string in a buffer: `(int) strtol(..)`. -/
def atoi (buffer : List UInt8) : ℤ := i32 (strtoll (cstr buffer))

/-- A number as `printf` writes it. -/
def decimalInt (n : ℤ) : List UInt8 := if n < 0 then 45 :: decimal n.natAbs else decimal n.natAbs

/-! ## Digits -/

theorem decimal_of_lt {n : ℕ} (h : n < 10) : decimal n = [UInt8.ofNat (48 + n)] := by
  rw [decimal, Nat.toDigits_of_lt_base h, List.map_singleton, Nat.toNat_digitChar_of_lt_ten h]

theorem decimal_of_le {n : ℕ} (h : 10 ≤ n) : decimal n = decimal (n / 10) ++ [UInt8.ofNat (48 + n % 10)] := by
  rw [decimal, Nat.toDigits_of_base_le (by decide) h, List.map_append, List.map_singleton,
    Nat.toNat_digitChar_of_lt_ten (Nat.mod_lt n (by decide)), decimal]

theorem digit_toNat {d : ℕ} (h : d < 10) : (UInt8.ofNat (48 + d)).toNat = 48 + d := by
  rw [UInt8.toNat_ofNat']
  omega

theorem isdigit_of_mem_decimal (n : ℕ) : ∀ c ∈ decimal n, isdigit c = true := by
  have hdigit : ∀ d < 10, isdigit (UInt8.ofNat (48 + d)) = true := by
    intro d hd
    simp only [isdigit, digit_toNat hd, decide_eq_true_eq]
    omega
  induction n using Nat.strong_induction_on with
  | _ n ih =>
    intro c hc
    rcases Nat.lt_or_ge n 10 with h | h
    · rw [decimal_of_lt h, List.mem_singleton] at hc
      rw [hc]
      exact hdigit n h
    · rw [decimal_of_le h, List.mem_append, List.mem_singleton] at hc
      rcases hc with hc | rfl
      · exact ih (n / 10) (by omega) c hc
      · exact hdigit (n % 10) (Nat.mod_lt n (by decide))

theorem digitsValue_decimal (n : ℕ) : digitsValue (decimal n) = n := by
  induction n using Nat.strong_induction_on with
  | _ n ih =>
    rcases Nat.lt_or_ge n 10 with h | h
    · rw [decimal_of_lt h, digitsValue, List.foldl_cons, List.foldl_nil, digit_toNat h]
      omega
    · have hrec := ih (n / 10) (by omega)
      rw [digitsValue] at hrec
      rw [decimal_of_le h, digitsValue, List.foldl_append, hrec, List.foldl_cons, List.foldl_nil,
        digit_toNat (Nat.mod_lt n (by decide))]
      omega

theorem decimal_ne_nil (n : ℕ) : decimal n ≠ [] := by
  unfold decimal
  rw [Ne, List.map_eq_nil_iff]
  exact Nat.toDigits_ne_nil

theorem decimal_length_le {k : ℕ} (hk : 0 < k) {n : ℕ} (h : n < 10 ^ k) : (decimal n).length ≤ k := by
  induction k generalizing n with
  | zero => omega
  | succ k ih =>
    rcases Nat.lt_or_ge n 10 with hn | hn
    · rw [decimal_of_lt hn, List.length_singleton]
      omega
    · have hpos : 0 < k := by
        rcases Nat.eq_zero_or_pos k with rfl | hpos
        · rw [Nat.zero_add, Nat.pow_one] at h
          omega
        · exact hpos
      have hdiv : n / 10 < 10 ^ k := by
        rw [Nat.pow_succ] at h
        omega
      rw [decimal_of_le hn, List.length_append, List.length_singleton]
      exact Nat.succ_le_succ (ih hpos hdiv)

theorem takeWhile_decimal (n : ℕ) : (decimal n).takeWhile isdigit = decimal n := by
  rw [List.takeWhile_eq_self_iff]
  exact isdigit_of_mem_decimal n

theorem decimal_eq_cons (n : ℕ) : ∃ c s, decimal n = c :: s ∧ isspace c = false ∧ c ≠ 45 ∧ c ≠ 43 := by
  obtain ⟨c, s, hcs⟩ := List.exists_cons_of_ne_nil (decimal_ne_nil n)
  refine ⟨c, s, hcs, ?_⟩
  have hc := isdigit_of_mem_decimal n c (by rw [hcs]; exact List.mem_cons_self)
  simp only [isdigit, decide_eq_true_eq] at hc
  simp only [isspace, decide_eq_false_iff_not, ne_eq, ← UInt8.toNat_inj]
  refine ⟨?_, ?_, ?_⟩
  · rintro (h | h)
    · rw [show (32 : UInt8).toNat = 32 from rfl] at h
      omega
    · omega
  · rw [show (45 : UInt8).toNat = 45 from rfl]
    omega
  · rw [show (43 : UInt8).toNat = 43 from rfl]
    omega

theorem zero_notMem_digits {s : List UInt8} (h : ∀ c ∈ s, isdigit c = true) : 0 ∉ s := fun hmem => by
  have hzero := h 0 hmem
  revert hzero
  decide

theorem zero_notMem_decimal (n : ℕ) : 0 ∉ decimal n := zero_notMem_digits (isdigit_of_mem_decimal n)

theorem zero_notMem_decimalInt (n : ℤ) : 0 ∉ decimalInt n := by
  unfold decimalInt
  split_ifs
  · rw [List.mem_cons, not_or]
    exact ⟨by decide, zero_notMem_decimal n.natAbs⟩
  · exact zero_notMem_decimal n.natAbs

theorem decimalInt_length_le {n : ℤ} (h₁ : -2 ^ 63 ≤ n) (h₂ : n < 2 ^ 63) : (decimalInt n).length ≤ 20 := by
  have hlen : (decimal n.natAbs).length ≤ 19 := decimal_length_le (by decide) (by omega)
  unfold decimalInt
  split_ifs
  · rw [List.length_cons]
    omega
  · omega

theorem decimalInt_ne_nil (n : ℤ) : decimalInt n ≠ [] := by
  unfold decimalInt
  split_ifs
  · exact List.cons_ne_nil _ _
  · exact decimal_ne_nil n.natAbs

/-! ## Reading -/

theorem digitsValue_lt {s : List UInt8} (h : ∀ c ∈ s, isdigit c = true) : digitsValue s < 10 ^ s.length := by
  induction s using List.reverseRecOn with
  | nil => exact Nat.one_pos
  | append_singleton s c ih =>
    have hrec := ih fun c' hc' => h c' (List.mem_append_left _ hc')
    have hc := h c (List.mem_append_right _ List.mem_cons_self)
    simp only [isdigit, decide_eq_true_eq] at hc
    unfold digitsValue at hrec ⊢
    rw [List.foldl_append, List.foldl_cons, List.foldl_nil, List.length_append, List.length_singleton, Nat.pow_succ]
    omega

/-- **A run of digits** is read as its number. -/
theorem strtoll_digits {s : List UInt8} (hne : s ≠ []) (h : ∀ c ∈ s, isdigit c = true) (hlt : digitsValue s < 2 ^ 63) :
    strtoll s = digitsValue s := by
  obtain ⟨c, t, rfl⟩ := List.exists_cons_of_ne_nil hne
  have hc := h c List.mem_cons_self
  simp only [isdigit, decide_eq_true_eq] at hc
  have hspace : isspace c = false := by
    simp only [isspace, decide_eq_false_iff_not, ← UInt8.toNat_inj, show (32 : UInt8).toNat = 32 from rfl]
    omega
  have htake : (c :: t).takeWhile isdigit = c :: t := List.takeWhile_eq_self_iff.mpr h
  unfold strtoll
  rw [List.dropWhile_cons_of_neg (by rw [hspace]; decide)]
  split
  · rename_i heq
    obtain rfl := (List.cons.inj heq).1
    exact absurd hc (by decide)
  · rename_i heq
    obtain rfl := (List.cons.inj heq).1
    exact absurd hc (by decide)
  · dsimp only
    rw [htake]
    omega

theorem atoi_digits {s : List UInt8} (hne : s ≠ []) (h : ∀ c ∈ s, isdigit c = true) (hlt : digitsValue s < 2 ^ 31) :
    atoi s = digitsValue s := by
  rw [atoi, cstr_of_notMem (zero_notMem_digits h), strtoll_digits hne h (by omega), i32_of_range (by omega) (by omega)]

/-- **A number of 64 bits is read back.** -/
theorem strtoll_decimalInt {n : ℤ} (h₁ : -2 ^ 63 ≤ n) (h₂ : n < 2 ^ 63) : strtoll (decimalInt n) = n := by
  obtain ⟨c, s, hcs, hspace, hminus, hplus⟩ := decimal_eq_cons n.natAbs
  have hvalue : digitsValue ((c :: s).takeWhile isdigit) = n.natAbs := by
    rw [← hcs, takeWhile_decimal, digitsValue_decimal]
  unfold decimalInt strtoll
  split_ifs with hneg
  · rw [hcs, List.dropWhile_cons_of_neg (by decide)]
    simp only [hvalue]
    omega
  · rw [hcs, List.dropWhile_cons_of_neg (by rw [hspace]; decide)]
    split
    · rename_i heq
      exact absurd (List.cons.inj heq).1 hminus
    · rename_i heq
      exact absurd (List.cons.inj heq).1 hplus
    · dsimp only
      rw [hvalue]
      omega

/-- **`atoi` reads exactly the numbers of 32 bits back.** -/
theorem atoi_decimalInt_iff {n : ℤ} (h₁ : -2 ^ 63 ≤ n) (h₂ : n < 2 ^ 63) (k : ℕ) :
    atoi (decimalInt n ++ List.replicate (k + 1) 0) = n ↔ -2 ^ 31 ≤ n ∧ n < 2 ^ 31 := by
  rw [atoi, List.replicate_succ, cstr_append_zero (zero_notMem_decimalInt n), strtoll_decimalInt h₁ h₂]
  constructor
  · intro h
    have := i32_range n
    omega
  · exact fun h => i32_of_range h.1 h.2

end Sarah
