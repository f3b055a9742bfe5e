import SarahClient.Hashmap.Hash

/-!
# The prime helpers of `cel_math.c` on all `int`s

A sum or product that is no `int` is `none`. `46340` is the largest number whose square is an `int`.

* `celIsPrime`, `celNextPrime`; `celIsPrime_nat`: where the hash map's `celIsPrime` is the same;
* `celIsPrime_prime`, `celIsPrime_square`, `celIsPrime_composite`: the test on odd numbers;
* `nextPrimeLoop_spec`: where the search ends;
* **`primeHelpers_iff`**: when the two are right.
-/

namespace Sarah.CelMath

/-! ## The code -/

/-- The loop of `cel_is_prime`, with at most `k` rounds. -/
def primeLoop (n : ℤ) : ℕ → ℤ → Option ℤ
  | 0, _ => none
  | k + 1, j =>
    if 2 ^ 31 ≤ j * j then none
    else if j * j < n then if n.tmod j = 0 then some 0 else primeLoop n k (j + 1)
    else some 1

/-- `cel_is_prime`; the product overflows at 46341, if the loop comes that far. -/
def celIsPrime (n : ℤ) : Option ℤ :=
  if n = 2 ∨ n = 3 then some 1 else if n ≤ 1 ∨ n.tmod 2 = 0 then some 0 else primeLoop n 46340 3

/-- The loop of `cel_next_prime`, with at most `k` rounds. -/
def nextPrimeLoop : ℕ → ℤ → Option ℤ
  | 0, _ => none
  | k + 1, n =>
    (celIsPrime n).bind fun r =>
      if r ≠ 0 then some n else if 2 ^ 31 ≤ n + 2 then none else nextPrimeLoop k (n + 2)

/-- `cel_next_prime`; the rounds are enough for all numbers from `n` to `INT_MAX`. -/
def celNextPrime (n : ℤ) : Option ℤ :=
  let n := if n.tmod 2 = 0 then n + 1 else n
  nextPrimeLoop (2 ^ 31 - n).toNat n

/-! ## The test -/

section Loop

variable {n k j : ℕ}

theorem primeLoop_divisor (hn : n < 2 ^ 31) (h : ∃ i, j ≤ i ∧ i * i < n ∧ i ∣ n) (hk : 46343 ≤ j + k) :
    primeLoop n k j = some 0 := by
  obtain ⟨i, hji, hlt, hdvd⟩ := h
  have hi : i < 46341 := by
    by_contra hge
    have hsq := Nat.mul_le_mul (Nat.not_lt.mp hge) (Nat.not_lt.mp hge)
    omega
  induction k generalizing j with
  | zero => omega
  | succ k ih =>
    have hjj : j * j < n := (Nat.mul_le_mul hji hji).trans_lt hlt
    rw [primeLoop, if_neg (by exact_mod_cast (by omega : ¬ 2 ^ 31 ≤ j * j)), if_pos (by exact_mod_cast hjj)]
    split_ifs with hmod
    · rfl
    · have hne : j ≠ i := by
        rintro rfl
        exact hmod (by exact_mod_cast Int.tmod_eq_zero_of_dvd (Int.natCast_dvd_natCast.mpr hdvd))
      exact_mod_cast @ih (j + 1) (by omega) (by omega)

/-- Without one, the loop ends at the first `j` whose square is not smaller, if this square is an `int`. -/
theorem primeLoop_none (hn : n ≤ 46340 ^ 2) (h : ∀ i, j ≤ i → i * i < n → ¬ i ∣ n) (hk : 46343 ≤ j + k)
    (hj : j ≤ 46340) : primeLoop n k j = some 1 := by
  induction k generalizing j with
  | zero => omega
  | succ k ih =>
    have hsq := Nat.mul_le_mul hj hj
    rw [primeLoop, if_neg (by exact_mod_cast (by omega : ¬ 2 ^ 31 ≤ j * j))]
    split_ifs with hjj hmod
    · refine absurd ?_ (h j le_rfl (by exact_mod_cast hjj))
      exact Int.natCast_dvd_natCast.mp (Int.dvd_of_tmod_eq_zero hmod)
    · have hlt : j ≠ 46340 := by
        rintro rfl
        norm_num at hjj
        omega
      exact_mod_cast @ih (j + 1) (fun i hi => h i (by omega)) (by omega) (by omega)
    · rfl

theorem primeLoop_overflow (hn : 46340 ^ 2 < n) (h : ∀ i, j ≤ i → i * i < n → ¬ i ∣ n) (hj : j ≤ 46341) :
    primeLoop n k j = none := by
  induction k generalizing j with
  | zero => rfl
  | succ k ih =>
    rw [primeLoop]
    split_ifs with hbig hjj hmod
    · rfl
    · refine absurd ?_ (h j le_rfl (by exact_mod_cast hjj))
      exact Int.natCast_dvd_natCast.mp (Int.dvd_of_tmod_eq_zero hmod)
    · have hlt : j ≠ 46341 := by
        rintro rfl
        norm_num at hbig
      exact_mod_cast @ih (j + 1) (fun i hi => h i (by omega)) (by omega)
    · have hlt : j ≠ 46341 := by
        rintro rfl
        norm_num at hbig
      have hsq := Nat.mul_le_mul (show j ≤ 46340 by omega) (show j ≤ 46340 by omega)
      exact absurd (by exact_mod_cast (by omega : j * j < n)) hjj

theorem celIsPrime_odd (hodd : n % 2 = 1) (h3 : 3 < n) : celIsPrime n = primeLoop n 46340 (3 : ℕ) := by
  have hmod : (n : ℤ).tmod 2 = (n % 2 : ℕ) := by
    rw [Int.tmod_eq_emod_of_nonneg (Int.natCast_nonneg n)]
    rfl
  rw [celIsPrime, if_neg (by omega), if_neg (by omega)]
  rfl

theorem celIsPrime_prime (hp : n.Prime) : celIsPrime n = if n ≤ 46340 ^ 2 then some 1 else none := by
  by_cases hsmall : n = 2 ∨ n = 3
  · rw [if_pos (by rcases hsmall with rfl | rfl <;> norm_num)]
    exact if_pos (by exact_mod_cast hsmall)
  have htwo := hp.two_le
  have hodd : n % 2 = 1 := hp.eq_two_or_odd.resolve_left fun h => hsmall (.inl h)
  have hnone : ∀ i, 3 ≤ i → i * i < n → ¬ i ∣ n := by
    intro i hi hlt hdvd
    rcases (Nat.dvd_prime hp).mp hdvd with rfl | rfl
    · omega
    · exact absurd hlt (Nat.not_lt.mpr (Nat.le_mul_self i))
  rw [celIsPrime_odd hodd (by omega)]
  split_ifs with hn
  · exact primeLoop_none hn hnone (by omega) (by omega)
  · exact primeLoop_overflow (by omega) hnone (by omega)

/-- `n` is the square of an odd prime. -/
def OddSquare (n : ℤ) : Prop := ∃ p : ℕ, p.Prime ∧ p ≠ 2 ∧ n = p ^ 2

/-- No divisor of the square of a prime is tested: the loop ends before the prime. -/
theorem celIsPrime_square (hn : n < 2 ^ 31) (hsquare : OddSquare n) : celIsPrime n = some 1 ∧ ¬ n.Prime := by
  obtain ⟨p, hp, htwo, hnp⟩ := hsquare
  have hnp : n = p * p := by
    rw [← pow_two]
    exact_mod_cast hnp
  have hodd : p % 2 = 1 := hp.eq_two_or_odd.resolve_left htwo
  have hpos := hp.two_le
  have hle : p ≤ 46340 := by
    by_contra hgt
    have hsq := Nat.mul_le_mul (show 46341 ≤ p by omega) (show 46341 ≤ p by omega)
    omega
  have hsq := Nat.mul_le_mul hle hle
  have hthree := Nat.mul_le_mul (show 3 ≤ p by omega) (show 3 ≤ p by omega)
  have hnone : ∀ i, 3 ≤ i → i * i < n → ¬ i ∣ n := by
    intro i hi hlt hdvd
    have hip : i < p := by
      by_contra hge
      have := Nat.mul_le_mul (Nat.not_lt.mp hge) (Nat.not_lt.mp hge)
      omega
    rw [hnp, ← pow_two] at hdvd
    obtain ⟨k, hk, rfl⟩ := (Nat.dvd_prime_pow hp).mp hdvd
    interval_cases k
    · rw [pow_zero] at hi
      omega
    · rw [pow_one] at hip
      exact absurd hip (lt_irrefl p)
    · exact absurd hip (Nat.not_lt.mpr (Nat.le_self_pow (by decide) p))
  have hmod : n % 2 = 1 := by rw [hnp, Nat.mul_mod, hodd]
  refine ⟨?_, fun hprime => ?_⟩
  · rw [celIsPrime_odd hmod (by omega)]
    exact primeLoop_none (by omega) hnone (by omega) (by omega)
  · rw [hnp] at hprime
    exact Nat.not_prime_mul (by omega) (by omega) hprime

theorem celIsPrime_composite (hn : n < 2 ^ 31) (hprime : ¬ n.Prime) (hsquare : ¬ OddSquare n) :
    celIsPrime n = some 0 := by
  by_cases hsimple : n ≤ 1 ∨ n % 2 = 0
  · have hsmall : ¬ ((n : ℤ) = 2 ∨ (n : ℤ) = 3) := by
      rintro (h | h)
      · exact hprime ((by omega : n = 2) ▸ Nat.prime_two)
      · exact hprime ((by omega : n = 3) ▸ Nat.prime_three)
    have hmod : (n : ℤ).tmod 2 = (n % 2 : ℕ) := by
      rw [Int.tmod_eq_emod_of_nonneg (Int.natCast_nonneg n)]
      rfl
    rw [celIsPrime, if_neg hsmall, if_pos (by omega)]
  obtain ⟨hone, hodd⟩ := not_or.mp hsimple
  have hthree : n ≠ 3 := fun h => hprime (h ▸ Nat.prime_three)
  have hmin : n.minFac.Prime := Nat.minFac_prime (by omega)
  have hne : n.minFac ≠ 2 := fun h => hodd (Nat.mod_eq_zero_of_dvd (h ▸ Nat.minFac_dvd n))
  have hsq : n.minFac ^ 2 ≤ n := Nat.minFac_sq_le_self (by omega) hprime
  have hlt : n.minFac ^ 2 < n := lt_of_le_of_ne hsq fun h => hsquare ⟨_, hmin, hne, by exact_mod_cast h.symm⟩
  have hge := hmin.two_le
  rw [celIsPrime_odd (by omega) (by omega)]
  exact primeLoop_divisor hn ⟨n.minFac, by omega, by rwa [← pow_two], Nat.minFac_dvd n⟩ (by omega)

end Loop

theorem celIsPrime_of_neg {n : ℤ} (hn : n < 0) : celIsPrime n = some 0 := by
  rw [celIsPrime, if_neg (by omega), if_pos (.inl (by omega))]

theorem hashLoop_iff (n : ℕ) : ∀ k j, n ≤ j + k →
    (Sarah.primeLoop n k j = true ↔ ∀ i, j ≤ i → i * i < n → ¬ i ∣ n) := by
  intro k
  induction k with
  | zero => exact fun j hk => iff_of_true rfl fun i hi hlt => absurd hlt (by have := Nat.le_mul_self i; omega)
  | succ k ih =>
    intro j hk
    rw [Sarah.primeLoop]
    split_ifs with hjj hmod
    · exact iff_of_false id fun h => h j le_rfl hjj (Nat.dvd_of_mod_eq_zero hmod)
    · rw [ih (j + 1) (by omega)]
      refine ⟨fun h i hi hlt => ?_, fun h i hi => h i (by omega)⟩
      rcases Nat.eq_or_lt_of_le hi with rfl | hi
      · exact fun hdvd => hmod (Nat.mod_eq_zero_of_dvd hdvd)
      · exact h i hi hlt
    · refine iff_of_true rfl fun i hi hlt => absurd hlt ?_
      have := Nat.mul_le_mul hi hi
      omega

/-- The hash map's test of natural numbers is this one, as long as nothing can overflow. -/
theorem celIsPrime_nat {n : ℕ} (hn : n ≤ 46340 ^ 2) : celIsPrime n = some (if Sarah.celIsPrime n then 1 else 0) := by
  have hmod : (n : ℤ).tmod 2 = (n % 2 : ℕ) := by
    rw [Int.tmod_eq_emod_of_nonneg (Int.natCast_nonneg n)]
    rfl
  rw [Sarah.celIsPrime]
  by_cases hsmall : n = 2 ∨ n = 3
  · rw [if_pos hsmall]
    exact if_pos (by omega)
  rw [if_neg hsmall]
  by_cases hsimple : n ≤ 1 ∨ n % 2 = 0
  · rw [if_pos hsimple, celIsPrime, if_neg (by omega), if_pos (by omega)]
    rfl
  rw [if_neg hsimple, celIsPrime_odd (by omega) (by omega)]
  have hiff := hashLoop_iff n n 3 (by omega)
  by_cases hloop : Sarah.primeLoop n n 3 = true
  · rw [hloop]
    exact primeLoop_none hn (hiff.mp hloop) (by omega) (by omega)
  · rw [if_neg hloop]
    rw [hiff] at hloop
    simp only [not_forall, not_not, exists_prop] at hloop
    exact primeLoop_divisor (by omega) hloop (by omega)

/-! ## The search -/

theorem nextPrimeLoop_of {n q : ℤ} {k : ℕ} (hq : celIsPrime q = some 1) (hlt : q < 2 ^ 31) (hnq : n ≤ q)
    (hparity : n % 2 = q % 2) (hnone : ∀ m, n ≤ m → m < q → m % 2 = q % 2 → celIsPrime m = some 0)
    (hk : q < n + 2 * k) :
    nextPrimeLoop k n = some q := by
  induction k generalizing n with
  | zero => omega
  | succ k ih =>
    rw [nextPrimeLoop]
    by_cases hend : n = q
    · rw [hend, hq, Option.bind_some, if_pos one_ne_zero]
    · have hnext := hnone n le_rfl (by omega) hparity
      rw [hnext, Option.bind_some, if_neg (not_not.mpr rfl), if_neg (by omega)]
      exact ih (by omega) (by omega) (fun m hm => hnone m (by omega)) (by omega)

theorem nextPrimeLoop_spec {n q : ℤ} {k : ℕ} (h : nextPrimeLoop k n = some q) :
    n ≤ q ∧ n % 2 = q % 2 ∧ celIsPrime q ≠ none ∧ celIsPrime q ≠ some 0 ∧
      ∀ m, n ≤ m → m < q → m % 2 = q % 2 → celIsPrime m = some 0 := by
  induction k generalizing n with
  | zero => cases h
  | succ k ih =>
    rw [nextPrimeLoop] at h
    obtain ⟨r, hr, h⟩ := Option.bind_eq_some_iff.mp h
    split_ifs at h with hpass hbig
    · cases h
      rw [hr]
      exact ⟨le_rfl, rfl, Option.some_ne_none r, fun h => hpass (Option.some.inj h), fun m hm hlt => by omega⟩
    · obtain ⟨hle, hparity, hsome, hzero, hnone⟩ := ih h
      refine ⟨by omega, by omega, hsome, hzero, fun m hm hlt hmp => ?_⟩
      by_cases hmn : m = n
      · rw [hmn, hr, not_not.mp hpass]
      · exact hnone m (by omega) hlt hmp

/-! ## When the helpers are right -/

/-- The test of `n` ends without an overflow, with 1 exactly for a prime. -/
def PrimeTest (n : ℤ) : Prop := ∃ r, celIsPrime n = some r ∧ (r = 1 ↔ n.toNat.Prime)

/-- `q` is the least prime not below `n`. -/
structure LeastPrime (n : ℤ) (q : ℕ) : Prop where
  prime : q.Prime
  notBelow : n ≤ q
  least : ∀ p : ℕ, p.Prime → n ≤ p → q ≤ p

/-- The search from `n` ends without an overflow, at the least prime not below `n`. -/
def NextPrime (n : ℤ) : Prop := ∃ q : ℕ, celNextPrime n = some q ∧ LeastPrime n q

/-- The numbers that `cel_is_prime` can test. -/
structure Testable (n : ℤ) : Prop where
  notSquare : ¬ OddSquare n
  small : n.toNat.Prime → n ≤ 46340 ^ 2

/-- The numbers that `cel_next_prime` can start from. -/
structure Searchable (n : ℤ) : Prop where
  three : 3 ≤ n
  least : ∃ q, LeastPrime n q ∧ (q : ℤ) ≤ 46340 ^ 2 ∧ ∀ s, OddSquare s → n ≤ s → q < s

theorem primeTest_iff {n : ℤ} (hn : n < 2 ^ 31) : PrimeTest n ↔ Testable n := by
  rcases lt_or_ge n 0 with hneg | hpos
  · have hnot : ¬ n.toNat.Prime := by
      rw [Int.toNat_of_nonpos hneg.le]
      exact Nat.not_prime_zero
    refine iff_of_true ⟨0, celIsPrime_of_neg hneg, iff_of_false (by decide) hnot⟩ ⟨?_, fun h => absurd h hnot⟩
    rintro ⟨p, -, -, rfl⟩
    exact absurd hneg (not_lt.mpr (by positivity))
  obtain ⟨m, rfl⟩ := Int.eq_ofNat_of_zero_le hpos
  have hm : m < 2 ^ 31 := by exact_mod_cast hn
  rw [PrimeTest, Int.toNat_natCast]
  by_cases hprime : m.Prime
  · have hsquare : ¬ OddSquare m := fun h => (celIsPrime_square hm h).2 hprime
    rw [celIsPrime_prime hprime]
    split_ifs with hle
    · exact iff_of_true ⟨1, rfl, iff_of_true rfl hprime⟩ ⟨hsquare, fun _ => by exact_mod_cast hle⟩
    · refine iff_of_false (fun ⟨r, hr, _⟩ => by cases hr) fun h => hle ?_
      exact_mod_cast h.small (by rwa [Int.toNat_natCast])
  · by_cases hsquare : OddSquare m
    · refine iff_of_false ?_ fun h => h.notSquare hsquare
      rintro ⟨r, hr, hiff⟩
      rw [(celIsPrime_square hm hsquare).1] at hr
      exact hprime (hiff.mp (Option.some.inj hr).symm)
    · refine iff_of_true ⟨0, celIsPrime_composite hm hprime hsquare, iff_of_false (by decide) hprime⟩
        ⟨hsquare, fun h => ?_⟩
      rw [Int.toNat_natCast] at h
      exact absurd h hprime

theorem LeastPrime.three_le {n : ℤ} {q : ℕ} (h : LeastPrime n q) (hq : q % 2 = 1) : 3 ≤ n := by
  by_contra hlt
  have htwo := h.least 2 Nat.prime_two (by omega)
  have := h.prime.two_le
  omega

theorem small_of_passes {q : ℕ} (hprime : q.Prime) (hsome : celIsPrime q ≠ none) : q ≤ 46340 ^ 2 := by
  by_contra hbig
  rw [celIsPrime_prime hprime, if_neg hbig] at hsome
  exact hsome rfl

theorem celNextPrime_run (n : ℤ) : ∃ odd, odd % 2 = 1 ∧ (odd = n ∨ odd = n + 1 ∧ n % 2 = 0) ∧
    celNextPrime n = nextPrimeLoop (2 ^ 31 - odd).toNat odd := by
  have hiff : n.tmod 2 = 0 ↔ n % 2 = 0 := Int.dvd_iff_tmod_eq_zero.symm.trans Int.dvd_iff_emod_eq_zero
  rw [celNextPrime]
  by_cases heven : n.tmod 2 = 0
  · rw [if_pos heven]
    exact ⟨n + 1, by omega, .inr ⟨rfl, hiff.mp heven⟩, rfl⟩
  · rw [if_neg heven]
    exact ⟨n, by omega, .inl rfl, rfl⟩

theorem searchable_of_nextPrime {n : ℤ} (h : NextPrime n) : Searchable n := by
  obtain ⟨q, hq, hleast⟩ := h
  obtain ⟨odd, hodd, hstart, hrun⟩ := celNextPrime_run n
  rw [hrun] at hq
  obtain ⟨hle, hparity, hsome, -, hnone⟩ := nextPrimeLoop_spec hq
  have hthree := hleast.three_le (by omega)
  have hsmall := small_of_passes hleast.prime hsome
  refine ⟨hthree, q, hleast, by exact_mod_cast hsmall, fun s hsquare hns => ?_⟩
  by_contra hge
  obtain ⟨p, hp, htwo, rfl⟩ := hsquare
  have hpodd : p ^ 2 % 2 = 1 := by
    rw [Nat.pow_mod, hp.eq_two_or_odd.resolve_left htwo]
  have hlt : p ^ 2 ≤ q := by exact_mod_cast not_lt.mp hge
  have hfrom : n ≤ (p ^ 2 : ℕ) := by exact_mod_cast hns
  obtain ⟨hone, hnot⟩ := celIsPrime_square (n := p ^ 2) (by omega) ⟨p, hp, htwo, by norm_cast⟩
  have hne : p ^ 2 ≠ q := fun heq => hnot (heq ▸ hleast.prime)
  have hzero := hnone (p ^ 2 : ℕ) (by omega) (by omega) (by omega)
  rw [hone] at hzero
  exact absurd (Option.some.inj hzero) one_ne_zero

/-- The search stops at the prime, since everything before it is composite. -/
theorem nextPrime_of_searchable {n : ℤ} (h : Searchable n) : NextPrime n := by
  obtain ⟨hthree, q, hleast, hsmall, hsquares⟩ := h
  obtain ⟨odd, hodd, hstart, hrun⟩ := celNextPrime_run n
  have hqodd : q % 2 = 1 := hleast.prime.eq_two_or_odd.resolve_left fun h => by
    have := hleast.notBelow
    omega
  have hpass : celIsPrime q = some 1 := by
    rw [celIsPrime_prime hleast.prime, if_pos (by exact_mod_cast hsmall)]
  refine ⟨q, ?_, hleast⟩
  rw [hrun]
  have hnotBelow := hleast.notBelow
  refine nextPrimeLoop_of hpass (by omega) (by omega) (by omega) (fun m hm hlt _ => ?_) (by omega)
  obtain ⟨m, rfl⟩ := Int.eq_ofNat_of_zero_le (show 0 ≤ m by omega)
  refine celIsPrime_composite (by omega) (fun hp => ?_) fun hsq => ?_
  · have := hleast.least m hp (by omega)
    omega
  · have := hsquares m hsq (by omega)
    omega

/-- **When the prime helpers are right.** -/
theorem primeHelpers_iff {n : ℤ} (hint : -2 ^ 31 ≤ n ∧ n < 2 ^ 31) :
    (PrimeTest n ↔ Testable n) ∧ (NextPrime n ↔ Searchable n) :=
  ⟨primeTest_iff hint.2, searchable_of_nextPrime, nextPrime_of_searchable⟩

/-- The numbers from 10 are served up to 11. -/
theorem primeHelpers_iff_ten : (PrimeTest 10 ↔ Testable 10) ∧ (NextPrime 10 ↔ Searchable 10) :=
  primeHelpers_iff (by decide)

/-- Nine passes as a prime. -/
theorem not_primeHelpers : ¬ ∀ n : ℤ, -2 ^ 31 ≤ n → n < 2 ^ 31 → PrimeTest n ∧ NextPrime n := by
  intro h
  obtain ⟨⟨r, hr, hiff⟩, -⟩ := h 9 (by decide) (by decide)
  have hnine : celIsPrime 9 = some 1 := by decide +kernel
  rw [hnine, Option.some.injEq] at hr
  exact absurd (hiff.mp hr.symm) (by decide)

end Sarah.CelMath
