import SarahClient.CInt
import Mathlib.NumberTheory.Bertrand

/-!
# Hash codes and table lengths

* `celBkdrHash`: the hash code of a C string (`cel_hash.c`);
* `celIsPrime`, `celNextPrime`: the next table length (`cel_math.c`);
* **`celNextPrime_spec`**: the search for the next length terminates.
-/

namespace Sarah

/-- A `char` as the 32-bit word it is converted to: `char` is signed. -/
def charWord (c : UInt8) : ℕ := if c.toNat < 128 then c.toNat else c.toNat + (2 ^ 32 - 256)

/-- `cel_bkdr_hash` of the bytes before the NUL. -/
def celBkdrHash (s : List UInt8) : ℕ :=
  s.foldl (fun h c => u32 (u32 (h * 131) + charWord c)) 0 % 2 ^ 31

/-- `for ( j = 3; j * j < n; j++ ) if ( n % j == 0 ) return 0;` with at most `k` rounds. -/
def primeLoop (n : ℕ) : ℕ → ℕ → Bool
  | 0, _ => true
  | k + 1, j => if j * j < n then if n % j = 0 then false else primeLoop n k (j + 1) else true

/-- `cel_is_prime`; `n` rounds are enough, since the loop stops at `j = n`. -/
def celIsPrime (n : ℕ) : Bool :=
  if n = 2 ∨ n = 3 then true else if n ≤ 1 ∨ n % 2 = 0 then false else primeLoop n n 3

/-- `for ( ; ! cel_is_prime( n ); n = n + 2 ) ;` -/
def nextPrimeLoop : ℕ → ℕ → Option ℕ
  | 0, _ => none
  | k + 1, n => if celIsPrime n then some n else nextPrimeLoop k (n + 2)

/-- `cel_next_prime`. -/
def celNextPrime (n : ℕ) : Option ℕ :=
  let n := if n % 2 = 0 then n + 1 else n
  nextPrimeLoop (n + 1) n

theorem primeLoop_of_prime {p : ℕ} (hp : p.Prime) : ∀ (k j : ℕ), 3 ≤ j → primeLoop p k j = true
  | 0, _, _ => rfl
  | k + 1, j, hj => by
    rw [primeLoop]
    split_ifs with hlt hmod
    · rcases (Nat.dvd_prime hp).mp (Nat.dvd_of_mod_eq_zero hmod) with h | h
      · omega
      · subst h
        exact absurd hlt (Nat.not_lt.mpr (Nat.le_mul_self j))
    · exact primeLoop_of_prime hp k (j + 1) (by omega)
    · rfl

theorem celIsPrime_of_prime {p : ℕ} (hp : p.Prime) : celIsPrime p = true := by
  unfold celIsPrime
  split_ifs with h₁ h₂
  · rfl
  · rcases hp.eq_two_or_odd with h | h
    · exact absurd (.inl h) h₁
    · have := hp.two_le
      omega
  · exact primeLoop_of_prime hp p 3 (Nat.le_refl 3)

theorem nextPrimeLoop_spec {p : ℕ} (hp : p.Prime) : ∀ (k n : ℕ), n ≤ p → p % 2 = n % 2 → p < n + 2 * k →
    ∃ m, nextPrimeLoop k n = some m ∧ n ≤ m
  | 0, n, _, _, hk => by omega
  | k + 1, n, hn, hpar, hk => by
    rw [nextPrimeLoop]
    split_ifs with h
    · exact ⟨n, rfl, Nat.le_refl n⟩
    · have hne : n ≠ p := by
        rintro rfl
        exact h (celIsPrime_of_prime hp)
      obtain ⟨m, hm, hle⟩ := nextPrimeLoop_spec hp k (n + 2) (by omega) (by omega) (by omega)
      exact ⟨m, hm, by omega⟩

/-- **The next length exists** and is no smaller; the bound is Bertrand's postulate. -/
theorem celNextPrime_spec (n : ℕ) : ∃ m, celNextPrime n = some m ∧ n ≤ m := by
  have hodd : ∀ n, n % 2 = 1 → ∃ m, nextPrimeLoop (n + 1) n = some m ∧ n ≤ m := by
    intro n hn
    obtain ⟨p, hp, hlt, hle⟩ := Nat.exists_prime_lt_and_le_two_mul n (by omega)
    rcases hp.eq_two_or_odd with h | h
    · have hn1 : n = 1 := by omega
      subst hn1
      exact ⟨3, by decide, by omega⟩
    · exact nextPrimeLoop_spec hp (n + 1) n hlt.le (by omega) (by omega)
  unfold celNextPrime
  split_ifs with h
  · obtain ⟨m, hm, hle⟩ := hodd (n + 1) (by omega)
    exact ⟨m, hm, by omega⟩
  · exact hodd n (by omega)

end Sarah
