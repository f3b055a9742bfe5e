import SarahClient.Sha.Model
import Mathlib.Data.BitVec
import Mathlib.Tactic.IntervalCases
import Mathlib.Tactic.Linarith
import Mathlib.Tactic.Ring

/-!
# One block

The lines of the `mbedtls` files rename the registers instead of moving them, and SHA-1 keeps sixteen words of its
schedule.

* `getUintBE_eq`: the words of a block; `sha1S_eq`, `shaRotr_eq`: rotations;
* `turned5`, `turned8`: the registers under their names in line `t`; `turned5_sha1P`, `turned8_shaP`: a line is a round;
* `sha1_lines`, `sha256_lines`, `sha512_lines`: some lines;
* **`sha1Process_eq`**, **`sha256Process_eq`**, **`sha512Process_eq`**: a block is processed as the standard says.
-/

namespace Sarah

open SecureHash

/-! ## Words -/

theorem foldl_bytes (bs : List UInt8) (n : ℕ) : bs.foldl (fun n b => 256 * n + b.toNat) n =
    n * 2 ^ (8 * bs.length) + bs.foldl (fun n b => 256 * n + b.toNat) 0 := by
  induction bs generalizing n with
  | nil => simp
  | cons b bs ih =>
    rw [List.foldl_cons, List.foldl_cons, ih, ih (256 * 0 + b.toNat), List.length_cons, Nat.mul_succ, pow_add]
    ring

theorem foldl_bytes_lt (bs : List UInt8) : bs.foldl (fun n b => 256 * n + b.toNat) 0 < 2 ^ (8 * bs.length) := by
  induction bs with
  | nil => simp
  | cons b bs ih =>
    have hb := b.toNat_lt
    rw [List.foldl_cons, foldl_bytes, List.length_cons, Nat.mul_succ, pow_add]
    nlinarith

theorem toNat_orBytes {w : ℕ} (bs : List UInt8) (h : 8 * bs.length ≤ w) :
    (orBytes w bs).toNat = bs.foldl (fun n b => 256 * n + b.toNat) 0 := by
  induction bs with
  | nil => simp [orBytes]
  | cons b bs ih =>
    have hb := b.toNat_lt
    have hlt := foldl_bytes_lt bs
    rw [List.length_cons, Nat.mul_succ] at h
    have hpow : 2 ^ (8 * bs.length) * 256 ≤ 2 ^ w := by
      rw [show 256 = 2 ^ 8 by rfl, ← pow_add]
      exact Nat.pow_le_pow_right (by decide) h
    have hbyte : b.toNat < 2 ^ w := by nlinarith [Nat.one_le_two_pow (n := 8 * bs.length)]
    have hshift : b.toNat <<< (8 * bs.length) < 2 ^ w := by
      rw [Nat.shiftLeft_eq]
      nlinarith
    rw [List.foldl_cons, foldl_bytes, orBytes, BitVec.toNat_or, BitVec.toNat_shiftLeft, ih (by omega),
      BitVec.toNat_ofNat,
      Nat.mod_eq_of_lt hbyte, Nat.mod_eq_of_lt hshift, ← Nat.shiftLeft_add_eq_or_of_lt hlt, Nat.shiftLeft_eq]
    simp

theorem getUintBE_eq (w : ℕ) (b : List UInt8) (i : ℕ) : getUintBE w b i = word w ((b.drop i).take (w / 8)) := by
  have hlen : 8 * ((b.drop i).take (w / 8)).length ≤ w := by
    rw [List.length_take]
    omega
  apply BitVec.eq_of_toNat_eq
  rw [getUintBE, toNat_orBytes _ hlen, word, BitVec.toNat_ofNat, Nat.mod_eq_of_lt]
  exact (foldl_bytes_lt _).trans_le (Nat.pow_le_pow_right (by decide) hlen)

theorem words_eq (w n : ℕ) (b : List UInt8) :
    words w n b = (List.range n).map fun i => getUintBE w b (w / 8 * i) := by
  induction n generalizing b with
  | zero => rfl
  | succ n ih =>
    rw [words, ih, List.range_succ_eq_map, List.map_cons, List.map_map, getUintBE_eq, Nat.mul_zero, List.drop_zero]
    congr 1
    apply List.map_congr_left
    intro i _
    simp [getUintBE_eq, Nat.mul_succ, Nat.add_comm]

/-! ## Rotations -/

theorem sha1S_eq (x : BitVec 32) {n : ℕ} (hn : n < 32) : sha1S x n = x.rotateLeft n := by
  have hmask : x &&& 0xFFFFFFFF = x := BitVec.and_allOnes
  rw [sha1S, hmask, BitVec.rotateLeft_def, Nat.mod_eq_of_lt hn]

/-- The macros of a hash function. -/
structure Agree {w : ℕ} (m : ShaMacros w) (p : Sha2) : Prop where
  shr : ∀ x n, m.shr x n = x >>> n
  s0 : m.s0 = p.smallSigma0 ∧ m.s0.1 < w ∧ m.s0.2.1 < w
  s1 : m.s1 = p.smallSigma1 ∧ m.s1.1 < w ∧ m.s1.2.1 < w
  s2 : m.s2 = p.bigSigma0 ∧ m.s2.1 < w ∧ m.s2.2.1 < w ∧ m.s2.2.2 < w
  s3 : m.s3 = p.bigSigma1 ∧ m.s3.1 < w ∧ m.s3.2.1 < w ∧ m.s3.2.2 < w

theorem sha256_agree : Agree sha256Macros sha256 where
  shr := fun x n => by
    have hmask : x &&& 0xFFFFFFFF = x := BitVec.and_allOnes
    show (x &&& 0xFFFFFFFF) >>> n = x >>> n
    rw [hmask]
  s0 := by decide
  s1 := by decide
  s2 := by decide
  s3 := by decide

theorem sha512_agree : Agree sha512Macros sha512 where
  shr := fun _ _ => rfl
  s0 := by decide
  s1 := by decide
  s2 := by decide
  s3 := by decide

section Sha2

variable {w : ℕ} {m : ShaMacros w} {p : Sha2}

theorem Agree.rotr (h : Agree m p) (x : BitVec w) {n : ℕ} (hn : n < w) : shaRotr m x n = x.rotateRight n := by
  rw [shaRotr, h.shr, BitVec.rotateRight_def, Nat.mod_eq_of_lt hn]

theorem Agree.sigma (h : Agree m p) (x : BitVec w) : shaS01 m m.s0 x = smallSigma p.smallSigma0 x ∧
    shaS01 m m.s1 x = smallSigma p.smallSigma1 x ∧ shaS23 m m.s2 x = bigSigma p.bigSigma0 x ∧
      shaS23 m m.s3 x = bigSigma p.bigSigma1 x := by
  obtain ⟨h0, h01, h02⟩ := h.s0
  obtain ⟨h1, h11, h12⟩ := h.s1
  obtain ⟨h2, h21, h22, h23⟩ := h.s2
  obtain ⟨h3, h31, h32, h33⟩ := h.s3
  simp only [shaS01, shaS23, h.rotr x h01, h.rotr x h02, h.rotr x h11, h.rotr x h12, h.rotr x h21, h.rotr x h22,
    h.rotr x h23,
    h.rotr x h31, h.rotr x h32, h.rotr x h33, h.shr, ← h0, ← h1, ← h2, ← h3, smallSigma, bigSigma, and_self]

theorem Agree.next (h : Agree m p) (W : List (BitVec w)) : shaR m W W.length = p.next W := by
  rw [shaR, (h.sigma _).1, (h.sigma _).2.1]
  rfl

/-! ## Registers -/

/-- The registers under their names in line `t`. -/
def turned8 (t : ℕ) (A : List (BitVec w)) : Regs8 w :=
  let r := fun j => A.getD ((j + 7 * t) % 8) 0
  ⟨r 0, r 1, r 2, r 3, r 4, r 5, r 6, r 7⟩

theorem add_turned8 (v : Regs8 w) {t : ℕ} (ht : t % 8 = 0) (A : List (BitVec w)) :
    v.add (turned8 t A) = shaAdd v A := by
  have hplace : ∀ j < 8, (j + 7 * t) % 8 = j := fun j hj => by omega
  simp only [turned8, shaAdd, hplace 0, hplace 1, hplace 2, hplace 3, hplace 4, hplace 5, hplace 6, hplace 7,
    Nat.reduceLT]

/-- **A line is a round.** -/
theorem Agree.turned8_shaP (h : Agree m p) (t : ℕ) {A : List (BitVec w)} (hA : A.length = 8) (x k : BitVec w) :
    turned8 (t + 1) (shaP m t A x k) = p.round k x (turned8 t A) := by
  match A, hA with
  | [a, b, c, d, e, f, g, i], _ =>
    have hnow : ∀ j, (j + 7 * t) % 8 = (j + 7 * (t % 8)) % 8 := fun j => by omega
    have hthen : ∀ j, (j + 7 * (t + 1)) % 8 = (j + 7 * (t % 8 + 1)) % 8 := fun j => by omega
    have ht : t % 8 < 8 := Nat.mod_lt t (by decide)
    simp only [turned8, shaP, Sha2.round, hnow, hthen, (h.sigma _).2.2.1, (h.sigma _).2.2.2, shaF0, shaF1, maj_eq,
      ch_eq]
    generalize t % 8 = r at ht
    interval_cases r <;> rfl

theorem length_shaP (t : ℕ) (A : List (BitVec w)) (x k : BitVec w) : (shaP m t A x k).length = A.length := by
  simp [shaP]

end Sha2

/-- The registers under their names in line `t`. -/
def turned5 (t : ℕ) (A : List (BitVec 32)) : Regs5 32 :=
  let r := fun j => A.getD ((j + 4 * t) % 5) 0
  ⟨r 0, r 1, r 2, r 3, r 4⟩

theorem turned5_whole {t : ℕ} (ht : t % 5 = 0) (A : List (BitVec 32)) :
    turned5 t A = ⟨A.getD 0 0, A.getD 1 0, A.getD 2 0, A.getD 3 0, A.getD 4 0⟩ := by
  have hplace : ∀ j < 5, (j + 4 * t) % 5 = j := fun j hj => by omega
  simp only [turned5, hplace 0, hplace 1, hplace 2, hplace 3, hplace 4, Nat.reduceLT]

theorem sha1LineF_eq (t : ℕ) : sha1LineF t = sha1F t := by
  funext x y z
  unfold sha1LineF sha1F
  split_ifs <;> simp [ch_eq, maj_eq, parity]

theorem sha1LineK_eq (t : ℕ) : sha1LineK t = sha1K t := by
  unfold sha1LineK sha1K
  split_ifs <;> decide +kernel

theorem turned5_sha1P (t : ℕ) {A : List (BitVec 32)} (hA : A.length = 5) (x : BitVec 32) :
    turned5 (t + 1) (sha1P t A x) = sha1Round x t (turned5 t A) := by
  match A, hA with
  | [a, b, c, d, e], _ =>
    have hnow : ∀ j, (j + 4 * t) % 5 = (j + 4 * (t % 5)) % 5 := fun j => by omega
    have hthen : ∀ j, (j + 4 * (t + 1)) % 5 = (j + 4 * (t % 5 + 1)) % 5 := fun j => by omega
    have ht : t % 5 < 5 := Nat.mod_lt t (by decide)
    have h5 : ∀ y : BitVec 32, sha1S y 5 = y.rotateLeft 5 := fun y => sha1S_eq y (by decide)
    have h30 : ∀ y : BitVec 32, sha1S y 30 = y.rotateLeft 30 := fun y => sha1S_eq y (by decide)
    simp only [turned5, sha1P, sha1Round, hnow, hthen, h5, h30, sha1LineF_eq, sha1LineK_eq]
    generalize t % 5 = r at ht
    generalize sha1F t = f
    generalize sha1K t = k
    have hsum : ∀ u v y : BitVec 32, u + (v + y + k + x) = v + y + u + k + x := fun u v y => by ring
    interval_cases r <;> simp [hsum]

theorem length_sha1P (t : ℕ) (A : List (BitVec 32)) (x : BitVec 32) : (sha1P t A x).length = A.length := by
  simp [sha1P]

/-! ## Lines -/

/-- The rounds up to `t` with the words of a schedule. -/
def rounds {S α : Type} (round : ℕ → α → S → S) (word : ℕ → α) (t : ℕ) (v : S) : S :=
  (List.range t).foldl (fun v t => round t (word t) v) v

theorem rounds_succ {S α : Type} (round : ℕ → α → S → S) (word : ℕ → α) (t : ℕ) (v : S) :
    rounds round word (t + 1) v = round t (word t) (rounds round word t v) := by
  simp [rounds, List.range_succ]

/-- The sixteen words at line `t` are the last ones of the schedule. -/
structure Circular (ws W : List (BitVec 32)) (t : ℕ) : Prop where
  length : W.length = 16
  word : ∀ s, s < max t 16 → max t 16 ≤ s + 16 → W.getD (s % 16) 0 = ws.getD s 0

theorem back_eq {w : ℕ} (ws : List (BitVec w)) {t k : ℕ} (hk : 0 < k) (hle : k ≤ t) (hlen : t ≤ ws.length) :
    back (ws.take t) k = ws.getD (t - k) 0 := by
  have ht : (ws.take t).length = t := by simp [hlen]
  rw [back, ht, List.getD_eq_getElem?_getD, List.getD_eq_getElem?_getD, List.getElem?_take_of_lt (by omega)]
  rfl

theorem Circular.next {start W : List (BitVec 32)} {t : ℕ} (hstart : start.length = 16) (ht : 16 ≤ t) (hlt : t < 80)
    (h : Circular (extend sha1Word 64 start) W t) : Circular (extend sha1Word 64 start) (sha1R W t) (t + 1) := by
  have hlen : (extend sha1Word 64 start).length = 80 := by simp [hstart]
  have hword : (extend sha1Word 64 start).getD t 0 = sha1Word ((extend sha1Word 64 start).take t) := by
    have hget := extend_getD sha1Word start (show t - 16 < 64 by omega) 0
    rwa [hstart, show 16 + (t - 16) = t by omega] at hget
  have hold : ∀ k, 0 < k → k ≤ 16 → W.getD ((t - k) % 16) 0 = (extend sha1Word 64 start).getD (t - k) 0 := fun k _ _ =>
    h.word _ (by omega) (by omega)
  have hnow : t % 16 = (t - 16) % 16 := by omega
  have hnew : (extend sha1Word 64 start).getD t 0 = sha1S (W.getD ((t - 3) % 16) 0 ^^^ W.getD ((t - 8) % 16) 0 ^^^
      W.getD ((t - 14) % 16) 0 ^^^ W.getD (t % 16) 0) 1 := by
    rw [hword, sha1Word, sha1S_eq _ (by decide), hnow, hold 3 (by decide) (by decide), hold 8 (by decide) (by decide),
      hold 14 (by decide) (by decide), hold 16 (by decide) le_rfl, back_eq _ (by decide) (by omega) (by omega),
      back_eq _ (by decide) (by omega) (by omega), back_eq _ (by decide) (by omega) (by omega),
      back_eq _ (by decide) (by omega) (by omega)]
  refine ⟨by simp [sha1R, h.length], fun s hs hle => ?_⟩
  have hpos : t % 16 < W.length := by
    rw [h.length]
    exact Nat.mod_lt t (by decide)
  by_cases hst : s = t
  · rw [hst, hnew, sha1R]
    simp [hpos]
  · have hne : t % 16 ≠ s % 16 := by omega
    rw [sha1R, List.getD_eq_getElem?_getD, List.getElem?_set_ne hne, ← List.getD_eq_getElem?_getD]
    exact h.word s (by omega) (by omega)

/-- **Some lines** of SHA-1 are as many rounds. -/
theorem sha1_lines {start : List (BitVec 32)} (hstart : start.length = 16) (v : Regs5 32) :
    ∀ t ≤ 80, ∃ W A, (List.range t).foldl sha1Line (start, v.toList) = (W, A) ∧
      Circular (extend sha1Word 64 start) W t ∧ A.length = 5 ∧
        turned5 t A = rounds (fun t x => sha1Round x t) (fun t => (extend sha1Word 64 start).getD t 0) t v
  | 0, _ => by
    refine ⟨start, v.toList, rfl, ⟨hstart, fun s hs _ => ?_⟩, rfl, rfl⟩
    have hs : s < 16 := by omega
    have htake := take_extend sha1Word 64 start
    rw [Nat.mod_eq_of_lt hs, List.getD_eq_getElem?_getD, List.getD_eq_getElem?_getD, ← htake,
      List.getElem?_take_of_lt (by omega), htake]
  | t + 1, ht => by
    obtain ⟨W, A, hrun, hwords, hlen, hregs⟩ := sha1_lines hstart v t (by omega)
    have hnext : Circular (extend sha1Word 64 start) (if t < 16 then W else sha1R W t) (t + 1) := by
      split_ifs with hlt
      · exact ⟨hwords.length, fun s hs hle => hwords.word s (by omega) (by omega)⟩
      · exact hwords.next hstart (by omega) (by omega)
    have hx := hnext.word t (by omega) (by omega)
    refine ⟨_, sha1P t A ((if t < 16 then W else sha1R W t).getD (t % 16) 0), ?_, hnext, ?_, ?_⟩
    · rw [List.range_succ, List.foldl_append, hrun]
      rfl
    · rw [length_sha1P, hlen]
    · rw [turned5_sha1P t hlen, hregs, hx, rounds_succ]

/-- **A block of SHA-1.** -/
theorem sha1Process_eq : mbedtlsInternalSha1Process = sha1Compress := by
  funext state data
  obtain ⟨W, A, hrun, -, -, hregs⟩ := sha1_lines (length_words 32 16 data) state 80 le_rfl
  have hwords : (List.range 16).map (fun i => getUintBE 32 data (4 * i)) = words 32 16 data :=
    (words_eq 32 16 data).symm
  rw [turned5_whole rfl] at hregs
  simp only [mbedtlsInternalSha1Process, hwords, hrun, hregs]
  rfl

section Sha2

variable {w : ℕ} {m : ShaMacros w} {p : Sha2} {K start : List (BitVec w)} {n : ℕ}

theorem take_extend_succ (h : Agree m p) (hstart : start.length = 16) {t : ℕ} (ht : 16 ≤ t) (hlt : t < 16 + n) :
    (extend p.next n start).take (t + 1) =
      (extend p.next n start).take t ++ [shaR m ((extend p.next n start).take t) t] := by
  have hlen : ((extend p.next n start).take t).length = t := by
    simp [hstart]
    omega
  have hget := extend_getD p.next start (show t - 16 < n by omega) 0
  rw [hstart, show 16 + (t - 16) = t by omega, ← h.next, hlen] at hget
  have hlt' : t < (extend p.next n start).length := by
    rw [length_extend, hstart]
    exact hlt
  rw [List.take_succ_eq_append_getElem hlt', ← hget, List.getD_eq_getElem _ _ hlt']

/-- **Some lines** of SHA-2 are as many rounds, with the words of the schedule. -/
theorem Agree.lines (h : Agree m p) (x : ℕ → BitVec w) (v : Regs8 w) (hK : ∀ t < n, K.getD t 0 = Sha2.k w t) :
    ∀ t ≤ n, ((List.range t).foldl (fun A t => shaP m t A (x t) (K.getD t 0)) v.toList).length = 8 ∧
      turned8 t ((List.range t).foldl (fun A t => shaP m t A (x t) (K.getD t 0)) v.toList) =
        rounds (fun t x => p.round (Sha2.k w t) x) x t v
  | 0, _ => ⟨rfl, rfl⟩
  | t + 1, ht => by
    obtain ⟨hlen, hregs⟩ := h.lines x v hK t (by omega)
    rw [List.range_succ, List.foldl_append, List.foldl_cons, List.foldl_nil, length_shaP, h.turned8_shaP t hlen, hregs,
      rounds_succ, hK t (by omega)]
    exact ⟨hlen, rfl⟩

theorem Agree.sha256_lines (h : Agree m p) (hstart : start.length = 16) (A : List (BitVec w)) :
    ∀ t ≤ 16 + n, (List.range t).foldl (sha256Line m K) (start, A) = ((extend p.next n start).take (max t 16),
      (List.range t).foldl (fun A t => shaP m t A ((extend p.next n start).getD t 0) (K.getD t 0)) A)
  | 0, _ => by
    have htake := take_extend p.next n start
    rw [hstart] at htake
    exact Prod.ext htake.symm rfl
  | t + 1, ht => by
    have hlen : (extend p.next n start).length = 16 + n := by rw [length_extend, hstart]
    have hwords : (if t < 16 then (extend p.next n start).take (max t 16)
        else (extend p.next n start).take (max t 16) ++ [shaR m ((extend p.next n start).take (max t 16)) t]) =
        (extend p.next n start).take (max (t + 1) 16) := by
      split_ifs with hlt
      · rw [max_eq_right hlt.le, max_eq_right hlt]
      · rw [max_eq_left (by omega), max_eq_left (by omega), take_extend_succ h hstart (by omega) (by omega)]
    have hx : ((extend p.next n start).take (max (t + 1) 16)).getD t 0 = (extend p.next n start).getD t 0 := by
      rw [List.getD_eq_getElem?_getD, List.getD_eq_getElem?_getD, List.getElem?_take_of_lt (by omega)]
    rw [List.range_succ, List.foldl_append, h.sha256_lines hstart A t (by omega), List.foldl_append]
    simp only [List.foldl_cons, List.foldl_nil, sha256Line, hwords, hx]

theorem Agree.schedule (h : Agree m p) (hstart : start.length = 16) (n : ℕ) :
    (List.range n).foldl (fun W i => W ++ [shaR m W (16 + i)]) start = extend p.next n start := by
  induction n with
  | zero => rfl
  | succ n ih =>
    have hlen : (extend p.next n start).length = 16 + n := by rw [length_extend, hstart]
    rw [List.range_succ, List.foldl_append, ih, List.foldl_cons, List.foldl_nil, ← hlen, h.next, extend_add]
    rfl

end Sha2

theorem sha256K_map : sha256K = (primes.take 64).map (rootBits 3 32) := by
  apply map_rootBits
  · rw [List.length_take, length_primes]
    rfl
  · rw [primes_eq]
    decide +kernel

theorem sha512K_map : sha512K = primes.map (rootBits 3 64) := by
  apply map_rootBits
  · rw [length_primes]
    rfl
  · rw [primes_eq]
    decide +kernel

theorem sha256K_eq (t : ℕ) (ht : t < 64) : sha256K.getD t 0 = Sha2.k 32 t := by
  have hlt : t < primes.length := by rw [length_primes]; omega
  rw [Sha2.k, sha256K_map, List.getD_eq_getElem?_getD, List.getElem?_map, List.getElem?_take_of_lt ht,
    List.getD_eq_getElem?_getD, List.getElem?_eq_getElem hlt, Option.map_some, Option.getD_some, Option.getD_some]

theorem sha512K_eq (t : ℕ) (ht : t < 80) : sha512K.getD t 0 = Sha2.k 64 t := by
  have hlt : t < primes.length := by rwa [length_primes]
  rw [Sha2.k, sha512K_map, List.getD_eq_getElem?_getD, List.getElem?_map, List.getD_eq_getElem?_getD,
    List.getElem?_eq_getElem hlt, Option.map_some, Option.getD_some, Option.getD_some]

/-- **A block of SHA-256.** -/
theorem sha256Process_eq : mbedtlsInternalSha256Process = sha256.compress := by
  funext state data
  have hwords : (List.range 16).map (fun i => getUintBE 32 data (4 * i)) = words 32 16 data :=
    (words_eq 32 16 data).symm
  have hstart := length_words 32 16 data
  have hrun := @Agree.sha256_lines _ _ _ sha256K _ 48 sha256_agree hstart state.toList 64 le_rfl
  obtain ⟨-, hregs⟩ :=
    sha256_agree.lines (fun t => (extend sha256.next 48 (words 32 16 data)).getD t 0) state sha256K_eq 64 le_rfl
  simp only [mbedtlsInternalSha256Process, hwords, hrun]
  rw [← add_turned8 state (t := 64) rfl, hregs]
  rfl

/-- **A block of SHA-512.** -/
theorem sha512Process_eq : mbedtlsInternalSha512Process = sha512.compress := by
  funext state data
  have hwords : (List.range 16).map (fun i => getUintBE 64 data (8 * i)) = words 64 16 data :=
    (words_eq 64 16 data).symm
  have hstart := length_words 64 16 data
  obtain ⟨-, hregs⟩ :=
    sha512_agree.lines (fun t => (extend sha512.next 64 (words 64 16 data)).getD t 0) state sha512K_eq 80 le_rfl
  simp only [mbedtlsInternalSha512Process, hwords, sha512_agree.schedule hstart 64]
  rw [← add_turned8 state (t := 80) rfl, hregs]
  rfl

end Sarah
