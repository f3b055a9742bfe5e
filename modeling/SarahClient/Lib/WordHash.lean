import Mathlib.Logic.Function.Basic
import Mathlib.Data.Nat.Bitwise

/-!
# Hashes of 32-bit words

* `mul_injective`, `xorShift_injective`, `xorShift_involutive`: the mixing steps lose nothing;
* `fnv1`, `fnv1a`, `pjw`, `murmurHash2`: the published hash functions;
* `murmurMix_surjective`, `murmurFinal_injective`: the two ends of a MurmurHash2 round.
-/

namespace WordHash

/-! ## Mixing steps -/

theorem mul_injective {a b : UInt32} (hab : a * b = 1) : Function.Injective fun h : UInt32 => h * a := by
  intro x y h
  have hmul := congrArg (fun z => z * b) h
  simpa only [UInt32.mul_assoc, hab, UInt32.mul_one] using hmul

/-- `h ^= h >> k`. -/
def xorShift (k h : UInt32) : UInt32 := h ^^^ (h >>> k)

theorem xorShift_xor (k x y : UInt32) : xorShift k (x ^^^ y) = xorShift k x ^^^ xorShift k y := by
  unfold xorShift
  rw [UInt32.shiftRight_xor]
  ac_rfl

theorem toNat_shiftRight_of_lt (h : UInt32) {k : ℕ} (hk : k < 32) :
    (h >>> UInt32.ofNat k).toNat = h.toNat / 2 ^ k := by
  rw [UInt32.toNat_shiftRight, UInt32.toNat_ofNat_of_lt' (by rw [UInt32.size]; omega), Nat.mod_eq_of_lt hk,
    Nat.shiftRight_eq_div_pow]

theorem xorShift_injective {k : ℕ} (hpos : 0 < k) (hk : k < 32) : Function.Injective (xorShift (UInt32.ofNat k)) := by
  intro x y h
  have hzero : xorShift (UInt32.ofNat k) (x ^^^ y) = 0 := by rw [xorShift_xor, h, UInt32.xor_self]
  have hself : (x ^^^ y).toNat = (x ^^^ y).toNat / 2 ^ k := by
    rw [← toNat_shiftRight_of_lt _ hk]
    exact congrArg UInt32.toNat (UInt32.xor_eq_zero_iff.mp hzero)
  have htoNat : (x ^^^ y).toNat = 0 := by
    by_contra hne
    exact absurd hself (Nat.div_lt_self (Nat.pos_of_ne_zero hne) (Nat.one_lt_two_pow hpos.ne')).ne'
  exact UInt32.xor_eq_zero_iff.mp (UInt32.toNat_inj.mp htoNat)

theorem xorShift_involutive {k : ℕ} (hhalf : 16 ≤ k) (hk : k < 32) (h : UInt32) :
    xorShift (UInt32.ofNat k) (xorShift (UInt32.ofNat k) h) = h := by
  have hzero : h >>> UInt32.ofNat k >>> UInt32.ofNat k = 0 := by
    refine UInt32.toNat_inj.mp ?_
    rw [toNat_shiftRight_of_lt _ hk, toNat_shiftRight_of_lt _ hk, Nat.div_div_eq_div_mul, ← pow_add]
    refine Nat.div_eq_of_lt (h.toNat_lt.trans_le ?_)
    exact Nat.pow_le_pow_right (by decide) (by omega)
  unfold xorShift
  rw [UInt32.shiftRight_xor, hzero, UInt32.xor_zero, UInt32.xor_assoc, UInt32.xor_self, UInt32.xor_zero]

/-! ## The published functions -/

/-- FNV-1 with 32 bits. -/
def fnv1 (s : List UInt8) : UInt32 := s.foldl (fun h c => (h * 16777619) ^^^ c.toUInt32) 2166136261

/-- FNV-1a with 32 bits. -/
def fnv1a (s : List UInt8) : UInt32 := s.foldl (fun h c => (h ^^^ c.toUInt32) * 16777619) 2166136261

/-- One byte of the PJW hash of the ELF format. -/
def pjwStep (h : UInt32) (c : UInt8) : UInt32 :=
  let h := (h <<< 4) + c.toUInt32
  let g := h &&& 0xF0000000
  if g ≠ 0 then (h ^^^ (g >>> 24)) &&& ~~~g else h

/-- The hash of a string. -/
def pjw (s : List UInt8) : UInt32 := s.foldl pjwStep 0

/-- The multiplier of MurmurHash2. -/
def murmurM : UInt32 := 0x5bd1e995

/-- What a word of the key is made into. -/
def murmurMix (k : UInt32) : UInt32 := xorShift 24 (k * murmurM) * murmurM

/-- One word of the key. -/
def murmurRound (h k : UInt32) : UInt32 := (h * murmurM) ^^^ murmurMix k

/-- The last mixes. -/
def murmurFinal (h : UInt32) : UInt32 := xorShift 15 (xorShift 13 h * murmurM)

/-- The little-endian word at the front of a list. -/
def leWord (k : List UInt8) : UInt32 :=
  UInt32.ofNat ((k.getD 0 0).toNat + (k.getD 1 0).toNat * 2 ^ 8 + (k.getD 2 0).toNat * 2 ^ 16 +
    (k.getD 3 0).toNat * 2 ^ 24)

/-- The first `n` words of a key. -/
def leWords : ℕ → List UInt8 → List UInt32
  | 0, _ => []
  | n + 1, k => leWord k :: leWords n (k.drop 4)

/-- The last bytes; each case goes on with the ones below it. -/
def murmurTail (k : List UInt8) (h : UInt32) : UInt32 :=
  match k with
  | [a, b, c] => (h ^^^ (c.toUInt32 <<< 16) ^^^ (b.toUInt32 <<< 8) ^^^ a.toUInt32) * murmurM
  | [a, b] => (h ^^^ (b.toUInt32 <<< 8) ^^^ a.toUInt32) * murmurM
  | [a] => (h ^^^ a.toUInt32) * murmurM
  | _ => h

/-- MurmurHash2 with 32 bits. -/
def murmurHash2 (key : List UInt8) (seed : UInt32) : UInt32 :=
  murmurFinal (murmurTail (key.drop (4 * (key.length / 4)))
    ((leWords (key.length / 4) key).foldl murmurRound (seed ^^^ UInt32.ofNat key.length)))

theorem murmurM_inverse : murmurM * 0xe59b19bd = 1 := by decide

theorem murmurFinal_injective : Function.Injective murmurFinal := by
  have h13 : Function.Injective (xorShift 13) := xorShift_injective (k := 13) (by decide) (by decide)
  have h15 : Function.Injective (xorShift 15) := xorShift_injective (k := 15) (by decide) (by decide)
  exact h15.comp ((mul_injective murmurM_inverse).comp h13)

theorem murmurMix_surjective : Function.Surjective murmurMix := by
  intro v
  have hinv : (0xe59b19bd : UInt32) * murmurM = 1 := by decide
  refine ⟨xorShift 24 (v * 0xe59b19bd) * 0xe59b19bd, ?_⟩
  have hundo : xorShift 24 (xorShift 24 (v * 0xe59b19bd)) = v * 0xe59b19bd :=
    xorShift_involutive (k := 24) (by decide) (by decide) _
  unfold murmurMix
  rw [UInt32.mul_assoc _ 0xe59b19bd, hinv, UInt32.mul_one, hundo, UInt32.mul_assoc, hinv, UInt32.mul_one]

theorem murmurRound_injective (k : UInt32) : Function.Injective fun h => murmurRound h k := by
  intro x y h
  exact mul_injective murmurM_inverse ((UInt32.xor_left_inj _).mp h)

theorem foldl_murmurRound_injective : ∀ ws : List UInt32, Function.Injective fun h => ws.foldl murmurRound h
  | [] => Function.injective_id
  | w :: ws => (foldl_murmurRound_injective ws).comp (murmurRound_injective w)

/-! ## Words in a key -/

/-- The bytes of a word, the low one first. -/
def leBytes (w : UInt32) : List UInt8 :=
  [UInt8.ofNat w.toNat, UInt8.ofNat (w.toNat / 2 ^ 8), UInt8.ofNat (w.toNat / 2 ^ 16), UInt8.ofNat (w.toNat / 2 ^ 24)]

theorem leWord_leBytes (w : UInt32) (t : List UInt8) : leWord (leBytes w ++ t) = w := by
  have hlt := w.toNat_lt
  refine UInt32.toNat_inj.mp ?_
  simp only [leWord, leBytes, List.cons_append, List.getD_cons_zero, List.getD_cons_succ, UInt8.toNat_ofNat',
    UInt32.toNat_ofNat']
  omega

theorem leWord_append {xs : List UInt8} (h : 4 ≤ xs.length) (ys : List UInt8) : leWord (xs ++ ys) = leWord xs := by
  have hget : ∀ i < 4, (xs ++ ys).getD i 0 = xs.getD i 0 := fun i hi => by
    rw [List.getD_append _ _ _ _ (by omega)]
  simp only [leWord, hget 0 (by decide), hget 1 (by decide), hget 2 (by decide), hget 3 (by decide)]

theorem leWords_append (b : ℕ) (ys : List UInt8) : ∀ (a : ℕ) {xs : List UInt8}, xs.length = 4 * a →
    leWords (a + b) (xs ++ ys) = leWords a xs ++ leWords b ys
  | 0, xs, hlen => by
    rw [List.length_eq_zero_iff.mp hlen, Nat.zero_add]
    rfl
  | a + 1, xs, hlen => by
    rw [Nat.succ_add, leWords, leWords, leWord_append (by omega), List.drop_append_of_le_length (by omega),
      leWords_append b ys a (by rw [List.length_drop]; omega), List.cons_append]

theorem leWords_of_append {a : ℕ} {xs : List UInt8} (hlen : xs.length = 4 * a) (ys : List UInt8) :
    leWords a (xs ++ ys) = leWords a xs := by
  rw [← Nat.add_zero a, leWords_append 0 ys a hlen, leWords, List.append_nil, Nat.add_zero]

end WordHash
