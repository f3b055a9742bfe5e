import SarahClient.Bloom.Hash
import SarahClient.Lib.WordHash
import Mathlib.Algebra.Ring.Parity
import Mathlib.Data.Set.Basic

/-!
# The hash functions and the published ones

* `FnvAgrees`, `fnv_off`: a byte from 128 on is sign-extended and flips bit 8 of the state;
* `ElfAgrees`, `elf_middle`: a shift by 24 leaves the middle bits empty;
* `celMurmurHash32`: the seed is masked with the length, and the last bytes do not fall through;
* **`fnv_iff`**, **`elf_iff`**, **`murmur_iff`**: where the functions agree.
-/

namespace Sarah

open WordHash

/-! ## FNV -/

/-- Both functions give the published values of the string, with the top bit cut off. -/
def FnvAgrees (s : List UInt8) : Prop :=
  celFnvHash s = hash31 (fnv1 s) ∧ celFnv1aHash s = hash31 (fnv1a s)

/-- The bytes that a signed `char` holds as negative numbers. -/
def highBytes (s : List UInt8) : ℕ := s.countP (128 ≤ ·)

theorem charU32_of_lt {c : UInt8} (hc : c < 128) : charU32 c = c.toUInt32 := by
  have hlt : c.toNat < 128 := UInt8.lt_iff_toNat_lt.mp hc
  refine UInt32.toNat_inj.mp ?_
  rw [charU32, charWord, if_pos hlt]
  simp

/-- The states have the same low byte, and bit 8 differs as `o` says. -/
def OffBy (o : Bool) (a b : UInt32) : Prop := a.toNat % 512 = (b.toNat % 512) ^^^ (if o then 256 else 0)

theorem xor_256 {x : ℕ} (hx : x < 512) : x ^^^ 256 = (x + 256) % 512 := by
  revert x
  decide +kernel

theorem OffBy.mul {o : Bool} {a b : UInt32} (h : OffBy o a b) : OffBy o (a * 16777619) (b * 16777619) := by
  have hmul : ∀ x : UInt32, (x * 16777619).toNat % 512 = x.toNat % 512 * 16777619 % 512 := by
    intro x
    rw [UInt32.toNat_mul, Nat.mod_mod_of_dvd _ (by decide), Nat.mod_mul_mod]
    rfl
  unfold OffBy at h ⊢
  rw [hmul, hmul, h]
  have hb : b.toNat % 512 < 512 := Nat.mod_lt _ (by decide)
  generalize b.toNat % 512 = x at hb
  cases o with
  | false => simp
  | true =>
    simp only [if_true]
    rw [xor_256 hb, xor_256 (Nat.mod_lt _ (by decide))]
    omega

theorem charU32_mod (c : UInt8) :
    (charU32 c).toNat % 512 = (c.toUInt32.toNat % 512) ^^^ (if 128 ≤ c then 256 else 0) := by
  have hlt := c.toNat_lt
  have hword : (charU32 c).toNat = charWord c := by
    rw [charU32, UInt32.toNat_ofNat_of_lt' (by unfold charWord; rw [UInt32.size]; split_ifs <;> omega)]
  have hle : 128 ≤ c ↔ ¬ c.toNat < 128 := by rw [UInt8.le_iff_toNat_le, not_lt]; rfl
  rw [hword, UInt8.toNat_toUInt32, Nat.mod_eq_of_lt (show c.toNat < 512 by omega)]
  unfold charWord
  by_cases hc : c.toNat < 128
  · rw [if_pos hc, if_neg (by rw [hle]; exact not_not.mpr hc), Nat.xor_zero]
    omega
  · rw [if_neg hc, if_pos (hle.mpr hc), xor_256 (by omega)]
    omega

theorem OffBy.xor {o : Bool} {a b : UInt32} (h : OffBy o a b) (c : UInt8) :
    OffBy (o ^^ decide (128 ≤ c)) (a ^^^ charU32 c) (b ^^^ c.toUInt32) := by
  have hxor : ∀ x y : UInt32, (x ^^^ y).toNat % 512 = (x.toNat % 512) ^^^ (y.toNat % 512) := fun x y => by
    rw [UInt32.toNat_xor]
    exact Nat.xor_mod_two_pow (n := 9)
  unfold OffBy at h ⊢
  rw [hxor, hxor, h, charU32_mod]
  have hbit : ((if o = true then 256 else 0) ^^^ (if 128 ≤ c then 256 else 0) : ℕ) =
      if (o ^^ decide (128 ≤ c)) = true then 256 else 0 := by
    cases o <;> by_cases hc : 128 ≤ c <;> simp [hc]
  rw [← hbit]
  ac_rfl

/-- The states that start `o` apart are apart by the parity of the high bytes in the end. -/
theorem foldl_offBy {f g : UInt32 → UInt8 → UInt32}
    (hstep : ∀ o a b c, OffBy o a b → OffBy (o ^^ decide (128 ≤ c)) (f a c) (g b c)) :
    ∀ (s : List UInt8) {o : Bool} {a b : UInt32}, OffBy o a b →
      OffBy (o ^^ decide (Odd (highBytes s))) (s.foldl f a) (s.foldl g b)
  | [], o, a, b, h => by simpa [highBytes] using h
  | c :: s, o, a, b, h => by
    have hrest := foldl_offBy hstep s (hstep o a b c h)
    have hpar : (o ^^ decide (128 ≤ c) ^^ decide (Odd (highBytes s))) = (o ^^ decide (Odd (highBytes (c :: s)))) := by
      unfold highBytes
      rw [List.countP_cons]
      by_cases hc : 128 ≤ c
      · by_cases hodd : Odd (s.countP (128 ≤ ·)) <;> simp [hc, Nat.odd_add_one, hodd]
      · simp [hc]
    rw [← hpar]
    exact hrest

theorem hash31_eq_mod (h : UInt32) : hash31 h = h.toNat % 2 ^ 31 := by
  rw [hash31, UInt32.toNat_and]
  exact Nat.and_two_pow_sub_one_eq_mod _ 31

theorem hash31_mod (h : UInt32) : hash31 h % 512 = h.toNat % 512 := by
  rw [hash31_eq_mod, Nat.mod_mod_of_dvd _ (by decide)]

theorem OffBy.ne {a b : UInt32} (h : OffBy true a b) : hash31 a ≠ hash31 b := by
  intro heq
  have hmod := hash31_mod a
  rw [heq, hash31_mod] at hmod
  unfold OffBy at h
  rw [← hmod, if_pos rfl, xor_256 (Nat.mod_lt _ (by decide))] at h
  omega

theorem fnvAgrees_of_lt {s : List UInt8} (hs : ∀ c ∈ s, c < 128) : FnvAgrees s := by
  refine ⟨congrArg hash31 (List.foldl_ext _ _ _ fun h c hc => ?_),
    congrArg hash31 (List.foldl_ext _ _ _ fun h c hc => ?_)⟩
  · rw [charU32_of_lt (hs c hc)]
  · rw [charU32_of_lt (hs c hc)]

/-- With an odd number of bytes from 128 on, both hashes differ in bit 8. -/
theorem fnv_off {s : List UInt8} (hodd : Odd (highBytes s)) :
    celFnvHash s ≠ hash31 (fnv1 s) ∧ celFnv1aHash s ≠ hash31 (fnv1a s) := by
  have hstart : OffBy false (2166136261 : UInt32) 2166136261 := rfl
  have hfnv := foldl_offBy (f := fun h c => (h * 16777619) ^^^ charU32 c)
    (g := fun h c => (h * 16777619) ^^^ c.toUInt32)
    (fun o a b c h => h.mul.xor c) s hstart
  have hfnv1a := foldl_offBy (f := fun h c => (h ^^^ charU32 c) * 16777619)
    (g := fun h c => (h ^^^ c.toUInt32) * 16777619)
    (fun o a b c h => (h.xor c).mul) s hstart
  simp only [hodd, decide_true, Bool.false_xor] at hfnv hfnv1a
  exact ⟨hfnv.ne, hfnv1a.ne⟩

/-- **FNV.** The strings over a set of characters all agree exactly where no character is 128 or above; a string with
an odd number of such bytes never does. -/
theorem fnv_iff (A : Set UInt8) : ((∀ s : List UInt8, (∀ c ∈ s, c ∈ A) → FnvAgrees s) ↔ ∀ c ∈ A, c < 128) ∧
    ∀ s, Odd (highBytes s) → celFnvHash s ≠ hash31 (fnv1 s) ∧ celFnv1aHash s ≠ hash31 (fnv1a s) := by
  refine ⟨⟨fun hall c hc => ?_, fun hA s hs => fnvAgrees_of_lt fun c hc => hA c (hs c hc)⟩, fun s => fnv_off⟩
  by_contra hge
  have hone : highBytes [c] = 1 := by
    rw [highBytes, List.countP_singleton, if_pos (decide_eq_true (UInt8.not_lt.mp hge))]
  refine (fnv_off (s := [c]) (by rw [hone]; exact odd_one)).1 (hall [c] fun x hx => ?_).1
  rw [List.mem_singleton.mp hx]
  exact hc

/-- Letters agree. -/
theorem fnv_iff_letters : FnvAgrees [97, 98] :=
  (fnv_iff {c | c < 128}).1.mpr (fun _ h => h) [97, 98] (by decide +kernel)

-- two high bytes can cancel
example : celFnvHash [0x9F, 0x80] = hash31 (fnv1 [0x9F, 0x80]) := by decide +kernel

/-- The byte 128 alone. -/
theorem not_fnv : ¬ ∀ s : List UInt8, 0 ∉ s → FnvAgrees s := by
  intro hall
  have hone := (hall [0x80] (by decide)).1
  revert hone
  decide +kernel

/-! ## ELF -/

/-- The function gives the published value of the string. -/
def ElfAgrees (s : List UInt8) : Prop := celElfHash s = hash31 (pjw s)

/-- ASCII characters before a NUL. -/
def IsAscii (s : List UInt8) : Prop := ∀ c ∈ s, c ≠ 0 ∧ c < 128

instance (s : List UInt8) : Decidable (IsAscii s) := List.decidableBAll _ s

/-- What both steps do to the shifted word `y`: the bits of `x` come back at the bottom, where the top of `y` is not
empty. -/
def foldTop (y x : UInt32) : UInt32 :=
  if y &&& 0xF0000000 ≠ 0 then (y ^^^ (x >>> 24)) &&& ~~~(y &&& 0xF0000000) else y

theorem elfStep_eq (h : UInt32) (c : UInt8) :
    elfStep h c = foldTop ((h <<< 24) + charU32 c) ((h <<< 24) + charU32 c) := rfl

theorem pjwStep_eq (h : UInt32) (c : UInt8) :
    pjwStep h c = foldTop ((h <<< 4) + c.toUInt32) (((h <<< 4) + c.toUInt32) &&& 0xF0000000) := rfl

theorem foldTop_bit {y x : UInt32} {i : ℕ} (hi : i < 28) (hx : (x >>> 24).toBitVec.getLsbD i = false) :
    (foldTop y x).toBitVec.getLsbD i = y.toBitVec.getLsbD i := by
  have hclear : (0xF0000000 : UInt32).toBitVec.getLsbD i = false := by
    clear hx
    revert i
    decide
  have hin : i < 32 := by omega
  unfold foldTop
  split_ifs with h
  · simp only [UInt32.toBitVec_and, UInt32.toBitVec_xor, UInt32.toBitVec_not, BitVec.getLsbD_and, BitVec.getLsbD_xor,
      BitVec.getLsbD_not, hx, hclear, hin]
    simp
  · rfl

/-- Bits 8 to 23 of a word. -/
def middle (h : UInt32) : ℕ := h.toNat / 2 ^ 8 % 2 ^ 16

theorem middle_foldTop (y x : UInt32) : middle (foldTop y x) = middle y := by
  refine Nat.eq_of_testBit_eq fun i => ?_
  unfold middle
  rw [Nat.testBit_mod_two_pow, Nat.testBit_mod_two_pow, Nat.testBit_div_two_pow, Nat.testBit_div_two_pow]
  by_cases hi : i < 16
  · have hhigh : (x >>> 24).toBitVec.getLsbD (i + 8) = false := by
      refine Nat.testBit_lt_two_pow (show (x >>> 24).toNat < 2 ^ (i + 8) from ?_)
      have hshift : (x >>> 24).toNat = x.toNat / 2 ^ 24 := toNat_shiftRight_of_lt x (k := 24) (by decide)
      have hpow : 2 ^ 8 ≤ 2 ^ (i + 8) := Nat.pow_le_pow_right (by decide) (by omega)
      have hlt := x.toNat_lt
      rw [hshift]
      omega
    rw [show (foldTop y x).toNat.testBit (i + 8) = y.toNat.testBit (i + 8) from foldTop_bit (by omega) hhigh]
  · simp [hi]

theorem toNat_shiftLeft_add (h : UInt32) (c : UInt8) {k : ℕ} (hk : k < 32) :
    ((h <<< UInt32.ofNat k) + c.toUInt32).toNat = (h.toNat * 2 ^ k + c.toNat) % 2 ^ 32 := by
  rw [UInt32.toNat_add, UInt32.toNat_shiftLeft, UInt8.toNat_toUInt32,
    UInt32.toNat_ofNat_of_lt' (by rw [UInt32.size]; omega), Nat.mod_eq_of_lt hk, Nat.shiftLeft_eq, Nat.mod_add_mod]

theorem pjwStep_mod (h : UInt32) (c : UInt8) : (pjwStep h c).toNat % 2 ^ 4 = c.toNat % 2 ^ 4 := by
  have hdigit : (pjwStep h c).toNat % 2 ^ 4 = ((h <<< 4) + c.toUInt32).toNat % 2 ^ 4 := by
    refine Nat.eq_of_testBit_eq fun i => ?_
    rw [Nat.testBit_mod_two_pow, Nat.testBit_mod_two_pow]
    by_cases hi : i < 4
    · have hlow : ((((h <<< 4) + c.toUInt32) &&& 0xF0000000) >>> 24).toBitVec.getLsbD i = false := by
        have hmask : ((0xF0000000 : UInt32) >>> 24).toBitVec.getLsbD i = false := by
          revert i
          decide
        rw [UInt32.shiftRight_and, UInt32.toBitVec_and, BitVec.getLsbD_and, hmask, Bool.and_false]
      rw [pjwStep_eq, show (foldTop _ _).toNat.testBit i = _ from foldTop_bit (by omega) hlow]
      rfl
    · simp [hi]
  rw [hdigit, show (h <<< 4) + c.toUInt32 = (h <<< UInt32.ofNat 4) + c.toUInt32 from rfl,
    toNat_shiftLeft_add h c (by decide)]
  omega

theorem middle_pjwStep (h : UInt32) (c : UInt8) :
    middle (pjwStep h c) = (h.toNat * 2 ^ 4 + c.toNat) % 2 ^ 32 / 2 ^ 8 % 2 ^ 16 := by
  rw [pjwStep_eq, middle_foldTop, ← toNat_shiftLeft_add h c (by decide)]
  rfl

theorem elf_middle (h : UInt32) {c : UInt8} (hc : c < 128) : middle (elfStep h c) = 0 := by
  have hlt : c.toNat < 128 := UInt8.lt_iff_toNat_lt.mp hc
  rw [elfStep_eq, middle_foldTop, charU32_of_lt hc, middle,
    show (h <<< 24) + c.toUInt32 = (h <<< UInt32.ofNat 24) + c.toUInt32 from rfl, toNat_shiftLeft_add h c (by decide)]
  omega

/-- Behind any state, two characters put something into the middle of the published hash. -/
theorem pjw_middle (h : UInt32) : ∃ c d : UInt8, (c ≠ 0 ∧ c < 128) ∧ (d ≠ 0 ∧ d < 128) ∧
    middle (pjwStep (pjwStep h c) d) ≠ 0 := by
  have hdigit := pjwStep_mod h 15
  have hlt := (pjwStep h 15).toNat_lt
  -- the low digit is 15, so a 16 in the last character carries into the middle
  by_cases hcarry : (pjwStep h 15).toNat / 2 ^ 4 % 2 ^ 16 = 0
  · refine ⟨15, 17, by decide, by decide, ?_⟩
    rw [middle_pjwStep]
    simp only [UInt8.reduceToNat] at hdigit ⊢
    omega
  · refine ⟨15, 1, by decide, by decide, ?_⟩
    rw [middle_pjwStep]
    simp only [UInt8.reduceToNat] at hdigit ⊢
    omega

theorem middle_of_hash31 {x y : UInt32} (h : hash31 x = hash31 y) : middle x = middle y := by
  rw [hash31_eq_mod, hash31_eq_mod] at h
  unfold middle
  omega

theorem foldTop_of_lt {y x : UInt32} (hy : y.toNat < 2 ^ 28) : foldTop y x = y := by
  have htop : y &&& 0xF0000000 = 0 := by
    refine UInt32.toNat_inj.mp (Nat.eq_of_testBit_eq fun i => ?_)
    rw [UInt32.toNat_and, Nat.testBit_and]
    by_cases hi : i < 28
    · have hclear : (0xF0000000 : UInt32).toNat.testBit i = false := by
        revert i
        decide
      rw [hclear, Bool.and_false]
      exact (Nat.zero_testBit i).symm
    · have hpow : 2 ^ 28 ≤ 2 ^ i := Nat.pow_le_pow_right (by decide) (by omega)
      rw [Nat.testBit_lt_two_pow (by omega), Bool.false_and]
      exact (Nat.zero_testBit i).symm
  exact if_neg (not_not.mpr htop)

theorem toNat_pjwStep_of_lt {h : UInt32} {c : UInt8} (hlt : h.toNat * 16 + c.toNat < 2 ^ 28) :
    (pjwStep h c).toNat = h.toNat * 16 + c.toNat := by
  have hsum : ((h <<< 4) + c.toUInt32).toNat = h.toNat * 16 + c.toNat := by
    rw [show (h <<< 4) + c.toUInt32 = (h <<< UInt32.ofNat 4) + c.toUInt32 from rfl, toNat_shiftLeft_add h c (by decide)]
    omega
  rw [pjwStep_eq, foldTop_of_lt (by rw [hsum]; exact hlt), hsum]

/-- Without a correction the published hash is a number in base 16 whose digits may be up to 127. -/
theorem foldl_pjwStep_bounds : ∀ {s : List UInt8} {h : UInt32}, IsAscii s → (h.toNat + 9) * 16 ^ s.length ≤ 2 ^ 28 →
    h.toNat * 16 ^ s.length ≤ (s.foldl pjwStep h).toNat ∧ (s.foldl pjwStep h).toNat + 9 ≤ (h.toNat + 9) * 16 ^ s.length
  | [], h, _, _ => by simp
  | c :: s, h, hs, hbound => by
    have hc : c.toNat < 128 := UInt8.lt_iff_toNat_lt.mp (hs c List.mem_cons_self).2
    rw [List.length_cons, pow_succ'] at hbound ⊢
    have hgrow : (h.toNat + 9) * 16 ≤ (h.toNat + 9) * (16 * 16 ^ s.length) :=
      Nat.mul_le_mul_left _ (Nat.le_mul_of_pos_right _ (Nat.pow_pos (by decide)))
    have hstep : (pjwStep h c).toNat = h.toNat * 16 + c.toNat := toNat_pjwStep_of_lt (by omega)
    have hle : ((pjwStep h c).toNat + 9) * 16 ^ s.length ≤ (h.toNat + 9) * (16 * 16 ^ s.length) := by
      rw [hstep, ← Nat.mul_assoc]
      exact Nat.mul_le_mul_right _ (by omega)
    obtain ⟨hlow, hhigh⟩ := foldl_pjwStep_bounds (fun x hx => hs x (List.mem_cons_of_mem _ hx)) (hle.trans hbound)
    refine ⟨le_trans ?_ hlow, hhigh.trans hle⟩
    rw [hstep, ← Nat.mul_assoc]
    exact Nat.mul_le_mul_right _ (by omega)

theorem elfStep_zero {c : UInt8} (hc : c < 128) : elfStep 0 c = pjwStep 0 c := by
  have hall : ∀ n < 128, elfStep 0 (UInt8.ofNat n) = pjwStep 0 (UInt8.ofNat n) := by decide +kernel
  rw [← UInt8.ofNat_toNat (x := c)]
  exact hall c.toNat (UInt8.lt_iff_toNat_lt.mp hc)

theorem elf_two {c d : UInt8} (hc : c ≠ 0 ∧ c < 16) (hd : d < 128) :
    hash31 (elfStep (elfStep 0 c) d) ≠ hash31 (pjwStep (pjwStep 0 c) d) := by
  have hall : ∀ n < 16, ∀ m < 128, UInt8.ofNat n ≠ 0 →
      hash31 (elfStep (elfStep 0 (UInt8.ofNat n)) (UInt8.ofNat m)) ≠
        hash31 (pjwStep (pjwStep 0 (UInt8.ofNat n)) (UInt8.ofNat m)) := by decide +kernel
  rw [← UInt8.ofNat_toNat (x := c), ← UInt8.ofNat_toNat (x := d)]
  refine hall c.toNat (UInt8.lt_iff_toNat_lt.mp hc.2) d.toNat (UInt8.lt_iff_toNat_lt.mp hd) ?_
  rw [UInt8.ofNat_toNat]
  exact hc.1

theorem middle_foldl_elfStep {s : List UInt8} (hs : IsAscii s) (hne : s ≠ []) (h : UInt32) :
    middle (s.foldl elfStep h) = 0 := by
  obtain ⟨t, c, rfl⟩ := (List.eq_nil_or_concat' s).resolve_left hne
  rw [List.foldl_append]
  exact elf_middle _ (hs c (by simp)).2

/-- A string of two to five characters whose published hash is not a byte. -/
theorem not_elfAgrees_of_large {s : List UInt8} (hs : IsAscii s) (hne : s ≠ []) (hlow : 2 ^ 8 ≤ (pjw s).toNat)
    (hhigh : (pjw s).toNat < 2 ^ 24) : ¬ ElfAgrees s := by
  intro h
  have hmid := middle_of_hash31 h
  rw [middle_foldl_elfStep hs hne, middle] at hmid
  omega

theorem toNat_pjwStep_zero (c : UInt8) : (pjwStep 0 c).toNat = c.toNat := by
  have hzero : (0 : UInt32).toNat * 16 + c.toNat = c.toNat := by rw [UInt32.toNat_zero, Nat.zero_mul, Nat.zero_add]
  have hlt := c.toNat_lt
  rw [toNat_pjwStep_of_lt (by omega), hzero]

theorem pjw_cons_bounds {c : UInt8} {s : List UInt8} (hs : IsAscii (c :: s)) (hlen : s.length ≤ 4) :
    c.toNat * 16 ^ s.length ≤ (pjw (c :: s)).toNat ∧ (pjw (c :: s)).toNat < 2 ^ 24 := by
  have hlt : c.toNat < 128 := UInt8.lt_iff_toNat_lt.mp (hs c List.mem_cons_self).2
  have hpow : 16 ^ s.length ≤ 16 ^ 4 := Nat.pow_le_pow_right (by decide) hlen
  have hbound : ((pjwStep 0 c).toNat + 9) * 16 ^ s.length ≤ 136 * 16 ^ 4 := by
    rw [toNat_pjwStep_zero]
    exact Nat.mul_le_mul (by omega) hpow
  obtain ⟨hlow, hhigh⟩ := foldl_pjwStep_bounds (fun x hx => hs x (List.mem_cons_of_mem _ hx)) (hbound.trans (by decide))
  rw [toNat_pjwStep_zero] at hlow
  rw [pjw, List.foldl_cons]
  exact ⟨hlow, by omega⟩

theorem elfAgrees_of_le_one {s : List UInt8} (hs : IsAscii s) (hlen : s.length ≤ 1) : ElfAgrees s := by
  match s with
  | [] => rw [ElfAgrees, celElfHash, pjw, List.foldl_nil, List.foldl_nil]
  | [c] =>
    rw [ElfAgrees, celElfHash, pjw, List.foldl_cons, List.foldl_cons, elfStep_zero (hs c List.mem_cons_self).2,
      List.foldl_nil, List.foldl_nil]

theorem elf_short {s : List UInt8} (hs : IsAscii s) (hlen : s.length ≤ 5) : ElfAgrees s ↔ s.length ≤ 1 := by
  refine ⟨fun hagrees => ?_, elfAgrees_of_le_one hs⟩
  match s with
  | [] => exact Nat.zero_le 1
  | [c] => exact le_rfl
  | c :: d :: t =>
    refine absurd hagrees ?_
    obtain ⟨hlow, hhigh⟩ := pjw_cons_bounds hs (Nat.le_of_succ_le_succ hlen)
    have hc := (hs c List.mem_cons_self).1
    have hd := (hs d (List.mem_cons_of_mem _ List.mem_cons_self)).2
    have hpos : 0 < c.toNat := Nat.pos_of_ne_zero fun h => hc (UInt8.toNat_inj.mp h)
    by_cases ht : t = []
    · subst ht
      rw [List.length_singleton] at hlow
      by_cases hsmall : c.toNat < 16
      · exact elf_two ⟨hc, UInt8.lt_iff_toNat_lt.mpr hsmall⟩ hd
      · exact not_elfAgrees_of_large hs (List.cons_ne_nil _ _) (by omega) hhigh
    · have hlong : 2 ≤ (d :: t).length := Nat.succ_le_succ (List.length_pos_of_ne_nil ht)
      have hlarge : 2 ^ 8 ≤ c.toNat * 16 ^ (d :: t).length :=
        (Nat.pow_le_pow_right (by decide : 0 < 16) hlong).trans (Nat.le_mul_of_pos_left _ hpos)
      exact not_elfAgrees_of_large hs (List.cons_ne_nil _ _) (hlarge.trans hlow) hhigh

/-- **ELF.** All ASCII strings of a length agree exactly for the lengths 0 and 1; up to length 5 no longer string
does. -/
theorem elf_iff (n : ℕ) : ((∀ s : List UInt8, s.length = n → IsAscii s → ElfAgrees s) ↔ n ≤ 1) ∧
    ∀ s : List UInt8, s.length = n → IsAscii s → n ≤ 5 → (ElfAgrees s ↔ n ≤ 1) := by
  refine ⟨⟨fun hall => ?_, fun hn s hlen hs => elfAgrees_of_le_one hs (by omega)⟩, fun s hlen hs hn => ?_⟩
  swap
  · rw [← hlen] at hn ⊢
    exact elf_short hs hn
  by_contra hn
  obtain ⟨c, d, hc, hd, hmid⟩ := pjw_middle ((List.replicate (n - 2) 1).foldl pjwStep 0)
  have hs : IsAscii (List.replicate (n - 2) 1 ++ [c, d]) := by
    intro x hx
    rcases List.mem_append.mp hx with hx | hx
    · rw [List.eq_of_mem_replicate hx]
      decide
    · simp only [List.mem_cons, List.not_mem_nil, or_false] at hx
      rcases hx with rfl | rfl
      · exact hc
      · exact hd
  have hagree := hall _ (by simp; omega) hs
  have heq := middle_of_hash31 hagree
  rw [middle_foldl_elfStep hs (by simp)] at heq
  refine hmid (Eq.trans ?_ heq.symm)
  rw [pjw, List.foldl_append]
  rfl

/-- One letter agrees. -/
theorem elf_iff_letter : ElfAgrees [97] := (elf_iff 1).1.mpr le_rfl [97] rfl (by decide)

/-- Two letters do not. -/
theorem not_elf : ¬ ∀ s : List UInt8, IsAscii s → ElfAgrees s := by
  intro hall
  have htwo : celElfHash [97, 98] = hash31 (pjw [97, 98]) := hall [97, 98] (by decide)
  revert htwo
  decide +kernel

end Sarah
