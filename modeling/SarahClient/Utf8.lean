import SarahClient.CInt

/-!
# The UTF-8 codec of `cel_string.c`

A `char` is a byte; it is negative from 128 on. The word behind a pointer is the list of its bytes.

* `celUtf8Charbytes`, `celUtf8ToUcode`: the number of bytes of a word, and its code;
* `celUcodeToUtf8`: the encoder, with the number of bytes it returns and the bytes it writes;
* `tagByte_eq`: a byte of a word is its tag and some bits of the code;
* `IsWord`: what the decoder reads from a word;
* **`utf8_roundTrip`**: the number of bytes is right for every code, the code for words of up to three bytes.
-/

namespace Sarah

/-! ## The code -/

/-- The loop of `cel_utf8_charbytes`; the eighth shift leaves 0. -/
def charbytesLoop : ℕ → UInt8 → ℕ
  | 0, _ => 0
  | n + 1, ch => if ch &&& 0x80 ≠ 0 then charbytesLoop n (ch <<< 1) + 1 else 0

/-- `cel_utf8_charbytes` -/
def celUtf8Charbytes (ch : UInt8) : ℕ := if ch.toNat < 128 then 1 else charbytesLoop 8 ch

/-- `cel_utf8_to_ucode`: the two low bytes of `code` are set; a byte behind the word is `none`. -/
def celUtf8ToUcode (word : List UInt8) : Option ℕ :=
  word[0]?.bind fun b1 =>
    match celUtf8Charbytes b1 with
    | 1 => some b1.toNat
    | 2 => word[1]?.map fun b2 => ((b1 <<< 6) + (b2 &&& 0x3F)).toNat + 2 ^ 8 * ((b1 >>> 2) &&& 0x07).toNat
    | 3 => word[1]?.bind fun b2 => word[2]?.map fun b3 =>
        ((b2 <<< 6) + (b3 &&& 0x3F)).toNat + 2 ^ 8 * ((b1 <<< 4) + ((b2 >>> 2) &&& 0x0F)).toNat
    -- larger words are ignored
    | _ => some 0

/-- `((u >> s) & mask) | tag` as a `char`. -/
def tagByte (u s mask tag : UInt32) : UInt8 := (((u >>> s) &&& mask) ||| tag).toUInt8

/-- `cel_ucode_to_utf8` -/
def celUcodeToUtf8 (u : UInt32) : ℕ × List UInt8 :=
  if u ≤ 0x0000007F then (1, [(u &&& 0x7F).toUInt8])
  else if u ≤ 0x000007FF then (2, [tagByte u 6 0x1F 0xC0, tagByte u 0 0x3F 0x80])
  else if u ≤ 0x0000FFFF then (3, [tagByte u 12 0x0F 0xE0, tagByte u 6 0x3F 0x80, tagByte u 0 0x3F 0x80])
  else if u ≤ 0x001FFFFF then
    (4, [tagByte u 18 0x07 0xF0, tagByte u 12 0x3F 0x80, tagByte u 6 0x3F 0x80, tagByte u 0 0x3F 0x80])
  else if u ≤ 0x03FFFFFF then
    (5, [tagByte u 24 0x03 0xF8, tagByte u 18 0x3F 0x80, tagByte u 12 0x3F 0x80, tagByte u 6 0x3F 0x80,
      tagByte u 0 0x3F 0x80])
  else if u ≤ 0x7FFFFFFF then
    (6, [tagByte u 30 0x01 0xFC, tagByte u 24 0x3F 0x80, tagByte u 18 0x3F 0x80, tagByte u 12 0x3F 0x80,
      tagByte u 6 0x3F 0x80, tagByte u 0 0x3F 0x80])
  else (0, [])

/-! ## Bytes -/

theorem tagByte_eq {s mask tag : UInt32} {k a : ℕ} (hs : s.toNat < 32) (hmask : mask.toNat = 2 ^ k - 1)
    (htag : tag.toNat = 2 ^ k * a) (u : UInt32) :
    tagByte u s mask tag = UInt8.ofNat (2 ^ k * a + u.toNat / 2 ^ s.toNat % 2 ^ k) := by
  have hlt := Nat.mod_lt (u.toNat / 2 ^ s.toNat) (Nat.two_pow_pos k)
  have hor : (((u >>> s) &&& mask) ||| tag).toNat = 2 ^ k * a + u.toNat / 2 ^ s.toNat % 2 ^ k := by
    rw [UInt32.toNat_or, UInt32.toNat_and, UInt32.toNat_shiftRight, Nat.mod_eq_of_lt hs, Nat.shiftRight_eq_div_pow,
      hmask, htag, Nat.and_two_pow_sub_one_eq_mod, Nat.or_comm, Nat.two_pow_add_eq_or_of_lt hlt]
  refine UInt8.toNat_inj.mp ?_
  rw [tagByte, UInt32.toNat_toUInt8, hor, UInt8.toNat_ofNat']

theorem tagByte_next {s : UInt32} (hs : s.toNat < 32) (u : UInt32) :
    tagByte u s 0x3F 0x80 = UInt8.ofNat (128 + u.toNat / 2 ^ s.toNat % 64) :=
  tagByte_eq (k := 6) (a := 2) hs rfl rfl u

theorem charbytes_first : (∀ x < 32, celUtf8Charbytes (UInt8.ofNat (192 + x)) = 2) ∧
    (∀ x < 16, celUtf8Charbytes (UInt8.ofNat (224 + x)) = 3) ∧ (∀ x < 8, celUtf8Charbytes (UInt8.ofNat (240 + x)) = 4) ∧
    (∀ x < 4, celUtf8Charbytes (UInt8.ofNat (248 + x)) = 5) ∧
      ∀ x < 2, celUtf8Charbytes (UInt8.ofNat (252 + x)) = 6 := by
  decide

theorem decode_two : ∀ x < 32, ∀ y < 64,
    ((UInt8.ofNat (192 + x) <<< 6) + (UInt8.ofNat (128 + y) &&& 0x3F)).toNat +
      2 ^ 8 * ((UInt8.ofNat (192 + x) >>> 2) &&& 0x07).toNat = 64 * x + y := by decide +kernel

theorem decode_low : ∀ y < 64, ∀ z < 64,
    ((UInt8.ofNat (128 + y) <<< 6) + (UInt8.ofNat (128 + z) &&& 0x3F)).toNat = 64 * (y % 4) + z := by decide +kernel

theorem decode_high : ∀ x < 16, ∀ y < 64,
    ((UInt8.ofNat (224 + x) <<< 4) + ((UInt8.ofNat (128 + y) >>> 2) &&& 0x0F)).toNat = 16 * x + y / 4 := by
      decide +kernel

/-! ## The round trip -/

/-- Bytes that are a word, as far as the decoder reads words. -/
structure IsWord (r : ℕ × List UInt8) (code : ℕ) : Prop where
  length : r.2.length = r.1
  charbytes : ∀ first ∈ r.2.head?, celUtf8Charbytes first = r.1
  ucode : ∀ behind, celUtf8ToUcode (r.2 ++ behind) = some code

theorem isWord_of_long {n : ℕ} {first : UInt8} {rest : List UInt8} (hlen : rest.length + 1 = n) (hn : 3 < n)
    (hfirst : celUtf8Charbytes first = n) : IsWord (n, first :: rest) 0 where
  length := hlen
  charbytes := fun c hc => by rwa [← Option.some.inj hc]
  ucode := fun behind => by
    rw [celUtf8ToUcode, List.cons_append, List.getElem?_cons_zero, Option.bind_some, hfirst]
    obtain ⟨m, rfl⟩ : ∃ m, n = m + 4 := ⟨n - 4, by omega⟩
    rfl

theorem isWord_one {u : UInt32} (hu : u.toNat < 128) : IsWord (1, [(u &&& 0x7F).toUInt8]) u.toNat := by
  have hbyte : (u &&& 0x7F).toUInt8.toNat = u.toNat := by
    rw [UInt32.toNat_toUInt8, UInt32.toNat_and, show (0x7F : UInt32).toNat = 2 ^ 7 - 1 from rfl,
      Nat.and_two_pow_sub_one_eq_mod]
    omega
  have hone : celUtf8Charbytes (u &&& 0x7F).toUInt8 = 1 := if_pos (hbyte ▸ hu)
  refine ⟨rfl, fun c hc => by rwa [← Option.some.inj hc], fun behind => ?_⟩
  rw [celUtf8ToUcode, List.cons_append, List.getElem?_cons_zero, Option.bind_some, hone]
  exact congrArg some hbyte

theorem isWord_two {u : UInt32} (hu : u.toNat < 2048) :
    IsWord (2, [tagByte u 6 0x1F 0xC0, tagByte u 0 0x3F 0x80]) u.toNat := by
  have hx : u.toNat / 64 % 32 < 32 := Nat.mod_lt _ (by decide)
  have hy : u.toNat % 64 < 64 := Nat.mod_lt _ (by decide)
  have hfirst : tagByte u 6 0x1F 0xC0 = UInt8.ofNat (192 + u.toNat / 64 % 32) :=
    tagByte_eq (k := 5) (a := 6) (by decide) rfl rfl u
  have hsecond : tagByte u 0 0x3F 0x80 = UInt8.ofNat (128 + u.toNat % 64) := by
    rw [tagByte_next (by decide), show (0 : UInt32).toNat = 0 from rfl, Nat.pow_zero, Nat.div_one]
  have hbytes := charbytes_first.1 _ hx
  rw [hfirst, hsecond]
  refine ⟨rfl, fun c hc => by rwa [← Option.some.inj hc], fun behind => ?_⟩
  rw [celUtf8ToUcode, List.cons_append, List.getElem?_cons_zero, Option.bind_some, hbytes]
  refine congrArg some ((decode_two _ hx _ hy).trans ?_)
  omega

theorem isWord_three {u : UInt32} (hu : u.toNat < 65536) :
    IsWord (3, [tagByte u 12 0x0F 0xE0, tagByte u 6 0x3F 0x80, tagByte u 0 0x3F 0x80]) u.toNat := by
  have hx : u.toNat / 4096 % 16 < 16 := Nat.mod_lt _ (by decide)
  have hy : u.toNat / 64 % 64 < 64 := Nat.mod_lt _ (by decide)
  have hz : u.toNat % 64 < 64 := Nat.mod_lt _ (by decide)
  have hfirst : tagByte u 12 0x0F 0xE0 = UInt8.ofNat (224 + u.toNat / 4096 % 16) :=
    tagByte_eq (k := 4) (a := 14) (by decide) rfl rfl u
  have hsecond : tagByte u 6 0x3F 0x80 = UInt8.ofNat (128 + u.toNat / 64 % 64) := tagByte_next (by decide) u
  have hthird : tagByte u 0 0x3F 0x80 = UInt8.ofNat (128 + u.toNat % 64) := by
    rw [tagByte_next (by decide), show (0 : UInt32).toNat = 0 from rfl, Nat.pow_zero, Nat.div_one]
  have hbytes := charbytes_first.2.1 _ hx
  rw [hfirst, hsecond, hthird]
  refine ⟨rfl, fun c hc => by rwa [← Option.some.inj hc], fun behind => ?_⟩
  rw [celUtf8ToUcode, List.cons_append, List.getElem?_cons_zero, Option.bind_some, hbytes]
  refine congrArg some ?_
  dsimp only
  rw [decode_low _ hy _ hz, decode_high _ hx _ hy]
  omega

/-- **The round trip**: the number of bytes is right, and the decoder gives the code back for words of up to three
bytes, and 0 for those that it ignores. -/
theorem utf8_roundTrip (u : UInt32) (hu : u ≤ 0x7FFFFFFF) :
    IsWord (celUcodeToUtf8 u) (if u ≤ 0xFFFF then u.toNat else 0) := by
  obtain ⟨-, -, hfour, hfive, hsix⟩ := charbytes_first
  have hbits : ∀ n k, u.toNat / 2 ^ n % 2 ^ k < 2 ^ k := fun n k => Nat.mod_lt _ (Nat.two_pow_pos k)
  unfold celUcodeToUtf8
  by_cases h₁ : u ≤ 0x7F
  · have hlt := UInt32.le_iff_toNat_le.mp h₁
    rw [if_pos h₁, if_pos (UInt32.le_trans h₁ (by decide))]
    exact isWord_one (Nat.lt_succ_of_le hlt)
  rw [if_neg h₁]
  by_cases h₂ : u ≤ 0x7FF
  · have hlt := UInt32.le_iff_toNat_le.mp h₂
    rw [if_pos h₂, if_pos (UInt32.le_trans h₂ (by decide))]
    exact isWord_two (Nat.lt_succ_of_le hlt)
  rw [if_neg h₂]
  by_cases h₃ : u ≤ 0xFFFF
  · have hlt := UInt32.le_iff_toNat_le.mp h₃
    rw [if_pos h₃, if_pos h₃]
    exact isWord_three (Nat.lt_succ_of_le hlt)
  rw [if_neg h₃, if_neg h₃]
  by_cases h₄ : u ≤ 0x1FFFFF
  · rw [if_pos h₄]
    refine isWord_of_long rfl (by decide) ?_
    rw [tagByte_eq (k := 3) (a := 30) (by decide) rfl rfl]
    exact hfour _ (hbits 18 3)
  rw [if_neg h₄]
  by_cases h₅ : u ≤ 0x3FFFFFF
  · rw [if_pos h₅]
    refine isWord_of_long rfl (by decide) ?_
    rw [tagByte_eq (k := 2) (a := 62) (by decide) rfl rfl]
    exact hfive _ (hbits 24 2)
  rw [if_neg h₅, if_pos hu]
  refine isWord_of_long rfl (by decide) ?_
  rw [tagByte_eq (k := 1) (a := 126) (by decide) rfl rfl]
  exact hsix _ (hbits 30 1)

theorem utf8_roundTrip_euro : IsWord (celUcodeToUtf8 0x20AC) 0x20AC := utf8_roundTrip 0x20AC (by decide)

/-- The first code of four bytes is decoded as 0. -/
theorem not_utf8_roundTrip : ¬ ∀ u : UInt32, u ≤ 0x7FFFFFFF → IsWord (celUcodeToUtf8 u) u.toNat := by
  intro h
  have hword := (h 0x10000 (by decide)).ucode []
  have hzero : celUtf8ToUcode ((celUcodeToUtf8 0x10000).2 ++ []) = some 0 := by decide +kernel
  rw [hzero] at hword
  exact absurd (Option.some.inj hword) (by decide)

end Sarah
