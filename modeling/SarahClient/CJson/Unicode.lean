import SarahClient.CJson.RoundTrip

/-!
# The characters of a string

* `StringChar`: the `char` of the grammar of JSON, a character as it is, an escape of one letter, or a UTF-16 code unit
  in four digits;
* `characters`: what such a list stands for. A surrogate that is not one of a pair stands for nothing;
* `encodeCodepoint_char`: the bytes of a code point are its UTF-8;
* **`cJSONParse_string`**: every string of the grammar is read as the UTF-8 of its characters, or it is refused at its
  first lone surrogate.
-/

namespace Sarah.JsonText

open Stdio

/-! ## The grammar -/

/-- A hexadecimal digit, in capitals or not. -/
structure HexDigit where
  value : Fin 16
  capital : Bool

/-- The digit as it is written. -/
def HexDigit.char (d : HexDigit) : UInt8 :=
  if d.value.val < 10 then UInt8.ofNat (48 + d.value.val)
  else if d.capital then UInt8.ofNat (65 + (d.value.val - 10))
  else UInt8.ofNat (97 + (d.value.val - 10))

/-- The escapes of one letter. -/
inductive Escape
  | quote
  | backslash
  | slash
  | backspace
  | formFeed
  | lineFeed
  | carriageReturn
  | tab

/-- The letter behind the backslash. -/
def Escape.letter : Escape → UInt8
  | .quote => 34
  | .backslash => 92
  | .slash => 47
  | .backspace => 98
  | .formFeed => 102
  | .lineFeed => 110
  | .carriageReturn => 114
  | .tab => 116

/-- The character it stands for. -/
def Escape.char : Escape → Char
  | .quote => '"'
  | .backslash => '\\'
  | .slash => '/'
  | .backspace => Char.ofNat 8
  | .formFeed => Char.ofNat 12
  | .lineFeed => Char.ofNat 10
  | .carriageReturn => Char.ofNat 13
  | .tab => Char.ofNat 9

/-- One `char` of a string. -/
inductive StringChar
  | unescaped (c : Char) (h : 32 ≤ c.toNat ∧ c.toNat ≠ 34 ∧ c.toNat ≠ 92)
  | escaped (e : Escape)
  | unit (a b c d : HexDigit)

/-- The text. -/
def StringChar.text : StringChar → List UInt8
  | .unescaped c _ => String.utf8EncodeChar c
  | .escaped e => [92, e.letter]
  | .unit a b c d => [92, 117, a.char, b.char, c.char, d.char]

/-- The code unit of four digits. -/
def codeUnit (a b c d : HexDigit) : ℕ :=
  ((a.value.val * 16 + b.value.val) * 16 + c.value.val) * 16 + d.value.val

/-- The first half of a pair. -/
abbrev HighSurrogate (n : ℕ) : Prop := 0xD800 ≤ n ∧ n ≤ 0xDBFF

/-- The second half of a pair. -/
abbrev LowSurrogate (n : ℕ) : Prop := 0xDC00 ≤ n ∧ n ≤ 0xDFFF

/-- A character in front, written in `n` bytes. -/
def prepend (n : ℕ) (c : Char) : Except ℕ (List Char) → Except ℕ (List Char)
  | .ok cs => .ok (c :: cs)
  | .error k => .error (n + k)

/-- **The characters** of a string, or the number of bytes in front of its first lone surrogate. -/
def characters : List StringChar → Except ℕ (List Char)
  | [] => .ok []
  | .unescaped c _ :: s => prepend (String.utf8EncodeChar c).length c (characters s)
  | .escaped e :: s => prepend 2 e.char (characters s)
  | .unit a b c d :: s =>
    let first := codeUnit a b c d
    if LowSurrogate first then .error 0
    else if HighSurrogate first then
      match s with
      | .unit a' b' c' d' :: s =>
        let second := codeUnit a' b' c' d'
        if LowSurrogate second then
          prepend 12 (Char.ofNat (0x10000 + (first - 0xD800) * 0x400 + (second - 0xDC00))) (characters s)
        else .error 0
      | _ => .error 0
    else prepend 6 (Char.ofNat first) (characters s)

/-! ## UTF-8 -/

variable {content : List UInt8} {offset : ℕ}

theorem continuation_byte (n : ℕ) : UInt8.ofNat ((n ||| 0x80) &&& 0xBF) = UInt8.ofNat (n % 0x40 + 0x80) := by
  have hlow : ∀ m < 256, (m ||| 0x80) &&& 0xBF = m % 0x40 + 0x80 := by decide +kernel
  have hmod : ((n ||| 0x80) &&& 0xBF) % 2 ^ 8 = n % 0x40 + 0x80 := by
    rw [Nat.and_mod_two_pow, Nat.or_mod_two_pow]
    show (n % 256 ||| 0x80) &&& 0xBF = _
    rw [hlow _ (Nat.mod_lt _ (by decide))]
    omega
  apply UInt8.toNat_inj.mp
  rw [UInt8.toNat_ofNat', hmod, UInt8.toNat_ofNat']
  omega

theorem mark_two : ∀ n < 0x20, (n ||| 0xC0) &&& 0xFF = n % 0x20 + 0xC0 := by decide

theorem mark_three : ∀ n < 0x10, (n ||| 0xE0) &&& 0xFF = n % 0x10 + 0xE0 := by decide

theorem mark_four : ∀ n < 0x08, (n ||| 0xF0) &&& 0xFF = n % 0x08 + 0xF0 := by decide

/-- **The bytes of a code point** are its UTF-8. -/
theorem encodeCodepoint_char (n : ℕ) (c : Char) : encodeCodepoint n c.toNat = (n, String.utf8EncodeChar c) := by
  have hmax : c.toNat < 0x110000 := by
    rcases c.valid with h | h
    · exact h.trans (by decide)
    · exact h.2
  have hchar : String.utf8EncodeChar c = if c.toNat ≤ 0x7f then [UInt8.ofNat c.toNat]
      else if c.toNat ≤ 0x7ff then
        [UInt8.ofNat (c.toNat / 64 % 0x20 + 0xC0), UInt8.ofNat (c.toNat % 0x40 + 0x80)]
      else if c.toNat ≤ 0xffff then
        [UInt8.ofNat (c.toNat / 4096 % 0x10 + 0xE0), UInt8.ofNat (c.toNat / 64 % 0x40 + 0x80),
          UInt8.ofNat (c.toNat % 0x40 + 0x80)]
      else
        [UInt8.ofNat (c.toNat / 262144 % 0x08 + 0xF0), UInt8.ofNat (c.toNat / 4096 % 0x40 + 0x80),
          UInt8.ofNat (c.toNat / 64 % 0x40 + 0x80), UInt8.ofNat (c.toNat % 0x40 + 0x80)] := rfl
  rw [hchar]
  generalize c.toNat = v at hmax
  have h₁ : v >>> 6 = v / 64 := Nat.shiftRight_eq_div_pow v 6
  have h₂ : (v / 64) >>> 6 = v / 4096 := by rw [Nat.shiftRight_eq_div_pow, Nat.div_div_eq_div_mul]
  have h₃ : (v / 4096) >>> 6 = v / 262144 := by rw [Nat.shiftRight_eq_div_pow, Nat.div_div_eq_div_mul]
  unfold encodeCodepoint
  by_cases hone : v < 0x80
  · rw [if_pos hone, if_pos (show v ≤ 0x7f by omega), encodeUtf8,
      show v &&& 0x7F = v % 128 from Nat.and_two_pow_sub_one_eq_mod v 7, Nat.mod_eq_of_lt hone]
  · rw [if_neg hone, if_neg (show ¬ v ≤ 0x7f by omega)]
    by_cases htwo : v < 0x800
    · rw [if_pos htwo, if_pos (show v ≤ 0x7ff by omega), encodeUtf8, encodeUtf8, continuation_byte, h₁,
        mark_two _ (by omega)]
      rfl
    · rw [if_neg htwo, if_neg (show ¬ v ≤ 0x7ff by omega)]
      by_cases hthree : v < 0x10000
      · rw [if_pos hthree, if_pos (show v ≤ 0xffff by omega), encodeUtf8, encodeUtf8, encodeUtf8, continuation_byte,
          continuation_byte, h₁, h₂, mark_three _ (by omega)]
        rfl
      · rw [if_neg hthree, if_neg (show ¬ v ≤ 0xffff by omega), if_pos (show v ≤ 0x10FFFF by omega), encodeUtf8,
          encodeUtf8, encodeUtf8, encodeUtf8, continuation_byte, continuation_byte, continuation_byte, h₁, h₂, h₃,
          mark_four _ (by omega)]
        rfl

/-- The bytes of a character that is no control character, no quote and no backslash. -/
theorem utf8_bytes {c : Char} (h : 32 ≤ c.toNat ∧ c.toNat ≠ 34 ∧ c.toNat ≠ 92) {b : UInt8}
    (hb : b ∈ String.utf8EncodeChar c) : b ≠ 34 ∧ b ≠ 92 ∧ b ≠ 0 := by
  have hbig : ∀ {n : ℕ}, 128 ≤ n → n < 256 → UInt8.ofNat n ≠ 34 ∧ UInt8.ofNat n ≠ 92 ∧ UInt8.ofNat n ≠ 0 := by
    intro n hn hlt
    refine ⟨?_, ?_, ?_⟩ <;>
    · intro heq
      have := congrArg UInt8.toNat heq
      rw [UInt8.toNat_ofNat', Nat.mod_eq_of_lt hlt] at this
      simp only [UInt8.reduceToNat] at this
      omega
  unfold String.utf8EncodeChar at hb
  dsimp only at hb
  change b ∈ if c.toNat ≤ 0x7f then _ else _ at hb
  split_ifs at hb with hone htwo hthree
  · rw [List.mem_singleton] at hb
    subst hb
    refine ⟨?_, ?_, ?_⟩ <;>
    · intro heq
      have hval := congrArg UInt8.toNat heq
      change (UInt8.ofNat c.toNat).toNat = _ at hval
      rw [UInt8.toNat_ofNat', Nat.mod_eq_of_lt (by omega)] at hval
      simp only [UInt8.reduceToNat] at hval
      omega
  all_goals
    simp only [List.mem_cons, List.not_mem_nil, or_false] at hb
    rcases hb with rfl | rfl | rfl | rfl <;> exact hbig (by omega) (by omega)

theorem toNat_ofNat {n : ℕ} (h : n.isValidChar) : (Char.ofNat n).toNat = n := by
  rw [Char.ofNat, dif_pos h]
  rfl

/-! ## The parts of a string -/

section Parts

variable {s t rest : List UInt8}

theorem Stretch.plain (h : ∀ b ∈ s, b ≠ 34 ∧ b ≠ 92) : Stretch s s := by
  induction s with
  | nil => exact .nil
  | cons b s ih =>
    have hb := h b List.mem_cons_self
    exact (Stretch.char hb.1 hb.2).append (ih fun b' hb' => h b' (List.mem_cons_of_mem b hb'))

theorem hexDigit_char (d : HexDigit) : hexDigit d.char = some d.value.val := by
  obtain ⟨value, capital⟩ := d
  revert value capital
  decide

theorem codeUnit_lt (a b c d : HexDigit) : codeUnit a b c d < 0x10000 := by
  have ha := a.value.isLt
  have hb := b.value.isLt
  have hc := c.value.isLt
  have hd := d.value.isLt
  unfold codeUnit
  omega

theorem surrogate_pair {first second : ℕ} (hfirst : HighSurrogate first) (hsecond : LowSurrogate second) :
    0x10000 + (((first &&& 0x3FF) <<< 10) ||| (second &&& 0x3FF)) =
      0x10000 + (first - 0xD800) * 0x400 + (second - 0xDC00) := by
  rw [show first &&& 0x3FF = first % 2 ^ 10 from Nat.and_two_pow_sub_one_eq_mod first 10,
    show second &&& 0x3FF = second % 2 ^ 10 from Nat.and_two_pow_sub_one_eq_mod second 10,
    ← Nat.shiftLeft_add_eq_or_of_lt (Nat.mod_lt _ (by decide)), Nat.shiftLeft_eq]
  omega

variable {a b c d : HexDigit} {input inputEnd : ℕ}

theorem utf16LiteralToUtf8_high (hhigh : HighSurrogate (codeUnit a b c d)) (hend : input + 6 ≤ inputEnd)
    (hdrop : content.drop input = (StringChar.unit a b c d).text ++ t) :
    utf16LiteralToUtf8 content input inputEnd =
      if inputEnd - (input + 6) < 6 then some (0, [])
      else
        (content[input + 6]?).bind fun x => (content[input + 7]?).bind fun y =>
          if x ≠ 92 ∨ y ≠ 117 then some (0, [])
          else
            (parseHex4 content (input + 8)).map fun second =>
              if second < 0xDC00 ∨ 0xDFFF < second then (0, [])
              else encodeCodepoint 12 (0x10000 + (((codeUnit a b c d &&& 0x3FF) <<< 10) ||| (second &&& 0x3FF))) := by
  rw [utf16LiteralToUtf8, if_neg (by omega), parseHex4_digits (hexDigit_char a) (hexDigit_char b) (hexDigit_char c)
    (hexDigit_char d) (drop_succ (drop_succ hdrop)), Option.bind_some]
  change (if LowSurrogate (codeUnit a b c d) then _ else if HighSurrogate (codeUnit a b c d) then _ else _) = _
  rw [if_neg (by omega), if_pos hhigh]
  rfl

theorem Stretch.unit (hlow : ¬ LowSurrogate (codeUnit a b c d)) (hhigh : ¬ HighSurrogate (codeUnit a b c d)) :
    Stretch (StringChar.unit a b c d).text (String.utf8EncodeChar (Char.ofNat (codeUnit a b c d))) := by
  have hlt := codeUnit_lt a b c d
  have hcode := encodeCodepoint_char 6 (Char.ofNat (codeUnit a b c d))
  rw [toNat_ofNat (by unfold Nat.isValidChar; omega)] at hcode
  obtain ⟨bytes, hbytes, -, hthree⟩ := encodeCodepoint_spec 6 (codeUnit a b c d) (by omega)
  rw [hbytes] at hcode
  obtain rfl := (Prod.mk.inj hcode).2
  have hlen := hthree hlt
  exact ⟨⟨1, by simp only [StringChar.text, List.length_cons, List.length_nil]; omega,
    scanned_unit (hexDigit_char a) (hexDigit_char b) (hexDigit_char c) (hexDigit_char d)⟩,
    (Step.unit (hexDigit_char a) (hexDigit_char b) (hexDigit_char c) (hexDigit_char d) rfl hlow hhigh hbytes).taken⟩

variable {a' b' c' d' : HexDigit}

theorem decodeStep_pair (hhigh : HighSurrogate (codeUnit a b c d)) (hend : input + 12 ≤ inputEnd)
    (hdrop : content.drop input = (StringChar.unit a b c d).text ++ ((StringChar.unit a' b' c' d').text ++ t)) :
    decodeStep content inputEnd input = some (if LowSurrogate (codeUnit a' b' c' d') then
      (12, String.utf8EncodeChar
        (Char.ofNat (0x10000 + (codeUnit a b c d - 0xD800) * 0x400 + (codeUnit a' b' c' d' - 0xDC00))))
      else (0, [])) := by
  have hsecond : content.drop (input + 6) = (StringChar.unit a' b' c' d').text ++ t := drop_add hdrop
  have hunit : parseHex4 content (input + 8) = some (codeUnit a' b' c' d') :=
    parseHex4_digits (hexDigit_char a') (hexDigit_char b') (hexDigit_char c') (hexDigit_char d')
      (drop_succ (drop_succ hsecond))
  rw [decodeStep_unit hdrop, utf16LiteralToUtf8_high hhigh (by omega) hdrop, if_neg (by omega), get_of_drop hsecond,
    Option.bind_some, get_of_drop (drop_succ hsecond), Option.bind_some, if_neg (by decide), hunit, Option.map_some]
  congr 1
  by_cases hlow : LowSurrogate (codeUnit a' b' c' d')
  · rw [if_neg (by omega), if_pos hlow, surrogate_pair hhigh hlow]
    have hcode := encodeCodepoint_char 12
      (Char.ofNat (0x10000 + (codeUnit a b c d - 0xD800) * 0x400 + (codeUnit a' b' c' d' - 0xDC00)))
    rwa [toNat_ofNat (by unfold Nat.isValidChar; omega)] at hcode
  · rw [if_pos (by omega), if_neg hlow]

theorem Stretch.pair (hhigh : HighSurrogate (codeUnit a b c d)) (hlow : LowSurrogate (codeUnit a' b' c' d')) :
    Stretch ((StringChar.unit a b c d).text ++ (StringChar.unit a' b' c' d').text) (String.utf8EncodeChar
      (Char.ofNat (0x10000 + (codeUnit a b c d - 0xD800) * 0x400 + (codeUnit a' b' c' d' - 0xDC00)))) := by
  refine ⟨⟨2, ?_, (scanned_unit (hexDigit_char a) (hexDigit_char b) (hexDigit_char c) (hexDigit_char d)).append
    (scanned_unit (hexDigit_char a') (hexDigit_char b') (hexDigit_char c') (hexDigit_char d'))⟩,
    Step.taken ⟨List.cons_ne_nil _ _, ?_⟩⟩
  · have hfour := Char.utf8Size_le_four
      (Char.ofNat (0x10000 + (codeUnit a b c d - 0xD800) * 0x400 + (codeUnit a' b' c' d' - 0xDC00)))
    rw [String.length_utf8EncodeChar]
    simp only [StringChar.text, List.length_append, List.length_cons, List.length_nil]
    omega
  · intro content rest input inputEnd hdrop hend
    rw [List.append_assoc] at hdrop
    rw [decodeStep_pair hhigh hend hdrop, if_pos hlow]
    rfl

end Parts

theorem Stretch.escaped (e : Escape) : Stretch (StringChar.escaped e).text (String.utf8EncodeChar e.char) := by
  cases e <;> exact Stretch.escape (by decide) rfl

theorem StringChar.scanned (x : StringChar) : ∃ n ≤ x.text.length, Scanned x.text n := by
  cases x with
  | unescaped c h =>
    obtain ⟨n, hn, hscan⟩ := (Stretch.plain fun b hb => ⟨(utf8_bytes h hb).1, (utf8_bytes h hb).2.1⟩).scanned
    exact ⟨n, by rw [StringChar.text]; omega, hscan⟩
  | escaped e => exact ⟨1, Nat.le_of_ble_eq_true rfl, Scanned.escape e.letter⟩
  | unit a b c d =>
    exact ⟨1, Nat.le_of_ble_eq_true rfl,
      scanned_unit (hexDigit_char a) (hexDigit_char b) (hexDigit_char c) (hexDigit_char d)⟩

theorem StringChar.zero_notMem_text (x : StringChar) : 0 ∉ x.text := by
  cases x with
  | unescaped c h => exact fun hmem => (utf8_bytes h hmem).2.2 rfl
  | escaped e => cases e <;> decide
  | unit a b c d =>
    have hdigit : ∀ d : HexDigit, d.char ≠ 0 := fun d => (hexDigit_ne (hexDigit_char d)).2.2
    simp only [StringChar.text, List.mem_cons, List.not_mem_nil, or_false, not_or]
    exact ⟨by decide, by decide, (hdigit a).symm, (hdigit b).symm, (hdigit c).symm, (hdigit d).symm⟩

theorem scanned_text (s : List StringChar) : ∃ n ≤ (s.flatMap StringChar.text).length,
    Scanned (s.flatMap StringChar.text) n := by
  induction s with
  | nil => exact ⟨0, le_rfl, .nil⟩
  | cons x s ih =>
    obtain ⟨n, hn, hx⟩ := x.scanned
    obtain ⟨m, hm, hs⟩ := ih
    exact ⟨n + m, by rw [List.flatMap_cons, List.length_append]; omega, hx.append hs⟩

/-! ## Whole strings -/

/-- The second loop cannot go on at the start of `s`. -/
def Stuck (s : List UInt8) : Prop :=
  s ≠ [] ∧ ∀ {content rest : List UInt8} {input : ℕ}, content.drop input = s ++ 34 :: rest →
    decodeStep content (input + s.length) input = some (0, [])

/-- What the second loop does with a string. -/
inductive Spelled : List UInt8 → Except ℕ (List Char) → Prop
  | ok {s : List UInt8} {cs : List Char} (h : Stretch s (cs.flatMap String.utf8EncodeChar)) : Spelled s (.ok cs)
  | error {s t bytes : List UInt8} (hs : Stretch s bytes) (ht : Stuck t) (hscan : ∃ n ≤ t.length, Scanned t n) :
    Spelled (s ++ t) (.error s.length)

theorem Spelled.prepend {s t : List UInt8} {c : Char} {r : Except ℕ (List Char)}
    (hc : Stretch s (String.utf8EncodeChar c)) (h : Spelled t r) : Spelled (s ++ t) (prepend s.length c r) := by
  cases h with
  | ok h => exact .ok (hc.append h)
  | error hs ht hscan =>
    rw [← List.append_assoc, JsonText.prepend, ← List.length_append]
    exact .error (hc.append hs) ht hscan

theorem Spelled.stuck {s : List StringChar} (h : Stuck (s.flatMap StringChar.text)) :
    Spelled (s.flatMap StringChar.text) (.error 0) := .error .nil h (scanned_text s)

theorem stuck_low {a b c d : HexDigit} (hlow : LowSurrogate (codeUnit a b c d)) (t : List UInt8) :
    Stuck ((StringChar.unit a b c d).text ++ t) := by
  refine ⟨List.cons_ne_nil _ _, ?_⟩
  intro content rest input hdrop
  rw [List.append_assoc] at hdrop
  rw [List.length_append, show (StringChar.unit a b c d).text.length = 6 from rfl, decodeStep_unit hdrop,
    utf16LiteralToUtf8, if_neg (by omega), parseHex4_digits (hexDigit_char a) (hexDigit_char b) (hexDigit_char c)
    (hexDigit_char d) (drop_succ (drop_succ hdrop)), Option.bind_some]
  exact if_pos hlow

theorem stuck_high {a b c d : HexDigit} (hhigh : HighSurrogate (codeUnit a b c d)) {t : List UInt8}
    (ht : ∀ x y u, t = x :: y :: u → x ≠ 92 ∨ y ≠ 117) : Stuck ((StringChar.unit a b c d).text ++ t) := by
  refine ⟨List.cons_ne_nil _ _, ?_⟩
  intro content rest input hdrop
  rw [List.append_assoc] at hdrop
  rw [List.length_append, show (StringChar.unit a b c d).text.length = 6 from rfl, decodeStep_unit hdrop,
    utf16LiteralToUtf8_high hhigh (by omega) hdrop]
  have hsecond : content.drop (input + 6) = t ++ 34 :: rest := drop_add hdrop
  obtain _ | ⟨x, _ | ⟨y, u⟩⟩ := t
  · rw [if_pos (by rw [List.length_nil]; omega)]
  · rw [if_pos (by rw [List.length_singleton]; omega)]
  · split_ifs
    · rfl
    · rw [get_of_drop hsecond, Option.bind_some, get_of_drop (drop_succ hsecond), Option.bind_some,
        if_pos (ht x y u rfl)]

theorem stuck_pair {a b c d a' b' c' d' : HexDigit} (hhigh : HighSurrogate (codeUnit a b c d))
    (hlow : ¬ LowSurrogate (codeUnit a' b' c' d')) (t : List UInt8) :
    Stuck ((StringChar.unit a b c d).text ++ ((StringChar.unit a' b' c' d').text ++ t)) := by
  refine ⟨List.cons_ne_nil _ _, ?_⟩
  intro content rest input hdrop
  simp only [List.append_assoc] at hdrop
  rw [List.length_append, List.length_append, show (StringChar.unit a b c d).text.length = 6 from rfl,
    show (StringChar.unit a' b' c' d').text.length = 6 from rfl, decodeStep_pair hhigh (by omega) hdrop, if_neg hlow]

theorem other_start {s : List StringChar} (h : ∀ a b c d t, s = StringChar.unit a b c d :: t → False) {x y : UInt8}
    {u : List UInt8} (heq : s.flatMap StringChar.text = x :: y :: u) : x ≠ 92 ∨ y ≠ 117 := by
  obtain _ | ⟨_ | e | _, s⟩ := s
  · cases heq
  · rename_i c hc
    rw [List.flatMap_cons, StringChar.text] at heq
    obtain ⟨z, v, hz⟩ := List.exists_cons_of_ne_nil (String.utf8EncodeChar_ne_nil (c := c))
    rw [hz, List.cons_append] at heq
    have hmem : x ∈ String.utf8EncodeChar c := by
      rw [hz, (List.cons.inj heq).1]
      exact List.mem_cons_self
    exact .inl (utf8_bytes hc hmem).2.1
  · rw [List.flatMap_cons] at heq
    obtain rfl : e.letter = y := (List.cons.inj (List.cons.inj heq).2).1
    exact .inr (by cases e <;> decide)
  · exact (h _ _ _ _ _ rfl).elim

/-- **The second loop** over a string, case by case of its characters. -/
theorem spelled (s : List StringChar) : Spelled (s.flatMap StringChar.text) (characters s) := by
  fun_induction characters s with
  | case1 => exact .ok .nil
  | case2 c h s ih =>
    exact .prepend (.plain fun b hb => ⟨(utf8_bytes h hb).1, (utf8_bytes h hb).2.1⟩) ih
  | case3 e s ih => exact .prepend (Stretch.escaped e) ih
  | case4 a b c d s first hlow => exact .stuck (stuck_low hlow _)
  | case5 a b c d first hlow hhigh a' b' c' d' s second hlow' ih =>
    rw [List.flatMap_cons, List.flatMap_cons, ← List.append_assoc]
    exact .prepend (Stretch.pair hhigh hlow') ih
  | case6 a b c d first hlow hhigh a' b' c' d' s second hlow' => exact .stuck (stuck_pair hhigh hlow' _)
  | case7 a b c d s first hlow hhigh hnext => exact .stuck (stuck_high hhigh fun x y u => other_start hnext)
  | case8 a b c d s first hlow hhigh ih => exact .prepend (Stretch.unit hlow hhigh) ih

theorem parseString_stuck {s t bytes rest : List UInt8} (hs : Stretch s bytes) (ht : Stuck t)
    (hscan : ∃ n ≤ t.length, Scanned t n) (hdrop : content.drop offset = 34 :: (s ++ t ++ 34 :: rest)) :
    parseString content offset = .fail (offset + 1 + s.length) := by
  obtain ⟨m, hm, hscan'⟩ := hscan
  obtain ⟨⟨n, hn, hscan⟩, k, hk, htake⟩ := hs
  have hbody := drop_succ hdrop
  have hpos := List.length_pos_iff.mpr ht.1
  rw [List.append_assoc] at hbody
  rw [parseString_scanned (hscan.append hscan') hdrop, List.length_append,
    show s.length + t.length + 1 = s.length + t.length - k + 1 + k by omega,
    htake _ hbody (by omega) (by rw [List.length_nil]; omega), decodeLoop, if_neg (by omega), ← Nat.add_assoc,
    ht.2 (drop_add hbody)]
  exact if_pos rfl

/-- **Every string of the grammar** is read as the UTF-8 of its characters if its surrogates come in pairs, and is
refused at the first one that does not else. -/
theorem cJSONParse_string (s : List StringChar) :
    cJSONParse (34 :: (s.flatMap StringChar.text ++ [34])) = match characters s with
      | .ok cs => some (.ok (.cons (createString (cs.flatMap String.utf8EncodeChar)) .nil .nil))
      | .error k => some (.error (1 + k)) := by
  have hzero : 0 ∉ 34 :: (s.flatMap StringChar.text ++ [34]) := by
    simp only [List.mem_cons, List.mem_append, List.mem_flatMap, List.not_mem_nil, or_false, not_or, not_exists,
      not_and]
    refine ⟨by decide, fun x _ => x.zero_notMem_text, by decide⟩
  have hdrop : (34 :: (s.flatMap StringChar.text ++ [34]) ++ [0]).drop 0 =
      34 :: (s.flatMap StringChar.text ++ 34 :: [0]) := by
    rw [List.drop_zero, List.cons_append, List.append_assoc]
    rfl
  have hspelled := spelled s
  unfold cJSONParse
  dsimp only
  rw [cstr_of_notMem hzero, start_eq_zero rfl (by decide) (by decide),
    parseValue_start hdrop (by decide) (by decide) (by decide), if_pos rfl]
  generalize hcontent : 34 :: (s.flatMap StringChar.text ++ [34]) ++ [0] = content at hdrop
  have hlen : content.length = (s.flatMap StringChar.text).length + 3 := by
    rw [← hcontent]
    simp only [List.length_append, List.length_cons, List.length_nil]
  generalize s.flatMap StringChar.text = text, characters s = result at hdrop hspelled hlen
  cases hspelled with
  | ok h =>
    obtain ⟨o, ho, -⟩ := (parseString_stretch h hdrop).1 trivial
    rw [ho]
    rfl
  | error hs ht hscan =>
    rw [List.length_append] at hlen
    rw [parseString_stuck hs ht hscan hdrop, Nat.zero_add]
    dsimp only [Outcome.bind]
    rw [if_pos (by omega)]

end Sarah.JsonText
