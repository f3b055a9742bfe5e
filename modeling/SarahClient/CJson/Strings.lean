import SarahClient.CJson.Safe
import SarahClient.CJson.Text

/-!
# Strings

* `Reads`: at the text of a value a function finds the value and the rest of the text behind it, or it fails, and a
  condition says which;
* `Scanned`, `Taken`, `Stretch`: what the two loops of `parse_string` do with a part of the text;
* `parseString_stretch`, `parseString_stringText`: a string that falls into such parts, and the one that
  `print_string_ptr` is to write.
-/

namespace Sarah.JsonText

open Stdio

/-- At `offset` the function finds `a` in front of `rest` if `P` holds, and else fails. -/
def Reads {α : Type} (content : List UInt8) (P : Prop) (a : α) (rest : List UInt8) (r : Outcome α) : Prop :=
  (P → ∃ o, r = .ok a o ∧ content.drop o = rest) ∧ (¬ P → ∃ o, r = .fail o)

variable {content : List UInt8} {offset : ℕ} {P Q : Prop}

theorem Reads.ok {α : Type} {a : α} {rest : List UInt8} (hP : P) (h : content.drop offset = rest) :
    Reads content P a rest (.ok a offset) := ⟨fun _ => ⟨offset, rfl, h⟩, fun hn => absurd hP hn⟩

theorem Reads.bind {α β : Type} {a : α} {b : β} {s rest : List UInt8} {r : Outcome α} {f : α → ℕ → Outcome β}
    (h : Reads content P a s r) (hf : ∀ o, content.drop o = s → Reads content Q b rest (f a o)) :
    Reads content (P ∧ Q) b rest (r.bind f) := by
  constructor
  · rintro ⟨hP, hQ⟩
    obtain ⟨o, rfl, hdrop⟩ := h.1 hP
    exact (hf o hdrop).1 hQ
  · intro hn
    by_cases hP : P
    · obtain ⟨o, rfl, hdrop⟩ := h.1 hP
      exact (hf o hdrop).2 fun hQ => hn ⟨hP, hQ⟩
    · obtain ⟨o, rfl⟩ := h.2 hP
      exact ⟨o, rfl⟩

theorem Reads.congr {α : Type} {a : α} {rest : List UInt8} {r : Outcome α} (h : Reads content P a rest r)
    (hPQ : P ↔ Q) :
    Reads content Q a rest r := ⟨fun hQ => h.1 (hPQ.mpr hQ), fun hQ => h.2 (mt hPQ.mp hQ)⟩

/-! ## The text from an offset on -/

section Drop

variable {c : UInt8} {s t : List UInt8}

theorem get_of_drop (h : content.drop offset = c :: t) : content[offset]? = some c := by
  rw [← List.head?_drop, h, List.head?_cons]

theorem drop_succ (h : content.drop offset = c :: t) : content.drop (offset + 1) = t := by
  rw [← List.drop_drop, h, List.drop_one, List.tail_cons]

theorem drop_add (h : content.drop offset = s ++ t) : content.drop (offset + s.length) = t := by
  rw [← List.drop_drop, h, List.drop_left]

theorem lt_of_drop (h : content.drop offset = c :: t) : offset < content.length := by
  by_contra hge
  rw [List.drop_of_length_le (not_lt.mp hge)] at h
  cases h

theorem drop_bufferSkipWhitespace (h : content.drop offset = s ++ c :: t) (hs : ∀ w ∈ s, w ≤ 32) (hc : ¬ c ≤ 32) :
    content.drop (bufferSkipWhitespace content offset) = c :: t := by
  have hrun : (s ++ c :: t).takeWhile (fun w : UInt8 => decide (w ≤ 32)) = s :=
    takeWhile_run (p := fun w : UInt8 => decide (w ≤ 32)) (fun w hw => decide_eq_true (hs w hw))
      (.cons (decide_eq_false hc))
  have hdrop := drop_add h
  have hlt := lt_of_drop hdrop
  unfold bufferSkipWhitespace
  rw [h, hrun]
  dsimp only
  rw [if_neg hlt.ne, hdrop]

/-- A text that begins with a character of a value is parsed from its start. -/
theorem start_eq_zero (h : s = c :: t) (hc : ¬ c ≤ 32) (hbom : c ≠ 0xEF) :
    bufferSkipWhitespace (s ++ [0]) (skipUtf8Bom (s ++ [0])) = 0 := by
  have hnone : skipUtf8Bom (s ++ [0]) = 0 := by
    unfold skipUtf8Bom
    rw [if_neg]
    rintro ⟨-, v, hv⟩
    rw [h] at hv
    exact hbom (List.cons.inj hv).1.symm
  rw [hnone]
  unfold bufferSkipWhitespace
  rw [h]
  simp [hc]

end Drop

/-! ## A part of a string -/

/-- The first loop goes over `s`, and skips `n` bytes of it. -/
def Scanned (s : List UInt8) (n : ℕ) : Prop :=
  ∀ t e k, scanString (s ++ t) e k = scanString t (e + s.length) (k + n)

section Part

variable {s t bytes : List UInt8} {n m : ℕ} {c e : UInt8}

theorem Scanned.nil : Scanned [] 0 := fun _ _ _ => rfl

theorem Scanned.append (hs : Scanned s n) (ht : Scanned t m) : Scanned (s ++ t) (n + m) := by
  intro u e k
  rw [List.append_assoc, hs, ht, List.length_append, Nat.add_assoc, Nat.add_assoc]

theorem Scanned.char (hquote : c ≠ 34) (hback : c ≠ 92) : Scanned [c] 0 := by
  intro t e k
  rw [List.singleton_append, scanString.eq_def]
  dsimp only
  rw [if_neg hquote, if_neg hback]
  rfl

theorem Scanned.escape (e : UInt8) : Scanned [92, e] 1 := fun _ _ _ => rfl

/-- A round of the second loop takes `s` for `bytes`. -/
def Step (s bytes : List UInt8) : Prop :=
  s ≠ [] ∧ ∀ {content rest : List UInt8} {input inputEnd : ℕ}, content.drop input = s ++ rest →
    input + s.length ≤ inputEnd → decodeStep content inputEnd input = some (s.length, bytes)

theorem Step.char (hback : c ≠ 92) : Step [c] [c] := by
  refine ⟨List.cons_ne_nil _ _, ?_⟩
  intro content rest input inputEnd hdrop _
  rw [decodeStep, get_of_drop hdrop, Option.bind_some, if_pos hback]
  rfl

theorem Step.escape (hu : e ≠ 117) (h : unescape e = some c) : Step [92, e] [c] := by
  refine ⟨List.cons_ne_nil _ _, ?_⟩
  intro content rest input inputEnd hdrop _
  rw [decodeStep, get_of_drop hdrop, Option.bind_some, if_neg (by decide), get_of_drop (drop_succ hdrop),
    Option.bind_some, if_neg hu, h]
  rfl

/-- The second loop takes `s` for `bytes`, in at most as many rounds as `s` has characters. -/
def Taken (s bytes : List UInt8) : Prop :=
  ∃ n ≤ s.length, ∀ {content output rest : List UInt8} {capacity inputEnd input : ℕ} (fuel : ℕ),
    content.drop input = s ++ rest → input + s.length ≤ inputEnd → output.length + bytes.length ≤ capacity →
      decodeLoop content capacity inputEnd (fuel + n) input output =
        decodeLoop content capacity inputEnd fuel (input + s.length) (output ++ bytes)

theorem Taken.nil : Taken [] [] := by
  refine ⟨0, le_rfl, ?_⟩
  intro content output rest capacity inputEnd input fuel _ _ _
  rw [List.append_nil]
  rfl

theorem Taken.append {bytes' : List UInt8} (hs : Taken s bytes) (ht : Taken t bytes') :
    Taken (s ++ t) (bytes ++ bytes') := by
  obtain ⟨n, hn, hs⟩ := hs
  obtain ⟨m, hm, ht⟩ := ht
  refine ⟨m + n, by rw [List.length_append]; omega, ?_⟩
  intro content output rest capacity inputEnd input fuel hdrop hend hcap
  rw [List.append_assoc] at hdrop
  rw [List.length_append] at hend hcap
  rw [← Nat.add_assoc, hs _ hdrop (by omega) (by omega), ht _ (drop_add hdrop) (by omega)
    (by rw [List.length_append]; omega), List.length_append, Nat.add_assoc, List.append_assoc]

theorem Step.taken (h : Step s bytes) : Taken s bytes := by
  have hpos : 0 < s.length := List.length_pos_iff.mpr h.1
  refine ⟨1, hpos, ?_⟩
  intro content output rest capacity inputEnd input fuel hdrop hend hcap
  rw [decodeLoop, if_neg (by omega), h.2 hdrop hend]
  dsimp only
  rw [if_neg hpos.ne', if_neg (by omega)]

/-- A part of a string that stands for `bytes`. -/
structure Stretch (s bytes : List UInt8) : Prop where
  scanned : ∃ n, n + bytes.length ≤ s.length ∧ Scanned s n
  taken : Taken s bytes

theorem Stretch.nil : Stretch [] [] := ⟨⟨0, le_rfl, .nil⟩, .nil⟩

theorem Stretch.append {bytes' : List UInt8} (hs : Stretch s bytes) (ht : Stretch t bytes') :
    Stretch (s ++ t) (bytes ++ bytes') := by
  obtain ⟨⟨n, hn, hscan⟩, htake⟩ := hs
  obtain ⟨⟨m, hm, hscan'⟩, htake'⟩ := ht
  exact ⟨⟨n + m, by simp only [List.length_append]; omega, hscan.append hscan'⟩, htake.append htake'⟩

theorem Stretch.char (hquote : c ≠ 34) (hback : c ≠ 92) : Stretch [c] [c] :=
  ⟨⟨0, le_rfl, .char hquote hback⟩, (Step.char hback).taken⟩

theorem Stretch.escape (hu : e ≠ 117) (h : unescape e = some c) : Stretch [92, e] [c] :=
  ⟨⟨1, le_rfl, .escape e⟩, (Step.escape hu h).taken⟩

theorem Stretch.flatMap {α : Type} {f g : α → List UInt8} (h : ∀ a, Stretch (f a) (g a)) (l : List α) :
    Stretch (l.flatMap f) (l.flatMap g) := by
  induction l with
  | nil => exact .nil
  | cons a l ih => exact (h a).append ih

end Part

theorem parseString_scanned {s rest : List UInt8} {n : ℕ} (hs : Scanned s n)
    (hdrop : content.drop offset = 34 :: (s ++ 34 :: rest)) : parseString content offset =
      decodeLoop content (s.length + 1 - n + 1) (offset + 1 + s.length) (s.length + 1) (offset + 1) [] := by
  unfold parseString
  rw [get_of_drop hdrop]
  dsimp only
  rw [if_neg (not_not.mpr rfl), drop_succ hdrop, hs, scanString.eq_def]
  dsimp only
  rw [if_pos rfl]
  dsimp only
  rw [Nat.zero_add, show offset + 1 + s.length - offset = s.length + 1 by omega]

/-- **`parse_string`** on a string that stands for `bytes`. -/
theorem parseString_stretch {s bytes rest : List UInt8} (hs : Stretch s bytes)
    (hdrop : content.drop offset = 34 :: (s ++ 34 :: rest)) :
      Reads content True bytes rest (parseString content offset) := by
  obtain ⟨⟨n, hn, hscan⟩, m, hm, htake⟩ := hs
  have hbody := drop_succ hdrop
  rw [parseString_scanned hscan hdrop, show s.length + 1 = s.length - m + 1 + m by omega,
    htake _ hbody le_rfl (by rw [List.length_nil]; omega), decodeLoop, if_pos le_rfl, List.nil_append,
    if_neg (by omega)]
  exact .ok trivial (drop_succ (drop_add hbody))

/-! ## The strings that are printed -/

theorem hexDigit_ne {c : UInt8} {d : ℕ} (h : hexDigit c = some d) : c ≠ 34 ∧ c ≠ 92 ∧ c ≠ 0 := by
  refine ⟨?_, ?_, ?_⟩ <;> rintro rfl <;> cases h

section Unit

variable {a b c d : UInt8} {w x y z : ℕ}

theorem scanned_unit (ha : hexDigit a = some w) (hb : hexDigit b = some x) (hc : hexDigit c = some y)
    (hd : hexDigit d = some z) : Scanned [92, 117, a, b, c, d] 1 := by
  have hchar : ∀ {c : UInt8} {n : ℕ}, hexDigit c = some n → Scanned [c] 0 :=
    fun h => .char (hexDigit_ne h).1 (hexDigit_ne h).2.1
  exact (Scanned.escape 117).append ((hchar ha).append ((hchar hb).append ((hchar hc).append (hchar hd))))

theorem parseHex4_digits {rest : List UInt8} (ha : hexDigit a = some w) (hb : hexDigit b = some x)
    (hc : hexDigit c = some y) (hd : hexDigit d = some z) (hdrop : content.drop offset = a :: b :: c :: d :: rest) :
    parseHex4 content offset = some (((w * 16 + x) * 16 + y) * 16 + z) := by
  have h₁ := drop_succ hdrop
  have h₂ := drop_succ h₁
  have h₃ := drop_succ h₂
  simp only [parseHex4, parseHex, get_of_drop hdrop, get_of_drop h₁, get_of_drop h₂, get_of_drop h₃, Option.bind_some,
    ha, hb, hc, hd]
  congr 1
  omega

theorem decodeStep_unit {rest : List UInt8} {input inputEnd : ℕ}
    (hdrop : content.drop input = 92 :: 117 :: rest) :
    decodeStep content inputEnd input = utf16LiteralToUtf8 content input inputEnd := by
  rw [decodeStep, get_of_drop hdrop, Option.bind_some, if_neg (by decide), get_of_drop (drop_succ hdrop),
    Option.bind_some, if_pos rfl]

theorem Step.unit (ha : hexDigit a = some w) (hb : hexDigit b = some x) (hc : hexDigit c = some y)
    (hd : hexDigit d = some z) {n : ℕ} {bytes : List UInt8} (hn : ((w * 16 + x) * 16 + y) * 16 + z = n)
    (hlow : ¬ (0xDC00 ≤ n ∧ n ≤ 0xDFFF)) (hhigh : ¬ (0xD800 ≤ n ∧ n ≤ 0xDBFF)) (h : encodeCodepoint 6 n = (6, bytes)) :
    Step [92, 117, a, b, c, d] bytes := by
  refine ⟨List.cons_ne_nil _ _, ?_⟩
  intro content rest input inputEnd hdrop hend
  simp only [List.length_cons, List.length_nil] at hend
  rw [decodeStep_unit hdrop, utf16LiteralToUtf8, if_neg (by omega),
    parseHex4_digits ha hb hc hd (drop_succ (drop_succ hdrop)), Option.bind_some, hn, if_neg hlow, if_neg hhigh, h]
  rfl

end Unit

theorem hex4_control : ∀ n < 32, (hex4 n).map hexDigit = [some 0, some 0, some (n / 16), some (n % 16)] := by decide

theorem encodeCodepoint_control : ∀ n < 32, encodeCodepoint 6 n = (6, [UInt8.ofNat n]) := by decide

theorem exists_hex4 {n : ℕ} (h : n < 32) :
    ∃ a b c d, hex4 n = [a, b, c, d] ∧ hexDigit a = some 0 ∧ hexDigit b = some 0 ∧
    hexDigit c = some (n / 16) ∧ hexDigit d = some (n % 16) := by
  have hmap := hex4_control n h
  obtain ⟨a, s, hs, ha, hmap⟩ := List.map_eq_cons_iff.mp hmap
  obtain ⟨b, s, rfl, hb, hmap⟩ := List.map_eq_cons_iff.mp hmap
  obtain ⟨c, s, rfl, hc, hmap⟩ := List.map_eq_cons_iff.mp hmap
  obtain ⟨d, s, rfl, hd, hmap⟩ := List.map_eq_cons_iff.mp hmap
  rw [List.map_eq_nil_iff] at hmap
  exact ⟨a, b, c, d, by rw [hs, hmap], ha, hb, hc, hd⟩

theorem escapeChar_cases (c : UInt8) : (escapeChar c = [c] ∧ c ≠ 34 ∧ c ≠ 92) ∨
    (∃ e, escapeChar c = [92, e] ∧ e ≠ 117 ∧ unescape e = some c) ∨
      (c.toNat < 32 ∧ escapeChar c = 92 :: 117 :: hex4 c.toNat) := by
  unfold escapeChar
  split_ifs with hplain
  · exact .inl ⟨rfl, hplain.2.1, hplain.2.2⟩
  · split
    · exact .inr (.inl ⟨92, rfl, by decide, rfl⟩)
    · exact .inr (.inl ⟨34, rfl, by decide, rfl⟩)
    · exact .inr (.inl ⟨98, rfl, by decide, rfl⟩)
    · exact .inr (.inl ⟨102, rfl, by decide, rfl⟩)
    · exact .inr (.inl ⟨110, rfl, by decide, rfl⟩)
    · exact .inr (.inl ⟨114, rfl, by decide, rfl⟩)
    · exact .inr (.inl ⟨116, rfl, by decide, rfl⟩)
    · rename_i h92 h34 _ _ _ _ _
      refine .inr (.inr ⟨?_, rfl⟩)
      by_contra hge
      exact hplain ⟨by omega, h34, h92⟩

theorem Stretch.escapeChar (c : UInt8) : Stretch (escapeChar c) [c] := by
  rcases escapeChar_cases c with ⟨heq, h34, h92⟩ | ⟨e, heq, hu, hback⟩ | ⟨hlt, heq⟩
  · rw [heq]
    exact .char h34 h92
  · rw [heq]
    exact .escape hu hback
  · obtain ⟨a, b, c', d, hhex, ha, hb, hc, hd⟩ := exists_hex4 hlt
    have hcode := encodeCodepoint_control _ hlt
    rw [UInt8.ofNat_toNat] at hcode
    rw [heq, hhex]
    exact ⟨⟨1, Nat.le_of_ble_eq_true rfl, scanned_unit ha hb hc hd⟩,
      (Step.unit ha hb hc hd (n := c.toNat) (by omega) (by omega) (by omega) hcode).taken⟩

/-- **`parse_string`** reads what `print_string_ptr` is to write. -/
theorem parseString_stringText {s : Option (List UInt8)} {rest : List UInt8}
    (hdrop : content.drop offset = stringText s ++ rest) :
    Reads content True (cstr (s.getD [])) rest (parseString content offset) := by
  rw [stringText, List.cons_append, List.append_assoc, List.singleton_append] at hdrop
  have hstretch := Stretch.flatMap Stretch.escapeChar (cstr (s.getD []))
  rw [List.flatMap_singleton'] at hstretch
  exact parseString_stretch hstretch hdrop

end Sarah.JsonText
