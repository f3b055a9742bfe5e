import SarahClient.CJson.Parse

/-!
# The parser stays inside its memory

* `NulTerminated`: a text with its only NUL at the end;
* `escapes`, `Fits`: what the first loop of `parse_string` counts, and when the rest of a string fits into the output.
  The two loops do not read the string alike: after `\u` the second one takes four characters whatever they are, so it
  may stand on the second character of an escape of the first one;
* `Within`: a function reads and writes inside the memory, ends, and moves on behind the NUL at most;
* **`cJSONParse_safe`**: so does `cJSON_Parse`, for every text.
-/

namespace Sarah.JsonText

open Stdio

/-- A text with its NUL. -/
def NulTerminated (content : List UInt8) : Prop := ∃ s, 0 ∉ s ∧ content = s ++ [0]

/-- A function at `offset` stays inside the memory, and moves on if it finds something. -/
def Within {α : Type} (content : List UInt8) (offset : ℕ) : Outcome α → Prop
  | .fault => False
  | .fail o => o ≤ content.length
  | .ok _ o => offset < o ∧ o < content.length

variable {content : List UInt8} {offset : ℕ}

theorem Within.mono {α : Type} {r : Outcome α} {offset' : ℕ} (h : Within content offset' r) (hle : offset ≤ offset') :
    Within content offset r := by
  cases r with
  | fault => exact h
  | fail o => exact h
  | ok a o => exact ⟨hle.trans_lt h.1, h.2⟩

theorem Within.bind {α β : Type} {r : Outcome α} {f : α → ℕ → Outcome β} (h : Within content offset r)
    (hf : ∀ a o, offset < o → o < content.length → Within content offset (f a o)) :
      Within content offset (r.bind f) := by
  cases r with
  | fault => exact h
  | fail o => exact h
  | ok a o => exact hf a o h.1 h.2

/-! ## The text -/

namespace NulTerminated

theorem length_pos (h : NulTerminated content) : 0 < content.length := by
  obtain ⟨s, -, rfl⟩ := h
  rw [List.length_append, List.length_singleton]
  omega

theorem lt_of_prefix (h : NulTerminated content) {s : List UInt8} (hs : 0 ∉ s) (hoff : offset < content.length)
    (hpre : s <+: content.drop offset) : offset + s.length < content.length := by
  obtain ⟨t, ht, rfl⟩ := h
  have hle := hpre.length_le
  rw [List.length_drop] at hle
  refine lt_of_le_of_ne (by omega) fun heq => hs ?_
  rw [hpre.eq_of_length (by rw [List.length_drop]; omega)]
  rw [List.length_append, List.length_singleton] at hoff
  rw [List.drop_append_of_le_length (by omega)]
  exact List.mem_append_right _ List.mem_cons_self

theorem succ_lt (h : NulTerminated content) {c : UInt8} (hc : c ≠ 0) (hget : content[offset]? = some c) :
    offset + 1 < content.length := by
  obtain ⟨hlt, rfl⟩ := List.getElem?_eq_some_iff.mp hget
  refine h.lt_of_prefix (s := [content[offset]]) (by simpa using hc.symm) hlt ?_
  rw [List.drop_eq_getElem_cons hlt]
  exact ⟨_, rfl⟩

end NulTerminated

theorem bufferSkipWhitespace_lt (h : offset ≤ content.length) (hpos : 0 < content.length) :
    bufferSkipWhitespace content offset < content.length := by
  have hle := (List.takeWhile_prefix (p := fun c : UInt8 => decide (c ≤ 32)) (l := content.drop offset)).length_le
  rw [List.length_drop] at hle
  unfold bufferSkipWhitespace
  dsimp only
  split_ifs <;> omega

theorem le_bufferSkipWhitespace (h : offset < content.length) : offset ≤ bufferSkipWhitespace content offset := by
  unfold bufferSkipWhitespace
  dsimp only
  split_ifs <;> omega

/-! ## The capacity of a string -/

/-- The escapes that the first loop counts in a string, if the last one is complete. -/
def escapes : List UInt8 → Option ℕ
  | [] => some 0
  | c :: t =>
    if c = 92 then
      match t with
      | [] => none
      | _ :: t => (escapes t).map (· + 1)
    else escapes t

theorem escapes_pair (c : UInt8) (t : List UInt8) : escapes (92 :: c :: t) = (escapes t).map (· + 1) := by
  rw [escapes.eq_def]
  rfl

theorem escapes_cons {c : UInt8} (hc : c ≠ 92) (t : List UInt8) : escapes (c :: t) = escapes t := by
  rw [escapes.eq_def]
  exact if_neg hc

/-- **The first loop** ends at the quote behind a string. -/
theorem scanString_eq {s : List UInt8} {inputEnd skipped e k : ℕ} (h : scanString s inputEnd skipped = some (e, k)) :
    ∃ body rest n, s = body ++ 34 :: rest ∧ escapes body = some n ∧ e = inputEnd + body.length ∧ k = skipped + n := by
  fun_induction scanString s inputEnd skipped with
  | case1 => cases h
  | case2 inputEnd skipped =>
    cases h
    exact ⟨[], _, 0, rfl, rfl, rfl, rfl⟩
  | case3 => cases h
  | case4 inputEnd skipped c t _ ih =>
    obtain ⟨body, rest, n, rfl, hn, rfl, rfl⟩ := ih h
    refine ⟨92 :: c :: body, rest, n + 1, rfl, ?_, ?_, ?_⟩
    · rw [escapes_pair, hn]
      rfl
    · simp only [List.length_cons]
      omega
    · omega
  | case5 c t inputEnd skipped _ hc ih =>
    obtain ⟨body, rest, n, rfl, hn, rfl, rfl⟩ := ih h
    refine ⟨c :: body, rest, n, rfl, ?_, ?_, rfl⟩
    · rw [escapes_cons hc, hn]
    · simp only [List.length_cons]
      omega

/-- `k` characters hold at most `k / 2` escapes, and one more may begin with the last of them. -/
theorem escapes_drop {s : List UInt8} {n : ℕ} (h : escapes s = some n) {k : ℕ} (hk : k ≤ s.length) :
    (∃ m, escapes (s.drop k) = some m ∧ 2 * n ≤ k + 2 * m) ∨
      ∃ c t m, s.drop k = c :: t ∧ escapes t = some m ∧ 2 * n ≤ k + 1 + 2 * m := by
  fun_induction escapes s generalizing n k with
  | case1 =>
    obtain rfl : k = 0 := by simpa using hk
    exact .inl ⟨n, h, by omega⟩
  | case2 => cases h
  | case3 c t ih =>
    obtain ⟨m, hm, rfl⟩ := Option.map_eq_some_iff.mp h
    obtain rfl | rfl | ⟨k, rfl⟩ : k = 0 ∨ k = 1 ∨ ∃ j, k = j + 2 := by
      rcases k with _ | _ | k
      exacts [.inl rfl, .inr (.inl rfl), .inr (.inr ⟨k, rfl⟩)]
    · refine .inl ⟨m + 1, ?_, by omega⟩
      rw [List.drop_zero, escapes_pair, hm]
      rfl
    · exact .inr ⟨c, t, m, rfl, hm, by omega⟩
    · simp only [List.length_cons] at hk
      rcases ih hm (k := k) (by omega) with ⟨m', hm', hle⟩ | ⟨c', t', m', hdrop, hm', hle⟩
      · exact .inl ⟨m', hm', by omega⟩
      · exact .inr ⟨c', t', m', hdrop, hm', by omega⟩
  | case4 c t hc ih =>
    cases k with
    | zero =>
      refine .inl ⟨n, ?_, by omega⟩
      rw [List.drop_zero, escapes_cons hc, h]
    | succ k =>
      rcases ih h (k := k) (by simpa using hk) with ⟨m', hm', hle⟩ | ⟨c', t', m', hdrop, hm', hle⟩
      · exact .inl ⟨m', hm', by omega⟩
      · exact .inr ⟨c', t', m', hdrop, hm', by omega⟩

theorem escapes_le {s : List UInt8} {n : ℕ} (h : escapes s = some n) : 2 * n ≤ s.length := by
  rcases escapes_drop h le_rfl with ⟨m, hm, hle⟩ | ⟨c, t, m, hdrop, -⟩
  · rw [List.drop_length, escapes, Option.some.injEq] at hm
    omega
  · rw [List.drop_length] at hdrop
    cases hdrop

/-- The rest of a string fits into `room` bytes of the output; it may begin inside an escape. -/
def Fits (s : List UInt8) (room : ℕ) : Prop :=
  (∃ n, escapes s = some n ∧ s.length ≤ room + n) ∨ ∃ c t n, s = c :: t ∧ escapes t = some n ∧ s.length ≤ room + n

theorem Fits.of_drop {s : List UInt8} {n k room room' : ℕ} (h : escapes s = some n) (hk : k ≤ s.length)
    (hroom : s.length + 1 ≤ room + n) (hroom' : 2 * (room - room') ≤ k + 2) (hle : room' ≤ room) :
    Fits (s.drop k) room' := by
  have hn := escapes_le h
  rcases escapes_drop h hk with ⟨m, hm, hdrop⟩ | ⟨c, t, m, hs, hm, hdrop⟩
  · refine .inl ⟨m, hm, ?_⟩
    rw [List.length_drop]
    omega
  · refine .inr ⟨c, t, m, hs, hm, ?_⟩
    rw [List.length_drop]
    omega

/-! ## Decoding -/

theorem parseHex_eq_some (left : ℕ) {i : ℕ} (h : ℕ) (hi : i + left ≤ content.length) :
    ∃ v, parseHex content left i h = some v ∧ v < (h + 1) * 16 ^ left := by
  induction left generalizing i h with
  | zero => exact ⟨h, rfl, by omega⟩
  | succ left ih =>
    rw [parseHex, List.getElem?_eq_getElem (by omega), Option.bind_some]
    cases hd : hexDigit content[i] with
    | none => exact ⟨0, rfl, by positivity⟩
    | some d =>
      obtain ⟨v, hv, hlt⟩ := ih (i := i + 1) (h := 16 * h + d) (by omega)
      have hd16 : d < 16 := by
        unfold hexDigit at hd
        split_ifs at hd <;> cases hd <;> omega
      refine ⟨v, hv, hlt.trans_le ?_⟩
      calc (16 * h + d + 1) * 16 ^ left ≤ ((h + 1) * 16) * 16 ^ left := Nat.mul_le_mul_right _ (by omega)
        _ = (h + 1) * 16 ^ (left + 1) := by rw [pow_succ]; ring

theorem length_encodeUtf8 (mark : ℕ → ℕ) (position codepoint : ℕ) :
    (encodeUtf8 mark position codepoint).length = position + 1 := by
  induction position generalizing codepoint with
  | zero => rfl
  | succ position ih => rw [encodeUtf8, List.length_append, ih, List.length_singleton]

theorem encodeCodepoint_spec (n codepoint : ℕ) (h : codepoint ≤ 0x10FFFF) : ∃ bytes,
    encodeCodepoint n codepoint = (n, bytes) ∧ bytes.length ≤ 4 ∧ (codepoint < 0x10000 → bytes.length ≤ 3) := by
  unfold encodeCodepoint
  split_ifs <;> refine ⟨_, rfl, ?_, fun _ => ?_⟩ <;> rw [length_encodeUtf8] <;> omega

/-- The sequences of 6 and 12 characters, which give at most 3 and 4 bytes. -/
theorem utf16LiteralToUtf8_spec (input : ℕ) {inputEnd : ℕ} (hend : inputEnd ≤ content.length) : ∃ n bytes,
    utf16LiteralToUtf8 content input inputEnd = some (n, bytes) ∧
      (n = 0 ∨ (n = 6 ∧ bytes.length ≤ 3 ∧ input + 6 ≤ inputEnd) ∨
        (n = 12 ∧ bytes.length ≤ 4 ∧ input + 12 ≤ inputEnd)) := by
  have hfail : ∀ r : Option (ℕ × List UInt8), r = some (0, []) → ∃ n bytes, r = some (n, bytes) ∧
      (n = 0 ∨ (n = 6 ∧ bytes.length ≤ 3 ∧ input + 6 ≤ inputEnd) ∨
        (n = 12 ∧ bytes.length ≤ 4 ∧ input + 12 ≤ inputEnd)) :=
    fun r hr => ⟨0, [], hr, .inl rfl⟩
  unfold utf16LiteralToUtf8
  by_cases hshort : inputEnd - input < 6
  · exact hfail _ (if_pos hshort)
  rw [if_neg hshort]
  obtain ⟨first, hfirst, hlt⟩ := parseHex_eq_some 4 0 (show input + 2 + 4 ≤ content.length by omega)
  rw [parseHex4, hfirst, Option.bind_some]
  by_cases hlow : 0xDC00 ≤ first ∧ first ≤ 0xDFFF
  · exact hfail _ (if_pos hlow)
  rw [if_neg hlow]
  by_cases hpair : 0xD800 ≤ first ∧ first ≤ 0xDBFF
  · rw [if_pos hpair]
    by_cases hshort' : inputEnd - (input + 6) < 6
    · exact hfail _ (if_pos hshort')
    rw [if_neg hshort', List.getElem?_eq_getElem (by omega), List.getElem?_eq_getElem (by omega), Option.bind_some,
      Option.bind_some]
    by_cases hback : content[input + 6] ≠ 92 ∨ content[input + 7] ≠ 117
    · exact hfail _ (if_pos hback)
    obtain ⟨second, hsecond, -⟩ := parseHex_eq_some 4 0 (show input + 8 + 4 ≤ content.length by omega)
    rw [if_neg hback, parseHex4, hsecond, Option.map_some]
    by_cases hrange : second < 0xDC00 ∨ 0xDFFF < second
    · exact hfail _ (congrArg some (if_pos hrange))
    have hten : ((first &&& 0x3FF) <<< 10) ||| (second &&& 0x3FF) < 2 ^ 20 := by
      have h₁ := Nat.and_le_right (n := first) (m := 0x3FF)
      have h₂ := Nat.and_le_right (n := second) (m := 0x3FF)
      refine Nat.or_lt_two_pow ?_ (by omega)
      rw [Nat.shiftLeft_eq]
      omega
    obtain ⟨bytes, hbytes, hfour, -⟩ := encodeCodepoint_spec 12
      (0x10000 + (((first &&& 0x3FF) <<< 10) ||| (second &&& 0x3FF))) (by omega)
    exact ⟨12, bytes, by rw [if_neg hrange, hbytes], .inr (.inr ⟨rfl, hfour, by omega⟩)⟩
  · rw [if_neg hpair]
    obtain ⟨bytes, hbytes, -, hthree⟩ := encodeCodepoint_spec 6 first (by omega)
    exact ⟨6, bytes, by rw [hbytes], .inr (.inl ⟨rfl, hthree (by omega), by omega⟩)⟩

section Decode

variable {inputEnd input room capacity : ℕ} {c : UInt8} {s t rest output : List UInt8}

/-- Behind a character that is no backslash both loops stand on a new one. -/
theorem Fits.char (h : Fits (c :: t) room) (hc : c ≠ 92) : 1 ≤ room ∧ Fits t (room - 1) := by
  have hrest : ∃ n, escapes t = some n ∧ t.length + 1 ≤ room + n := by
    rcases h with ⟨n, hn, hle⟩ | ⟨c', t', n, heq, hn, hle⟩
    · exact ⟨n, by rwa [escapes_cons hc] at hn, hle⟩
    · cases heq
      exact ⟨n, hn, hle⟩
  obtain ⟨n, hn, hle⟩ := hrest
  have hpairs := escapes_le hn
  exact ⟨by omega, Fits.of_drop hn (Nat.zero_le _) hle (by omega) (Nat.sub_le _ _)⟩

theorem Fits.escape (h : Fits (92 :: t) room) {n b : ℕ} (hn : 2 ≤ n) (hb : 2 * b ≤ n) (hle : n ≤ t.length + 1) :
    b ≤ room ∧ Fits ((92 :: t).drop n) (room - b) := by
  rcases h with ⟨m, hm, hroom⟩ | ⟨c, u, m, heq, hm, hroom⟩
  · obtain _ | ⟨e, u⟩ := t
    · cases hm
    · rw [escapes_pair] at hm
      obtain ⟨m, hu, rfl⟩ := Option.map_eq_some_iff.mp hm
      obtain ⟨k, rfl⟩ : ∃ k, n = k + 2 := ⟨n - 2, by omega⟩
      have hpairs := escapes_le hu
      simp only [List.length_cons] at hroom hle
      refine ⟨by omega, ?_⟩
      show Fits (u.drop k) (room - b)
      exact Fits.of_drop hu (by omega) (by omega) (by omega) (Nat.sub_le _ _)
  · cases heq
    obtain ⟨k, rfl⟩ : ∃ k, n = k + 1 := ⟨n - 1, by omega⟩
    have hpairs := escapes_le hm
    rw [List.length_cons] at hroom
    refine ⟨by omega, ?_⟩
    show Fits (t.drop k) (room - b)
    exact Fits.of_drop hm (by omega) hroom (by omega) (Nat.sub_le _ _)

/-- A step reads inside the text. What it writes fits, and so does the rest, unless the closing quote was taken. -/
theorem decodeStep_spec (hdrop : content.drop input = s ++ 34 :: rest) (hend : inputEnd = input + s.length)
    (hne : s ≠ []) (hfits : Fits s room) : ∃ n bytes, decodeStep content inputEnd input = some (n, bytes) ∧
      (n ≠ 0 → bytes.length ≤ room ∧ (n = s.length + 1 ∨ (n ≤ s.length ∧ Fits (s.drop n) (room - bytes.length)))) := by
  obtain ⟨c, t, rfl⟩ := List.exists_cons_of_ne_nil hne
  have hlen : content.length = input + (t.length + rest.length + 2) := by
    have h := congrArg List.length hdrop
    simp only [List.length_drop, List.length_append, List.length_cons] at h
    omega
  have hget : ∀ i, content[input + i]? = (c :: t ++ 34 :: rest)[i]? := by
    intro i
    rw [← hdrop, List.getElem?_drop]
  rw [List.length_cons] at hend
  unfold decodeStep
  rw [show content[input]? = some c from hget 0, Option.bind_some, List.length_cons]
  by_cases hc : c = 92
  · subst hc
    obtain ⟨e, he⟩ : ∃ e, content[input + 1]? = some e := ⟨_, List.getElem?_eq_getElem (by omega)⟩
    rw [if_neg (by decide), he, Option.bind_some]
    by_cases hu : e = 117
    · rw [if_pos hu]
      obtain ⟨n, bytes, heq, hn⟩ := utf16LiteralToUtf8_spec input
        (show inputEnd ≤ content.length by omega)
      refine ⟨n, bytes, heq, fun hzero => ?_⟩
      obtain ⟨hroom, hrest⟩ := hfits.escape (n := n) (b := bytes.length) (by omega) (by omega) (by omega)
      exact ⟨hroom, .inr ⟨by omega, hrest⟩⟩
    · rw [if_neg hu]
      cases unescape e with
      | none => exact ⟨0, [], rfl, fun h => absurd rfl h⟩
      | some b =>
        refine ⟨2, [b], rfl, fun _ => ?_⟩
        obtain _ | ⟨e', u⟩ := t
        · -- the backslash is the second character of an escape of the first loop
          rcases hfits with ⟨m, hm, -⟩ | ⟨c', u, m, heq, hm, hroom⟩
          · cases hm
          · cases heq
            cases hm
            exact ⟨hroom, .inl rfl⟩
        · obtain ⟨hroom, hrest⟩ := hfits.escape (n := 2) (b := 1) le_rfl le_rfl (by rw [List.length_cons]; omega)
          exact ⟨hroom, .inr ⟨by rw [List.length_cons]; omega, hrest⟩⟩
  · obtain ⟨hroom, hrest⟩ := hfits.char hc
    rw [if_pos hc]
    exact ⟨1, [c], rfl, fun _ => ⟨hroom, .inr ⟨by omega, hrest⟩⟩⟩

/-- **The second loop** stays inside the text and the output, and ends. -/
theorem decodeLoop_spec (capacity fuel room : ℕ) (output : List UInt8)
    (hdrop : content.drop input = s ++ 34 :: rest) (hend : inputEnd = input + s.length)
    (hfits : Fits s room) (hcap : output.length + room + 1 ≤ capacity) (hfuel : s.length < fuel) :
    (∃ o ≤ inputEnd, decodeLoop content capacity inputEnd fuel input output = .fail o) ∨
      ∃ bytes, decodeLoop content capacity inputEnd fuel input output = .ok bytes (inputEnd + 1) := by
  induction fuel generalizing input s room output with
  | zero => omega
  | succ fuel ih =>
    rw [decodeLoop]
    by_cases hnil : s = []
    · subst hnil
      rw [if_pos (by rw [hend]; exact le_rfl), if_neg (by omega)]
      exact .inr ⟨output, rfl⟩
    · have hpos := List.length_pos_of_ne_nil hnil
      obtain ⟨n, bytes, hstep, hn⟩ := decodeStep_spec hdrop hend hnil hfits
      rw [if_neg (by omega), hstep]
      dsimp only
      by_cases hzero : n = 0
      · rw [if_pos hzero]
        exact .inl ⟨input, by omega, rfl⟩
      · obtain ⟨hroom, hrest⟩ := hn hzero
        rw [if_neg hzero, if_neg (by omega)]
        rcases hrest with rfl | ⟨hle, hrest⟩
        · -- behind the closing quote
          obtain ⟨fuel, rfl⟩ : ∃ k, fuel = k + 1 := ⟨fuel - 1, by omega⟩
          rw [decodeLoop, if_pos (by omega), if_neg (by rw [List.length_append]; omega)]
          exact .inr ⟨_, rfl⟩
        · refine ih (room - bytes.length) (output ++ bytes) ?_ ?_ hrest ?_ ?_
          · rw [← List.drop_drop, hdrop, List.drop_append_of_le_length hle]
          · rw [List.length_drop]
            omega
          · rw [List.length_append]
            omega
          · rw [List.length_drop]
            omega

end Decode

/-- **`parse_string`**: the decoded string fits into the output that the first loop has measured. -/
theorem parseString_within (htext : NulTerminated content) (hoff : offset < content.length) :
    Within content offset (parseString content offset) := by
  unfold parseString
  rw [List.getElem?_eq_getElem hoff]
  dsimp only
  by_cases hquote : content[offset] = 34
  · rw [if_neg (not_not.mpr hquote)]
    have hsucc := htext.succ_lt (c := 34) (by decide) (by rw [List.getElem?_eq_getElem hoff, hquote])
    cases hscan : scanString (content.drop (offset + 1)) (offset + 1) 0 with
    | none => exact hsucc.le
    | some r =>
      obtain ⟨body, rest, n, hdrop, hn, he, hk⟩ := scanString_eq (e := r.1) (k := r.2) hscan
      have hlen := congrArg List.length hdrop
      simp only [List.length_drop, List.length_append, List.length_cons] at hlen
      have hpairs := escapes_le hn
      have hclose : r.1 + 1 < content.length := by
        refine htext.succ_lt (c := 34) (by decide) ?_
        rw [he, ← List.getElem?_drop, hdrop, List.getElem?_append_right le_rfl, Nat.sub_self, List.getElem?_cons_zero]
      dsimp only
      rcases decodeLoop_spec (r.1 - offset - r.2 + 1) (r.1 - offset)
        (body.length - n) [] hdrop he (.inl ⟨n, hn, by omega⟩) (by rw [List.length_nil]; omega) (by omega) with
        ⟨o, ho, hfail⟩ | ⟨bytes, hok⟩
      · rw [hfail]
        exact show o ≤ content.length by omega
      · rw [hok]
        exact ⟨by omega, hclose⟩
  · rw [if_pos hquote]
    exact hoff

/-! ## Values -/

theorem parseNumber_within (htext : NulTerminated content) (hoff : offset < content.length) :
    Within content offset (parseNumber content offset) := by
  unfold parseNumber
  dsimp only
  have hpre : ((content.drop offset).take 63).takeWhile numberChar <+: content.drop offset :=
    (List.takeWhile_prefix _).trans (List.take_prefix _ _)
  have hzero : 0 ∉ ((content.drop offset).take 63).takeWhile numberChar := fun hmem =>
    absurd (List.mem_takeWhile_imp hmem) (by decide)
  have hlt := htext.lt_of_prefix hzero hoff hpre
  generalize ((content.drop offset).take 63).takeWhile numberChar = text at hlt
  cases hread : strtod text with
  | none => exact hoff.le
  | some r =>
    have hshorter := length_strtod_lt (d := r.1) (t := r.2) hread
    exact ⟨by omega, by omega⟩

section Entries

variable {entry : ℕ → Outcome Node} {close : UInt8}

/-- **The loop of `parse_array` and `parse_object`**: every entry takes a character, so that the loop ends. -/
theorem parseEntries_within (htext : NulTerminated content) (hclose : close ≠ 0)
    (hentry : ∀ o < content.length, Within content o (entry o)) {fuel : ℕ} (hoff : offset < content.length)
    (hfuel : content.length ≤ offset + fuel) :
      Within content offset (parseEntries content close entry fuel offset) := by
  induction fuel generalizing offset with
  | zero => omega
  | succ fuel ih =>
    have hskip := bufferSkipWhitespace_lt (show offset + 1 ≤ content.length from hoff) htext.length_pos
    have hge : offset ≤ bufferSkipWhitespace content (offset + 1) := by
      by_cases hlast : offset + 1 < content.length
      · exact (Nat.le_succ offset).trans (le_bufferSkipWhitespace hlast)
      · unfold bufferSkipWhitespace
        dsimp only
        split_ifs <;> omega
    rw [parseEntries]
    refine ((hentry _ hskip).mono hge).bind fun v o hlow hhigh => ?_
    have hlt := bufferSkipWhitespace_lt hhigh.le htext.length_pos
    have hle := le_bufferSkipWhitespace hhigh
    dsimp only
    generalize bufferSkipWhitespace content o = o' at hlt hle
    split_ifs with hcomma hend
    · exact ((ih hlt (by omega)).mono (by omega)).bind fun rest p hp₁ hp₂ => ⟨hp₁, hp₂⟩
    · exact ⟨by omega, htext.succ_lt hclose hend⟩
    · exact hlt.le

theorem parseBrackets_within (htext : NulTerminated content) (hclose : close ≠ 0)
    (hentry : ∀ o < content.length, Within content o (entry o)) (type : JsonType) {c : UInt8} (hc : c ≠ 0)
    (hoff : content[offset]? = some c) : Within content offset (parseBrackets content type close entry offset) := by
  have hsucc := htext.succ_lt hc hoff
  have hlt := bufferSkipWhitespace_lt (show offset + 1 ≤ content.length from hsucc.le) htext.length_pos
  have hle := le_bufferSkipWhitespace hsucc
  unfold parseBrackets
  dsimp only
  generalize bufferSkipWhitespace content (offset + 1) = o at hlt hle
  split_ifs with hend hnone
  · exact ⟨by omega, htext.succ_lt hclose hend⟩
  · exact show o - 1 ≤ content.length by omega
  · refine ((parseEntries_within htext hclose hentry (by omega) (by omega)).mono (by omega)).bind
      fun kids p hp₁ hp₂ => ⟨hp₁, hp₂⟩

end Entries

section Value

variable {value : ℕ → Outcome Node}

theorem parseArray_within (htext : NulTerminated content) (hvalue : ∀ o < content.length, Within content o (value o))
    (hoff : offset < content.length) : Within content offset (parseArray content value offset) := by
  unfold parseArray
  rw [List.getElem?_eq_getElem hoff]
  dsimp only
  split_ifs with hbracket
  · exact hoff.le
  · rw [not_not] at hbracket
    exact parseBrackets_within htext (by decide) hvalue _ (c := 91) (by decide)
      (by rw [List.getElem?_eq_getElem hoff, hbracket])

theorem parseMember_within (htext : NulTerminated content) (hvalue : ∀ o < content.length, Within content o (value o))
    (hoff : offset < content.length) : Within content offset (parseMember content value offset) := by
  unfold parseMember
  refine (parseString_within htext hoff).bind fun name o hlow hhigh => ?_
  have hlt := bufferSkipWhitespace_lt hhigh.le htext.length_pos
  have hle := le_bufferSkipWhitespace hhigh
  dsimp only
  generalize bufferSkipWhitespace content o = o' at hlt hle
  split_ifs with hcolon
  · exact hlt.le
  · rw [not_not] at hcolon
    have hsucc := htext.succ_lt (by decide) hcolon
    have hlt' := bufferSkipWhitespace_lt hsucc.le htext.length_pos
    have hle' := le_bufferSkipWhitespace hsucc
    exact ((hvalue _ hlt').mono (by omega)).bind fun v p hp₁ hp₂ => ⟨hp₁, hp₂⟩

theorem parseObject_within (htext : NulTerminated content) (hvalue : ∀ o < content.length, Within content o (value o))
    (hoff : offset < content.length) : Within content offset (parseObject content value offset) := by
  unfold parseObject
  split_ifs with hbrace
  · exact hoff.le
  · rw [not_not] at hbrace
    exact parseBrackets_within htext (by decide) (fun o ho => parseMember_within htext hvalue ho) _ (by decide) hbrace

end Value

theorem parseValue_within_of (htext : NulTerminated content) {limit : ℕ}
    (hinside : ∀ n, limit = n + 1 → ∀ o < content.length, Within content o (parseValue content n o))
    (hoff : offset < content.length) : Within content offset (parseValue content limit offset) := by
  have hword : ∀ s : List UInt8, 0 ∉ s → s ≠ [] → s <+: content.drop offset → ∀ v : Node,
      Within content offset (.ok v (offset + s.length)) := by
    intro s hs hne hpre v
    have hpos := List.length_pos_of_ne_nil hne
    exact ⟨by omega, htext.lt_of_prefix hs hoff hpre⟩
  rw [parseValue.eq_def]
  split_ifs with hnull hfalse htrue
  · exact hword _ (by decide) (by decide) hnull _
  · exact hword _ (by decide) (by decide) hfalse _
  · exact hword _ (by decide) (by decide) htrue _
  · exact (parseString_within htext hoff).bind fun s o hlow hhigh => ⟨hlow, hhigh⟩
  · exact parseNumber_within htext hoff
  · cases limit with
    | zero => exact hoff.le
    | succ limit => exact parseArray_within htext (hinside limit rfl) hoff
  · cases limit with
    | zero => exact hoff.le
    | succ limit => exact parseObject_within htext (hinside limit rfl) hoff
  · exact hoff.le

/-- **`parse_value`**, by induction on the nesting that is left. -/
theorem parseValue_within (htext : NulTerminated content) (limit : ℕ) :
    ∀ offset < content.length, Within content offset (parseValue content limit offset) := by
  induction limit with
  | zero => exact fun offset => parseValue_within_of htext fun n hn => absurd hn (by omega)
  | succ limit ih =>
    refine fun offset => parseValue_within_of htext fun n hn => ?_
    obtain rfl := Nat.succ.inj hn
    exact ih

/-- **`cJSON_Parse` of any text** stays inside the memory and ends; an error position is one of the text or its NUL. -/
theorem cJSONParse_safe (value : List UInt8) : (∃ tree, cJSONParse value = some (.ok tree)) ∨
    ∃ position ≤ (cstr value).length, cJSONParse value = some (.error position) := by
  have htext : NulTerminated (cstr value ++ [0]) := ⟨cstr value, zero_notMem_cstr value, rfl⟩
  have hbom : skipUtf8Bom (cstr value ++ [0]) ≤ (cstr value ++ [0]).length := by
    unfold skipUtf8Bom
    split_ifs <;> omega
  have hwithin := parseValue_within htext nestingLimit _ (bufferSkipWhitespace_lt hbom htext.length_pos)
  have hlen : (cstr value ++ [0]).length = (cstr value).length + 1 := by rw [List.length_append, List.length_singleton]
  unfold cJSONParse
  dsimp only
  cases hr : parseValue (cstr value ++ [0]) nestingLimit
      (bufferSkipWhitespace (cstr value ++ [0]) (skipUtf8Bom (cstr value ++ [0]))) with
  | fault =>
    rw [hr] at hwithin
    exact hwithin.elim
  | fail o =>
    refine .inr ⟨_, ?_, rfl⟩
    split_ifs <;> omega
  | ok v o => exact .inl ⟨_, rfl⟩

end Sarah.JsonText
