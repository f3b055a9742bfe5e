import SarahClient.Base64.Codec

/-!
# Base 64 in Lua

* **`luaBase64_roundTrip`**: encode, break into lines, decode;
* **`luaBase64Decode_settled_iff`**: for which texts the fresh memory is not seen.
-/

namespace Sarah

open Block BitGroups Base64

theorem luaBase64_some (f : ℕ → ℕ → UInt8) {olen : ℕ} (h : olen + 1 < 2 ^ 64)
    (call : List UInt8 → Option Base64Result) :
    luaBase64 (fun n => some (f n)) olen call =
      (call ((List.range olen).map (f (olen + 1)) ++ [0])).map fun r => if r.ret = 0 then r.dst.map cstr else none := by
  have hstore : store ((List.range (olen + 1)).map (f (olen + 1))) olen 0 =
      some ((List.range olen).map (f (olen + 1)) ++ [0]) := by
    rw [store_of_lt (by simp), List.range_succ, List.map_append, List.set_append_right _ _ (by simp)]
    simp
  rw [luaBase64, Nat.mod_eq_of_lt h, freshBytes, Option.map_some]
  dsimp only
  rw [hstore, Option.bind_some]

theorem zero_notMem_base64 (src : List UInt8) : 0 ∉ text src := by
  have hchar : ∀ d < 64, char d ≠ 0 := by decide +kernel
  intro h
  rw [text, List.mem_append, List.mem_map] at h
  rcases h with ⟨d, hd, hzero⟩ | h
  · exact hchar d (sextets_lt hd) hzero
  · exact absurd (List.eq_of_mem_replicate h) (by decide)

theorem luaBase64Encode_eq (f : ℕ → ℕ → UInt8) {str : List UInt8} (h : str.length < 2 ^ 61) :
    luaBase64Encode (fun n => some (f n)) str = some (some (text (cstr str))) := by
  have hlen : (cstr str).length < 2 ^ 61 := (List.takeWhile_prefix _).length_le.trans_lt h
  have htext := length_text (cstr str)
  by_cases hnil : cstr str = []
  · have hfirst : mbedtlsBase64Encode none 0 [] = some ⟨0, 0, none⟩ := rfl
    rw [luaBase64Encode, hnil, hfirst, Option.bind_some]
    dsimp only
    rw [luaBase64_some f (by norm_num)]
    rfl
  · rw [luaBase64Encode, mbedtlsBase64Encode_none hnil hlen, Option.bind_some]
    dsimp only
    rw [luaBase64_some f (by omega), mbedtlsBase64Encode_eq hnil hlen (by omega) (by simp), Option.map_some, if_pos rfl,
      Option.map_some, cstr_append_zero (zero_notMem_base64 _)]

/-! ## Decoding -/

section Decode

variable {str : List UInt8} {ds : List ℕ} {j : ℕ}

theorem base64Size_le (n j : ℕ) : base64Size n j ≤ n := by
  have hand : n &&& 0x7 = n % 8 := Nat.and_two_pow_sub_one_eq_mod n 3
  rw [base64Size, hand, Nat.shiftRight_eq_div_pow, Nat.shiftRight_eq_div_pow]
  omega

theorem Base64Lines.size_lt (h : Base64Lines (cstr str) ds j) (hstr : str.length < 2 ^ 61) :
    base64Size (ds.length + j) j + 1 < 2 ^ 64 := by
  have hsize := base64Size_le (ds.length + j) j
  have hle := h.lines.length_le
  rw [List.length_append, List.length_map, List.length_replicate] at hle
  have hcut : (cstr str).length ≤ str.length := (List.takeWhile_prefix _).length_le
  omega

theorem luaBase64Decode_eq (f : ℕ → ℕ → UInt8) (olen : ℕ) (h : Base64Lines (cstr str) ds j)
    (hstr : str.length < 2 ^ 61) :
    luaBase64Decode (fun n => some (f n)) olen str =
      some (some (cstr (base64Bytes ds j ++ (((List.range (base64Size (ds.length + j) j)).map
        (f (base64Size (ds.length + j) j + 1))).drop (base64Bytes ds j).length ++ [0])))) := by
  have hlen := length_base64Bytes ds h.pad
  obtain ⟨ret, hfirst⟩ : ∃ ret, mbedtlsBase64Decode none 0 olen (cstr str) =
      some ⟨ret, base64Size (ds.length + j) j, none⟩ := by
    by_cases hn : ds.length + j = 0
    · have hzero : base64Size 0 j = 0 := by simp [base64Size]
      rw [mbedtlsBase64Decode, base64Check_of_lines h, hn, hzero]
      exact ⟨0, rfl⟩
    · exact ⟨_, mbedtlsBase64Decode_small h olen (.inl rfl) hn⟩
  rw [luaBase64Decode, hfirst, Option.bind_some]
  dsimp only
  rw [luaBase64_some f (h.size_lt hstr), mbedtlsBase64Decode_eq h _ (le_refl _) (by simp), Option.map_some, if_pos rfl,
    Option.map_some, List.drop_append_of_le_length (by rw [List.length_map, List.length_range]; omega)]

theorem cstr_append_of_mem {s : List UInt8} (h : 0 ∈ s) (t : List UInt8) : cstr (s ++ t) = cstr s := by
  induction s with
  | nil => cases h
  | cons c s ih =>
    by_cases hc : c = 0
    · simp [cstr, hc]
    · have hs : 0 ∈ s := (List.mem_cons.mp h).resolve_left fun h0 => hc h0.symm
      simpa [cstr, hc] using ih hs

/-- **When the string does not depend on the fresh memory**: every character behind the last whole group is an `=`, or
a NUL among the bytes hides what follows. -/
theorem luaBase64Decode_settled_iff (olen : ℕ) (h : Base64Lines (cstr str) ds j) (hstr : str.length < 2 ^ 61) :
    (∀ f g : ℕ → ℕ → UInt8,
      luaBase64Decode (fun n => some (f n)) olen str = luaBase64Decode (fun n => some (g n)) olen str) ↔
    (ds.length + j) % 4 ≤ j ∨ 0 ∈ base64Bytes ds j := by
  have hlen := length_base64Bytes ds h.pad
  constructor
  · intro hsame
    by_contra hno
    rw [not_or] at hno
    obtain ⟨k, hk⟩ : ∃ k, base64Size (ds.length + j) j - (base64Bytes ds j).length = k + 1 :=
      ⟨base64Size (ds.length + j) j - (base64Bytes ds j).length - 1, by omega⟩
    have hsplit := hsame (fun _ _ => 0) fun _ _ => 1
    rw [luaBase64Decode_eq _ olen h hstr, luaBase64Decode_eq _ olen h hstr, List.map_const', List.map_const',
      List.length_range, List.drop_replicate, List.drop_replicate, hk, Option.some.injEq, Option.some.injEq] at hsplit
    have hzeros : cstr (base64Bytes ds j ++ (List.replicate (k + 1) 0 ++ [0])) = base64Bytes ds j := by
      rw [List.replicate_succ, List.cons_append, cstr_append_zero hno.2]
    have hones : cstr (base64Bytes ds j ++ (List.replicate (k + 1) 1 ++ [0])) =
        base64Bytes ds j ++ List.replicate (k + 1) 1 := by
      rw [← List.append_assoc, cstr_append_zero]
      intro hmem
      rcases List.mem_append.mp hmem with hmem | hmem
      · exact hno.2 hmem
      · exact absurd (List.eq_of_mem_replicate hmem) (by decide)
    rw [hzeros, hones] at hsplit
    have hlength := congrArg List.length hsplit
    rw [List.length_append, List.length_replicate] at hlength
    omega
  · intro hor f g
    rw [luaBase64Decode_eq f olen h hstr, luaBase64Decode_eq g olen h hstr]
    rcases hor with hle | hzero
    · rw [List.drop_of_length_le (by rw [List.length_map, List.length_range]; omega),
        List.drop_of_length_le (by rw [List.length_map, List.length_range]; omega)]
    · rw [cstr_append_of_mem hzero, cstr_append_of_mem hzero]

end Decode

/-- Two characters alone: two bytes are asked for, and none is written. -/
theorem luaBase64Decode_settled_iff_two :
    (∀ f g : ℕ → ℕ → UInt8,
      luaBase64Decode (fun n => some (f n)) 7 (lit "QQ") = luaBase64Decode (fun n => some (g n)) 7 (lit "QQ")) ↔
    ([16, 16].length + 0) % 4 ≤ 0 ∨ 0 ∈ base64Bytes [16, 16] 0 := by
  have htext : cstr (lit "QQ") = [16, 16].map char ++ List.replicate 0 61 := by decide +kernel
  have hlines : Base64Lines (cstr (lit "QQ")) [16, 16] 0 := ⟨by decide, by decide, by rw [htext]; exact .refl _⟩
  exact luaBase64Decode_settled_iff 7 hlines (by decide +kernel)

/-- **Encode, break into lines, decode**: the string up to its first NUL. -/
theorem luaBase64_roundTrip (f g : ℕ → ℕ → UInt8) (olen : ℕ) {str t : List UInt8} (hstr : str.length < 2 ^ 61)
    (ht : Breaks (text (cstr str)) t) (hlen : t.length < 2 ^ 61) :
    luaBase64Encode (fun n => some (f n)) str = some (some (text (cstr str))) ∧
      luaBase64Decode (fun n => some (g n)) olen t = some (some (cstr str)) := by
  have hzero : 0 ∉ t := by
    intro hmem
    rcases ht.mem hmem with h | h | h | h
    · exact zero_notMem_base64 _ h
    all_goals exact absurd h (by decide)
  have hlines : Base64Lines (cstr t) (sextets ((cstr str).map UInt8.toNat)) ((3 - (cstr str).length % 3) % 3) := by
    rw [cstr_of_notMem hzero]
    exact base64Lines_text ht
  have htext := length_text (cstr str)
  rw [text, List.length_append, List.length_map, List.length_replicate] at htext
  have hsize := length_base64Bytes (sextets ((cstr str).map UInt8.toNat)) hlines.pad
  rw [htext, Nat.mul_mod_right, Nat.zero_sub, Nat.add_zero, ← htext] at hsize
  refine ⟨luaBase64Encode_eq f hstr, ?_⟩
  rw [luaBase64Decode_eq g olen hlines hlen, List.drop_of_length_le (by rw [List.length_map, List.length_range, hsize]),
    base64Bytes_text, List.nil_append, cstr_append_zero (zero_notMem_cstr str)]

theorem luaBase64_roundTrip_abc :
    luaBase64Encode (fun _ => some fun _ => 1) (lit "abc") = some (some (text (cstr (lit "abc")))) ∧
      luaBase64Decode (fun _ => some fun _ => 1) 7 (text (cstr (lit "abc")) ++ [10]) =
        some (some (cstr (lit "abc"))) := by
  have htext : text (cstr (lit "abc")) = lit "YWJj" := by decide +kernel
  have hlines : Breaks (text (cstr (lit "abc"))) (text (cstr (lit "abc")) ++ [10]) := by
    rw [htext]
    exact .char _ (.char _ (.char _ (.char _ (.lf 0 (.done 0)))))
  exact luaBase64_roundTrip (fun _ _ => 1) (fun _ _ => 1) 7 (by decide +kernel) hlines (by rw [htext]; decide +kernel)

end Sarah
