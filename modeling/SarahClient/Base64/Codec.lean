import SarahClient.Base64.Model
import SarahClient.Lib.Base64

/-!
# The two passes

* `base64Char_eq`, `base64DecMap_char`, `exists_char`: the tables are the alphabet;
* `text_three`, `base64EncodeLoop_eq`, **`mbedtlsBase64Encode_eq`**: the encoder writes the text and a NUL;
* `Base64Lines`, `base64Check_of_lines`, `lines_of_base64Check`: what the first pass accepts;
* `base64Bytes`, `foldlM_base64Feed`, `length_base64Bytes`: what the second pass writes;
* **`mbedtlsBase64Decode_spec`**: every call of the decoder; `base64Bytes_text`: an encoded text is read back.
-/

namespace Sarah

open Block BitGroups Base64

/-! ## The tables -/

theorem base64EncMap_eq : base64EncMap = alphabet := by decide +kernel

theorem base64Char_eq {n d : ℕ} (h : n % 64 = d) : base64Char n = char d := by
  have hand : n &&& 0x3F = n % 64 := Nat.and_two_pow_sub_one_eq_mod n 6
  rw [base64Char, char, base64EncMap_eq, hand, h]

theorem base64DecMap_char {d : ℕ} (h : d < 64) : base64DecMap[(char d).toNat]? = some d := by
  revert d
  decide +kernel

theorem base64DecMap_getD {d : ℕ} (h : d < 64) : base64DecMap.getD (char d).toNat 127 = d ∧ (char d).toNat < 128 := by
  have hmap := base64DecMap_char h
  exact ⟨by rw [List.getD_eq_getElem?_getD, hmap]; rfl, (List.getElem?_eq_some_iff.mp hmap).1⟩

theorem exists_char {c : UInt8} (h : base64DecMap.getD c.toNat 127 < 64) : ∃ d < 64, char d = c := by
  have hall : ∀ n < 128, base64DecMap.getD n 127 < 64 → ∃ d < 64, char d = UInt8.ofNat n := by decide +kernel
  have hlt : c.toNat < 128 := by
    by_contra hge
    rw [List.getD_eq_default _ _ (by rw [show base64DecMap.length = 128 from rfl]; omega)] at h
    omega
  have hc := hall c.toNat hlt h
  rwa [UInt8.ofNat_toNat] at hc

theorem char_ne {d : ℕ} (h : d < 64) : char d ≠ 10 ∧ char d ≠ 13 ∧ char d ≠ 32 ∧ char d ≠ 61 := by
  revert d
  decide +kernel

/-! ## Encoding -/

theorem text_three (a b c : UInt8) (src : List UInt8) : text (a :: b :: c :: src) =
    [char (a.toNat / 4), char (a.toNat % 4 * 16 + b.toNat / 16), char (b.toNat % 16 * 4 + c.toNat / 64),
      char (c.toNat % 64)] ++
      text src := by
  have hlen : (a :: b :: c :: src).length % 3 = src.length % 3 := by simp only [List.length_cons]; omega
  rw [text, hlen, List.map_cons, List.map_cons, List.map_cons, sextets_three a.toNat_lt b.toNat_lt c.toNat_lt]
  rfl

theorem text_two (a b : UInt8) : text [a, b] =
    [char (a.toNat / 4), char (a.toNat % 4 * 16 + b.toNat / 16), char (b.toNat % 16 * 4), 61] := by
  rw [text, List.map_cons, List.map_cons, List.map_nil, sextets_two a.toNat_lt b.toNat_lt]
  rfl

theorem text_one (a : UInt8) : text [a] = [char (a.toNat / 4), char (a.toNat % 4 * 16), 61, 61] := by
  rw [text, List.map_cons, List.map_nil, sextets_one a.toNat_lt]
  rfl

theorem base64Char_first (a : UInt8) : base64Char (a.toNat >>> 2) = char (a.toNat / 4) := by
  have ha := a.toNat_lt
  rw [Nat.shiftRight_eq_div_pow]
  exact base64Char_eq (by omega)

theorem base64Char_second (a : UInt8) {n : ℕ} (hn : n < 256) :
    base64Char (((a.toNat &&& 3) <<< 4) + (n >>> 4)) = char (a.toNat % 4 * 16 + n / 16) := by
  have hand : a.toNat &&& 3 = a.toNat % 4 := Nat.and_two_pow_sub_one_eq_mod _ 2
  rw [hand, Nat.shiftRight_eq_div_pow, Nat.shiftLeft_eq]
  exact base64Char_eq (by omega)

theorem base64Char_third (b : UInt8) {n : ℕ} (hn : n < 256) :
    base64Char (((b.toNat &&& 15) <<< 2) + (n >>> 6)) = char (b.toNat % 16 * 4 + n / 64) := by
  have hand : b.toNat &&& 15 = b.toNat % 16 := Nat.and_two_pow_sub_one_eq_mod _ 4
  rw [hand, Nat.shiftRight_eq_div_pow, Nat.shiftLeft_eq]
  exact base64Char_eq (by omega)

theorem base64EncodeLoop_eq : ∀ (src xs ys : List UInt8), (text src).length ≤ ys.length →
    base64EncodeLoop src xs.length (xs ++ ys) =
      some (xs.length + (text src).length, xs ++ text src ++ ys.drop (text src).length)
  | [], xs, ys, _ => by simp [base64EncodeLoop, text, sextets, groups]
  | [a], xs, ys, h => by
    have hsecond : base64Char (((a.toNat &&& 3) <<< 4) + (0 >>> 4)) = char (a.toNat % 4 * 16) :=
      base64Char_second a (by omega : 0 < 256)
    rw [text_one] at h ⊢
    rw [base64EncodeLoop, base64Char_first, hsecond, copyIn_append xs ys _ h]
    rfl
  | [a, b], xs, ys, h => by
    have hthird : base64Char ((b.toNat &&& 15) <<< 2) = char (b.toNat % 16 * 4) :=
      base64Char_third b (by omega : 0 < 256)
    rw [text_two] at h ⊢
    rw [base64EncodeLoop, base64Char_first, base64Char_second a b.toNat_lt, hthird, copyIn_append xs ys _ h]
    rfl
  | a :: b :: c :: src, xs, ys, h => by
    rw [text_three] at h ⊢
    rw [List.length_append] at h
    rw [base64EncodeLoop, base64Char_first, base64Char_second a b.toNat_lt, base64Char_third b c.toNat_lt,
      base64Char_eq (d := c.toNat % 64) rfl, copyIn_append xs ys _ (by omega), Option.bind_some]
    have hfour : [char (a.toNat / 4), char (a.toNat % 4 * 16 + b.toNat / 16), char (b.toNat % 16 * 4 + c.toNat / 64),
      char (c.toNat % 64)].length = 4 := rfl
    generalize [char (a.toNat / 4), char (a.toNat % 4 * 16 + b.toNat / 16), char (b.toNat % 16 * 4 + c.toNat / 64),
      char (c.toNat % 64)] = group at h hfour ⊢
    have ih := base64EncodeLoop_eq src (xs ++ group) (ys.drop group.length) (by rw [List.length_drop]; omega)
    rw [List.length_append, hfour] at ih
    rw [hfour, ih, List.length_append, hfour, List.drop_drop]
    simp only [List.append_assoc, Nat.add_assoc]

/-- **The encoder** writes the text and a NUL behind it. -/
theorem mbedtlsBase64Encode_eq {src buffer : List UInt8} {dlen : ℕ} (hsrc : src ≠ []) (hsmall : src.length < 2 ^ 61)
    (hlen : (text src).length < dlen) (hdlen : dlen ≤ buffer.length) :
    mbedtlsBase64Encode (some buffer) dlen src =
      some ⟨0, (text src).length, some (text src ++ 0 :: buffer.drop ((text src).length + 1))⟩ := by
  have hpos := List.length_pos_of_ne_nil hsrc
  have htext := length_text src
  have hloop := base64EncodeLoop_eq src [] buffer (by omega)
  rw [List.nil_append, List.length_nil, Nat.zero_add, List.nil_append] at hloop
  have hn : (src.length / 3 + if src.length % 3 ≠ 0 then 1 else 0) * 4 = (text src).length := by split_ifs <;> omega
  have hstore : store (text src ++ buffer.drop (text src).length) (text src).length 0 =
      some (text src ++ 0 :: buffer.drop ((text src).length + 1)) := by
    rw [store_of_lt (by rw [List.length_append, List.length_drop]; omega)]
    rw [List.set_append_right _ _ (le_refl _), Nat.sub_self,
      List.drop_eq_getElem_cons (by omega : (text src).length < buffer.length)]
    rfl
  unfold mbedtlsBase64Encode
  rw [if_neg (by omega)]
  dsimp only
  rw [if_neg (by unfold base64SizeTMax; omega), hn, if_neg (by omega), hloop, Option.bind_some, hstore, Option.map_some]

/-- Without a buffer, or with one that is too small, the encoder says how much it needs. -/
theorem mbedtlsBase64Encode_none {src : List UInt8} (hsrc : src ≠ []) (hsmall : src.length < 2 ^ 61) :
    mbedtlsBase64Encode none 0 src = some ⟨base64BufferTooSmall, (text src).length + 1, none⟩ := by
  have hpos := List.length_pos_of_ne_nil hsrc
  have htext := length_text src
  have hn : (src.length / 3 + if src.length % 3 ≠ 0 then 1 else 0) * 4 = (text src).length := by split_ifs <;> omega
  unfold mbedtlsBase64Encode
  rw [if_neg (by omega)]
  dsimp only
  rw [if_neg (by unfold base64SizeTMax; omega), hn]

/-! ## The first pass -/

/-- A text in lines: the characters of some numbers, and up to two `=`. -/
structure Base64Lines (src : List UInt8) (ds : List ℕ) (j : ℕ) : Prop where
  digit : ∀ d ∈ ds, d < 64
  pad : j ≤ 2
  lines : Breaks (ds.map char ++ List.replicate j 61) src

theorem base64Check_spaces (x : UInt32) (n j k : ℕ) (src : List UInt8) :
    ∃ y, base64Check x n j (List.replicate k 32 ++ src) = base64Check y n j src := by
  induction k generalizing x with
  | zero => exact ⟨x, rfl⟩
  | succ k ih =>
    rw [List.replicate_succ, List.cons_append, base64Check, if_pos rfl]
    exact ih (x + 1)

/-- A character that passes is an `=`, or one of the alphabet before any `=`. -/
theorem base64Significant_eq_some {c : UInt8} {j j' : ℕ} : base64Significant c j = some j' ↔
    (c = 61 ∧ j' = j + 1 ∧ j' ≤ 2) ∨ (j = 0 ∧ j' = 0 ∧ ∃ d < 64, char d = c) := by
  by_cases hc : c = 61
  · have hpad : base64DecMap.getD (61 : UInt8).toNat 127 = 64 := by decide +kernel
    have hno : ¬ ∃ d < 64, char d = 61 := by
      rintro ⟨d, hd, hchar⟩
      exact (char_ne hd).2.2.2 hchar
    have h61 : ¬ (61 : UInt8).toNat > 127 := by decide
    simp only [base64Significant, hc, hpad, if_true, true_and, h61, false_or, hno, and_false, or_false]
    split_ifs <;> simp <;> omega
  · have hpad : ∀ n < 128, base64DecMap.getD n 127 ≠ 127 → ¬ base64DecMap.getD n 127 < 64 → n = 61 := by decide +kernel
    simp only [base64Significant, hc, if_false, false_and, false_or]
    split_ifs with h127 hlt
    · simp only [false_iff]
      rintro ⟨-, -, d, hd, rfl⟩
      obtain ⟨hget, hle⟩ := base64DecMap_getD hd
      rw [hget] at h127
      omega
    · simp only [false_iff]
      exact fun h => hlt.2 h.1
    · have hsmall : base64DecMap.getD c.toNat 127 < 64 := by
        by_contra hge
        have h61 := hpad c.toNat (by omega) (by omega) hge
        exact hc (UInt8.toNat_inj.mp h61)
      have hj : j = 0 := by
        by_contra hne
        exact hlt ⟨hsmall, hne⟩
      have hchar := exists_char hsmall
      simp only [hj, hchar, true_and, and_true, Option.some.injEq]
      exact eq_comm

/-- What is accepted is a text in lines, where the counter of the spaces does not wrap. -/
theorem base64Check_sound : ∀ (src : List UInt8) (x : UInt32) (n j : ℕ) {n' j' : ℕ},
    base64Check x n j src = some (n', j') →
    j ≤ 2 → x.toNat + src.length < 2 ^ 32 →
    ∃ ds k, (∀ d ∈ ds, d < 64) ∧ (j ≠ 0 → ds = []) ∧ j' = j + k ∧ j' ≤ 2 ∧ n' = n + ds.length + k ∧
      Breaks (ds.map char ++ List.replicate k 61) (List.replicate x.toNat 32 ++ src)
  | [], x, n, j, n', j', h, hj, _ => by
    rw [base64Check, Option.some.injEq, Prod.mk.injEq] at h
    refine ⟨[], 0, by simp, fun _ => rfl, by omega, by omega, by simp; omega, ?_⟩
    rw [List.append_nil]
    exact Breaks.done x.toNat
  | c :: src, x, n, j, n', j', h, hj, hlen => by
    rw [List.length_cons] at hlen
    have hzero : (0 : UInt32).toNat = 0 := rfl
    have hrest : (0 : UInt32).toNat + src.length < 2 ^ 32 := by omega
    rw [base64Check] at h
    split_ifs at h with hspace hcr hlf hx
    · -- a space
      have hone : (1 : UInt32).toNat = 1 := rfl
      have hnext : (x + 1).toNat = x.toNat + 1 := by
        rw [UInt32.toNat_add, hone]
        omega
      obtain ⟨ds, k, hds, hj0, hj', hj2, hn', hb⟩ := base64Check_sound src (x + 1) n j h hj (by omega)
      refine ⟨ds, k, hds, hj0, hj', hj2, hn', ?_⟩
      rw [hspace]
      rwa [hnext, List.replicate_succ', List.append_assoc] at hb
    · -- the CR of a line break
      obtain ⟨ds, k, hds, hj0, hj', hj2, hn', hb⟩ := base64Check_sound src 0 n j h hj hrest
      refine ⟨ds, k, hds, hj0, hj', hj2, hn', ?_⟩
      obtain ⟨hc, hhead⟩ := hcr
      match src, hhead with
      | _ :: src, rfl => rw [hc]; exact Breaks.cr x.toNat hb
    · -- a line break
      obtain ⟨ds, k, hds, hj0, hj', hj2, hn', hb⟩ := base64Check_sound src 0 n j h hj hrest
      refine ⟨ds, k, hds, hj0, hj', hj2, hn', ?_⟩
      rw [hlf]
      exact Breaks.lf x.toNat hb
    · -- a character
      obtain ⟨j₁, hsig, h⟩ := Option.bind_eq_some_iff.mp h
      have hx0 : x = 0 := not_not.mp hx
      rw [hx0, hzero, List.replicate_zero, List.nil_append]
      rcases base64Significant_eq_some.mp hsig with ⟨hc, hj₁, hle⟩ | ⟨hj0, hj₁, d, hd, hc⟩
      · obtain ⟨ds, k, hds, hnil, hj', hj2, hn', hb⟩ := base64Check_sound src 0 (n + 1) j₁ h hle hrest
        have hempty : ds = [] := hnil (by omega)
        rw [hempty, List.map_nil, List.nil_append, hzero, List.replicate_zero, List.nil_append] at hb
        rw [hempty, List.length_nil] at hn'
        refine ⟨[], k + 1, by simp, fun _ => rfl, by omega, hj2, by simp; omega, ?_⟩
        rw [hc]
        exact Breaks.char 61 hb
      · obtain ⟨ds, k, hds, hnil, hj', hj2, hn', hb⟩ := base64Check_sound src 0 (n + 1) j₁ h (by omega) hrest
        refine ⟨d :: ds, k, ?_, fun hne => absurd hj0 hne, by omega, hj2, by rw [List.length_cons]; omega, ?_⟩
        · simpa using ⟨hd, hds⟩
        · rw [← hc]
          exact Breaks.char _ hb

theorem base64Check_complete {cs src : List UInt8} (h : Breaks cs src) : ∀ (n j k : ℕ) (ds : List ℕ),
    cs = ds.map char ++ List.replicate k 61 → (∀ d ∈ ds, d < 64) → (j ≠ 0 → ds = []) → j + k ≤ 2 →
      base64Check 0 n j src = some (n + ds.length + k, j + k) := by
  induction h with
  | done m =>
    intro n j k ds hcs hds hj0 hjk
    have hlen := congrArg List.length hcs
    rw [List.length_nil, List.length_append, List.length_map, List.length_replicate] at hlen
    obtain ⟨y, hspaces⟩ := base64Check_spaces 0 n j m []
    rw [List.append_nil] at hspaces
    rw [hspaces, base64Check, show ds.length = 0 by omega, show k = 0 by omega]
    rfl
  | char c h ih =>
    intro n j k ds hcs hds hj0 hjk
    match ds, k, hcs with
    | d :: ds, k, hcs =>
      rw [List.map_cons, List.cons_append, List.cons.injEq] at hcs
      have hd := hds d (by simp)
      have hj : j = 0 := by
        by_contra hne
        cases hj0 hne
      obtain ⟨h10, h13, h32, -⟩ := char_ne hd
      have hsig : base64Significant c j = some 0 := base64Significant_eq_some.mpr (.inr ⟨hj, rfl, d, hd, hcs.1.symm⟩)
      rw [base64Check, hcs.1, if_neg h32, if_neg fun h => h13 h.1, if_neg h10, if_neg (not_not.mpr rfl), ← hcs.1, hsig,
        Option.bind_some, ih (n + 1) 0 k ds hcs.2 (fun e he => hds e (by simp [he])) (fun h => absurd rfl h)
          (by omega), List.length_cons, hj]
      congr 2
      omega
    | [], k + 1, hcs =>
      rw [List.map_nil, List.nil_append, List.replicate_succ, List.cons.injEq] at hcs
      have hsig : base64Significant c j = some (j + 1) := base64Significant_eq_some.mpr (.inl ⟨hcs.1, rfl, by omega⟩)
      rw [base64Check, hsig, hcs.1, if_neg (by decide), if_neg (fun h => absurd h.1 (by decide)), if_neg (by decide),
        if_neg (not_not.mpr rfl), Option.bind_some,
        ih (n + 1) (j + 1) k [] (by simpa using hcs.2) (by simp) (fun _ => rfl) (by omega)]
      congr 2
      · simp only [List.length_nil]
        omega
      · omega
  | lf m h ih =>
    intro n j k ds hcs hds hj0 hjk
    obtain ⟨y, hspaces⟩ := base64Check_spaces 0 n j m (10 :: _)
    rw [hspaces, base64Check, if_neg (by decide), if_neg fun h => absurd h.1 (by decide), if_pos rfl]
    exact ih n j k ds hcs hds hj0 hjk
  | cr m h ih =>
    intro n j k ds hcs hds hj0 hjk
    obtain ⟨y, hspaces⟩ := base64Check_spaces 0 n j m (13 :: 10 :: _)
    rw [hspaces, base64Check, if_neg (by decide), if_pos ⟨rfl, rfl⟩]
    exact ih n j k ds hcs hds hj0 hjk

theorem base64Check_of_lines {src : List UInt8} {ds : List ℕ} {j : ℕ} (h : Base64Lines src ds j) :
    base64Check 0 0 0 src = some (ds.length + j, j) := by
  have hcheck := base64Check_complete h.lines 0 0 j ds rfl h.digit (fun h => absurd rfl h) (by have := h.pad; omega)
  simpa using hcheck

theorem lines_of_base64Check {src : List UInt8} {n j : ℕ} (h : base64Check 0 0 0 src = some (n, j))
    (hsrc : src.length < 2 ^ 32) : ∃ ds, Base64Lines src ds j ∧ n = ds.length + j := by
  have hzero : (0 : UInt32).toNat = 0 := rfl
  obtain ⟨ds, k, hds, -, hj, hj2, hn, hb⟩ := base64Check_sound src 0 0 0 h (by omega) (by omega)
  rw [hzero, List.replicate_zero, List.nil_append] at hb
  have hk : k = j := by omega
  rw [hk] at hb hn
  exact ⟨ds, ⟨hds, hj2, hb⟩, by omega⟩

/-! ## The second pass -/

theorem foldlM_base64Put {cs src : List UInt8} (h : Breaks cs src) (s : Base64State) :
    src.foldlM base64Put s = cs.foldlM base64Put s := by
  have hskip : ∀ (k : ℕ) (t : List UInt8) (s : Base64State),
      (List.replicate k 32 ++ t).foldlM base64Put s = t.foldlM base64Put s := by
    intro k t s
    induction k with
    | zero => rfl
    | succ k ih => exact ih
  induction h generalizing s with
  | done k => simpa using hskip k [] s
  | char c h ih =>
    rw [List.foldlM_cons, List.foldlM_cons]
    congr 1
    funext s'
    exact ih s'
  | lf k h ih => rw [hskip, ← ih]; rfl
  | cr k h ih => rw [hskip, ← ih]; rfl

theorem foldlM_char {ds : List ℕ} (hds : ∀ d ∈ ds, d < 64) (k : ℕ) (s : Base64State) :
    (ds.map char ++ List.replicate k 61).foldlM base64Put s = (ds ++ List.replicate k 64).foldlM base64Feed s := by
  have hput : ∀ (d : ℕ) (s : Base64State), d < 64 → base64Put s (char d) = base64Feed s d := by
    intro d s hd
    obtain ⟨h10, h13, h32, -⟩ := char_ne hd
    rw [base64Put, if_neg (by simp [h10, h13, h32]), base64DecMap_char hd]
    rfl
  induction ds generalizing s with
  | nil =>
    induction k generalizing s with
    | zero => rfl
    | succ k ih =>
      rw [List.map_nil, List.nil_append, List.nil_append, List.replicate_succ, List.replicate_succ, List.foldlM_cons,
        List.foldlM_cons]
      congr 1
      funext s'
      exact ih s'
  | cons d ds ih =>
    rw [List.map_cons, List.cons_append, List.cons_append, List.foldlM_cons, List.foldlM_cons,
      hput d s (hds d (by simp))]
    congr 1
    funext s'
    exact ih (fun e he => hds e (by simp [he])) s'

/-- The bytes that are written for some numbers and `k` times `=`: those of the whole groups. -/
def base64Bytes (ds : List ℕ) (k : ℕ) : List UInt8 := (octets (ds.take (4 * ((ds.length + k) / 4)))).map UInt8.ofNat

theorem toNat_base64Word (x : UInt32) (d : ℕ) : (base64Word x d).toNat = x.toNat * 64 % 2 ^ 32 + d % 64 := by
  have hand : d &&& 0x3F = d % 64 := Nat.and_two_pow_sub_one_eq_mod d 6
  have hshift : (x <<< 6).toNat = x.toNat % 2 ^ 26 * 2 ^ 6 := by
    rw [UInt32.toNat_shiftLeft, Nat.shiftLeft_eq]
    show x.toNat * 2 ^ 6 % 2 ^ 32 = _
    omega
  rw [base64Word, UInt32.toNat_or, hand, hshift, UInt32.toNat_ofNat', Nat.mod_eq_of_lt (by omega : d % 64 < 2 ^ 32),
    ← Nat.shiftLeft_eq, ← Nat.shiftLeft_add_eq_or_of_lt (by omega : d % 64 < 2 ^ 6), Nat.shiftLeft_eq]
  omega

theorem toUInt8_shift {x : UInt32} {n : ℕ} (k : ℕ) (hk : k < 32) (h : x.toNat / 2 ^ k % 256 = n % 256) :
    (x >>> UInt32.ofNat k).toUInt8 = UInt8.ofNat n := by
  apply UInt8.toNat_inj.mp
  rw [UInt32.toNat_toUInt8, UInt32.toNat_shiftRight, UInt32.toNat_ofNat', Nat.mod_eq_of_lt (by omega : k < 2 ^ 32),
    Nat.mod_eq_of_lt hk, Nat.shiftRight_eq_div_pow, UInt8.toNat_ofNat']
  exact h

theorem foldlM_digits : ∀ (ds : List ℕ) (n : ℕ) (j x : UInt32) (p : ℕ) (dst : List UInt8), (∀ d ∈ ds, d < 64) →
    n + ds.length < 4 →
    ds.foldlM base64Feed ⟨j, n, x, p, dst⟩ = some ⟨j, n + ds.length, ds.foldl base64Word x, p, dst⟩
  | [], n, j, x, p, dst, _, _ => rfl
  | d :: ds, n, j, x, p, dst, hds, hn => by
    have hno : d ≠ 64 := by have := hds d (by simp); omega
    rw [List.length_cons] at hn
    have hfirst : base64Feed ⟨j, n, x, p, dst⟩ d = some ⟨j, n + 1, base64Word x d, p, dst⟩ := by
      simp [base64Feed, hno, show n ≠ 3 by omega]
    rw [List.foldlM_cons, hfirst, List.length_cons, List.foldl_cons, Nat.add_comm ds.length, ← Nat.add_assoc]
    exact foldlM_digits ds (n + 1) j (base64Word x d) p dst (fun e he => hds e (by simp [he])) (by omega)

theorem base64Feed_three {d : ℕ} (hd : d < 64) (x : UInt32) (p : ℕ) (dst : List UInt8) :
    base64Feed ⟨3, 3, x, p, dst⟩ d =
    (copyIn dst p [(base64Word x d >>> 16).toUInt8, (base64Word x d >>> 8).toUInt8, (base64Word x d).toUInt8]).map
      fun dst => ⟨3, 0, base64Word x d, p + 3, dst⟩ := by
  have hno : d ≠ 64 := by omega
  simp [base64Feed, hno]

theorem base64Feed_two (x : UInt32) (p : ℕ) (dst : List UInt8) : base64Feed ⟨3, 3, x, p, dst⟩ 64 =
    (copyIn dst p [(base64Word x 64 >>> 16).toUInt8, (base64Word x 64 >>> 8).toUInt8]).map
      fun dst => ⟨2, 0, base64Word x 64, p + 2, dst⟩ := by
  have h1 : (3 : UInt32) - 1 = 2 := rfl
  simp [base64Feed, h1]

theorem base64Feed_one (x : UInt32) (p : ℕ) (dst : List UInt8) : base64Feed ⟨2, 3, x, p, dst⟩ 64 =
    (copyIn dst p [(base64Word x 64 >>> 16).toUInt8]).map fun dst => ⟨1, 0, base64Word x 64, p + 1, dst⟩ := by
  have h1 : (2 : UInt32) - 1 = 1 := rfl
  simp [base64Feed, h1]

theorem foldlM_digits_append (ds es : List ℕ) (x : UInt32) (p : ℕ) (dst : List UInt8) (hds : ∀ d ∈ ds, d < 64)
    (hn : ds.length < 4) :
    (ds ++ es).foldlM base64Feed ⟨3, 0, x, p, dst⟩ =
      es.foldlM base64Feed ⟨3, ds.length, ds.foldl base64Word x, p, dst⟩ := by
  rw [List.foldlM_append, foldlM_digits ds 0 3 x p dst hds (by omega), Nat.zero_add]
  rfl

theorem feed_four {a b c d : ℕ} (ha : a < 64) (hb : b < 64) (hc : c < 64) (hd : d < 64) (x : UInt32) (p : ℕ)
    (dst : List UInt8) :
    ∃ x', [a, b, c, d].foldlM base64Feed ⟨3, 0, x, p, dst⟩ =
      (copyIn dst p ((octets [a, b, c, d]).map UInt8.ofNat)).map fun dst => ⟨3, 0, x', p + 3, dst⟩ := by
  have hdigits := foldlM_digits_append [a, b, c] [d] x p dst (by simp [ha, hb, hc]) (by simp)
  have hx : (base64Word ([a, b, c].foldl base64Word x) d).toNat % 2 ^ 24 = a * 262144 + b * 4096 + c * 64 + d := by
    simp only [List.foldl_cons, List.foldl_nil, toNat_base64Word]
    omega
  have hlast : [d].foldlM base64Feed ⟨3, 3, [a, b, c].foldl base64Word x, p, dst⟩ = _ :=
    (bind_pure _).trans (base64Feed_three hd ([a, b, c].foldl base64Word x) p dst)
  generalize [a, b, c].foldl base64Word x = y at hdigits hx hlast
  have h16 : (base64Word y d >>> 16).toUInt8 = UInt8.ofNat (a * 4 + b / 16) := toUInt8_shift 16 (by omega) (by omega)
  have h8 : (base64Word y d >>> 8).toUInt8 = UInt8.ofNat (b % 16 * 16 + c / 4) := toUInt8_shift 8 (by omega) (by omega)
  have h0 : (base64Word y d).toUInt8 = UInt8.ofNat (c % 4 * 64 + d) := by
    apply UInt8.toNat_inj.mp
    rw [UInt32.toNat_toUInt8, UInt8.toNat_ofNat']
    omega
  refine ⟨base64Word y d, hdigits.trans (hlast.trans ?_)⟩
  rw [octets_four ha hb hc hd, h16, h8, h0]
  rfl

theorem feed_three {a b c : ℕ} (ha : a < 64) (hb : b < 64) (hc : c < 64) (x : UInt32) (p : ℕ) (dst : List UInt8) :
    ∃ x', [a, b, c, 64].foldlM base64Feed ⟨3, 0, x, p, dst⟩ =
      (copyIn dst p ((octets [a, b, c]).map UInt8.ofNat)).map fun dst => ⟨2, 0, x', p + 2, dst⟩ := by
  have hdigits := foldlM_digits_append [a, b, c] [64] x p dst (by simp [ha, hb, hc]) (by simp)
  have hx : (base64Word ([a, b, c].foldl base64Word x) 64).toNat % 2 ^ 24 = a * 262144 + b * 4096 + c * 64 := by
    simp only [List.foldl_cons, List.foldl_nil, toNat_base64Word]
    omega
  have hlast : [64].foldlM base64Feed ⟨3, 3, [a, b, c].foldl base64Word x, p, dst⟩ = _ :=
    (bind_pure _).trans (base64Feed_two ([a, b, c].foldl base64Word x) p dst)
  generalize [a, b, c].foldl base64Word x = y at hdigits hx hlast
  have h16 : (base64Word y 64 >>> 16).toUInt8 = UInt8.ofNat (a * 4 + b / 16) := toUInt8_shift 16 (by omega) (by omega)
  have h8 : (base64Word y 64 >>> 8).toUInt8 = UInt8.ofNat (b % 16 * 16 + c / 4) := toUInt8_shift 8 (by omega) (by omega)
  refine ⟨base64Word y 64, hdigits.trans (hlast.trans ?_)⟩
  rw [octets_three ha hb hc, h16, h8]
  rfl

theorem feed_two {a b : ℕ} (ha : a < 64) (hb : b < 64) (x : UInt32) (p : ℕ) (dst : List UInt8) :
    ∃ x', [a, b, 64, 64].foldlM base64Feed ⟨3, 0, x, p, dst⟩ =
      (copyIn dst p ((octets [a, b]).map UInt8.ofNat)).map fun dst => ⟨1, 0, x', p + 1, dst⟩ := by
  have hdigits := foldlM_digits_append [a, b] [64, 64] x p dst (by simp [ha, hb]) (by simp)
  have hpad : [64, 64].foldlM base64Feed ⟨3, 2, [a, b].foldl base64Word x, p, dst⟩ =
      base64Feed ⟨2, 3, base64Word ([a, b].foldl base64Word x) 64, p, dst⟩ 64 := by
    have hfirst (z : UInt32) : base64Feed ⟨3, 2, z, p, dst⟩ 64 = some ⟨2, 3, base64Word z 64, p, dst⟩ := by
      have h1 : (3 : UInt32) - 1 = 2 := rfl
      simp [base64Feed, h1]
    rw [List.foldlM_cons, hfirst]
    show [64].foldlM base64Feed _ = _
    exact bind_pure _
  have hx : (base64Word (base64Word ([a, b].foldl base64Word x) 64) 64).toNat % 2 ^ 24 = a * 262144 + b * 4096 := by
    simp only [List.foldl_cons, List.foldl_nil, toNat_base64Word]
    omega
  rw [base64Feed_one] at hpad
  generalize base64Word ([a, b].foldl base64Word x) 64 = y at hpad hx
  have h16 : (base64Word y 64 >>> 16).toUInt8 = UInt8.ofNat (a * 4 + b / 16) := toUInt8_shift 16 (by omega) (by omega)
  refine ⟨base64Word y 64, hdigits.trans (hpad.trans ?_)⟩
  rw [octets_two ha hb, h16]
  rfl

theorem feed_pads : ∀ (k n : ℕ) (j x : UInt32) (p : ℕ) (dst : List UInt8), n + k < 4 →
    ∃ s, (List.replicate k 64).foldlM base64Feed ⟨j, n, x, p, dst⟩ = some s ∧ s.p = p ∧ s.dst = dst
  | 0, n, j, x, p, dst, _ => ⟨_, rfl, rfl, rfl⟩
  | k + 1, n, j, x, p, dst, h => by
    have hfirst : base64Feed ⟨j, n, x, p, dst⟩ 64 = some ⟨j - 1, n + 1, base64Word x 64, p, dst⟩ := by
      simp [base64Feed, show n ≠ 3 by omega]
    rw [List.replicate_succ, List.foldlM_cons, hfirst]
    exact feed_pads k (n + 1) (j - 1) (base64Word x 64) p dst (by omega)

theorem feed_short {ds : List ℕ} {k : ℕ} (hds : ∀ d ∈ ds, d < 64) (h : ds.length + k < 4) (x : UInt32)
    (xs ys : List UInt8) :
    ∃ s, (ds ++ List.replicate k 64).foldlM base64Feed ⟨3, 0, x, xs.length, xs ++ ys⟩ = some s ∧
      s.p = xs.length + (base64Bytes ds k).length ∧
        s.dst = xs ++ base64Bytes ds k ++ ys.drop (base64Bytes ds k).length := by
  have hnone : base64Bytes ds k = [] := by
    rw [base64Bytes, Nat.div_eq_of_lt h, Nat.mul_zero, List.take_zero]
    rfl
  obtain ⟨s, hrun, hp, hdst⟩ := feed_pads k ds.length 3 (ds.foldl base64Word x) xs.length (xs ++ ys) h
  rw [← foldlM_digits_append ds _ x _ _ hds (by omega)] at hrun
  refine ⟨s, hrun, ?_, ?_⟩
  · rw [hp, hnone]; rfl
  · rw [hdst, hnone, List.append_nil]; rfl

theorem foldlM_base64Feed : ∀ (ds : List ℕ) (k : ℕ) (x : UInt32) (xs ys : List UInt8), (∀ d ∈ ds, d < 64) → k ≤ 2 →
    (base64Bytes ds k).length ≤ ys.length → ∃ s,
      (ds ++ List.replicate k 64).foldlM base64Feed ⟨3, 0, x, xs.length, xs ++ ys⟩ = some s ∧
      s.p = xs.length + (base64Bytes ds k).length ∧ s.dst = xs ++ base64Bytes ds k ++ ys.drop (base64Bytes ds k).length
  | a :: b :: c :: d :: ds, k, x, xs, ys, hds, hk, hfit => by
    have ha := hds a (by simp)
    have hb := hds b (by simp)
    have hc := hds c (by simp)
    have hd := hds d (by simp)
    have hbytes : base64Bytes (a :: b :: c :: d :: ds) k =
      (octets [a, b, c, d]).map UInt8.ofNat ++ base64Bytes ds k := by
      have hcount : 4 * (((a :: b :: c :: d :: ds).length + k) / 4) = 4 * ((ds.length + k) / 4) + 4 := by
        simp only [List.length_cons]
        omega
      rw [base64Bytes, hcount, List.take_succ_cons, List.take_succ_cons, List.take_succ_cons, List.take_succ_cons,
        octets_four ha hb hc hd, octets_four ha hb hc hd, base64Bytes]
      rfl
    have hthree : ((octets [a, b, c, d]).map UInt8.ofNat).length = 3 := by simp
    rw [hbytes] at hfit ⊢
    rw [List.length_append, hthree] at hfit
    obtain ⟨x', hgroup⟩ := feed_four ha hb hc hd x xs.length (xs ++ ys)
    rw [copyIn_append xs ys _ (by omega), Option.map_some, hthree] at hgroup
    obtain ⟨s, hrun, hp, hdst⟩ := foldlM_base64Feed ds k x' (xs ++ (octets [a, b, c, d]).map UInt8.ofNat) (ys.drop 3)
      (fun e he => hds e (by simp [he])) hk (by rw [List.length_drop]; omega)
    rw [List.length_append, hthree] at hrun hp
    refine ⟨s, ?_, ?_, ?_⟩
    · rw [show a :: b :: c :: d :: ds ++ List.replicate k 64 = [a, b, c, d] ++ (ds ++ List.replicate k 64) from rfl,
        List.foldlM_append, hgroup]
      exact hrun
    · rw [hp, List.length_append, hthree]
      omega
    · rw [hdst, List.length_append, hthree, List.drop_drop, List.append_assoc xs]
  | [], k, x, xs, ys, hds, hk, _ => feed_short hds (by rw [List.length_nil]; omega) x xs ys
  | [a], k, x, xs, ys, hds, hk, _ => feed_short hds (by rw [List.length_singleton]; omega) x xs ys
  | [a, b], k, x, xs, ys, hds, hk, hfit => by
    by_cases hshort : k < 2
    · exact feed_short hds (by simp only [List.length_cons, List.length_nil]; omega) x xs ys
    obtain rfl : k = 2 := by omega
    have ha := hds a (by simp)
    have hb := hds b (by simp)
    have hbytes : base64Bytes [a, b] 2 = (octets [a, b]).map UInt8.ofNat := by
      rw [base64Bytes, show ([a, b].length + 2) / 4 = 1 by simp]
      rfl
    have hone : ((octets [a, b]).map UInt8.ofNat).length = 1 := by simp
    rw [hbytes] at hfit ⊢
    obtain ⟨x', hgroup⟩ := feed_two ha hb x xs.length (xs ++ ys)
    rw [copyIn_append xs ys _ hfit, Option.map_some] at hgroup
    exact ⟨_, hgroup, by rw [hone], rfl⟩
  | [a, b, c], k, x, xs, ys, hds, hk, hfit => by
    by_cases hshort : k < 1
    · exact feed_short hds (by simp only [List.length_cons, List.length_nil]; omega) x xs ys
    have ha := hds a (by simp)
    have hb := hds b (by simp)
    have hc := hds c (by simp)
    have hbytes : base64Bytes [a, b, c] k = (octets [a, b, c]).map UInt8.ofNat := by
      rw [base64Bytes, show ([a, b, c].length + k) / 4 = 1 by simp only [List.length_cons, List.length_nil]; omega]
      rfl
    have htwo : ((octets [a, b, c]).map UInt8.ofNat).length = 2 := by simp
    rw [hbytes] at hfit ⊢
    obtain ⟨x', hgroup⟩ := feed_three ha hb hc x xs.length (xs ++ ys)
    rw [copyIn_append xs ys _ hfit, Option.map_some] at hgroup
    obtain ⟨s, hrun, hp, hdst⟩ := feed_pads (k - 1) 0 2 x' (xs.length + 2)
      (xs ++ (octets [a, b, c]).map UInt8.ofNat ++ ys.drop ((octets [a, b, c]).map UInt8.ofNat).length) (by omega)
    refine ⟨s, ?_, by rw [hp, htwo], hdst⟩
    have hsplit : [a, b, c] ++ List.replicate k 64 = [a, b, c, 64] ++ List.replicate (k - 1) 64 := by
      obtain ⟨m, rfl⟩ : ∃ m, k = m + 1 := ⟨k - 1, by omega⟩
      rfl
    rw [hsplit, List.foldlM_append, hgroup]
    exact hrun

/-- The size that is asked for is what is written, and a byte for every character behind the last whole group but its
`=`. -/
theorem length_base64Bytes (ds : List ℕ) {j : ℕ} (hj : j ≤ 2) :
    (base64Bytes ds j).length + ((ds.length + j) % 4 - j) = base64Size (ds.length + j) j := by
  have hand : (ds.length + j) &&& 0x7 = (ds.length + j) % 8 := Nat.and_two_pow_sub_one_eq_mod _ 3
  rw [base64Bytes, List.length_map, length_octets, List.length_take, base64Size, hand, Nat.shiftRight_eq_div_pow,
    Nat.shiftRight_eq_div_pow]
  rcases Nat.le_total (4 * ((ds.length + j) / 4)) ds.length with h | h
  · rw [Nat.min_eq_left h]
    omega
  · rw [Nat.min_eq_right h]
    omega

theorem mbedtlsBase64Decode_refused {src : List UInt8} (hsrc : src.length < 2 ^ 32) (h : ∀ ds j, ¬ Base64Lines src ds j)
    (dst : Option (List UInt8)) (dlen olen : ℕ) : mbedtlsBase64Decode dst dlen olen src =
      some ⟨base64InvalidCharacter, olen, dst⟩ := by
  unfold mbedtlsBase64Decode
  cases hcheck : base64Check 0 0 0 src with
  | none => rfl
  | some r =>
    obtain ⟨ds, hlines, -⟩ := lines_of_base64Check hcheck hsrc
    exact absurd hlines (h ds r.2)

theorem mbedtlsBase64Decode_small {src : List UInt8} {ds : List ℕ} {j : ℕ} (h : Base64Lines src ds j)
    {dst : Option (List UInt8)} {dlen : ℕ} (olen : ℕ) (hdst : dst = none ∨ dlen < base64Size (ds.length + j) j)
    (hn : ds.length + j ≠ 0) :
    mbedtlsBase64Decode dst dlen olen src = some ⟨base64BufferTooSmall, base64Size (ds.length + j) j, dst⟩ := by
  unfold mbedtlsBase64Decode
  rw [base64Check_of_lines h]
  dsimp only
  rw [if_neg hn]
  cases dst with
  | none => rfl
  | some buffer => exact if_pos (hdst.resolve_left (by simp))

theorem mbedtlsBase64Decode_eq {src buffer : List UInt8} {ds : List ℕ} {j dlen : ℕ} (h : Base64Lines src ds j)
    (olen : ℕ) (hfit : base64Size (ds.length + j) j ≤ dlen) (hdlen : dlen ≤ buffer.length) :
    mbedtlsBase64Decode (some buffer) dlen olen src =
      some ⟨0, (base64Bytes ds j).length, some (base64Bytes ds j ++ buffer.drop (base64Bytes ds j).length)⟩ := by
  have hlen := length_base64Bytes ds h.pad
  unfold mbedtlsBase64Decode
  rw [base64Check_of_lines h]
  dsimp only
  split_ifs with hn
  · have hnone : base64Bytes ds j = [] := by
      rw [base64Bytes, hn, Nat.zero_div, Nat.mul_zero, List.take_zero]
      rfl
    rw [hnone]
    rfl
  · omega
  · obtain ⟨s, hrun, hp, hdst⟩ := foldlM_base64Feed ds j 0 [] buffer h.digit h.pad (by omega)
    rw [foldlM_base64Put h.lines, foldlM_char h.digit]
    rw [List.length_nil, List.nil_append] at hrun
    rw [hrun, Option.map_some, hp, hdst, List.length_nil, Nat.zero_add, List.nil_append]

/-- **The decoder**, on texts below `2 ^ 32` bytes: one that is not in lines is refused, and of any other one the
bytes of the whole groups are written, if the buffer has room for the size that is asked for. -/
theorem mbedtlsBase64Decode_spec {src : List UInt8} (hsrc : src.length < 2 ^ 32) (buffer : List UInt8)
    (olen : ℕ) {dlen : ℕ} (hdlen : dlen ≤ buffer.length) :
    ((∀ ds j, ¬ Base64Lines src ds j) ∧
      mbedtlsBase64Decode (some buffer) dlen olen src = some ⟨base64InvalidCharacter, olen, some buffer⟩) ∨
    ∃ ds j, Base64Lines src ds j ∧ mbedtlsBase64Decode (some buffer) dlen olen src =
      if dlen < base64Size (ds.length + j) j then some ⟨base64BufferTooSmall, base64Size (ds.length + j) j, some buffer⟩
      else some ⟨0, (base64Bytes ds j).length, some (base64Bytes ds j ++ buffer.drop (base64Bytes ds j).length)⟩ := by
  by_cases h : ∃ ds j, Base64Lines src ds j
  · obtain ⟨ds, j, h⟩ := h
    refine .inr ⟨ds, j, h, ?_⟩
    split_ifs with hsmall
    · refine mbedtlsBase64Decode_small h olen (.inr hsmall) fun hn => ?_
      have hzero : base64Size 0 j = 0 := by simp [base64Size]
      rw [hn, hzero] at hsmall
      omega
    · exact mbedtlsBase64Decode_eq h olen (not_lt.mp hsmall) hdlen
  · have hno : ∀ ds j, ¬ Base64Lines src ds j := fun ds j hlines => h ⟨ds, j, hlines⟩
    exact .inl ⟨hno, mbedtlsBase64Decode_refused hsrc hno (some buffer) dlen olen⟩

theorem mbedtlsBase64Decode_spec_small :
    ((∀ ds j, ¬ Base64Lines (lit "QUJD") ds j) ∧ mbedtlsBase64Decode (some [0, 0]) 2 7 (lit "QUJD") =
      some ⟨base64InvalidCharacter, 7, some [0, 0]⟩) ∨
    ∃ ds j, Base64Lines (lit "QUJD") ds j ∧ mbedtlsBase64Decode (some [0, 0]) 2 7 (lit "QUJD") =
      if 2 < base64Size (ds.length + j) j then some ⟨base64BufferTooSmall, base64Size (ds.length + j) j, some [0, 0]⟩
      else some ⟨0, (base64Bytes ds j).length, some (base64Bytes ds j ++ [0, 0].drop (base64Bytes ds j).length)⟩ :=
  mbedtlsBase64Decode_spec (by decide +kernel) [0, 0] 7 (by decide)

theorem base64Lines_text {src t : List UInt8} (h : Breaks (text src) t) :
    Base64Lines t (sextets (src.map UInt8.toNat)) ((3 - src.length % 3) % 3) :=
  ⟨fun _ hd => sextets_lt hd, by omega, h⟩

theorem base64Bytes_text (src : List UInt8) :
    base64Bytes (sextets (src.map UInt8.toNat)) ((3 - src.length % 3) % 3) = src := by
  have hlen : (sextets (src.map UInt8.toNat)).length = (8 * src.length + 5) / 6 := by
    rw [length_sextets, List.length_map]
  have hall : (sextets (src.map UInt8.toNat)).length ≤
      4 * (((sextets (src.map UInt8.toNat)).length + (3 - src.length % 3) % 3) / 4) := by
    rw [hlen]
    rcases (by omega : src.length % 3 = 0 ∨ src.length % 3 = 1 ∨ src.length % 3 = 2) with h | h | h <;> rw [h] <;> omega
  have hbytes : ∀ x ∈ src.map UInt8.toNat, x < 256 := by
    simpa using fun c _ => c.toNat_lt
  rw [base64Bytes, List.take_of_length_le hall, octets_sextets hbytes, List.map_map]
  simp [Function.comp_def]

end Sarah
