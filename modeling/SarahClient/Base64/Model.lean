import SarahClient.Lib.BitGroups
import SarahClient.Lib.Block
import SarahClient.CInt

/-!
# Base 64 as `mbedtls_base64.c` computes it

A buffer is `none` for `NULL`; an access outside it is `none`. Sizes of texts are below `2 ^ 61`, so that no sum wraps.

* `mbedtlsBase64Encode`; `base64Check`, `base64Put`, `mbedtlsBase64Decode`: the two passes over a text;
* `luaBase64Encode`, `luaBase64Decode`: the Lua functions.
-/

namespace Sarah

open Block

/-- `base64_enc_map`. -/
def base64EncMap : List UInt8 := lit "ABCDEFGHIJKLMNOPQRSTUVWXYZabcdefghijklmnopqrstuvwxyz0123456789+/"

/-- `base64_dec_map`. -/
def base64DecMap : List ℕ :=
  [127, 127, 127, 127, 127, 127, 127, 127, 127, 127,
   127, 127, 127, 127, 127, 127, 127, 127, 127, 127,
   127, 127, 127, 127, 127, 127, 127, 127, 127, 127,
   127, 127, 127, 127, 127, 127, 127, 127, 127, 127,
   127, 127, 127, 62, 127, 127, 127, 63, 52, 53,
   54, 55, 56, 57, 58, 59, 60, 61, 127, 127,
   127, 64, 127, 127, 127, 0, 1, 2, 3, 4,
   5, 6, 7, 8, 9, 10, 11, 12, 13, 14,
   15, 16, 17, 18, 19, 20, 21, 22, 23, 24,
   25, 127, 127, 127, 127, 127, 127, 26, 27, 28,
   29, 30, 31, 32, 33, 34, 35, 36, 37, 38,
   39, 40, 41, 42, 43, 44, 45, 46, 47, 48,
   49, 50, 51, 127, 127, 127, 127, 127]

/-- `BASE64_SIZE_T_MAX`. -/
def base64SizeTMax : ℕ := 2 ^ 64 - 1

/-- `MBEDTLS_ERR_BASE64_BUFFER_TOO_SMALL`. -/
def base64BufferTooSmall : ℤ := -0x002A

/-- `MBEDTLS_ERR_BASE64_INVALID_CHARACTER`. -/
def base64InvalidCharacter : ℤ := -0x002C

/-- The result of a call, `*olen` and the memory at `dst`. -/
structure Base64Result where
  ret : ℤ
  olen : ℕ
  dst : Option (List UInt8)
  deriving DecidableEq

/-! ## Encoding -/

/-- `base64_enc_map[n & 0x3F]`. -/
def base64Char (n : ℕ) : UInt8 := base64EncMap.getD (n &&& 0x3F) 0

/-- The writes of `mbedtls_base64_encode` from the place `p` on: groups of three bytes, then what is left. -/
def base64EncodeLoop : List UInt8 → ℕ → List UInt8 → Option (ℕ × List UInt8)
  | [], p, dst => some (p, dst)
  | [c₁], p, dst =>
    (copyIn dst p
      [base64Char (c₁.toNat >>> 2), base64Char (((c₁.toNat &&& 3) <<< 4) + (0 >>> 4)), 61, 61]).map fun dst =>
        (p + 4, dst)
  | [c₁, c₂], p, dst =>
    (copyIn dst p [base64Char (c₁.toNat >>> 2), base64Char (((c₁.toNat &&& 3) <<< 4) + (c₂.toNat >>> 4)),
      base64Char ((c₂.toNat &&& 15) <<< 2), 61]).map fun dst => (p + 4, dst)
  | c₁ :: c₂ :: c₃ :: src, p, dst =>
    (copyIn dst p [base64Char (c₁.toNat >>> 2), base64Char (((c₁.toNat &&& 3) <<< 4) + (c₂.toNat >>> 4)),
      base64Char (((c₂.toNat &&& 15) <<< 2) + (c₃.toNat >>> 6)),
        base64Char c₃.toNat]).bind (base64EncodeLoop src (p + 4))

/-- `mbedtls_base64_encode`. -/
def mbedtlsBase64Encode (dst : Option (List UInt8)) (dlen : ℕ) (src : List UInt8) : Option Base64Result :=
  if src.length = 0 then some ⟨0, 0, dst⟩
  else
    let n := src.length / 3 + if src.length % 3 ≠ 0 then 1 else 0
    if n > (base64SizeTMax - 1) / 4 then some ⟨base64BufferTooSmall, base64SizeTMax, dst⟩
    else
      match dst with
      | none => some ⟨base64BufferTooSmall, n * 4 + 1, none⟩
      | some buffer =>
        if dlen < n * 4 + 1 then some ⟨base64BufferTooSmall, n * 4 + 1, some buffer⟩
        else
          (base64EncodeLoop src 0 buffer).bind fun s => (store s.2 s.1 0).map fun buffer => ⟨0, s.1, some buffer⟩

/-! ## Decoding -/

/-- The tests of a character that is no space and no part of a line break; the result is `j`. -/
def base64Significant (c : UInt8) (j : ℕ) : Option ℕ :=
  let j := if c = 61 then j + 1 else j
  if c = 61 ∧ j > 2 then none
  else if c.toNat > 127 ∨ base64DecMap.getD c.toNat 127 = 127 then none
  else if base64DecMap.getD c.toNat 127 < 64 ∧ j ≠ 0 then none
  else some j

/-- The first pass of `mbedtls_base64_decode`; `x` spaces have been skipped, modulo `2 ^ 32`. The result is `n` and
`j`. -/
def base64Check : UInt32 → ℕ → ℕ → List UInt8 → Option (ℕ × ℕ)
  | _, n, j, [] => some (n, j)
  | x, n, j, c :: src =>
    if c = 32 then base64Check (x + 1) n j src
    else if c = 13 ∧ src.head? = some 10 then base64Check 0 n j src
    else if c = 10 then base64Check 0 n j src
    else if x ≠ 0 then none
    else (base64Significant c j).bind fun j => base64Check 0 (n + 1) j src

/-- The variables of the second pass; `p` is the place in `dst`. -/
structure Base64State where
  j : UInt32
  n : ℕ
  x : UInt32
  p : ℕ
  dst : List UInt8

/-- `x = ( x << 6 ) | ( d & 0x3F )`. -/
def base64Word (x : UInt32) (d : ℕ) : UInt32 := (x <<< 6) ||| UInt32.ofNat (d &&& 0x3F)

/-- The entry of a character is put into `x`; every fourth one writes up to three bytes. -/
def base64Feed (s : Base64State) (d : ℕ) : Option Base64State :=
  let j := s.j - if d = 64 then 1 else 0
  let x := base64Word s.x d
  if s.n + 1 = 4 then
    let out := (if j > 0 then [(x >>> 16).toUInt8] else []) ++ (if j > 1 then [(x >>> 8).toUInt8] else []) ++
      if j > 2 then [x.toUInt8] else []
    (copyIn s.dst s.p out).map fun dst => ⟨j, 0, x, s.p + out.length, dst⟩
  else some { s with j := j, n := s.n + 1, x := x }

/-- One character of the second pass. -/
def base64Put (s : Base64State) (c : UInt8) : Option Base64State :=
  if c = 13 ∨ c = 10 ∨ c = 32 then some s else base64DecMap[c.toNat]?.bind (base64Feed s)

/-- The size of the output for `n` characters, of which `j` are `=`. -/
def base64Size (n j : ℕ) : ℕ := 6 * (n >>> 3) + ((6 * (n &&& 0x7) + 7) >>> 3) - j

/-- `mbedtls_base64_decode`; an error leaves `*olen`. -/
def mbedtlsBase64Decode (dst : Option (List UInt8)) (dlen olen : ℕ) (src : List UInt8) : Option Base64Result :=
  match base64Check 0 0 0 src with
  | none => some ⟨base64InvalidCharacter, olen, dst⟩
  | some (n, j) =>
    if n = 0 then some ⟨0, 0, dst⟩
    else
      match dst with
      | none => some ⟨base64BufferTooSmall, base64Size n j, none⟩
      | some buffer =>
        if dlen < base64Size n j then some ⟨base64BufferTooSmall, base64Size n j, some buffer⟩
        else (src.foldlM base64Put ⟨3, 0, 0, 0, buffer⟩).map fun s => ⟨0, s.p, some s.dst⟩

/-! ## The Lua functions -/

/-- `sarah_malloc`: fresh memory of the size, with anything in it, or `NULL`. -/
def freshBytes (malloc : ℕ → Option (ℕ → UInt8)) (n : ℕ) : Option (List UInt8) :=
  (malloc n).map fun f => (List.range n).map f

/-- What both functions do with `olen` and the second call: the string that is pushed, or nil. -/
def luaBase64 (malloc : ℕ → Option (ℕ → UInt8)) (olen : ℕ) (call : List UInt8 → Option Base64Result) :
    Option (Option (List UInt8)) :=
  match freshBytes malloc ((olen + 1) % 2 ^ 64) with
  | none => some none
  | some buffer =>
    (store buffer olen 0).bind fun buffer => (call buffer).map fun r => if r.ret = 0 then r.dst.map cstr else none

/-- `lua_base64_encode`. -/
def luaBase64Encode (malloc : ℕ → Option (ℕ → UInt8)) (str : List UInt8) : Option (Option (List UInt8)) :=
  (mbedtlsBase64Encode none 0 (cstr str)).bind fun first =>
    luaBase64 malloc first.olen fun buffer => mbedtlsBase64Encode (some buffer) first.olen (cstr str)

/-- `lua_base64_decode`; `olen` is what the variable has before the first call. -/
def luaBase64Decode (malloc : ℕ → Option (ℕ → UInt8)) (olen : ℕ) (str : List UInt8) : Option (Option (List UInt8)) :=
  (mbedtlsBase64Decode none 0 olen (cstr str)).bind fun first =>
    luaBase64 malloc first.olen fun buffer => mbedtlsBase64Decode (some buffer) first.olen first.olen (cstr str)

end Sarah
