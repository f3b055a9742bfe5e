import SarahClient.Lib.Block
import SarahClient.Lib.SecureHash
import SarahClient.Md5.Model

/-!
# SHA-1, SHA-256 and SHA-512 as the `mbedtls` files compute them

`w` is the width of a word, 32 or 64 bits; a block has sixteen words. An access outside the buffer of a context is
`none`.

* `getUintBE`, `putUintBE`: the macros for words, most significant byte first;
* `mbedtlsInternalSha1Process`: one block in the five registers `A` to `E`, with sixteen words of the schedule;
* `sha256Process`, `sha512Process`: one block in the eight registers, with the whole schedule;
* `ShaContext`, `shaUpdate`, `shaFinish`: the context and its functions, and those of each hash under its name;
* `luaSha1`, `luaSha256`, `luaSha512`: the Lua functions.
-/

namespace Sarah

open SecureHash Block BlockHash

/-! ## Bytes and words -/

/-- A shifted byte and those behind it. -/
def orBytes (w : ℕ) : List UInt8 → BitVec w
  | [] => 0
  | b :: bs => (BitVec.ofNat w b.toNat <<< (8 * bs.length)) ||| orBytes w bs

/-- `GET_UINT32_BE`, `GET_UINT64_BE`. -/
def getUintBE (w : ℕ) (b : List UInt8) (i : ℕ) : BitVec w := orBytes w ((b.drop i).take (w / 8))

/-- `PUT_UINT32_BE`, `PUT_UINT64_BE`: the bytes that are written. -/
def putUintBE {w : ℕ} (n : BitVec w) : List UInt8 :=
  (List.range (w / 8)).map fun k => UInt8.ofNat (n >>> (w - 8 - 8 * k)).toNat

/-! ## SHA-1 -/

/-- `S(x,n)`. -/
def sha1S (x : BitVec 32) (n : ℕ) : BitVec 32 := (x <<< n) ||| ((x &&& 0xFFFFFFFF) >>> (32 - n))

/-- `R(t)` on the sixteen words. -/
def sha1R (W : List (BitVec 32)) (t : ℕ) : List (BitVec 32) :=
  let temp := W.getD ((t - 3) % 16) 0 ^^^ W.getD ((t - 8) % 16) 0 ^^^ W.getD ((t - 14) % 16) 0 ^^^ W.getD (t % 16) 0
  W.set (t % 16) (sha1S temp 1)

/-- `F` in line `t`. -/
def sha1LineF (t : ℕ) (x y z : BitVec 32) : BitVec 32 :=
  if t < 20 then z ^^^ (x &&& (y ^^^ z))
  else if t < 40 then x ^^^ y ^^^ z
  else if t < 60 then (x &&& y) ||| (z &&& (x ||| y))
  else x ^^^ y ^^^ z

/-- `K` in line `t`. -/
def sha1LineK (t : ℕ) : BitVec 32 :=
  if t < 20 then 0x5A827999 else if t < 40 then 0x6ED9EBA1 else if t < 60 then 0x8F1BBCDC else 0xCA62C1D6

/-- `P(a,b,c,d,e,x)` in line `t`, where the registers `A` to `E` are named from the one `t` places before `A` on. -/
def sha1P (t : ℕ) (A : List (BitVec 32)) (x : BitVec 32) : List (BitVec 32) :=
  let reg := fun j => (j + 4 * t) % 5
  let r := fun j => A.getD (reg j) 0
  let A := A.set (reg 4) (r 4 + (sha1S (r 0) 5 + sha1LineF t (r 1) (r 2) (r 3) + sha1LineK t + x))
  A.set (reg 1) (sha1S (r 1) 30)

/-- Line `t`: the next word, and the registers. -/
def sha1Line (s : List (BitVec 32) × List (BitVec 32)) (t : ℕ) : List (BitVec 32) × List (BitVec 32) :=
  let W := if t < 16 then s.1 else sha1R s.1 t
  (W, sha1P t s.2 (W.getD (t % 16) 0))

/-- `mbedtls_internal_sha1_process`. -/
def mbedtlsInternalSha1Process (state : Regs5 32) (data : List UInt8) : Regs5 32 :=
  let W := (List.range 16).map fun i => getUintBE 32 data (4 * i)
  let A := ((List.range 80).foldl sha1Line (W, state.toList)).2
  state.add ⟨A.getD 0 0, A.getD 1 0, A.getD 2 0, A.getD 3 0, A.getD 4 0⟩

/-! ## SHA-256 and SHA-512 -/

/-- `SHR`, and the places of `S0`, `S1`, `S2` and `S3`. -/
structure ShaMacros (w : ℕ) where
  shr : BitVec w → ℕ → BitVec w
  s0 : ℕ × ℕ × ℕ
  s1 : ℕ × ℕ × ℕ
  s2 : ℕ × ℕ × ℕ
  s3 : ℕ × ℕ × ℕ

/-- The macros of `mbedtls_sha256.c`. -/
def sha256Macros : ShaMacros 32 :=
  ⟨fun x n => (x &&& 0xFFFFFFFF) >>> n, (7, 18, 3), (17, 19, 10), (2, 13, 22), (6, 11, 25)⟩

/-- The macros of `mbedtls_sha512.c`. -/
def sha512Macros : ShaMacros 64 := ⟨fun x n => x >>> n, (1, 8, 7), (19, 61, 6), (28, 34, 39), (14, 18, 41)⟩

/-- `K` of `mbedtls_sha256.c`. -/
def sha256K : List (BitVec 32) :=
  [0x428A2F98, 0x71374491, 0xB5C0FBCF, 0xE9B5DBA5, 0x3956C25B, 0x59F111F1, 0x923F82A4, 0xAB1C5ED5,
   0xD807AA98, 0x12835B01, 0x243185BE, 0x550C7DC3, 0x72BE5D74, 0x80DEB1FE, 0x9BDC06A7, 0xC19BF174,
   0xE49B69C1, 0xEFBE4786, 0x0FC19DC6, 0x240CA1CC, 0x2DE92C6F, 0x4A7484AA, 0x5CB0A9DC, 0x76F988DA,
   0x983E5152, 0xA831C66D, 0xB00327C8, 0xBF597FC7, 0xC6E00BF3, 0xD5A79147, 0x06CA6351, 0x14292967,
   0x27B70A85, 0x2E1B2138, 0x4D2C6DFC, 0x53380D13, 0x650A7354, 0x766A0ABB, 0x81C2C92E, 0x92722C85,
   0xA2BFE8A1, 0xA81A664B, 0xC24B8B70, 0xC76C51A3, 0xD192E819, 0xD6990624, 0xF40E3585, 0x106AA070,
   0x19A4C116, 0x1E376C08, 0x2748774C, 0x34B0BCB5, 0x391C0CB3, 0x4ED8AA4A, 0x5B9CCA4F, 0x682E6FF3,
   0x748F82EE, 0x78A5636F, 0x84C87814, 0x8CC70208, 0x90BEFFFA, 0xA4506CEB, 0xBEF9A3F7, 0xC67178F2]

/-- `K` of `mbedtls_sha512.c`. -/
def sha512K : List (BitVec 64) :=
  [0x428A2F98D728AE22, 0x7137449123EF65CD, 0xB5C0FBCFEC4D3B2F, 0xE9B5DBA58189DBBC, 0x3956C25BF348B538,
   0x59F111F1B605D019, 0x923F82A4AF194F9B, 0xAB1C5ED5DA6D8118, 0xD807AA98A3030242, 0x12835B0145706FBE,
   0x243185BE4EE4B28C, 0x550C7DC3D5FFB4E2, 0x72BE5D74F27B896F, 0x80DEB1FE3B1696B1, 0x9BDC06A725C71235,
   0xC19BF174CF692694, 0xE49B69C19EF14AD2, 0xEFBE4786384F25E3, 0x0FC19DC68B8CD5B5, 0x240CA1CC77AC9C65,
   0x2DE92C6F592B0275, 0x4A7484AA6EA6E483, 0x5CB0A9DCBD41FBD4, 0x76F988DA831153B5, 0x983E5152EE66DFAB,
   0xA831C66D2DB43210, 0xB00327C898FB213F, 0xBF597FC7BEEF0EE4, 0xC6E00BF33DA88FC2, 0xD5A79147930AA725,
   0x06CA6351E003826F, 0x142929670A0E6E70, 0x27B70A8546D22FFC, 0x2E1B21385C26C926, 0x4D2C6DFC5AC42AED,
   0x53380D139D95B3DF, 0x650A73548BAF63DE, 0x766A0ABB3C77B2A8, 0x81C2C92E47EDAEE6, 0x92722C851482353B,
   0xA2BFE8A14CF10364, 0xA81A664BBC423001, 0xC24B8B70D0F89791, 0xC76C51A30654BE30, 0xD192E819D6EF5218,
   0xD69906245565A910, 0xF40E35855771202A, 0x106AA07032BBD1B8, 0x19A4C116B8D2D0C8, 0x1E376C085141AB53,
   0x2748774CDF8EEB99, 0x34B0BCB5E19B48A8, 0x391C0CB3C5C95A63, 0x4ED8AA4AE3418ACB, 0x5B9CCA4F7763E373,
   0x682E6FF3D6B2B8A3, 0x748F82EE5DEFB2FC, 0x78A5636F43172F60, 0x84C87814A1F0AB72, 0x8CC702081A6439EC,
   0x90BEFFFA23631E28, 0xA4506CEBDE82BDE9, 0xBEF9A3F7B2C67915, 0xC67178F2E372532B, 0xCA273ECEEA26619C,
   0xD186B8C721C0C207, 0xEADA7DD6CDE0EB1E, 0xF57D4F7FEE6ED178, 0x06F067AA72176FBA, 0x0A637DC5A2C898A6,
   0x113F9804BEF90DAE, 0x1B710B35131C471B, 0x28DB77F523047D84, 0x32CAAB7B40C72493, 0x3C9EBE0A15C9BEBC,
   0x431D67C49C100D4C, 0x4CC5D4BECB3E42B6, 0x597F299CFC657E2A, 0x5FCB6FAB3AD6FAEC, 0x6C44198C4A475817]

section Sha2

variable {w : ℕ} (m : ShaMacros w) (K : List (BitVec w))

/-- `ROTR`. -/
def shaRotr (x : BitVec w) (n : ℕ) : BitVec w := m.shr x n ||| (x <<< (w - n))

/-- `S0` and `S1` with their places. -/
def shaS01 (r : ℕ × ℕ × ℕ) (x : BitVec w) : BitVec w := shaRotr m x r.1 ^^^ shaRotr m x r.2.1 ^^^ m.shr x r.2.2

/-- `S2` and `S3` with their places. -/
def shaS23 (r : ℕ × ℕ × ℕ) (x : BitVec w) : BitVec w := shaRotr m x r.1 ^^^ shaRotr m x r.2.1 ^^^ shaRotr m x r.2.2

/-- `F0`. -/
def shaF0 (x y z : BitVec w) : BitVec w := (x &&& y) ||| (z &&& (x ||| y))

/-- `F1`. -/
def shaF1 (x y z : BitVec w) : BitVec w := z ^^^ (x &&& (y ^^^ z))

/-- `W[t]` from the words before it. -/
def shaR (W : List (BitVec w)) (t : ℕ) : BitVec w :=
  shaS01 m m.s1 (W.getD (t - 2) 0) + W.getD (t - 7) 0 + shaS01 m m.s0 (W.getD (t - 15) 0) + W.getD (t - 16) 0

/-- `P(a,b,c,d,e,f,g,h,x,K)` in line `t`, where the registers are named from the one `t` places before the first on. -/
def shaP (t : ℕ) (A : List (BitVec w)) (x k : BitVec w) : List (BitVec w) :=
  let reg := fun j => (j + 7 * t) % 8
  let r := fun j => A.getD (reg j) 0
  let temp1 := r 7 + shaS23 m m.s3 (r 4) + shaF1 (r 4) (r 5) (r 6) + k + x
  let temp2 := shaS23 m m.s2 (r 0) + shaF0 (r 0) (r 1) (r 2)
  let A := A.set (reg 3) (r 3 + temp1)
  A.set (reg 7) (temp1 + temp2)

/-- A line of `mbedtls_sha256.c`, which makes its word of the schedule. -/
def sha256Line (s : List (BitVec w) × List (BitVec w)) (t : ℕ) : List (BitVec w) × List (BitVec w) :=
  let W := if t < 16 then s.1 else s.1 ++ [shaR m s.1 t]
  (W, shaP m t s.2 (W.getD t 0) (K.getD t 0))

/-- The registers added to the state. -/
def shaAdd (state : Regs8 w) (A : List (BitVec w)) : Regs8 w :=
  state.add ⟨A.getD 0 0, A.getD 1 0, A.getD 2 0, A.getD 3 0, A.getD 4 0, A.getD 5 0, A.getD 6 0, A.getD 7 0⟩

end Sha2

/-- `mbedtls_internal_sha256_process`. -/
def mbedtlsInternalSha256Process (state : Regs8 32) (data : List UInt8) : Regs8 32 :=
  let W := (List.range 16).map fun i => getUintBE 32 data (4 * i)
  shaAdd state ((List.range 64).foldl (sha256Line sha256Macros sha256K) (W, state.toList)).2

/-- `mbedtls_internal_sha512_process`, which makes the schedule first. -/
def mbedtlsInternalSha512Process (state : Regs8 64) (data : List UInt8) : Regs8 64 :=
  let W := (List.range 16).map fun i => getUintBE 64 data (8 * i)
  let W := (List.range 64).foldl (fun W i => W ++ [shaR sha512Macros W (16 + i)]) W
  shaAdd state ((List.range 80).foldl (fun A t => shaP sha512Macros t A (W.getD t 0) (sha512K.getD t 0)) state.toList)

/-! ## Contexts -/

/-- A context; `total` counts bytes in two words, and `buffer` has the bytes of a block. -/
structure ShaContext (w : ℕ) (S : Type) where
  total0 : BitVec w
  total1 : BitVec w
  state : S
  buffer : List UInt8

section Context

variable {w : ℕ} {S : Type} (process : S → List UInt8 → S)

/-- The bytes in the buffer. -/
def ShaContext.left (ctx : ShaContext w S) : ℕ := (ctx.total0 &&& BitVec.ofNat w (2 * w - 1)).toNat

/-- A context is set up. -/
def shaStarts (ctx : ShaContext w S) (state : S) : ShaContext w S :=
  { ctx with total0 := 0, total1 := 0, state := state }

/-- Add `ilen` to the count, with the carry of the low word; of `ilen` only the low word counts. -/
def shaAddLength (ctx : ShaContext w S) (ilen : ℕ) : ShaContext w S :=
  let total0 := ctx.total0 + BitVec.ofNat w ilen
  { ctx with total0 := total0, total1 := if total0 < BitVec.ofNat w ilen then ctx.total1 + 1 else ctx.total1 }

/-- The whole blocks of `input`, and the copy of what is left. -/
def shaBlocks (ctx : ShaContext w S) (left : ℕ) (input : List UInt8) : Option (ShaContext w S) :=
  let ctx := { ctx with state := absorb (2 * w) process (input.length / (2 * w)) ctx.state input }
  let input := rest (2 * w) input
  if input = [] then some ctx else (copyIn ctx.buffer left input).map fun buffer => { ctx with buffer := buffer }

/-- `mbedtls_sha1_update_ret`, `mbedtls_sha256_update_ret`, `mbedtls_sha512_update_ret`. -/
def shaUpdate (ctx : ShaContext w S) (input : List UInt8) : Option (ShaContext w S) :=
  if input = [] then some ctx
  else
    let left := ctx.left
    let fill := 2 * w - left
    let ctx := shaAddLength ctx input.length
    if left ≠ 0 ∧ fill ≤ input.length then
      (copyIn ctx.buffer left (input.take fill)).bind fun buffer =>
        shaBlocks process { ctx with state := process ctx.state buffer, buffer := buffer } 0 (input.drop fill)
    else shaBlocks process ctx left input

/-- The state after the padding, in `mbedtls_sha1_finish_ret`, `mbedtls_sha256_finish_ret`,
`mbedtls_sha512_finish_ret`. -/
def shaFinish (ctx : ShaContext w S) : Option S :=
  let used := ctx.left
  let size := 2 * w - w / 4
  (copyIn ctx.buffer used [0x80]).bind fun buffer =>
    let used := used + 1
    (if used ≤ size then (fill buffer used (size - used) 0).map fun buffer => (ctx.state, buffer)
      else
        (fill buffer used (2 * w - used) 0).bind fun buffer =>
          (fill buffer 0 size 0).map fun cleared => (process ctx.state buffer, cleared)).bind fun s =>
      let high := (ctx.total0 >>> (w - 3)) ||| (ctx.total1 <<< 3)
      let low := ctx.total0 <<< 3
      (copyIn s.2 size (putUintBE high)).bind fun buffer =>
        (copyIn buffer (size + w / 8) (putUintBE low)).map fun buffer => process s.1 buffer

/-- A context is set up, updated with some pieces and finished. -/
def shaStream (start : S) (pieces : List (List UInt8)) (ctx : ShaContext w S) : Option S :=
  (pieces.foldlM (shaUpdate process) (shaStarts ctx start)).bind (shaFinish process)

end Context

/-- The words of the state that are put into the output. -/
def shaOutput {w : ℕ} (state : List (BitVec w)) : List UInt8 := state.flatMap putUintBE

/-- A context after `memset( ctx, 0, sizeof )`, with any state. -/
def shaInit (w : ℕ) {S : Type} (state : S) : ShaContext w S := ⟨0, 0, state, List.replicate (2 * w) 0⟩

/-! ## The three hashes -/

/-- The state in `mbedtls_sha1_starts_ret`. -/
def sha1State : Regs5 32 := ⟨0x67452301, 0xEFCDAB89, 0x98BADCFE, 0x10325476, 0xC3D2E1F0⟩

/-- The state in `mbedtls_sha256_starts_ret`. -/
def sha256State (is224 : Bool) : Regs8 32 :=
  if is224 then ⟨0xC1059ED8, 0x367CD507, 0x3070DD17, 0xF70E5939, 0xFFC00B31, 0x68581511, 0x64F98FA7, 0xBEFA4FA4⟩
  else ⟨0x6A09E667, 0xBB67AE85, 0x3C6EF372, 0xA54FF53A, 0x510E527F, 0x9B05688C, 0x1F83D9AB, 0x5BE0CD19⟩

/-- The state in `mbedtls_sha512_starts_ret`. -/
def sha512State (is384 : Bool) : Regs8 64 :=
  if is384 then
    ⟨0xCBBB9D5DC1059ED8, 0x629A292A367CD507, 0x9159015A3070DD17, 0x152FECD8F70E5939, 0x67332667FFC00B31,
      0x8EB44A8768581511, 0xDB0C2E0D64F98FA7, 0x47B5481DBEFA4FA4⟩
  else
    ⟨0x6A09E667F3BCC908, 0xBB67AE8584CAA73B, 0x3C6EF372FE94F82B, 0xA54FF53A5F1D36F1, 0x510E527FADE682D1,
      0x9B05688C2B3E6C1F, 0x1F83D9ABFB41BD6B, 0x5BE0CD19137E2179⟩

/-- What is written of the registers of a truncated hash. -/
def shaFirsts {w : ℕ} (short : Bool) (n : ℕ) (v : Regs8 w) : List (BitVec w) :=
  if short then v.toList.take n else v.toList

/-- SHA-1 of a text that comes in pieces. -/
def mbedtlsSha1 (pieces : List (List UInt8)) (ctx : ShaContext 32 (Regs5 32)) : Option (List UInt8) :=
  (shaStream mbedtlsInternalSha1Process sha1State pieces ctx).map fun v => shaOutput v.toList

/-- SHA-256, or SHA-224, of a text that comes in pieces. -/
def mbedtlsSha256 (is224 : Bool) (pieces : List (List UInt8)) (ctx : ShaContext 32 (Regs8 32)) : Option (List UInt8) :=
  (shaStream mbedtlsInternalSha256Process (sha256State is224) pieces ctx).map fun v => shaOutput (shaFirsts is224 7 v)

/-- SHA-512, or SHA-384, of a text that comes in pieces. -/
def mbedtlsSha512 (is384 : Bool) (pieces : List (List UInt8)) (ctx : ShaContext 64 (Regs8 64)) : Option (List UInt8) :=
  (shaStream mbedtlsInternalSha512Process (sha512State is384) pieces ctx).map fun v => shaOutput (shaFirsts is384 6 v)

/-! ## The Lua functions -/

/-- `sprintf(buffer + i * 2, "%02x", digest[i])` for each byte. -/
def hexText (digest : List UInt8) : List UInt8 :=
  digest.flatMap fun c => [hexDigit (c.toNat / 16), hexDigit (c.toNat % 16)]

/-- `lua_sha1`. -/
def luaSha1 (str : List UInt8) : Option (List UInt8) := (mbedtlsSha1 [cstr str] (shaInit 32 sha1State)).map hexText

/-- `lua_sha256`. -/
def luaSha256 (str : List UInt8) : Option (List UInt8) :=
  (mbedtlsSha256 false [cstr str] (shaInit 32 (sha256State false))).map hexText

/-- `lua_sha512`. -/
def luaSha512 (str : List UInt8) : Option (List UInt8) :=
  (mbedtlsSha512 false [cstr str] (shaInit 64 (sha512State false))).map hexText

end Sarah
