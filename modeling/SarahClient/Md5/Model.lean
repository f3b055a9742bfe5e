import SarahClient.CInt
import SarahClient.Lib.BlockHash

/-!
# MD5 as `cel_md5.c` computes it

* `md5Process`: the 64 steps on one block;
* `Md5`, `celMd5Init`, `md5Feed`, `celMd5Update`, `celMd5Final`: the context and its functions;
* `celMd5Print`: the digest as 32 hexadecimal characters;
* `md5`: the digest of a whole message, padded at once.
-/

namespace Sarah

open BlockHash

/-- The registers `abcd`. -/
structure Md5Regs where
  a : UInt32
  b : UInt32
  c : UInt32
  d : UInt32
  deriving DecidableEq

/-- `T_MASK`. -/
def tMask : UInt32 := 0xffffffff

/-- `ROTATE_LEFT`. -/
def rotateLeft (x n : UInt32) : UInt32 := (x <<< n) ||| (x >>> (32 - n))

/-- `F`. -/
def md5F (x y z : UInt32) : UInt32 := (x &&& y) ||| (~~~x &&& z)

/-- `G`. -/
def md5G (x y z : UInt32) : UInt32 := (x &&& z) ||| (y &&& ~~~z)

/-- `H`. -/
def md5H (x y z : UInt32) : UInt32 := x ^^^ y ^^^ z

/-- `I`. -/
def md5I (x y z : UInt32) : UInt32 := y ^^^ (x ||| ~~~z)

/-- The words `k`, `s` and `Ti` of the `SET` lines of round 1. -/
def md5Ops1 : List (ℕ × UInt32 × UInt32) :=
  [(0, 7, tMask ^^^ 0x28955b87), (1, 12, tMask ^^^ 0x173848a9), (2, 17, 0x242070db), (3, 22, tMask ^^^ 0x3e423111),
   (4, 7, tMask ^^^ 0x0a83f050), (5, 12, 0x4787c62a), (6, 17, tMask ^^^ 0x57cfb9ec), (7, 22, tMask ^^^ 0x02b96afe),
   (8, 7, 0x698098d8), (9, 12, tMask ^^^ 0x74bb0850), (10, 17, tMask ^^^ 0x0000a44e), (11, 22, tMask ^^^ 0x76a32841),
   (12, 7, 0x6b901122), (13, 12, tMask ^^^ 0x02678e6c), (14, 17, tMask ^^^ 0x5986bc71), (15, 22, 0x49b40821)]

/-- The `SET` lines of round 2. -/
def md5Ops2 : List (ℕ × UInt32 × UInt32) :=
  [(1, 5, tMask ^^^ 0x09e1da9d), (6, 9, tMask ^^^ 0x3fbf4cbf), (11, 14, 0x265e5a51), (0, 20, tMask ^^^ 0x16493855),
   (5, 5, tMask ^^^ 0x29d0efa2), (10, 9, 0x02441453), (15, 14, tMask ^^^ 0x275e197e), (4, 20, tMask ^^^ 0x182c0437),
   (9, 5, 0x21e1cde6), (14, 9, tMask ^^^ 0x3cc8f829), (3, 14, tMask ^^^ 0x0b2af278), (8, 20, 0x455a14ed),
   (13, 5, tMask ^^^ 0x561c16fa), (2, 9, tMask ^^^ 0x03105c07), (7, 14, 0x676f02d9), (12, 20, tMask ^^^ 0x72d5b375)]

/-- The `SET` lines of round 3. -/
def md5Ops3 : List (ℕ × UInt32 × UInt32) :=
  [(5, 4, tMask ^^^ 0x0005c6bd), (8, 11, tMask ^^^ 0x788e097e), (11, 16, 0x6d9d6122), (14, 23, tMask ^^^ 0x021ac7f3),
   (1, 4, tMask ^^^ 0x5b4115bb), (4, 11, 0x4bdecfa9), (7, 16, tMask ^^^ 0x0944b49f), (10, 23, tMask ^^^ 0x4140438f),
   (13, 4, 0x289b7ec6), (0, 11, tMask ^^^ 0x155ed805), (3, 16, tMask ^^^ 0x2b10cf7a), (6, 23, 0x04881d05),
   (9, 4, tMask ^^^ 0x262b2fc6), (12, 11, tMask ^^^ 0x1924661a), (15, 16, 0x1fa27cf8), (2, 23, tMask ^^^ 0x3b53a99a)]

/-- The `SET` lines of round 4. -/
def md5Ops4 : List (ℕ × UInt32 × UInt32) :=
  [(0, 6, tMask ^^^ 0x0bd6ddbb), (7, 10, 0x432aff97), (14, 15, tMask ^^^ 0x546bdc58), (5, 21, tMask ^^^ 0x036c5fc6),
   (12, 6, 0x655b59c3), (3, 10, tMask ^^^ 0x70f3336d), (10, 15, tMask ^^^ 0x00100b82), (1, 21, tMask ^^^ 0x7a7ba22e),
   (8, 6, 0x6fa87e4f), (15, 10, tMask ^^^ 0x01d3191f), (6, 15, tMask ^^^ 0x5cfebceb), (13, 21, 0x4e0811a1),
   (4, 6, tMask ^^^ 0x08ac817d), (11, 10, tMask ^^^ 0x42c50dca), (2, 15, 0x2ad7d2bb), (9, 21, tMask ^^^ 0x14792c6e)]

/-- The word `X[k]`, little-endian. -/
def md5Word (data : List UInt8) (k : ℕ) : UInt32 :=
  UInt32.ofNat ((data.getD (4 * k) 0).toNat + (data.getD (4 * k + 1) 0).toNat * 2 ^ 8 +
    (data.getD (4 * k + 2) 0).toNat * 2 ^ 16 + (data.getD (4 * k + 3) 0).toNat * 2 ^ 24)

/-- One `SET` line. The next line names the registers `d, a, b, c`, so the result is turned by one place. -/
def md5Set (f : UInt32 → UInt32 → UInt32 → UInt32) (data : List UInt8) (v : Md5Regs)
    (op : ℕ × UInt32 × UInt32) : Md5Regs :=
  let t := v.a + f v.b v.c v.d + md5Word data op.1 + op.2.2
  ⟨v.d, rotateLeft t op.2.1 + v.b, v.b, v.c⟩

/-- `md5_process` on a block of 64 bytes. -/
def md5Process (abcd : Md5Regs) (data : List UInt8) : Md5Regs :=
  let v := md5Ops1.foldl (md5Set md5F data) abcd
  let v := md5Ops2.foldl (md5Set md5G data) v
  let v := md5Ops3.foldl (md5Set md5H data) v
  let v := md5Ops4.foldl (md5Set md5I data) v
  ⟨abcd.a + v.a, abcd.b + v.b, abcd.c + v.c, abcd.d + v.d⟩

/-- `cel_md5_t`; `buf` has 64 bytes. -/
structure Md5 where
  count0 : UInt32
  count1 : UInt32
  abcd : Md5Regs
  buf : List UInt8

/-- The registers before the first block. -/
def md5Start : Md5Regs := ⟨0x67452301, tMask ^^^ 0x10325476, tMask ^^^ 0x67452301, 0x10325476⟩

/-- `cel_md5_init`. -/
def celMd5Init (pms : Md5) : Md5 := { pms with count0 := 0, count1 := 0, abcd := md5Start }

/-- The full blocks of `p`, then the final partial block. -/
def md5Blocks (pms : Md5) (p : List UInt8) : Md5 :=
  { pms with abcd := absorb 64 md5Process (p.length / 64) pms.abcd p,
             buf := rest 64 p ++ pms.buf.drop (rest 64 p).length }

/-- Add `nbytes` to the message length, with the carry of the low word. -/
def md5AddLength (pms : Md5) (nbytes : ℕ) : Md5 :=
  let nbits := UInt32.ofNat (nbytes * 8)
  let count1 := pms.count1 + UInt32.ofNat (nbytes / 2 ^ 29)
  { pms with count0 := pms.count0 + nbits, count1 := if pms.count0 + nbits < nbits then count1 + 1 else count1 }

/-- `memcpy(pms->buf + offset, p, copy)`. -/
def md5Fill (pms : Md5) (offset : ℕ) (p : List UInt8) : Md5 :=
  { pms with buf := pms.buf.take offset ++ p ++ pms.buf.drop (offset + p.length) }

/-- The body of `cel_md5_update` for the `nbytes` bytes of `data`. The sum `offset + nbytes`, which C leaves undefined
where it is no `int`, is the sum of the numbers. -/
def md5Feed (pms : Md5) (data : List UInt8) : Md5 :=
  let offset := ((pms.count0 >>> 3) &&& 63).toNat
  if data = [] then pms
  else
    let pms := md5AddLength pms data.length
    if offset = 0 then md5Blocks pms data
    else
      let copy := if 64 < offset + data.length then 64 - offset else data.length
      let pms := md5Fill pms offset (data.take copy)
      if offset + copy < 64 then pms
      else md5Blocks { pms with abcd := md5Process pms.abcd pms.buf } (data.drop copy)

/-- `cel_md5_update` of a text and its length, which becomes the `int` `nbytes`. -/
def celMd5Update (pms : Md5) (data : List UInt8) : Md5 :=
  let nbytes := i32 data.length
  if nbytes ≤ 0 then pms else md5Feed pms (data.take nbytes.toNat)

/-- Byte `i` of a word, least significant first. -/
def byteOf (w : UInt32) (i : ℕ) : UInt8 := UInt8.ofNat (w.toNat / 2 ^ (8 * i))

/-- The four bytes of a word. -/
def wordBytes (w : UInt32) : List UInt8 := [byteOf w 0, byteOf w 1, byteOf w 2, byteOf w 3]

/-- The bytes of the registers. -/
def regBytes (v : Md5Regs) : List UInt8 := wordBytes v.a ++ wordBytes v.b ++ wordBytes v.c ++ wordBytes v.d

/-- The 64 bytes of padding. -/
def md5Pad : List UInt8 := 0x80 :: List.replicate 63 0

/-- `cel_md5_final`. -/
def celMd5Final (pms : Md5) : List UInt8 :=
  let data := wordBytes pms.count0 ++ wordBytes pms.count1
  let pms := celMd5Update
    (celMd5Update pms (md5Pad.take ((((55 : UInt32) - (pms.count0 >>> 3)) &&& 63).toNat + 1))) data
  regBytes pms.abcd

/-- A hexadecimal digit. -/
def hexDigit (n : ℕ) : UInt8 := UInt8.ofNat (if n < 10 then 48 + n else 87 + n)

theorem hexDigit_ne_zero {n : ℕ} (h : n < 16) : hexDigit n ≠ 0 := by
  intro h0
  have hnat : (hexDigit n).toNat = 0 := by rw [h0]; rfl
  rw [hexDigit, UInt8.toNat_ofNat'] at hnat
  split_ifs at hnat <;> omega

/-- The 32 characters that `cel_md5_print` writes. -/
def celMd5Print (digest : List UInt8) : List UInt8 :=
  digest.flatMap fun c => [hexDigit (c.toNat / 16), hexDigit (c.toNat % 16)]

/-! ## The digest of a whole message -/

/-- The message length in bits, modulo `2 ^ 64`, in eight bytes. -/
def lengthBytes (n : ℕ) : List UInt8 := (List.range 8).map fun i => UInt8.ofNat (8 * n / 256 ^ i)

/-- The message, a bit 1, zeros up to 56 modulo 64 bytes, and the length. -/
def padMessage (msg : List UInt8) : List UInt8 :=
  msg ++ (0x80 :: List.replicate ((119 - msg.length % 64) % 64) 0 ++ lengthBytes msg.length)

/-- The MD5 digest. -/
def md5 (msg : List UInt8) : List UInt8 := regBytes (blocks 64 md5Process md5Start (padMessage msg))

/-- The MD5 digest in hexadecimal. -/
def md5Hex (msg : List UInt8) : List UInt8 := celMd5Print (md5 msg)

end Sarah
