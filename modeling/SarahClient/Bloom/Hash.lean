import SarahClient.Hashmap.Hash

/-!
# The hash functions of `cel_hash.c` that a Bloom filter uses

Each function takes the bytes of a C string before its NUL. The words have 32 bits; `get32bits` reads
little endian.

* `charU32`: a `char` in 32-bit arithmetic; `hash31`: the mask `0x7FFFFFFF` on the result;
* `celFnvHash` to `celElfHash`;
* `celBjMix`, `celBobJenkinsHash32`, `celBobJenkins32Hash`.
-/

namespace Sarah

/-- A `char` in 32-bit arithmetic: it is signed. -/
def charU32 (c : UInt8) : UInt32 := UInt32.ofNat (charWord c)

/-- `return (h & 0x7FFFFFFF);` -/
def hash31 (h : UInt32) : ℕ := (h &&& 0x7FFFFFFF).toNat

/-- `cel_fnv_hash`. -/
def celFnvHash (s : List UInt8) : ℕ := hash31 (s.foldl (fun h c => (h * 16777619) ^^^ charU32 c) 2166136261)

/-- `cel_fnv1a_hash`. -/
def celFnv1aHash (s : List UInt8) : ℕ := hash31 (s.foldl (fun h c => (h ^^^ charU32 c) * 16777619) 2166136261)

/-- The body of the loop of `cel_ap_hash`, with its counter `i`. -/
def apStep (r : ℕ × UInt32) (c : UInt8) : ℕ × UInt32 :=
  (r.1 + 1,
    if r.1 % 2 = 0 then r.2 ^^^ ((r.2 <<< 7) ^^^ charU32 c ^^^ (r.2 <<< 3))
    else r.2 ^^^ ~~~((r.2 <<< 11) ^^^ charU32 c ^^^ (r.2 <<< 5)))

/-- `cel_ap_hash`. -/
def celApHash (s : List UInt8) : ℕ := hash31 (s.foldl apStep (0, 0)).2

/-- `cel_djp_hash`. -/
def celDjpHash (s : List UInt8) : ℕ := hash31 (s.foldl (fun h c => h + ((h <<< 5) + charU32 c)) 5381)

/-- `cel_djp2_hash`. -/
def celDjp2Hash (s : List UInt8) : ℕ := hash31 (s.foldl (fun h c => (h * 33) ^^^ charU32 c) 5381)

/-- `cel_js_hash`. -/
def celJsHash (s : List UInt8) : ℕ := hash31 (s.foldl (fun h c => h ^^^ ((h <<< 5) + charU32 c + (h <<< 2))) 0)

/-- `cel_sdms_hash`. -/
def celSdmsHash (s : List UInt8) : ℕ := hash31 (s.foldl (fun h c => 65599 * h + charU32 c) 0)

/-- The hash code and `magic`. -/
def rsStep (r : UInt32 × UInt32) (c : UInt8) : UInt32 × UInt32 := (r.1 * r.2 + charU32 c, r.2 * 378551)

/-- `cel_rs_hash`. -/
def celRsHash (s : List UInt8) : ℕ := hash31 (s.foldl rsStep (0, 63689)).1

/-- `cel_dek_hash`. -/
def celDekHash (s : List UInt8) : ℕ := hash31 (s.foldl (fun h c => (h <<< 5) ^^^ (h >>> 27) ^^^ charU32 c) 0)

/-- The body of the loop of `cel_elf_hash`. -/
def elfStep (h : UInt32) (c : UInt8) : UInt32 :=
  let h := (h <<< 24) + charU32 c
  let x := h &&& 0xF0000000
  if x ≠ 0 then (h ^^^ (h >>> 24)) &&& ~~~x else h

/-- `cel_elf_hash`. -/
def celElfHash (s : List UInt8) : ℕ := hash31 (s.foldl elfStep 0)

/-- One line of `cel_bj_mix`: `a -= b; a -= c; a ^= x`, where `x` is a shift of `c`. -/
def mixLine (a b c x : UInt32) : UInt32 := (a - b - c) ^^^ x

/-- `cel_bj_mix`. -/
def celBjMix (r : UInt32 × UInt32 × UInt32) : UInt32 × UInt32 × UInt32 :=
  let (a, b, c) := r
  let a := mixLine a b c (c >>> 13)
  let b := mixLine b c a (a <<< 8)
  let c := mixLine c a b (b >>> 13)
  let a := mixLine a b c (c >>> 12)
  let b := mixLine b c a (a <<< 16)
  let c := mixLine c a b (b >>> 5)
  let a := mixLine a b c (c >>> 3)
  let b := mixLine b c a (a <<< 10)
  let c := mixLine c a b (b >>> 15)
  (a, b, c)

/-- The little-endian word at `k`; what is missing behind the end counts as 0. -/
def get32bits (k : List UInt8) : UInt32 :=
  UInt32.ofNat ((k.getD 0 0).toNat + (k.getD 1 0).toNat * 2 ^ 8 + (k.getD 2 0).toNat * 2 ^ 16 +
    (k.getD 3 0).toNat * 2 ^ 24)

/-- `while ( len >= 12 )`, with the number of its rounds. -/
def bobJenkinsLoop : ℕ → List UInt8 → UInt32 × UInt32 × UInt32 → UInt32 × UInt32 × UInt32
  | 0, _, r => r
  | n + 1, k, (a, b, c) =>
    bobJenkinsLoop n (k.drop 12)
      (celBjMix (a + get32bits k, b + get32bits (k.drop 4), c + get32bits (k.drop 8)))

/-- `cel_bobJenkins_hash32`; the `switch` adds the last bytes as far as they are there. -/
def celBobJenkinsHash32 (str : List UInt8) (length : ℕ) (initval : UInt32) : ℕ :=
  let r := bobJenkinsLoop (length / 12) str (0x9e3779b9, 0x9e3779b9, initval)
  let k := (str.drop (12 * (length / 12))).take (length % 12)
  (celBjMix (r.1 + get32bits k, r.2.1 + get32bits (k.drop 4),
    -- the first byte of `c` is reserved for the length
    r.2.2 + UInt32.ofNat length + (get32bits (k.drop 8) <<< 8))).2.2.toNat

/-- `cel_bobJenkins32_hash`: the whole string, with the seed 0. -/
def celBobJenkins32Hash (str : List UInt8) : ℕ := celBobJenkinsHash32 str (u32 str.length) 0

end Sarah
