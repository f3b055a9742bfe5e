import SarahClient.CNum
import SarahClient.Md5.Model
import Mathlib.Data.Nat.ModEq

/-!
# The node ids (`node.c`)

* `hex`, `padLeft`: numbers as `%x` writes them, and the minimum widths; `hexValue_hex`;
* `genTsRandomNodeId`, `genTsRmmacNodeId`: the two generators, with the bytes that `sprintf` writes;
* **`nodeId_shape_injective`**: 40 characters, and no id at two times.
-/

namespace Sarah

open List

/-! ## Numbers in hexadecimal -/

/-- A number as `%x` writes it. -/
def hex (n : ℕ) : List UInt8 := (Nat.toDigits 16 n).map fun c => UInt8.ofNat c.toNat

/-- A minimum width. -/
def padLeft (c : UInt8) (width : ℕ) (s : List UInt8) : List UInt8 := replicate (width - s.length) c ++ s

theorem ofNat_digitChar {n : ℕ} (h : n < 16) : UInt8.ofNat n.digitChar.toNat = hexDigit n := by
  revert n
  decide

theorem hex_of_lt {n : ℕ} (h : n < 16) : hex n = [hexDigit n] := by
  rw [hex, Nat.toDigits_of_lt_base h, map_singleton, ofNat_digitChar h]

theorem hex_of_le {n : ℕ} (h : 16 ≤ n) : hex n = hex (n / 16) ++ [hexDigit (n % 16)] := by
  rw [hex, Nat.toDigits_of_base_le (by decide) h, map_append, map_singleton, ofNat_digitChar (Nat.mod_lt n (by decide)),
    hex]

theorem hex_length_le {k : ℕ} (hk : 0 < k) {n : ℕ} (h : n < 16 ^ k) : (hex n).length ≤ k := by
  induction k generalizing n with
  | zero => omega
  | succ k ih =>
    rcases Nat.lt_or_ge n 16 with hn | hn
    · rw [hex_of_lt hn, length_singleton]
      omega
    · have hpos : 0 < k := by
        rcases Nat.eq_zero_or_pos k with rfl | hpos
        · omega
        · exact hpos
      have hdiv : n / 16 < 16 ^ k := by
        rw [Nat.pow_succ] at h
        omega
      rw [hex_of_le hn, length_append, length_singleton]
      exact Nat.succ_le_succ (ih hpos hdiv)

/-- The value of a digit; a blank counts as zero. -/
def hexDigitValue (c : UInt8) : ℕ := if c.toNat < 48 then 0 else if c.toNat < 58 then c.toNat - 48 else c.toNat - 87

/-- The number that hexadecimal digits write. -/
def hexValue (s : List UInt8) : ℕ := s.foldl (fun n c => 16 * n + hexDigitValue c) 0

theorem hexDigitValue_hexDigit {n : ℕ} (h : n < 16) : hexDigitValue (hexDigit n) = n := by
  revert n
  decide

theorem hexValue_hex (n : ℕ) : hexValue (hex n) = n := by
  induction n using Nat.strong_induction_on with
  | _ n ih =>
    rcases Nat.lt_or_ge n 16 with h | h
    · rw [hex_of_lt h, hexValue, foldl_cons, foldl_nil, hexDigitValue_hexDigit h]
      omega
    · have hrec := ih (n / 16) (by omega)
      rw [hexValue] at hrec
      rw [hex_of_le h, hexValue, foldl_append, hrec, foldl_cons, foldl_nil,
        hexDigitValue_hexDigit (Nat.mod_lt n (by decide))]
      omega

theorem zero_notMem_hex (n : ℕ) : 0 ∉ hex n := by
  induction n using Nat.strong_induction_on with
  | _ n ih =>
    rcases Nat.lt_or_ge n 16 with h | h
    · rw [hex_of_lt h, mem_singleton]
      exact (hexDigit_ne_zero h).symm
    · rw [hex_of_le h, mem_append, mem_singleton, not_or]
      exact ⟨ih (n / 16) (by omega), (hexDigit_ne_zero (Nat.mod_lt n (by decide))).symm⟩

theorem hexValue_padLeft {c : UInt8} (hc : hexDigitValue c = 0) (width : ℕ) (s : List UInt8) :
    hexValue (padLeft c width s) = hexValue s := by
  have hzero : ∀ k, (replicate k c).foldl (fun n c => 16 * n + hexDigitValue c) 0 = 0 := by
    intro k
    induction k with
    | zero => rfl
    | succ k ih => rwa [replicate_succ, foldl_cons, hc]
  rw [padLeft, hexValue, foldl_append, hzero, hexValue]

theorem length_padLeft {c : UInt8} {width : ℕ} {s : List UInt8} (h : s.length ≤ width) :
    (padLeft c width s).length = width := by
  rw [padLeft, length_append, length_replicate]
  omega

theorem zero_notMem_padLeft {c : UInt8} (hc : c ≠ 0) (width n : ℕ) : 0 ∉ padLeft c width (hex n) := by
  rw [padLeft, mem_append, not_or]
  exact ⟨fun h => hc (eq_of_mem_replicate h).symm, zero_notMem_hex n⟩

/-! ## The generators -/

/-- What an id is made of: the answer of `gettimeofday`, and the draws of `rand`. -/
structure IdDraws where
  tvSec : ℕ
  tvUsec : ℕ
  rand : Fin 4 → ℕ

/-- `unsigned char mac[6]`. -/
abbrev Mac := Fin 6 → UInt8

/-- `"%8x-%08x-%04x-%04x-"`, the start of both formats. -/
def idStart (draws : IdDraws) (mark : ℕ) : List UInt8 :=
  padLeft 32 8 (hex (u32 draws.tvSec)) ++ lit "-" ++ padLeft 48 8 (hex (u32 (u32 draws.tvUsec * 1000000))) ++ lit "-" ++
    padLeft 48 4 (hex (draws.rand 0 % 0xFFFF)) ++ lit "-" ++
    padLeft 48 4 (hex ((draws.rand 1 % 0xFF) <<< 8 ||| mark)) ++ lit "-"

/-- `_gen_ts_random_node_id`: the bytes written to `buff`. -/
def genTsRandomNodeId (draws : IdDraws) : List UInt8 :=
  idStart draws 0x00 ++ padLeft 48 4 (hex (draws.rand 2 % 0xFFFF)) ++ padLeft 48 8 (hex (draws.rand 3 % 0xFFFFFFFF)) ++
    [0]

/-- Six times `%02x`. -/
def macText (mac : Mac) : List UInt8 := (List.finRange 6).flatMap fun i => padLeft 48 2 (hex (mac i).toNat)

/-- `_gen_ts_rmmac_node_id` -/
def genTsRmmacNodeId (draws : IdDraws) (mac : Mac) : List UInt8 := idStart draws 0x01 ++ macText mac ++ [0]

/-! ## Shape -/

/-- Exactly 40 characters and the terminator. -/
def IsNodeId (bytes : List UInt8) : Prop := ∃ s, bytes = s ++ [0] ∧ s.length = 40 ∧ 0 ∉ s

theorem length_padded {c : UInt8} {k : ℕ} (hk : 0 < k) {n : ℕ} (h : n < 16 ^ k) : (padLeft c k (hex n)).length = k :=
  length_padLeft (hex_length_le hk h)

section Shape

variable (draws : IdDraws)

theorem mark_lt {mark : ℕ} (h : mark < 2 ^ 8) : (draws.rand 1 % 0xFF) <<< 8 ||| mark < 16 ^ 4 := by
  have hadd := Nat.shiftLeft_add_eq_or_of_lt h (draws.rand 1 % 0xFF)
  have hlt := Nat.mod_lt (draws.rand 1) (show 0xFF > 0 by decide)
  rw [← hadd, Nat.shiftLeft_eq]
  omega

theorem length_sec : (padLeft 32 8 (hex (u32 draws.tvSec))).length = 8 :=
  length_padded (by decide) (by have := u32_lt draws.tvSec; omega)

theorem length_usec : (padLeft 48 8 (hex (u32 (u32 draws.tvUsec * 1000000)))).length = 8 :=
  length_padded (by decide) (by have := u32_lt (u32 draws.tvUsec * 1000000); omega)

theorem length_rand (i : Fin 4) : (padLeft 48 4 (hex (draws.rand i % 0xFFFF))).length = 4 :=
  length_padded (by decide) (by have := Nat.mod_lt (draws.rand i) (show 0xFFFF > 0 by decide); omega)

theorem length_idStart {mark : ℕ} (h : mark < 2 ^ 8) : (idStart draws mark).length = 28 := by
  simp only [idStart, length_append, length_sec, length_usec, length_rand, length_padded (by decide : 0 < 4)
    (mark_lt draws h)]
  rfl

theorem zero_notMem_idStart (mark : ℕ) : 0 ∉ idStart draws mark := by
  have hdash : 0 ∉ lit "-" := by decide
  simp only [idStart, mem_append, not_or]
  exact ⟨⟨⟨⟨⟨⟨⟨zero_notMem_padLeft (by decide) _ _, hdash⟩, zero_notMem_padLeft (by decide) _ _⟩, hdash⟩,
    zero_notMem_padLeft (by decide) _ _⟩, hdash⟩, zero_notMem_padLeft (by decide) _ _⟩, hdash⟩

theorem isNodeId_random : IsNodeId (genTsRandomNodeId draws) := by
  refine ⟨_, rfl, ?_, ?_⟩
  · have hlast : draws.rand 3 % 0xFFFFFFFF < 16 ^ 8 := by
      have := Nat.mod_lt (draws.rand 3) (show 0xFFFFFFFF > 0 by decide)
      omega
    rw [length_append, length_append, length_idStart draws (by decide), length_rand, length_padded (by decide) hlast]
  · simp only [mem_append, not_or]
    exact ⟨⟨zero_notMem_idStart draws _, zero_notMem_padLeft (by decide) _ _⟩, zero_notMem_padLeft (by decide) _ _⟩

theorem length_macText (mac : Mac) : (macText mac).length = 12 := by
  have hbyte : ∀ i, (padLeft 48 2 (hex (mac i).toNat)).length = 2 := fun i =>
    length_padded (by decide) (by have := (mac i).toNat_lt; omega)
  simp only [macText, length_flatMap, hbyte]
  rfl

theorem isNodeId_rmmac (mac : Mac) : IsNodeId (genTsRmmacNodeId draws mac) := by
  refine ⟨_, rfl, ?_, ?_⟩
  · rw [length_append, length_idStart draws (by decide), length_macText]
  · rw [mem_append, not_or]
    refine ⟨zero_notMem_idStart draws _, fun h => ?_⟩
    obtain ⟨i, -, hi⟩ := mem_flatMap.mp h
    exact zero_notMem_padLeft (by decide) _ _ hi

end Shape

/-! ## Time -/

/-- Seconds of 32 bits, and less than a second of microseconds. -/
structure IdDraws.InRange (draws : IdDraws) : Prop where
  sec : draws.tvSec < 2 ^ 32
  usec : draws.tvUsec < 10 ^ 6

theorem padded_inj {c : UInt8} (hc : hexDigitValue c = 0) {width m n : ℕ}
    (h : padLeft c width (hex m) = padLeft c width (hex n)) : m = n := by
  have hvalue := congrArg hexValue h
  rwa [hexValue_padLeft hc, hexValue_padLeft hc, hexValue_hex, hexValue_hex] at hvalue

/-- `10 ^ 6` is 15625, which is odd, times `2 ^ 6`, and microseconds have less than 26 bits. -/
theorem usec_inj {m n : ℕ} (hm : m < 10 ^ 6) (hn : n < 10 ^ 6)
    (h : u32 (u32 m * 1000000) = u32 (u32 n * 1000000)) : m = n := by
  rw [u32_of_lt (show m < 2 ^ 32 by omega), u32_of_lt (show n < 2 ^ 32 by omega)] at h
  have hmod : m ≡ n [MOD 2 ^ 32 / Nat.gcd (2 ^ 32) 1000000] := Nat.ModEq.cancel_right_div_gcd (Nat.two_pow_pos 32) h
  have hmodulus : 2 ^ 32 / Nat.gcd (2 ^ 32) 1000000 = 2 ^ 26 := by decide +kernel
  rw [hmodulus] at hmod
  exact hmod.eq_of_lt_of_lt (by omega) (by omega)

theorem idStart_inj {draws draws' : IdDraws} (h : draws.InRange) (h' : draws'.InRange) {mark : ℕ}
    (heq : idStart draws mark = idStart draws' mark) : draws.tvSec = draws'.tvSec ∧ draws.tvUsec = draws'.tvUsec := by
  simp only [idStart, append_assoc] at heq
  obtain ⟨hsec, heq⟩ := append_inj heq (by rw [length_sec, length_sec])
  obtain ⟨husec, -⟩ := append_inj (append_cancel_left heq) (by rw [length_usec, length_usec])
  have hsec := padded_inj (by decide) hsec
  rw [u32_of_lt h.sec, u32_of_lt h'.sec] at hsec
  exact ⟨hsec, usec_inj h.usec h'.usec (padded_inj (by decide) husec)⟩

/-- **The ids of both generators** have 40 characters, and are equal only when they are of the same time. -/
theorem nodeId_shape_injective {draws draws' : IdDraws} (h : draws.InRange) (h' : draws'.InRange) (mac mac' : Mac) :
    IsNodeId (genTsRandomNodeId draws) ∧ IsNodeId (genTsRmmacNodeId draws mac) ∧
      (genTsRandomNodeId draws = genTsRandomNodeId draws' →
        draws.tvSec = draws'.tvSec ∧ draws.tvUsec = draws'.tvUsec) ∧
      (genTsRmmacNodeId draws mac = genTsRmmacNodeId draws' mac' →
        draws.tvSec = draws'.tvSec ∧ draws.tvUsec = draws'.tvUsec) := by
  refine ⟨isNodeId_random draws, isNodeId_rmmac draws mac, fun heq => ?_, fun heq => ?_⟩
  · simp only [genTsRandomNodeId, append_assoc] at heq
    exact idStart_inj h h' (append_inj heq (by rw [length_idStart _ (by decide), length_idStart _ (by decide)])).1
  · simp only [genTsRmmacNodeId, append_assoc] at heq
    exact idStart_inj h h' (append_inj heq (by rw [length_idStart _ (by decide), length_idStart _ (by decide)])).1

/-- Two ids of neighbouring microseconds differ. -/
theorem nodeId_shape_injective_next : genTsRandomNodeId ⟨1500000000, 999999, fun _ => 7⟩ ≠
    genTsRandomNodeId ⟨1500000000, 999998, fun _ => 7⟩ := fun heq =>
  absurd ((nodeId_shape_injective ⟨by decide, by decide⟩ ⟨by decide, by decide⟩ (fun _ => 0) fun _ => 0).2.2.1 heq).2
    (by decide)

end Sarah
