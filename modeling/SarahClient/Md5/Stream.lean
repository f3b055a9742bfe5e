import SarahClient.Md5.Model
import Mathlib.Tactic.Ring

/-!
# The MD5 functions compute the digest of what they are given

* `Md5.Absorbed pms xs`: the context after the bytes `xs`;
* `md5Feed_absorbed`: bytes of any number are appended;
* `md5Fed`, `celMd5Update_absorbed`: an update appends the bytes that it takes;
* **`celMd5Final_of_absorbed`**: the final call returns the digest of the whole message.
-/

namespace Sarah

open BlockHash

/-- The context has absorbed `xs`. -/
structure Md5.Absorbed (pms : Md5) (xs : List UInt8) : Prop where
  count0 : pms.count0.toNat = 8 * xs.length % 2 ^ 32
  count1 : pms.count1.toNat = 8 * xs.length / 2 ^ 32 % 2 ^ 32
  abcd : pms.abcd = blocks 64 md5Process md5Start xs
  length_buf : pms.buf.length = 64
  buf : pms.buf.take (xs.length % 64) = rest 64 xs

theorem celMd5Init_absorbed {pms : Md5} (h : pms.buf.length = 64) : (celMd5Init pms).Absorbed [] where
  count0 := rfl
  count1 := rfl
  abcd := rfl
  length_buf := h
  buf := rfl

/-! ## The bit count -/

theorem Md5.Absorbed.offset {pms : Md5} {xs : List UInt8} (h : pms.Absorbed xs) :
    ((pms.count0 >>> 3) &&& 63).toNat = xs.length % 64 := by
  rw [UInt32.toNat_and, UInt32.toNat_shiftRight, h.count0]
  have hmask : (63 : UInt32).toNat = 2 ^ 6 - 1 := rfl
  rw [hmask, Nat.and_two_pow_sub_one_eq_mod, Nat.shiftRight_eq_div_pow]
  have : (3 : UInt32).toNat % 32 = 3 := rfl
  rw [this]
  omega

theorem md5AddLength_count {pms : Md5} {n : ℕ} (h0 : pms.count0.toNat = 8 * n % 2 ^ 32)
    (h1 : pms.count1.toNat = 8 * n / 2 ^ 32 % 2 ^ 32) (k : ℕ) :
    (md5AddLength pms k).count0.toNat = 8 * (n + k) % 2 ^ 32 ∧
      (md5AddLength pms k).count1.toNat = 8 * (n + k) / 2 ^ 32 % 2 ^ 32 := by
  have hadd : (pms.count0 + UInt32.ofNat (k * 8)).toNat = (pms.count0.toNat + k * 8 % 2 ^ 32) % 2 ^ 32 := by
    rw [UInt32.toNat_add, UInt32.toNat_ofNat']
  have hk : (UInt32.ofNat (k * 8)).toNat = k * 8 % 2 ^ 32 := UInt32.toNat_ofNat'
  have hc : (pms.count1 + UInt32.ofNat (k / 2 ^ 29)).toNat = (pms.count1.toNat + k / 2 ^ 29) % 2 ^ 32 := by
    rw [UInt32.toNat_add, UInt32.toNat_ofNat', Nat.add_mod_mod]
  simp only [md5AddLength]
  refine ⟨by rw [hadd, h0]; omega, ?_⟩
  split_ifs with hlt
  · rw [UInt32.lt_iff_toNat_lt, hadd, hk] at hlt
    have hone : (1 : UInt32).toNat = 1 := rfl
    rw [UInt32.toNat_add, hc, h1, hone]
    omega
  · rw [UInt32.lt_iff_toNat_lt, hadd, hk] at hlt
    rw [hc, h1]
    omega

/-! ## Updates -/

/-- The full blocks and the final partial block of `p`, from a block boundary. -/
theorem md5Blocks_absorbed {pms : Md5} {xs p : List UInt8} (h0 : pms.count0.toNat = 8 * xs.length % 2 ^ 32)
    (h1 : pms.count1.toNat = 8 * xs.length / 2 ^ 32 % 2 ^ 32) (hbuf : pms.buf.length = 64)
    (hblocks : blocks 64 md5Process pms.abcd p = blocks 64 md5Process md5Start xs)
    (hrest : rest 64 p = rest 64 xs) : (md5Blocks pms p).Absorbed xs where
  count0 := h0
  count1 := h1
  abcd := hblocks
  length_buf := by
    have : (rest 64 p).length < 64 := by rw [length_rest]; omega
    simp only [md5Blocks, List.length_append, List.length_drop, hbuf]
    omega
  buf := by
    simp only [md5Blocks]
    rw [← length_rest, ← hrest, List.take_left]

theorem Md5.Absorbed.fill {pms : Md5} {xs : List UInt8} (h : pms.Absorbed xs) (ys : List UInt8) (k : ℕ) :
    (md5Fill (md5AddLength pms k) (xs.length % 64) ys).buf =
      rest 64 xs ++ ys ++ pms.buf.drop (xs.length % 64 + ys.length) := by
  simp only [md5Fill, md5AddLength]
  rw [h.buf]

/-- **One update** appends its bytes. -/
theorem md5Feed_absorbed {pms : Md5} {xs : List UInt8} (h : pms.Absorbed xs) (ys : List UInt8) :
    (md5Feed pms ys).Absorbed (xs ++ ys) := by
  have hcount := md5AddLength_count h.count0 h.count1 ys.length
  rw [← List.length_append] at hcount
  have hblocks := blocks_append md5Process (by decide : 0 < 64) md5Start xs ys
  have hrest := rest_append (by decide : 0 < 64) xs ys
  have hlen := length_rest (n := 64) xs
  unfold md5Feed
  simp only [h.offset]
  by_cases hys : ys = []
  · rw [if_pos hys, hys, List.append_nil]
    exact h
  rw [if_neg hys]
  by_cases hoff : xs.length % 64 = 0
  · -- at a block boundary nothing is pending
    have hnil : rest 64 xs = [] := List.length_eq_zero_iff.mp (by rw [hlen, hoff])
    rw [hnil, List.nil_append] at hblocks hrest
    rw [if_pos hoff]
    exact md5Blocks_absorbed hcount.1 hcount.2 h.length_buf (by rw [hblocks, ← h.abcd]; rfl) hrest.symm
  rw [if_neg hoff]
  by_cases hfit : xs.length % 64 + ys.length < 64
  · -- the block is still not full
    have hshort : (rest 64 xs ++ ys).length < 64 := by rw [List.length_append, hlen]; exact hfit
    rw [if_neg (by omega : ¬ 64 < xs.length % 64 + ys.length), if_pos hfit, List.take_length]
    have hfill := h.fill ys ys.length
    refine ⟨hcount.1, hcount.2, ?_, ?_, ?_⟩
    · rw [hblocks, blocks_of_lt md5Process hshort]
      exact h.abcd
    · rw [hfill, List.length_append, List.length_append, List.length_drop, hlen, h.length_buf]
      omega
    · have hmod : (xs ++ ys).length % 64 = (rest 64 xs ++ ys).length := by
        rw [List.length_append, List.length_append, hlen]
        omega
      rw [hfill, hmod, List.take_left, hrest, rest_of_lt hshort]
  · -- the block is filled and processed, and the rest starts at a boundary
    have hcopy : (if 64 < xs.length % 64 + ys.length then 64 - xs.length % 64 else ys.length) =
        64 - xs.length % 64 := by
      split_ifs <;> omega
    have htake : (ys.take (64 - xs.length % 64)).length = 64 - xs.length % 64 := by
      rw [List.length_take]
      omega
    have hfill := h.fill (ys.take (64 - xs.length % 64)) ys.length
    have hfull : (rest 64 xs ++ ys.take (64 - xs.length % 64)).length = 64 := by
      rw [List.length_append, hlen, htake]
      omega
    rw [htake, List.drop_of_length_le (by rw [h.length_buf]; omega), List.append_nil] at hfill
    have hsplit : rest 64 xs ++ ys = rest 64 xs ++ ys.take (64 - xs.length % 64) ++ ys.drop (64 - xs.length % 64) := by
      rw [List.append_assoc, List.take_append_drop]
    rw [hsplit, blocks_block md5Process (by decide) hfull, ← h.abcd] at hblocks
    rw [hsplit, rest_block (by decide) hfull] at hrest
    simp only [hcopy]
    rw [if_neg (by omega)]
    refine md5Blocks_absorbed hcount.1 hcount.2 ?_ ?_ hrest.symm
    · rw [hfill, hfull]
    · rw [hblocks, hfill]
      rfl

/-! ## Lengths -/

/-- The bytes of a text that an update takes: its length becomes an `int`, and a negative one takes nothing. -/
def md5Fed (data : List UInt8) : List UInt8 := data.take (i32 data.length).toNat

theorem md5Fed_of_short {data : List UInt8} (h : data.length < 2 ^ 31) : md5Fed data = data := by
  rw [md5Fed, i32_of_range (by omega) (by omega), Int.toNat_natCast, List.take_length]

theorem md5Fed_of_nonpos {data : List UInt8} (h : i32 data.length ≤ 0) : md5Fed data = [] := by
  rw [md5Fed, Int.toNat_of_nonpos h, List.take_zero]

theorem map_md5Fed_of_short {pieces : List (List UInt8)} (h : ∀ p ∈ pieces, p.length < 2 ^ 31) :
    pieces.map md5Fed = pieces :=
  (List.map_congr_left fun p hp => md5Fed_of_short (h p hp)).trans (List.map_id _)

theorem celMd5Update_eq (pms : Md5) (data : List UInt8) : celMd5Update pms data = md5Feed pms (md5Fed data) := by
  unfold celMd5Update
  dsimp only
  split_ifs with h
  · rw [md5Fed_of_nonpos h]
    rfl
  · rfl

theorem celMd5Update_absorbed {pms : Md5} {xs : List UInt8} (h : pms.Absorbed xs) (ys : List UInt8) :
    (celMd5Update pms ys).Absorbed (xs ++ md5Fed ys) := by
  rw [celMd5Update_eq]
  exact md5Feed_absorbed h _

theorem foldl_celMd5Update_absorbed (pieces : List (List UInt8)) : ∀ {pms : Md5} {xs : List UInt8},
    pms.Absorbed xs → (pieces.foldl celMd5Update pms).Absorbed (xs ++ (pieces.map md5Fed).flatten) := by
  induction pieces with
  | nil =>
    intro pms xs h
    rw [List.map_nil, List.flatten_nil, List.append_nil]
    exact h
  | cons p ps ih =>
    intro pms xs h
    rw [List.foldl_cons, List.map_cons, List.flatten_cons, ← List.append_assoc]
    exact ih (celMd5Update_absorbed h p)

/-! ## The digest -/

theorem Md5.Absorbed.padding {pms : Md5} {xs : List UInt8} (h : pms.Absorbed xs) :
    (((55 : UInt32) - (pms.count0 >>> 3)) &&& 63).toNat = (119 - xs.length % 64) % 64 := by
  have hmask : (63 : UInt32).toNat = 2 ^ 6 - 1 := rfl
  have hshift : (3 : UInt32).toNat % 32 = 3 := rfl
  have hfive : (55 : UInt32).toNat = 55 := rfl
  rw [UInt32.toNat_and, hmask, Nat.and_two_pow_sub_one_eq_mod, UInt32.toNat_sub, UInt32.toNat_shiftRight, h.count0,
    hshift, Nat.shiftRight_eq_div_pow, hfive]
  omega

theorem md5Pad_take {z : ℕ} (hz : z < 64) : md5Pad.take (z + 1) = 0x80 :: List.replicate z 0 := by
  rw [md5Pad, List.take_succ_cons, List.take_replicate, Nat.min_eq_left (by omega)]

theorem ofNat_eq_of_mod {a b : ℕ} (h : a % 256 = b % 256) : UInt8.ofNat a = UInt8.ofNat b := by
  apply UInt8.toNat_inj.mp
  rw [UInt8.toNat_ofNat', UInt8.toNat_ofNat']
  exact h

theorem Md5.Absorbed.length_bytes {pms : Md5} {xs : List UInt8} (h : pms.Absorbed xs) :
    wordBytes pms.count0 ++ wordBytes pms.count1 = lengthBytes xs.length := by
  simp only [wordBytes, byteOf, h.count0, h.count1]
  unfold lengthBytes
  simp only [List.range, List.range.loop, List.map_cons, List.map_nil, List.cons_append, List.nil_append,
    List.cons.injEq, and_true]
  refine ⟨?_, ?_, ?_, ?_, ?_, ?_, ?_, ?_⟩ <;> exact ofNat_eq_of_mod (by omega)

/-- **The final call** returns the digest of everything absorbed. -/
theorem celMd5Final_of_absorbed {pms : Md5} {xs : List UInt8} (h : pms.Absorbed xs) :
    celMd5Final pms = md5 xs := by
  have hzeros : (md5Pad.take ((((55 : UInt32) - (pms.count0 >>> 3)) &&& 63).toNat + 1)) =
      0x80 :: List.replicate ((119 - xs.length % 64) % 64) 0 := by
    rw [h.padding, md5Pad_take (Nat.mod_lt _ (by decide))]
  have hpad := celMd5Update_absorbed h (0x80 :: List.replicate ((119 - xs.length % 64) % 64) 0)
  rw [md5Fed_of_short (by rw [List.length_cons, List.length_replicate]; omega)] at hpad
  have hall := celMd5Update_absorbed hpad (lengthBytes xs.length)
  rw [md5Fed_of_short (by simp [lengthBytes])] at hall
  rw [celMd5Final, md5, padMessage, hzeros, h.length_bytes, hall.abcd, List.append_assoc]

theorem celMd5_stream {pms : Md5} (h : pms.buf.length = 64) (pieces : List (List UInt8)) :
    celMd5Final (pieces.foldl celMd5Update (celMd5Init pms)) = md5 (pieces.map md5Fed).flatten :=
  celMd5Final_of_absorbed (foldl_celMd5Update_absorbed pieces (celMd5Init_absorbed h))

example : md5Hex (lit "abc") = lit "900150983cd24fb0d6963f7d28e17f72" := by decide +kernel

/-! ## The printed digest -/

@[simp] theorem length_md5 (msg : List UInt8) : (md5 msg).length = 16 := rfl

theorem length_celMd5Print (digest : List UInt8) : (celMd5Print digest).length = 2 * digest.length := by
  induction digest with
  | nil => rfl
  | cons c digest ih =>
    rw [celMd5Print, List.flatMap_cons, List.length_append, List.length_cons]
    rw [celMd5Print] at ih
    rw [ih]
    simp only [List.length_cons, List.length_nil]
    ring

@[simp] theorem length_md5Hex (msg : List UInt8) : (md5Hex msg).length = 32 := by
  rw [md5Hex, length_celMd5Print, length_md5]

theorem zero_notMem_celMd5Print (digest : List UInt8) : 0 ∉ celMd5Print digest := by
  intro h
  obtain ⟨c, -, hc⟩ := List.mem_flatMap.mp h
  have hlt : c.toNat < 256 := c.toNat_lt
  simp only [List.mem_cons, List.not_mem_nil, or_false] at hc
  rcases hc with hc | hc
  · exact hexDigit_ne_zero (by omega) hc.symm
  · exact hexDigit_ne_zero (by omega) hc.symm

theorem zero_notMem_md5Hex (msg : List UInt8) : 0 ∉ md5Hex msg := zero_notMem_celMd5Print (md5 msg)

end Sarah
