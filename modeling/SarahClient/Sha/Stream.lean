import SarahClient.Sha.Process

/-!
# A text in pieces

* `ShaContext.Absorbed`: the context after some bytes; `shaUpdate_absorbed`: an update appends its bytes;
* `putUintBE_eq`, `lengthField`: the bytes of a word, and the two words of the length;
* `shaFinish_of_absorbed`: the padding in one or two blocks;
* **`mbedtlsSha1_stream`**, **`mbedtlsSha256_stream`**, **`mbedtlsSha512_stream`**: however a text is cut into pieces,
  the output is the digest of the standard.
-/

namespace Sarah

open SecureHash Block BlockHash

section Context

variable {w : ℕ} {S : Type} {process : S → List UInt8 → S} {start : S} {ctx : ShaContext w S} {xs ys : List UInt8}

/-- The context has absorbed `xs`. -/
structure ShaContext.Absorbed (process : S → List UInt8 → S) (start : S) (ctx : ShaContext w S)
    (xs : List UInt8) : Prop where
  total : ctx.total0.toNat + 2 ^ w * ctx.total1.toNat = xs.length % 2 ^ (2 * w)
  state : ctx.state = blocks (2 * w) process start xs
  size : ctx.buffer.length = 2 * w
  buffer : ctx.buffer.take (xs.length % (2 * w)) = rest (2 * w) xs

/-! ## The count -/

theorem left_eq (hw : w = 32 ∨ w = 64) (h : ctx.total0.toNat + 2 ^ w * ctx.total1.toNat = xs.length % 2 ^ (2 * w)) :
    ctx.left = xs.length % (2 * w) := by
  have hmod : ctx.left = ctx.total0.toNat % (2 * w) := by
    rw [ShaContext.left, BitVec.toNat_and]
    rcases hw with rfl | rfl
    · exact Nat.and_two_pow_sub_one_eq_mod _ 6
    · exact Nat.and_two_pow_sub_one_eq_mod _ 7
  rw [hmod]
  rcases hw with rfl | rfl <;> omega

theorem shaAddLength_total (hw : w = 32 ∨ w = 64) {n k : ℕ}
    (h : ctx.total0.toNat + 2 ^ w * ctx.total1.toNat = n % 2 ^ (2 * w)) (hk : k < 2 ^ w) :
    (shaAddLength ctx k).total0.toNat + 2 ^ w * (shaAddLength ctx k).total1.toNat = (n + k) % 2 ^ (2 * w) := by
  have h0 := ctx.total0.isLt
  have h1 := ctx.total1.isLt
  have hkn : (BitVec.ofNat w k).toNat = k := by rw [BitVec.toNat_ofNat, Nat.mod_eq_of_lt hk]
  unfold shaAddLength
  dsimp only
  split_ifs with hlt
  · have hone : BitVec.toNat (1 : BitVec w) = 1 := by rcases hw with rfl | rfl <;> rfl
    rw [BitVec.lt_def, BitVec.toNat_add, hkn] at hlt
    rw [BitVec.toNat_add, BitVec.toNat_add, hkn, hone]
    rcases hw with rfl | rfl <;> omega
  · rw [BitVec.lt_def, BitVec.toNat_add, hkn] at hlt
    rw [BitVec.toNat_add, hkn]
    rcases hw with rfl | rfl <;> omega

/-! ## Updates -/

/-- The blocks of an input from a block boundary, and the copy of what is left. -/
theorem shaBlocks_absorbed (hpos : 0 < w)
    (htotal : ctx.total0.toNat + 2 ^ w * ctx.total1.toNat = xs.length % 2 ^ (2 * w))
    (hsize : ctx.buffer.length = 2 * w)
    (hblocks : blocks (2 * w) process ctx.state ys = blocks (2 * w) process start xs)
    (hrest : rest (2 * w) ys = rest (2 * w) xs) :
    ∃ ctx', shaBlocks process ctx 0 ys = some ctx' ∧ ctx'.Absorbed process start xs := by
  have hlen := length_rest (n := 2 * w) xs
  have hlt : xs.length % (2 * w) < 2 * w := Nat.mod_lt _ (by omega)
  unfold shaBlocks
  dsimp only
  rw [hrest]
  split_ifs with hnil
  · refine ⟨_, rfl, htotal, hblocks, hsize, ?_⟩
    have hzero : xs.length % (2 * w) = 0 := by rw [← hlen, hnil, List.length_nil]
    rw [hzero, hnil, List.take_zero]
  · have hcopy := copyIn_append [] ctx.buffer (rest (2 * w) xs) (by omega)
    rw [List.nil_append, List.length_nil, List.nil_append] at hcopy
    rw [hcopy]
    refine ⟨_, rfl, htotal, hblocks, ?_, ?_⟩
    · simp only [List.length_append, List.length_drop, hsize, hlen]
      omega
    · rw [← hlen, List.take_left]

theorem shaBlocks_short (hpos : 0 < w) (h : ctx.Absorbed process start xs) {ctx' : ShaContext w S}
    (hctx : ctx'.state = ctx.state ∧ ctx'.buffer = ctx.buffer)
    (htotal : ctx'.total0.toNat + 2 ^ w * ctx'.total1.toNat = (xs ++ ys).length % 2 ^ (2 * w)) (hys : ys ≠ [])
    (hfit : xs.length % (2 * w) + ys.length < 2 * w) :
    ∃ res, shaBlocks process ctx' (xs.length % (2 * w)) ys = some res ∧ res.Absorbed process start (xs ++ ys) := by
  have hlen := length_rest (n := 2 * w) xs
  have hshort : ys.length < 2 * w := by omega
  have hall : (rest (2 * w) xs ++ ys).length < 2 * w := by rwa [List.length_append, hlen]
  have hcopy : copyIn ctx.buffer (xs.length % (2 * w)) ys =
      some (rest (2 * w) xs ++ ys ++ ctx.buffer.drop (xs.length % (2 * w) + ys.length)) := by
    rw [copyIn_of_le (by rw [h.size]; omega), h.buffer]
  unfold shaBlocks
  dsimp only
  rw [rest_of_lt hshort, if_neg hys, hctx.2, hcopy, Nat.div_eq_of_lt hshort]
  refine ⟨_, rfl, htotal, ?_, ?_, ?_⟩
  · rw [blocks_append process (by omega), blocks_of_lt process hall, ← h.state, ← hctx.1]
    rfl
  · simp only [List.length_append, List.length_drop, hlen, h.size]
    omega
  · have hmod : (xs ++ ys).length % (2 * w) = (rest (2 * w) xs ++ ys).length := by
      rw [List.length_append, List.length_append, hlen, Nat.add_mod, Nat.mod_eq_of_lt hshort, Nat.mod_eq_of_lt hfit]
    rw [hmod, List.take_left, rest_append (by omega), rest_of_lt hall]

/-- **One update** appends its bytes. -/
theorem shaUpdate_absorbed (hw : w = 32 ∨ w = 64) (h : ctx.Absorbed process start xs) (hys : ys.length < 2 ^ w) :
    ∃ ctx', shaUpdate process ctx ys = some ctx' ∧ ctx'.Absorbed process start (xs ++ ys) := by
  have hpos : 0 < w := by omega
  unfold shaUpdate
  split_ifs with hnil
  · rw [hnil, List.append_nil]
    exact ⟨ctx, rfl, h⟩
  have hcount := shaAddLength_total hw h.total hys
  rw [← List.length_append] at hcount
  have hlen := length_rest (n := 2 * w) xs
  have hblocks := blocks_append process (by omega : 0 < 2 * w) start xs ys
  have hrest := rest_append (by omega : 0 < 2 * w) xs ys
  dsimp only
  rw [left_eq hw h.total]
  have hlt : xs.length % (2 * w) < 2 * w := Nat.mod_lt _ (by omega)
  split_ifs with hfill
  · -- the block is filled and processed, and the rest starts at a boundary
    have htake : (ys.take (2 * w - xs.length % (2 * w))).length = 2 * w - xs.length % (2 * w) := by
      rw [List.length_take]
      omega
    have hfull : (rest (2 * w) xs ++ ys.take (2 * w - xs.length % (2 * w))).length = 2 * w := by
      rw [List.length_append, hlen, htake]
      omega
    have hcopy : copyIn (shaAddLength ctx ys.length).buffer (xs.length % (2 * w))
      (ys.take (2 * w - xs.length % (2 * w))) =
        some (rest (2 * w) xs ++ ys.take (2 * w - xs.length % (2 * w))) := by
      show copyIn ctx.buffer _ _ = _
      rw [copyIn_of_le (by rw [htake, h.size]; omega), h.buffer, htake, List.drop_of_length_le (by rw [h.size]; omega),
        List.append_nil]
    have hsplit : rest (2 * w) xs ++ ys = rest (2 * w) xs ++ ys.take (2 * w - xs.length % (2 * w)) ++
        ys.drop (2 * w - xs.length % (2 * w)) := by
      rw [List.append_assoc, List.take_append_drop]
    rw [hsplit, blocks_block process (by omega) hfull, ← h.state] at hblocks
    rw [hsplit, rest_block (by omega) hfull] at hrest
    rw [hcopy, Option.bind_some]
    exact shaBlocks_absorbed hpos hcount hfull hblocks.symm hrest.symm
  · by_cases hzero : xs.length % (2 * w) = 0
    · have hempty : rest (2 * w) xs = [] := List.length_eq_zero_iff.mp (by rw [hlen, hzero])
      rw [hempty, List.nil_append] at hblocks hrest
      rw [← h.state] at hblocks
      rw [hzero]
      exact shaBlocks_absorbed hpos hcount h.size hblocks.symm hrest.symm
    · exact shaBlocks_short hpos h ⟨rfl, rfl⟩ hcount hnil (by omega)

theorem foldlM_shaUpdate (hw : w = 32 ∨ w = 64) (pieces : List (List UInt8)) (hpieces : ∀ p ∈ pieces, p.length < 2 ^ w)
    (h : ctx.Absorbed process start xs) :
    ∃ ctx', pieces.foldlM (shaUpdate process) ctx = some ctx' ∧ ctx'.Absorbed process start (xs ++ pieces.flatten) := by
  induction pieces generalizing ctx xs with
  | nil => exact ⟨ctx, rfl, by simpa using h⟩
  | cons p pieces ih =>
    obtain ⟨ctx₁, hrun, h₁⟩ := shaUpdate_absorbed hw h (hpieces p (by simp))
    obtain ⟨ctx₂, hrest, h₂⟩ := ih (fun q hq => hpieces q (by simp [hq])) h₁
    refine ⟨ctx₂, ?_, by simpa [List.append_assoc] using h₂⟩
    rw [List.foldlM_cons, hrun]
    exact hrest

/-! ## The padding -/

theorem bytes_eq_map (n x : ℕ) : bytes n x = (List.range n).map fun k => UInt8.ofNat (x / 256 ^ (n - 1 - k)) := by
  induction n with
  | zero => rfl
  | succ n ih =>
    rw [bytes, ih, List.range_succ_eq_map, List.map_cons, List.map_map]
    congr 1
    apply List.map_congr_left
    intro k hk
    rw [Function.comp_apply, show n + 1 - 1 - (k + 1) = n - 1 - k by omega]

theorem putUintBE_eq (hw : w = 32 ∨ w = 64) (x : BitVec w) : putUintBE x = bytes (w / 8) x.toNat := by
  rw [putUintBE, bytes_eq_map]
  apply List.map_congr_left
  intro k hk
  rw [List.mem_range] at hk
  rw [BitVec.toNat_ushiftRight, Nat.shiftRight_eq_div_pow, show (256 : ℕ) = 2 ^ 8 from rfl, ← pow_mul,
    show w - 8 - 8 * k = 8 * (w / 8 - 1 - k) by omega]

theorem shaOutput_eq (hw : w = 32 ∨ w = 64) (ws : List (BitVec w)) : shaOutput ws = digest ws := by
  rw [shaOutput, digest]
  congr 1
  funext x
  exact putUintBE_eq hw x

theorem toNat_high (hw : 3 ≤ w) (x y : BitVec w) :
    ((x >>> (w - 3)) ||| (y <<< 3)).toNat = x.toNat / 2 ^ (w - 3) + 8 * (y.toNat % 2 ^ (w - 3)) := by
  have hx : x.toNat / 2 ^ (w - 3) < 2 ^ 3 := by
    apply Nat.div_lt_of_lt_mul
    rw [← pow_add, show w - 3 + 3 = w by omega]
    exact x.isLt
  have hy : y.toNat * 2 ^ 3 % 2 ^ w = y.toNat % 2 ^ (w - 3) * 2 ^ 3 := by
    rw [show 2 ^ w = 2 ^ (w - 3) * 2 ^ 3 by rw [← pow_add, show w - 3 + 3 = w by omega], Nat.mul_mod_mul_right]
  rw [BitVec.toNat_or, BitVec.toNat_ushiftRight, BitVec.toNat_shiftLeft, Nat.shiftRight_eq_div_pow, Nat.shiftLeft_eq,
    hy, Nat.or_comm, ← Nat.shiftLeft_eq, ← Nat.shiftLeft_add_eq_or_of_lt hx, Nat.shiftLeft_eq]
  omega

theorem ShaContext.Absorbed.lengthField (hw : w = 32 ∨ w = 64) (h : ctx.Absorbed process start xs) :
    putUintBE ((ctx.total0 >>> (w - 3)) ||| (ctx.total1 <<< 3)) ++ putUintBE (ctx.total0 <<< 3) =
      bytes (w / 4) (8 * xs.length) := by
  have htotal := h.total
  have h0 := ctx.total0.isLt
  have h1 := ctx.total1.isLt
  rw [show w / 4 = w / 8 + w / 8 by omega, bytes_add, putUintBE_eq hw, putUintBE_eq hw, toNat_high (by omega)]
  congr 1
  · apply bytes_congr
    rcases hw with rfl | rfl <;> norm_num at htotal h0 h1 ⊢ <;> omega
  · apply bytes_congr
    rw [BitVec.toNat_shiftLeft, Nat.shiftLeft_eq]
    rcases hw with rfl | rfl <;> norm_num at htotal h0 h1 ⊢ <;> omega

theorem copyIn_twice (front : List UInt8) {tail a b : List UInt8} (f : List UInt8 → S)
    (h : tail.length = a.length + b.length) :
    ((copyIn (front ++ tail) front.length a).bind fun buffer =>
      (copyIn buffer (front.length + a.length) b).map fun c => f c) =
      some (f (front ++ a ++ b)) := by
  have hsecond := copyIn_append (front ++ a) (tail.drop a.length) b (by rw [List.length_drop]; omega)
  rw [List.length_append] at hsecond
  rw [copyIn_append front tail a (by omega), Option.bind_some, hsecond, Option.map_some, List.drop_drop, ← h,
    List.drop_length, List.append_nil]

theorem blocks_one (hw : 0 < w) {b : List UInt8} (h : b.length = 2 * w) (s : S) :
    blocks (2 * w) process s b = process s b := by
  have hone := blocks_block process (by omega : 0 < 2 * w) h s []
  rw [List.append_nil] at hone
  rw [hone, blocks_of_lt process (by simp; omega)]

theorem ShaContext.Absorbed.hash_eq (hw : 0 < w) (h : ctx.Absorbed process start xs) :
    SecureHash.hash w process start xs = blocks (2 * w) process ctx.state
      (rest (2 * w) xs ++ (0x80 :: List.replicate (zeros w xs.length) 0 ++ bytes (w / 4) (8 * xs.length))) := by
  rw [SecureHash.hash, pad, blocks_append process (by omega), h.state]

/-- **The end of a text**: the state of the standard. -/
theorem shaFinish_of_absorbed (hw : w = 32 ∨ w = 64) (h : ctx.Absorbed process start xs) :
    shaFinish process ctx = some (SecureHash.hash w process start xs) := by
  have hlen := length_rest (n := 2 * w) xs
  have hlt : xs.length % (2 * w) < 2 * w := Nat.mod_lt _ (by omega)
  have hsplit : ctx.buffer = rest (2 * w) xs ++ ctx.buffer.drop (xs.length % (2 * w)) := by
    rw [← h.buffer, List.take_append_drop]
  have htail : (ctx.buffer.drop (xs.length % (2 * w))).length = 2 * w - xs.length % (2 * w) := by
    rw [List.length_drop, h.size]
  have hmark : copyIn ctx.buffer (xs.length % (2 * w)) [0x80] =
      some (rest (2 * w) xs ++ [0x80] ++ (ctx.buffer.drop (xs.length % (2 * w))).drop 1) := by
    have hcopy := copyIn_append (rest (2 * w) xs) (ctx.buffer.drop (xs.length % (2 * w))) [0x80]
      (by rw [htail]; simp; omega)
    rwa [← hsplit, hlen] at hcopy
  generalize ctx.buffer.drop (xs.length % (2 * w)) = tail at htail hmark
  have hfield := h.lengthField hw
  have hhigh : (putUintBE ((ctx.total0 >>> (w - 3)) ||| (ctx.total1 <<< 3))).length = w / 8 := by simp [putUintBE]
  have hlow : (putUintBE (ctx.total0 <<< 3)).length = w / 8 := by simp [putUintBE]
  rw [h.hash_eq (by omega), ← hfield]
  unfold shaFinish
  dsimp only
  rw [left_eq hw h.total, hmark, Option.bind_some]
  generalize putUintBE ((ctx.total0 >>> (w - 3)) ||| (ctx.total1 <<< 3)) = high at hhigh
  generalize putUintBE (ctx.total0 <<< 3) = low at hlow
  have hfront : (rest (2 * w) xs ++ [0x80]).length = xs.length % (2 * w) + 1 := by rw [List.length_append, hlen]; rfl
  have hfill := fun n => fill_append (rest (2 * w) xs ++ [0x80]) (tail.drop 1) (0 : UInt8) (n := n)
  rw [hfront] at hfill
  split_ifs with hfit
  · -- the length fits behind the marker
    have hz : zeros w xs.length = 2 * w - w / 4 - (xs.length % (2 * w) + 1) := by
      unfold zeros
      rcases hw with rfl | rfl <;> omega
    rw [hfill _ (by rw [List.length_drop]; omega), ← hz, Option.map_some, Option.bind_some]
    generalize hF : rest (2 * w) xs ++ [0x80] ++ List.replicate (zeros w xs.length) 0 = front
    have hsize : front.length = 2 * w - w / 4 := by
      rw [← hF, List.length_append, hfront, List.length_replicate, hz]
      omega
    have hrest : ((tail.drop 1).drop (zeros w xs.length)).length = high.length + low.length := by
      simp only [List.length_drop]
      omega
    have htwice := copyIn_twice front (fun c => process ctx.state c) hrest
    rw [hsize, hhigh] at htwice
    dsimp only
    rw [htwice]
    have hblock : rest (2 * w) xs ++ (0x80 :: List.replicate (zeros w xs.length) 0 ++ (high ++ low)) =
        front ++ high ++ low := by
      rw [← hF]
      simp
    rw [hblock, blocks_one (by omega)]
    simp only [List.length_append]
    omega
  · -- the length stands in a block of its own
    have hz : zeros w xs.length = 2 * w - (xs.length % (2 * w) + 1) + (2 * w - w / 4) := by
      unfold zeros
      rcases hw with rfl | rfl <;> omega
    rw [hfill _ (by rw [List.length_drop]; omega), Option.bind_some]
    generalize hF : rest (2 * w) xs ++ [0x80] ++ List.replicate (2 * w - (xs.length % (2 * w) + 1)) 0 = front
    have hsize : front.length = 2 * w := by
      rw [← hF, List.length_append, hfront, List.length_replicate]
      omega
    rw [List.drop_of_length_le (i := 2 * w - (xs.length % (2 * w) + 1)) (by simp only [List.length_drop]; omega),
      List.append_nil]
    have hclear := fill_append [] front (0 : UInt8) (n := 2 * w - w / 4) (by omega)
    rw [List.nil_append, List.length_nil, List.nil_append] at hclear
    rw [hclear, Option.map_some, Option.bind_some]
    have hrest : (front.drop (2 * w - w / 4)).length = high.length + low.length := by
      simp only [List.length_drop]
      omega
    have htwice := copyIn_twice (List.replicate (2 * w - w / 4) 0) (fun c => process (process ctx.state front) c) hrest
    rw [List.length_replicate, hhigh] at htwice
    dsimp only
    rw [htwice]
    have hblock : rest (2 * w) xs ++ (0x80 :: List.replicate (zeros w xs.length) 0 ++ (high ++ low)) =
        front ++ (List.replicate (2 * w - w / 4) 0 ++ high ++ low) := by
      rw [← hF, hz, List.replicate_add]
      simp only [List.append_assoc, List.cons_append, List.nil_append]
    rw [hblock, blocks_block process (by omega) hsize, blocks_one (by omega)]
    simp only [List.length_append, List.length_replicate]
    omega

theorem shaStream_eq (hw : w = 32 ∨ w = 64) (hctx : ctx.buffer.length = 2 * w) (pieces : List (List UInt8))
    (hpieces : ∀ p ∈ pieces, p.length < 2 ^ w) :
    shaStream process start pieces ctx = some (SecureHash.hash w process start pieces.flatten) := by
  have hstart : (shaStarts ctx start).Absorbed process start [] := by
    refine ⟨?_, ?_, hctx, ?_⟩
    · simp [shaStarts]
    · rw [blocks_of_lt process (by simp; omega)]
      rfl
    · simp [rest]
  obtain ⟨ctx', hrun, h⟩ := foldlM_shaUpdate hw pieces hpieces hstart
  rw [List.nil_append] at h
  rw [shaStream, hrun, Option.bind_some, shaFinish_of_absorbed hw h]

end Context

/-! ## The start values -/

theorem sha256State_false : sha256State false = Sha2.start 32 0 := by
  apply Sha2.eq_start
  rw [primes_eq]
  decide +kernel

theorem sha512State_eq (is384 : Bool) : sha512State is384 = Sha2.start 64 (if is384 then 8 else 0) := by
  apply Sha2.eq_start
  rw [primes_eq]
  cases is384 <;> decide +kernel

theorem sha256State_true : sha256State true = sha224Start := by
  rw [sha224Start, ← show sha512State true = Sha2.start 64 8 from sha512State_eq true]
  rfl

/-! ## The digests -/

/-- **SHA-1**: the digest of the concatenation of the pieces. -/
theorem mbedtlsSha1_stream {ctx : ShaContext 32 (Regs5 32)} (hctx : ctx.buffer.length = 64) (pieces : List (List UInt8))
    (hpieces : ∀ p ∈ pieces, p.length < 2 ^ 32) : mbedtlsSha1 pieces ctx = some (sha1Digest pieces.flatten) := by
  rw [mbedtlsSha1, shaStream_eq (Or.inl rfl) hctx pieces hpieces, sha1Process_eq, Option.map_some,
    shaOutput_eq (Or.inl rfl)]
  rfl

theorem mbedtlsSha1_stream_abc :
    mbedtlsSha1 [lit "ab", [], lit "c"] (shaInit 32 sha1State) = some (sha1Digest (lit "abc")) :=
  mbedtlsSha1_stream rfl [lit "ab", [], lit "c"] (by decide)

/-- **SHA-256 and SHA-224**. -/
theorem mbedtlsSha256_stream (is224 : Bool) {ctx : ShaContext 32 (Regs8 32)} (hctx : ctx.buffer.length = 64)
    (pieces : List (List UInt8)) (hpieces : ∀ p ∈ pieces, p.length < 2 ^ 32) :
    mbedtlsSha256 is224 pieces ctx = some ((if is224 then sha224Digest else sha256Digest) pieces.flatten) := by
  rw [mbedtlsSha256, shaStream_eq (Or.inl rfl) hctx pieces hpieces, sha256Process_eq, Option.map_some,
    shaOutput_eq (Or.inl rfl)]
  cases is224 with
  | false => rw [sha256State_false]; rfl
  | true => rw [sha256State_true]; rfl

theorem mbedtlsSha256_stream_abc :
    mbedtlsSha256 true [lit "ab", [], lit "c"] (shaInit 32 (sha256State false)) = some (sha224Digest (lit "abc")) :=
  mbedtlsSha256_stream true rfl [lit "ab", [], lit "c"] (by decide)

/-- **SHA-512 and SHA-384**. -/
theorem mbedtlsSha512_stream (is384 : Bool) {ctx : ShaContext 64 (Regs8 64)} (hctx : ctx.buffer.length = 128)
    (pieces : List (List UInt8)) (hpieces : ∀ p ∈ pieces, p.length < 2 ^ 64) :
    mbedtlsSha512 is384 pieces ctx = some ((if is384 then sha384Digest else sha512Digest) pieces.flatten) := by
  rw [mbedtlsSha512, shaStream_eq (Or.inr rfl) hctx pieces hpieces, sha512Process_eq, Option.map_some,
    shaOutput_eq (Or.inr rfl), sha512State_eq]
  cases is384 <;> rfl

theorem mbedtlsSha512_stream_abc :
    mbedtlsSha512 false [lit "ab", [], lit "c"] (shaInit 64 (sha512State true)) = some (sha512Digest (lit "abc")) :=
  mbedtlsSha512_stream false rfl [lit "ab", [], lit "c"] (by decide)

/-! ## The Lua functions -/

theorem length_cstr_le (s : List UInt8) : (cstr s).length ≤ s.length :=
  (List.takeWhile_prefix _).length_le

theorem length_piece_lt {str : List UInt8} {n : ℕ} (h : str.length < n) : ∀ p ∈ [cstr str], p.length < n := by
  simpa using (length_cstr_le str).trans_lt h

theorem luaSha1_eq {str : List UInt8} (h : str.length < 2 ^ 32) :
    luaSha1 str = some (hexText (sha1Digest (cstr str))) := by
  rw [luaSha1, mbedtlsSha1, shaStream_eq (Or.inl rfl) List.length_replicate [cstr str] (length_piece_lt h),
    sha1Process_eq, Option.map_some, shaOutput_eq (Or.inl rfl), List.flatten_singleton]
  rfl

theorem luaSha256_eq {str : List UInt8} (h : str.length < 2 ^ 32) :
    luaSha256 str = some (hexText (sha256Digest (cstr str))) := by
  rw [luaSha256, mbedtlsSha256, shaStream_eq (Or.inl rfl) List.length_replicate [cstr str] (length_piece_lt h),
    sha256Process_eq, Option.map_some, shaOutput_eq (Or.inl rfl), List.flatten_singleton, sha256State_false]
  rfl

theorem luaSha512_eq {str : List UInt8} (h : str.length < 2 ^ 64) :
    luaSha512 str = some (hexText (sha512Digest (cstr str))) := by
  rw [luaSha512, mbedtlsSha512, shaStream_eq (Or.inr rfl) List.length_replicate [cstr str] (length_piece_lt h),
    sha512Process_eq, Option.map_some, shaOutput_eq (Or.inr rfl), List.flatten_singleton, sha512State_eq]
  rfl

example : luaSha1 (lit "abc") = some (lit "a9993e364706816aba3e25717850c26c9cd0d89d") := by decide +kernel

end Sarah
