import SarahClient.Bloom.Hash
import SarahClient.Lib.BitBlock
import SarahClient.Lib.Machine

/-!
# The Bloom filter of `cel_bloomfilter.c`

`char` is read as an unsigned byte: the bit macros see the same bits.

* `Bloom`, `internalHashFunctions`, `celBloomfilterInit`;
* `bitNumber`: the bit of one hash function; `celBloomfilterAdd`, `celBloomfilterExists`;
* `Bloom.positions`, `Bloom.Valid`: the bits of a string, and the filters that `init` makes;
* **`bloomfilter_no_false_negatives`**: strings that were added are found.
-/

namespace Sarah

open BitBlock Machine

/-- `cel_bloomfilter_t`. -/
structure Bloom where
  length : ℕ
  size : ℕ
  str : List UInt8
  hfuncs : List (List UInt8 → ℕ)
  hsize : ℕ

/-- `internal_hash_funcs`. -/
def internalHashFuncs : ℤ := 12

/-- The functions before the terminating `NULL`. -/
def internalHashFunctions : List (List UInt8 → ℕ) :=
  [celBkdrHash, celFnvHash, celFnv1aHash, celApHash, celDjpHash, celDjp2Hash, celJsHash, celSdmsHash, celRsHash,
    celDekHash, celElfHash, celBobJenkins32Hash]

/-- `__bytes` as the `size_t` that `cel_calloc` and `memset` take. -/
def bloomBytes (length : ℤ) : ℕ := ((i32 (length + 7)).tdiv 8 % 2 ^ 64).toNat

/-- `cel_bloomfilter_init`; `calloc` says whether the allocation succeeds. -/
def celBloomfilterInit (calloc : Bool) (length hfuncs : ℤ) : ℤ × Option Bloom :=
  if calloc then
    (1, some ⟨(length % 2 ^ 32).toNat, 0, List.replicate (bloomBytes length) 0, internalHashFunctions,
      ((if internalHashFuncs < hfuncs then internalHashFuncs else hfuncs) % 2 ^ 32).toNat⟩)
  else (0, none)

/-- `bloom->hfuncs[i](str) % bloom->length`; `none` behind the table and for a length of 0. -/
def bitNumber (bloom : Bloom) (str : List UInt8) (i : ℕ) : Option ℕ :=
  bloom.hfuncs[i]?.bind fun h => if bloom.length = 0 then none else some (h (cstr str) % bloom.length)

/-- The loop of `cel_bloomfilter_add`, with `k` rounds left. -/
def addLoop (bloom : Bloom) (str : List UInt8) : ℕ → ℕ → List UInt8 → Option (List UInt8)
  | 0, _, b => some b
  | k + 1, i, b => (bitNumber bloom str i).bind fun n => (setBit b n).bind (addLoop bloom str k (i + 1))

/-- `cel_bloomfilter_add`. -/
def celBloomfilterAdd (bloom : Bloom) (str : List UInt8) : Option (Bloom × ℤ) :=
  if bloom.hsize = 0 then some (bloom, 0)
  else (addLoop bloom str bloom.hsize 0 bloom.str).map fun b =>
    ({ bloom with str := b, size := u32 (bloom.size + 1) }, 1)

/-- The loop of `cel_bloomfilter_exists`, with `k` rounds left. -/
def existsLoop (bloom : Bloom) (str : List UInt8) : ℕ → ℕ → Option ℤ
  | 0, _ => some 1
  | k + 1, i =>
    (bitNumber bloom str i).bind fun n => (getBit bloom.str n).bind fun set =>
      if set then existsLoop bloom str k (i + 1) else some 0

/-- `cel_bloomfilter_exists`. -/
def celBloomfilterExists (bloom : Bloom) (str : List UInt8) : Option ℤ :=
  if bloom.hsize = 0 then some 0 else existsLoop bloom str bloom.hsize 0

/-! ## The positions of a string -/

/-- The bits of a string, from the function `i` on. -/
def Bloom.positionsFrom (bloom : Bloom) (i : ℕ) (str : List UInt8) : Set ℕ :=
  {n | ∃ j, i ≤ j ∧ j < bloom.hsize ∧ bitNumber bloom str j = some n}

/-- The bits of a string. -/
def Bloom.positions (bloom : Bloom) : List UInt8 → Set ℕ := bloom.positionsFrom 0

/-- Filters that can be used: the functions are there and their bits lie in the array. -/
structure Bloom.Valid (bloom : Bloom) : Prop where
  pos : 0 < bloom.length
  fits : bloom.length ≤ 8 * bloom.str.length
  some : 0 < bloom.hsize
  table : bloom.hsize ≤ bloom.hfuncs.length

theorem bitNumber_of_valid {bloom : Bloom} (hv : bloom.Valid) {i : ℕ} (hi : i < bloom.hsize) (str : List UInt8) :
    ∃ n, bitNumber bloom str i = some n ∧ n < bloom.length := by
  have hlt : i < bloom.hfuncs.length := Nat.lt_of_lt_of_le hi hv.table
  refine ⟨_, ?_, Nat.mod_lt (bloom.hfuncs[i] (cstr str)) hv.pos⟩
  rw [bitNumber, List.getElem?_eq_getElem hlt, Option.bind_some, if_neg hv.pos.ne']

theorem positionsFrom_succ {bloom : Bloom} {str : List UInt8} {i n : ℕ} (hi : i < bloom.hsize)
    (hn : bitNumber bloom str i = some n) : bloom.positionsFrom i str = insert n (bloom.positionsFrom (i + 1) str) := by
  ext m
  constructor
  · rintro ⟨j, hij, hj, hm⟩
    rcases Nat.eq_or_lt_of_le hij with rfl | hij
    · rw [hn] at hm
      exact Or.inl (Option.some.inj hm).symm
    · exact Or.inr ⟨j, hij, hj, hm⟩
  · rintro (rfl | ⟨j, hij, hj, hm⟩)
    · exact ⟨i, Nat.le_refl i, hi, hn⟩
    · exact ⟨j, by omega, hj, hm⟩

theorem positionsFrom_end {bloom : Bloom} (str : List UInt8) {i : ℕ} (hi : bloom.hsize ≤ i) :
    bloom.positionsFrom i str = ∅ :=
  Set.eq_empty_of_forall_notMem fun _ ⟨_, hij, hj, _⟩ => by omega

theorem addLoop_spec {bloom : Bloom} (hv : bloom.Valid) (str : List UInt8) : ∀ (k i : ℕ) (b : List UInt8),
    i + k = bloom.hsize → b.length = bloom.str.length →
      ∃ b', addLoop bloom str k i b = some b' ∧ b'.length = b.length ∧ bits b' = bits b ∪ bloom.positionsFrom i str
  | 0, i, b, hik, _ => ⟨b, rfl, rfl, by rw [positionsFrom_end str (by omega), Set.union_empty]⟩
  | k + 1, i, b, hik, hb => by
    have hi : i < bloom.hsize := by omega
    obtain ⟨n, hn, hlt⟩ := bitNumber_of_valid hv hi str
    obtain ⟨b₁, hset, hlen, hbits⟩ := setBit_spec (b := b) (n := n) (by have := hv.fits; omega)
    obtain ⟨b₂, hloop, hlen₂, hbits₂⟩ := addLoop_spec hv str k (i + 1) b₁ (by omega) (hlen.trans hb)
    refine ⟨b₂, ?_, hlen₂.trans hlen, ?_⟩
    · rw [addLoop, hn, Option.bind_some, hset, Option.bind_some, hloop]
    · rw [hbits₂, positionsFrom_succ hi hn]
      ext m
      simp only [Set.mem_union, Set.mem_insert_iff, hbits m]
      tauto

theorem existsLoop_spec {bloom : Bloom} (hv : bloom.Valid) (str : List UInt8) : ∀ (k i : ℕ), i + k = bloom.hsize →
    bloom.positionsFrom i str ⊆ bits bloom.str → existsLoop bloom str k i = some 1
  | 0, _, _, _ => rfl
  | k + 1, i, hik, hsub => by
    have hi : i < bloom.hsize := by omega
    obtain ⟨n, hn, -⟩ := bitNumber_of_valid hv hi str
    rw [positionsFrom_succ hi hn, Set.insert_subset_iff] at hsub
    have hget : getBit bloom.str n = some true := hsub.1
    rw [existsLoop, hn, Option.bind_some, hget, Option.bind_some, if_pos rfl]
    exact existsLoop_spec hv str k (i + 1) (by omega) hsub.2

/-! ## Filters -/

theorem bloomBytes_fits {length : ℤ} (h₁ : 0 < length) (h₂ : length < 2 ^ 31) : length ≤ 8 * bloomBytes length := by
  unfold bloomBytes
  by_cases h : length + 7 < 2 ^ 31
  · rw [i32_of_range (by omega) h, Int.tdiv_eq_ediv_of_nonneg (by omega)]
    omega
  · -- the sum overflows, and `__bytes` is a huge `size_t`
    have hwrap : i32 (length + 7) = length + 7 - 2 ^ 32 := by
      unfold i32
      omega
    have hneg : (length + 7 - 2 ^ 32).tdiv 8 = -((2 ^ 32 - 7 - length) / 8) := by
      rw [← Int.tdiv_eq_ediv_of_nonneg (by omega), ← Int.neg_tdiv]
      congr 1
      ring
    rw [hwrap, hneg]
    omega

theorem valid_of_init {calloc : Bool} {length hfuncs : ℤ} (hlen : 0 < length) (hlen' : length < 2 ^ 31)
    (hf : 1 ≤ hfuncs) {r : ℤ} {bloom : Bloom} (h : celBloomfilterInit calloc length hfuncs = (r, some bloom)) :
    bloom.Valid ∧ bits bloom.str = ∅ := by
  unfold celBloomfilterInit at h
  by_cases hc : calloc = true
  swap
  · rw [if_neg hc] at h
    cases h
  rw [if_pos hc] at h
  cases h
  have hfits := bloomBytes_fits hlen hlen'
  have hempty : bits (List.replicate (bloomBytes length) 0) = ∅ := by
    refine Set.eq_empty_of_forall_notMem fun n hn => ?_
    have hget : getBit (List.replicate (bloomBytes length) 0) n = some true := hn
    rw [getBit, List.getElem?_replicate] at hget
    split_ifs at hget
    · simp at hget
    · cases hget
  refine ⟨⟨?_, ?_, ?_, ?_⟩, hempty⟩
  · dsimp only
    omega
  · rw [List.length_replicate]
    dsimp only
    omega
  · dsimp only [internalHashFuncs]
    split_ifs <;> omega
  · have htable : internalHashFunctions.length = 12 := rfl
    rw [htable]
    dsimp only [internalHashFuncs]
    split_ifs <;> omega

/-- **One call of `add`** marks the bits of its string. -/
theorem celBloomfilterAdd_spec {bloom : Bloom} (hv : bloom.Valid) (str : List UInt8) :
    ∃ bloom', celBloomfilterAdd bloom str = some (bloom', 1) ∧ bloom'.Valid ∧ bloom'.positions = bloom.positions ∧
      bits bloom'.str = Marks.add bloom.positions (bits bloom.str) str := by
  obtain ⟨b, hloop, hlen, hbits⟩ := addLoop_spec hv str bloom.hsize 0 bloom.str (Nat.zero_add _) rfl
  refine ⟨{ bloom with str := b, size := u32 (bloom.size + 1) }, ?_, ⟨hv.pos, ?_, hv.some, hv.table⟩, rfl, hbits⟩
  · rw [celBloomfilterAdd, if_neg hv.some.ne', hloop, Option.map_some]
  · rw [hlen]
    exact hv.fits

theorem celBloomfilterExists_of_has {bloom : Bloom} (hv : bloom.Valid) {str : List UInt8}
    (h : Marks.Has bloom.positions (bits bloom.str) str) : celBloomfilterExists bloom str = some 1 := by
  rw [celBloomfilterExists, if_neg hv.some.ne']
  exact existsLoop_spec hv str bloom.hsize 0 (Nat.zero_add _) h

/-- **Runs of `add`.** -/
theorem exec_add {bloom : Bloom} (hv : bloom.Valid) (strs : List (List UInt8)) :
    ∃ bloom', exec celBloomfilterAdd bloom strs = some (bloom', List.replicate strs.length 1) ∧ bloom'.Valid ∧
      bloom'.positions = bloom.positions ∧
        bits bloom'.str = strs.foldl (Marks.add bloom.positions) (bits bloom.str) := by
  induction strs generalizing bloom with
  | nil => exact ⟨bloom, rfl, hv, rfl, rfl⟩
  | cons str strs ih =>
    obtain ⟨bloom₁, hadd, hv₁, hpos₁, hbits₁⟩ := celBloomfilterAdd_spec hv str
    obtain ⟨bloom₂, hrun, hv₂, hpos₂, hbits₂⟩ := ih hv₁
    refine ⟨bloom₂, ?_, hv₂, hpos₂.trans hpos₁, ?_⟩
    · rw [exec_cons_of_step hadd, hrun]
      rfl
    · rw [hbits₂, hpos₁, hbits₁]
      rfl

/-- **No false negatives.** From a new filter any calls of `add` succeed; every bit they compute is inside the array,
none of them clears a bit, and afterwards all their strings are reported. -/
theorem bloomfilter_no_false_negatives {calloc : Bool} {length hfuncs : ℤ} (hlen : 0 < length)
    (hlen' : length < 2 ^ 31) (hf : 1 ≤ hfuncs) {bloom : Bloom}
    (hinit : celBloomfilterInit calloc length hfuncs = (1, some bloom)) (strs : List (List UInt8)) :
    ∃ bloom', exec celBloomfilterAdd bloom strs = some (bloom', List.replicate strs.length 1) ∧
      (∀ str i, i < bloom'.hsize → ∃ n, bitNumber bloom' str i = some n ∧ n < 8 * bloom'.str.length) ∧
      (∀ str, ∃ bloom'', celBloomfilterAdd bloom' str = some (bloom'', 1) ∧ bits bloom'.str ⊆ bits bloom''.str) ∧
      ∀ str ∈ strs, celBloomfilterExists bloom' str = some 1 := by
  obtain ⟨hv, -⟩ := valid_of_init hlen hlen' hf hinit
  obtain ⟨bloom', hrun, hv', hpos, hbits⟩ := exec_add hv strs
  refine ⟨bloom', hrun, fun str i hi => ?_, fun str => ?_, fun str hstr => ?_⟩
  · obtain ⟨n, hn, hlt⟩ := bitNumber_of_valid hv' hi str
    exact ⟨n, hn, Nat.lt_of_lt_of_le hlt hv'.fits⟩
  · obtain ⟨bloom'', hadd, -, -, hbits'⟩ := celBloomfilterAdd_spec hv' str
    refine ⟨bloom'', hadd, ?_⟩
    rw [hbits']
    exact Set.subset_union_left
  · refine celBloomfilterExists_of_has hv' ?_
    rw [hbits, hpos]
    exact Marks.has_foldl bloom.positions hstr (bits bloom.str)

/-- The filter of 100 bits with four hash functions. -/
def bloom100 : Bloom := ⟨100, 0, List.replicate 13 0, internalHashFunctions, 4⟩

theorem bloomfilter_no_false_negatives_two :
    ∃ bloom', exec celBloomfilterAdd bloom100 [lit "sarah", []] = some (bloom', [1, 1]) ∧
      (∀ str i, i < bloom'.hsize → ∃ n, bitNumber bloom' str i = some n ∧ n < 8 * bloom'.str.length) ∧
      (∀ str, ∃ bloom'', celBloomfilterAdd bloom' str = some (bloom'', 1) ∧ bits bloom'.str ⊆ bits bloom''.str) ∧
      ∀ str ∈ [lit "sarah", []], celBloomfilterExists bloom' str = some 1 :=
  bloomfilter_no_false_negatives (by decide) (by decide) (by decide)
    (show celBloomfilterInit true 100 4 = (1, some bloom100) from rfl) [lit "sarah", []]

end Sarah
