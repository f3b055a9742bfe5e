import SarahClient.CInt
import SarahClient.Lib.BitBlock
import Mathlib.Data.List.Nodup

/-!
# The bit copy of `cel_stdio.c`

The indices are of type `unsigned int`, so `start + i` and `idx + i` wrap around. The buffers are disjoint.

* `memStoreLoop`, `celMemStore`: the copy, bit by bit; `BitCopy`: what it should leave;
* `memStoreLoop_eq`: the loop writes the bits of the source that it reads;
* **`celMemStore_copies`**: the bits at the indices as unsigned ints are copied, and all others are kept.
-/

namespace Sarah

open BitBlock

/-- The loop with `k` rounds left. -/
def memStoreLoop (src : List UInt8) (start idx : UInt32) : ℕ → UInt32 → List UInt8 → Option (List UInt8)
  | 0, _, dst => some dst
  | k + 1, i, dst =>
    (getBit src (start + i).toNat).bind fun bit =>
      (if bit then setBit dst (idx + i).toNat else clearBit dst (idx + i).toNat).bind fun dst =>
        memStoreLoop src start idx k (i + 1) dst

/-- `cel_mem_store`. -/
def celMemStore (src : List UInt8) (start bits : UInt32) (dst : List UInt8) (idx : UInt32) : Option (List UInt8) :=
  memStoreLoop src start idx bits.toNat 0 dst

/-- Bit `target i` of the destination is bit `source i` of the source, and every other bit is unchanged. -/
structure BitCopy (src dst dst' : List UInt8) (bits : ℕ) (source target : ℕ → ℕ) : Prop where
  copied : ∀ i < bits, getBit dst' (target i) = getBit src (source i)
  frame : ∀ m, (∀ i < bits, m ≠ target i) → getBit dst' m = getBit dst m

theorem BitCopy.congr {src dst dst' : List UInt8} {bits : ℕ} {source target source' target' : ℕ → ℕ}
    (h : BitCopy src dst dst' bits source target) (hsource : ∀ i < bits, source i = source' i)
    (htarget : ∀ i < bits, target i = target' i) : BitCopy src dst dst' bits source' target' := by
  refine ⟨fun i hi => ?_, fun m hm => h.frame m fun i hi => ?_⟩
  · rw [← htarget i hi, ← hsource i hi]
    exact h.copied i hi
  · rw [htarget i hi]
    exact hm i hi

variable {src dst : List UInt8} {start bits idx : UInt32}

/-! ## The loop -/

theorem toNat_add_ofNat (n : UInt32) (i : ℕ) : (n + UInt32.ofNat i).toNat = u32 (n.toNat + i) := by
  rw [UInt32.toNat_add, UInt32.toNat_ofNat', Nat.add_mod_mod, u32]

/-- The writes of `k` rounds from `i` on. -/
def storedBits (src : List UInt8) (start idx : UInt32) (i k : ℕ) : List (ℕ × Bool) :=
  (List.range' i k).map fun j => (u32 (idx.toNat + j), (getBit src (u32 (start.toNat + j))).getD false)

theorem memStoreLoop_eq : ∀ {k i : ℕ} {dst : List UInt8}, (∀ j < i + k, u32 (start.toNat + j) < 8 * src.length) →
    memStoreLoop src start idx k (UInt32.ofNat i) dst = writeBits dst (storedBits src start idx i k)
  | 0, _, _, _ => rfl
  | k + 1, i, dst, hsrc => by
    have hnext : UInt32.ofNat i + 1 = UInt32.ofNat (i + 1) := (UInt32.ofNat_add i 1).symm
    have hread : getBit src (u32 (start.toNat + i)) = some ((getBit src (u32 (start.toNat + i))).getD false) :=
      getBit_eq_some (hsrc i (by omega))
    rw [memStoreLoop, toNat_add_ofNat, toNat_add_ofNat, hread, Option.bind_some, hnext, storedBits, List.range'_succ,
      List.map_cons, writeBits]
    have hrest : ∀ dst, memStoreLoop src start idx k (UInt32.ofNat (i + 1)) dst =
        writeBits dst (storedBits src start idx (i + 1) k) := fun dst => memStoreLoop_eq fun j hj => hsrc j (by omega)
    exact congrArg (Option.bind _) (funext hrest)

theorem nodup_storedBits {k : ℕ} (hk : k < 2 ^ 32) : ((storedBits src start idx 0 k).map Prod.fst).Nodup := by
  rw [storedBits, List.map_map]
  refine List.Nodup.map_on ?_ List.nodup_range'
  intro i hi j hj heq
  rw [List.mem_range'_1] at hi hj
  have heq : u32 (idx.toNat + i) = u32 (idx.toNat + j) := heq
  unfold u32 at heq
  omega

theorem celMemStore_spec (hsrc : start.toNat + bits.toNat ≤ 8 * src.length)
    (hdst : idx.toNat + bits.toNat ≤ 8 * dst.length) :
    ∃ dst', celMemStore src start bits dst idx = some dst' ∧ dst'.length = dst.length ∧
      BitCopy src dst dst' bits.toNat (fun i => u32 (start.toNat + i)) (fun i => u32 (idx.toNat + i)) := by
  have hread : ∀ i < bits.toNat, u32 (start.toNat + i) < 8 * src.length := fun i hi =>
    (Nat.mod_le _ _).trans_lt (by omega)
  have hin : ∀ w ∈ storedBits src start idx 0 bits.toNat, w.1 < 8 * dst.length := by
    intro w hw
    obtain ⟨i, hi, rfl⟩ := List.mem_map.mp hw
    rw [List.mem_range'_1] at hi
    exact (Nat.mod_le _ _).trans_lt (by omega)
  obtain ⟨dst', hwrites, hlen, hvalues, hframe⟩ := writeBits_spec (nodup_storedBits bits.toNat_lt) hin
  have hloop : celMemStore src start bits dst idx = writeBits dst (storedBits src start idx 0 bits.toNat) :=
    @memStoreLoop_eq src start idx bits.toNat 0 dst fun i hi => hread i (by omega)
  refine ⟨dst', hloop.trans hwrites, hlen, fun i hi => ?_, fun m hm => hframe m fun hmem => ?_⟩
  · have hmem : (u32 (idx.toNat + i), (getBit src (u32 (start.toNat + i))).getD false) ∈
        storedBits src start idx 0 bits.toNat :=
      List.mem_map.mpr ⟨i, List.mem_range'_1.mpr ⟨Nat.zero_le i, by omega⟩, rfl⟩
    rw [hvalues _ hmem]
    exact (getBit_eq_some (hread i hi)).symm
  · rw [storedBits, List.map_map] at hmem
    obtain ⟨i, hi, rfl⟩ := List.mem_map.mp hmem
    rw [List.mem_range'_1] at hi
    exact hm i (by omega) rfl

/-- **The copy.** The bits at the indices as unsigned ints are copied, and no other changes; where no index wraps around
these are the bits from `start` and from `idx` on. -/
theorem celMemStore_copies (hsrc : start.toNat + bits.toNat ≤ 8 * src.length)
    (hdst : idx.toNat + bits.toNat ≤ 8 * dst.length) :
    ∃ dst', celMemStore src start bits dst idx = some dst' ∧ dst'.length = dst.length ∧
      BitCopy src dst dst' bits.toNat (fun i => u32 (start.toNat + i)) (fun i => u32 (idx.toNat + i)) ∧
      (start.toNat + bits.toNat ≤ 2 ^ 32 → idx.toNat + bits.toNat ≤ 2 ^ 32 →
        BitCopy src dst dst' bits.toNat (start.toNat + ·) (idx.toNat + ·)) := by
  obtain ⟨dst', hcall, hlen, hcopy⟩ := celMemStore_spec hsrc hdst
  refine ⟨dst', hcall, hlen, hcopy, fun hstart hidx => hcopy.congr (fun i hi => ?_) fun i hi => ?_⟩
  · exact u32_of_lt (by omega)
  · exact u32_of_lt (by omega)

/-- Three bits from bit 2 of a byte, over the border of two bytes. -/
theorem celMemStore_copies_three : ∃ dst', celMemStore [0xB4] 2 3 [0x00, 0xFF] 7 = some dst' ∧ dst'.length = 2 ∧
    BitCopy [0xB4] [0x00, 0xFF] dst' 3 (fun i => u32 (2 + i)) (fun i => u32 (7 + i)) ∧
      (2 + 3 ≤ 2 ^ 32 → 7 + 3 ≤ 2 ^ 32 → BitCopy [0xB4] [0x00, 0xFF] dst' 3 (2 + ·) (7 + ·)) :=
  @celMemStore_copies [0xB4] [0x00, 0xFF] 2 3 7 (by decide) (by decide)

theorem getBit_zeros {n : ℕ} (hn : 0 < n) (c : UInt8) : getBit (List.replicate n 0 ++ [c]) 0 = some false := by
  rw [getBit, Nat.zero_div, List.getElem?_append_left (by rwa [List.length_replicate]), List.getElem?_replicate,
    if_pos hn]
  rfl

theorem getBit_behind_zeros (n : ℕ) : getBit (List.replicate n 0 ++ [1]) (8 * n) = some true := by
  rw [getBit, Nat.mul_div_cancel_left n (by decide), List.getElem?_append_right (by rw [List.length_replicate]),
    List.length_replicate, Nat.sub_self, List.getElem?_cons_zero, Option.map_some, Option.some.injEq, decide_eq_true_eq,
    and_mask_ne_zero_iff, Nat.mul_mod_right]
  rfl

/-- Two bits from bit `2^32 - 1` on, of `2^32` zeros and a one: the second one is read at bit 0. -/
theorem not_celMemStore : ¬ ∀ (src dst : List UInt8) (start bits idx : UInt32),
    start.toNat + bits.toNat ≤ 8 * src.length → idx.toNat + bits.toNat ≤ 8 * dst.length →
      ∃ dst', celMemStore src start bits dst idx = some dst' ∧
        BitCopy src dst dst' bits.toNat (start.toNat + ·) (idx.toNat + ·) := by
  intro h
  obtain ⟨n, hn⟩ : ∃ n : ℕ, n = 2 ^ 29 := ⟨_, rfl⟩
  have hsrc : (0xFFFFFFFF : UInt32).toNat + (2 : UInt32).toNat ≤ 8 * (List.replicate n (0 : UInt8) ++ [1]).length := by
    rw [List.length_append, List.length_replicate, List.length_singleton,
      show (0xFFFFFFFF : UInt32).toNat = 2 ^ 32 - 1 from rfl, show (2 : UInt32).toNat = 2 from rfl]
    omega
  have hdst : (0 : UInt32).toNat + (2 : UInt32).toNat ≤ 8 * [(0 : UInt8)].length := by decide
  obtain ⟨dst', hcall, hcopy⟩ := h _ _ _ _ _ hsrc hdst
  obtain ⟨dst'', hcall', -, hcopy'⟩ := celMemStore_spec hsrc hdst
  obtain rfl : dst' = dst'' := Option.some.inj (hcall.symm.trans hcall')
  have hread := (hcopy.copied 1 (by decide)).symm.trans (hcopy'.copied 1 (by decide))
  have hbehind : (0xFFFFFFFF : UInt32).toNat + 1 = 8 * n := by
    rw [hn]
    rfl
  have hwrap : u32 ((0xFFFFFFFF : UInt32).toNat + 1) = 0 := rfl
  rw [hbehind, getBit_behind_zeros, ← hbehind, hwrap, getBit_zeros (by omega)] at hread
  cases hread

end Sarah
