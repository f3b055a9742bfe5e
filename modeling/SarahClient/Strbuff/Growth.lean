import SarahClient.Strbuff.InsertChar

/-!
# Growing a buffer by very large lengths

`size + len` is an unsigned 32-bit sum; it is doubled there and passed on as an `int`.

* `GrowsOrFails`: what the room check is for; `GrowthSafe`: the sums where the arithmetic does it;
* `growFor_safe`, `growFor_wraps`: every outcome of the room check;
* **`growth_iff`**: when the two copying calls keep inside the buffer.
-/

namespace Sarah

open Block

/-- The call reports failure and leaves the buffer as it was, or succeeds with a capacity above the old size plus
`len`. -/
def GrowsOrFails (sb : Strbuff) (len : ℕ) (call : Option (ℤ × Strbuff)) : Prop :=
  ∃ q, call = some q ∧ (q.1 = 0 ∧ q.2 = sb ∨ q.1 = 1 ∧ sb.size + len < q.2.opacity)

/-- The new size is an `int`; or it has 32 bits, and `2 * s + 1` wraps to a negative `int` or to a small block that is
refused. -/
def GrowthSafe (mem : ℕ → Bool) (s : ℕ) : Prop :=
  s < 2 ^ 31 ∨ s < 2 ^ 32 ∧ (3 * 2 ^ 30 ≤ s ∨ mem (2 * s + 1 - 2 ^ 32) = false)

variable {mem : ℕ → Bool} {xs : List UInt8} {cap len : ℕ}

/-! ## The room check -/

theorem createBuffer_neg {n : ℤ} (hn : n < 0) : createBuffer mem n = none := if_neg fun h => absurd h.1 (not_le.mpr hn)

theorem createBuffer_refused {n : ℕ} (hmem : mem n = false) : createBuffer mem (n : ℤ) = none := by
  rw [createBuffer, Int.toNat_natCast, hmem]
  exact if_neg fun h => absurd h.2 Bool.false_ne_true

theorem resizeBuffer_of_none {sb : Strbuff} {n : ℤ} (h : createBuffer mem n = none) :
    resizeBuffer mem sb n = some (0, sb) := by
  rw [resizeBuffer, h]

theorem resizeBuffer_served {n : ℕ} (hmem : mem n = true) (hcap : xs.length ≤ cap) (hn : n < 2 ^ 31) :
    ∃ r, resizeBuffer mem (Strbuff.of xs cap) (n : ℤ) = some (1, r) ∧ Grown xs r := by
  obtain ⟨r, hr⟩ : ∃ r, resizeBuffer mem (Strbuff.of xs cap) (n : ℤ) = some (1, r) := by
    rcases Nat.lt_or_ge xs.length n with hlt | hle
    · exact ⟨_, resizeBuffer_of hmem hcap hlt⟩
    · exact ⟨_, resizeBuffer_short hmem hcap hle⟩
  rcases resizeBuffer_cases hcap (by omega) hr with h | ⟨-, -, hgrown⟩
  · cases h
  · exact ⟨r, hr, hgrown⟩

/-- The doubled sum as an `int`: itself below `2 ^ 30`, negative up to `2 ^ 31`, small from there on, and negative
again. -/
theorem doubled_small {s : ℕ} (hs : s < 2 ^ 30) : i32 (u32 (u32 s * 2 + 1)) = (2 * s + 1 : ℕ) := by
  rw [u32_of_lt (show s < 2 ^ 32 by omega), u32_of_lt (by omega), i32_of_range (by omega) (by omega)]
  omega

theorem doubled_neg {s : ℕ} (hs : 2 ^ 30 ≤ s ∧ s < 2 ^ 31 ∨ 3 * 2 ^ 30 ≤ s ∧ s < 2 ^ 32) :
    i32 (u32 (u32 s * 2 + 1)) < 0 := by
  rw [u32_of_lt (show s < 2 ^ 32 by omega)]
  unfold i32 u32
  omega

theorem doubled_wraps {s : ℕ} (hs : 2 ^ 31 ≤ s ∧ s < 3 * 2 ^ 30) :
    i32 (u32 (u32 s * 2 + 1)) = (2 * s + 1 - 2 ^ 32 : ℕ) := by
  rw [u32_of_lt (show s < 2 ^ 32 by omega)]
  unfold i32 u32
  omega

/-- The capacity that has room for `s` bytes and a NUL; `none` when it is refused. -/
def capacityFor (mem : ℕ → Bool) (cap s : ℕ) : Option ℕ :=
  if s < cap then some cap else if s < 2 ^ 30 ∧ mem (2 * s + 1) = true then some (2 * s + 1) else none

theorem capacityFor_bounds {s cap' : ℕ} (hbound : cap < 2 ^ 31) (h : capacityFor mem cap s = some cap') :
    s < cap' ∧ cap' < 2 ^ 31 := by
  unfold capacityFor at h
  split_ifs at h with hroom hnew
  · cases h
    exact ⟨hroom, hbound⟩
  · cases h
    exact ⟨by omega, by omega⟩

/-- Where the sum is safe, the check finds that capacity, or fails cleanly. -/
theorem growFor_eq (hcap : xs.length ≤ cap) (hsafe : GrowthSafe mem (xs.length + len)) :
    growFor mem (Strbuff.of xs cap) len = some ((capacityFor mem cap (xs.length + len)).elim (0, Strbuff.of xs cap)
      fun cap' => (1, Strbuff.of xs cap')) := by
  have h32 : xs.length + len < 2 ^ 32 := by
    rcases hsafe with h | ⟨h, -⟩
    · omega
    · exact h
  unfold growFor capacityFor
  rw [Strbuff.of_size, Strbuff.of_opacity, u32_of_lt h32]
  by_cases hroom : xs.length + len < cap
  · rw [if_neg (not_le.mpr hroom), if_pos hroom]
    rfl
  rw [if_pos (not_lt.mp hroom), if_neg hroom, ← u32_of_lt h32]
  by_cases hsmall : xs.length + len < 2 ^ 30
  · rw [doubled_small hsmall, u32_of_lt h32]
    cases hmem : mem (2 * (xs.length + len) + 1) with
    | false =>
      rw [if_neg fun h => Bool.false_ne_true h.2]
      exact resizeBuffer_of_none (createBuffer_refused hmem)
    | true =>
      rw [if_pos ⟨hsmall, rfl⟩]
      exact resizeBuffer_of hmem hcap (by omega)
  · rw [if_neg fun h => hsmall (u32_of_lt h32 ▸ h.1)]
    refine resizeBuffer_of_none ?_
    rcases hsafe with h31 | ⟨-, hhigh | hmem⟩
    · exact createBuffer_neg (doubled_neg (.inl ⟨by omega, h31⟩))
    · exact createBuffer_neg (doubled_neg (.inr ⟨hhigh, h32⟩))
    · by_cases h31 : xs.length + len < 2 ^ 31
      · exact createBuffer_neg (doubled_neg (.inl ⟨by omega, h31⟩))
      by_cases hhigh : 3 * 2 ^ 30 ≤ xs.length + len
      · exact createBuffer_neg (doubled_neg (.inr ⟨hhigh, h32⟩))
      · rw [doubled_wraps ⟨by omega, by omega⟩]
        exact createBuffer_refused hmem

/-- Where the sum is safe, the check fails cleanly or leaves room for the bytes and a NUL. -/
theorem growFor_safe (hcap : xs.length ≤ cap) (hbound : cap < 2 ^ 31) (hsafe : GrowthSafe mem (xs.length + len)) :
    growFor mem (Strbuff.of xs cap) len = some (0, Strbuff.of xs cap) ∨
      ∃ cap', xs.length + len < cap' ∧ cap' < 2 ^ 31 ∧
        growFor mem (Strbuff.of xs cap) len = some (1, Strbuff.of xs cap') := by
  rw [growFor_eq hcap hsafe]
  cases hroom : capacityFor mem cap (xs.length + len) with
  | none => exact .inl rfl
  | some cap' =>
    obtain ⟨hlt, hbound'⟩ := capacityFor_bounds hbound hroom
    exact .inr ⟨cap', hlt, hbound', rfl⟩

/-- Elsewhere it succeeds with a block of less than `2 ^ 31` bytes, for a sum that is no `int`. -/
theorem growFor_wraps (hcap : xs.length ≤ cap) (hbound : cap < 2 ^ 31) (hlen : len < 2 ^ 32)
    (hsafe : ¬ GrowthSafe mem (xs.length + len)) :
    2 ^ 31 ≤ xs.length + len ∧ ∃ r, growFor mem (Strbuff.of xs cap) len = some (1, r) ∧ Grown xs r := by
  simp only [GrowthSafe, not_or, not_and, not_lt, not_le, Bool.not_eq_false] at hsafe
  obtain ⟨h31, hsafe⟩ := hsafe
  refine ⟨h31, ?_⟩
  unfold growFor
  rw [Strbuff.of_size, Strbuff.of_opacity]
  by_cases hfull : cap ≤ u32 (xs.length + len)
  · have h32 : xs.length + len < 2 ^ 32 := by
      -- a sum that wraps is below the size
      unfold u32 at hfull
      omega
    obtain ⟨hmid, hmem⟩ := hsafe h32
    rw [if_pos hfull, doubled_wraps ⟨h31, hmid⟩]
    exact resizeBuffer_served hmem hcap (by omega)
  · exact ⟨_, if_neg hfull, .inl ⟨cap, hcap, hbound, rfl⟩⟩

theorem Grown.length_lt {r : Strbuff} (h : Grown xs r) (hbound : xs.length < 2 ^ 31) :
    r.size = xs.length ∧ r.buffer.length < 2 ^ 31 := by
  rcases h with ⟨cap, hcap, hlt, rfl⟩ | ⟨hsize, hshort⟩
  · exact ⟨rfl, by rw [Strbuff.of_buffer_length hcap]; exact hlt⟩
  · exact ⟨hsize, by omega⟩

/-! ## The two calls -/

section Calls

variable {src : List UInt8} (hsrc : len ≤ src.length) (hlen : len < 2 ^ 32) (hcap : xs.length ≤ cap)
    (hbound : cap < 2 ^ 31)
include hsrc hlen hcap hbound

/-- Where the sum is not safe, the copy runs out of the block. -/
theorem celStrbuffAppendFrom_wraps (hsafe : ¬ GrowthSafe mem (xs.length + len)) :
    celStrbuffAppendFrom mem (Strbuff.of xs cap) src len 1 = none := by
  obtain ⟨h31, r, hr, hgrown⟩ := growFor_wraps hcap hbound hlen hsafe
  obtain ⟨hsize, hblock⟩ := hgrown.length_lt (by omega)
  show appendFromLoop mem src len 1 (Strbuff.of xs cap) = none
  rw [appendFromLoop, hr, Option.bind_some, if_neg one_ne_zero]
  split_ifs with hone
  · have hstore (c : UInt8) : store r.buffer r.size c = none := by
      rw [← Option.not_isSome_iff_eq_none, store_isSome]
      omega
    cases hc : src[0]? with
    | none => rfl
    | some c =>
      rw [Option.bind_some, hstore]
      rfl
  · have hcopy : copyIn r.buffer r.size (src.take len) = none := by
      rw [← Option.not_isSome_iff_eq_none, copyIn_isSome, List.length_take]
      omega
    rw [memcpy, if_pos hsrc, hcopy]
    rfl

theorem celStrbuffAppendFrom_growsOrFails :
    GrowsOrFails (Strbuff.of xs cap) len (celStrbuffAppendFrom mem (Strbuff.of xs cap) src len 1) ↔
      GrowthSafe mem (xs.length + len) := by
  constructor
  · rintro ⟨q, hq, -⟩
    by_contra hsafe
    rw [celStrbuffAppendFrom_wraps hsrc hlen hcap hbound hsafe] at hq
    cases hq
  · intro hsafe
    rcases growFor_safe hcap hbound hsafe with hfail | ⟨cap', hroom, hbound', hgrow⟩
    · refine ⟨(0, Strbuff.of xs cap), ?_, .inl ⟨rfl, rfl⟩⟩
      show appendFromLoop mem src len 1 (Strbuff.of xs cap) = _
      rw [appendFromLoop, hfail, Option.bind_some, if_pos rfl]
    · refine ⟨(1, Strbuff.of (xs ++ src.take len) cap'), ?_, .inr ⟨rfl, hroom⟩⟩
      show appendFromLoop mem src len 1 (Strbuff.of xs cap) = _
      rw [appendFromLoop_succ_of hsrc hgrow hroom (by omega), appendFromLoop]

theorem celStrbuffInsertFrom_growsOrFails {idx : ℕ} (hidx : idx ≤ xs.length) :
    GrowsOrFails (Strbuff.of xs cap) len (celStrbuffInsertFrom mem (Strbuff.of xs cap) idx src len 1) ↔
      GrowthSafe mem (xs.length + len) := by
  show GrowsOrFails _ _ (insertFromLoop mem src len 1 idx (Strbuff.of xs cap)) ↔ _
  obtain ⟨pre, suf, rfl, hpre⟩ : ∃ pre suf, xs = pre ++ suf ∧ idx = pre.length :=
    ⟨xs.take idx, xs.drop idx, (List.take_append_drop idx xs).symm, by rw [List.length_take]; omega⟩
  subst hpre
  have hin : ¬ (Strbuff.of (pre ++ suf) cap).size < pre.length := not_lt.mpr hidx
  constructor
  · rintro ⟨q, hq, -⟩
    by_contra hsafe
    obtain ⟨h31, r, hr, hgrown⟩ := growFor_wraps hcap hbound hlen hsafe
    rw [insertFromLoop, if_neg hin, hr, Option.bind_some, if_neg one_ne_zero] at hq
    obtain ⟨b, hb, hq⟩ := Option.bind_eq_some_iff.mp hq
    obtain ⟨b', hb', -⟩ := Option.bind_eq_some_iff.mp hq
    obtain ⟨cap', hroom, hbound', -⟩ := hgrown.of_insert hsrc hb hb'
    omega
  · intro hsafe
    rcases growFor_safe hcap hbound hsafe with hfail | ⟨cap', hroom, hbound', hgrow⟩
    · refine ⟨(0, Strbuff.of (pre ++ suf) cap), ?_, .inl ⟨rfl, rfl⟩⟩
      rw [insertFromLoop, if_neg hin, hfail, Option.bind_some, if_pos rfl]
    · refine ⟨(1, Strbuff.of (pre ++ src.take len ++ suf) cap'), ?_, .inr ⟨rfl, hroom⟩⟩
      rw [insertFromLoop_succ_of hsrc hgrow hroom.le (by omega), insertFromLoop]

end Calls

/-- An index behind the contents: the call reports success and does nothing. -/
theorem celStrbuffInsertFrom_behind {sb : Strbuff} {idx : ℕ} (hidx : sb.size < idx) (src : List UInt8) :
    GrowsOrFails sb len (celStrbuffInsertFrom mem sb idx src len 1) ↔ sb.size + len < sb.opacity := by
  have hcall : celStrbuffInsertFrom mem sb idx src len 1 = some (1, sb) := by
    show insertFromLoop mem src len 1 idx sb = _
    rw [insertFromLoop, if_pos hidx]
  rw [hcall]
  constructor
  · rintro ⟨q, hq, ⟨hzero, -⟩ | ⟨-, hroom⟩⟩
    · cases hq
      cases hzero
    · cases hq
      exact hroom
  · exact fun hroom => ⟨_, rfl, .inr ⟨rfl, hroom⟩⟩

/-- **The growth of a buffer.** On a reachable buffer both calls fail cleanly or grow enough exactly where the sum of
size and length is safe; an insertion behind the contents does where there is room already. -/
theorem growth_iff {sb : Strbuff} (hsb : sb.Reachable mem) {src : List UInt8} {len : ℕ} (hsrc : len ≤ src.length)
    (hlen : len < 2 ^ 32) :
    (GrowsOrFails sb len (celStrbuffAppendFrom mem sb src len 1) ↔ GrowthSafe mem (sb.size + len)) ∧
      ∀ idx, GrowsOrFails sb len (celStrbuffInsertFrom mem sb idx src len 1) ↔
        if idx ≤ sb.size then GrowthSafe mem (sb.size + len) else sb.size + len < sb.opacity := by
  obtain ⟨xs, cap, hcap, hbound, rfl⟩ := hsb.zeroed
  refine ⟨celStrbuffAppendFrom_growsOrFails hsrc hlen hcap hbound, fun idx => ?_⟩
  split_ifs with hidx
  · exact celStrbuffInsertFrom_growsOrFails hsrc hlen hcap hbound hidx
  · exact celStrbuffInsertFrom_behind (not_le.mp hidx) src

/-- Nine more bytes behind `abb` in a buffer of eleven. -/
theorem growth_iff_nine :
    GrowsOrFails someBuffer 9 (celStrbuffAppendFrom (fun _ => true) someBuffer (List.replicate 9 120) 9 1) :=
  (@growth_iff _ _ someBuffer_reachable (List.replicate 9 120) 9 (by decide) (by decide)).1.mpr (.inl (by decide))

/-- `2 ^ 31` bytes behind `abb`: the new block has `7` bytes, and the copy runs out of it. -/
theorem not_growth : ¬ ∀ (mem : ℕ → Bool) (sb : Strbuff), sb.Reachable mem →
    ∀ (src : List UInt8) (len : ℕ), len ≤ src.length →
    len < 2 ^ 32 → GrowsOrFails sb len (celStrbuffAppendFrom mem sb src len 1) ∧
      ∀ idx, GrowsOrFails sb len (celStrbuffInsertFrom mem sb idx src len 1) := by
  intro hall
  have hlen : (List.replicate (2 ^ 31) (120 : UInt8)).length = 2 ^ 31 := List.length_replicate
  have happend := (hall _ someBuffer someBuffer_reachable _ (2 ^ 31) hlen.ge (by omega)).1
  have hsafe := (@celStrbuffAppendFrom_growsOrFails _ [97, 98, 98] 11 _ _ hlen.ge (by omega) (by decide)
    (by decide)).mp happend
  rcases hsafe with h | ⟨-, h | h⟩
  · exact absurd h (by decide)
  · exact absurd h (by decide)
  · cases h

end Sarah
