import SarahClient.Disk.Model
import SarahClient.Lib.Block

/-!
# The number at the end of a device name: `_get_tailing_integer` of `disk.c`

The length of the name is cut to an `int`. A read outside the name or the buffer, and a write outside the buffer, is
`none`.

* `digitLoop`, `getTailingInteger`: the loop from the last character down, and the copy of the digits;
* `digitRun`, `scanned`: the digits at the end of a name; the characters that the loop starts from;
* `getTailingInteger_eq`: the code by the run of the scanned characters; `getTailingInteger_model`: on a name of at most
  2^31 characters it is what the disk list uses;
* **`tailingInteger_iff`**: when it is the run of the name.
-/

namespace Sarah.Tailing

/-- The loop with `k` characters left: the index of the last one that is no digit, or -1. -/
def digitLoop (src : List UInt8) : ℕ → Option ℤ
  | 0 => some (-1)
  | k + 1 => src[k]?.bind fun c => if isdigit c then digitLoop src k else some k

/-- `_get_tailing_integer`: its code and `*integer`. -/
def getTailingInteger (src : List UInt8) (integer : ℤ) : Option (ℤ × ℤ) :=
  let last := i32 ((src.length : ℤ) - 1)
  -- the loop is left at once where `_last` is negative
  (if last < 0 then some last else digitLoop src (last.toNat + 1)).bind fun i =>
    if i = last then some (1, integer)
    else
      (Block.copyIn (List.replicate 12 0) 0 ((src.drop (i + 1).toNat).take (last - i).toNat)).bind fun buffer =>
        -- `atoi` reads on until there is a character that is no digit
        if 0 ∈ buffer then some (0, atoi buffer) else none

/-- The digits at the end. -/
def digitRun (s : List UInt8) : List UInt8 := s.rtakeWhile isdigit

/-- The characters up to `_last`. -/
def scanned (src : List UInt8) : List UInt8 := src.take (i32 ((src.length : ℤ) - 1) + 1).toNat

/-- **The property**: 1 and no change where the name ends in no digit, else 0 and the number if it is an `int`. -/
def TailingInteger (src : List UInt8) (integer : ℤ) (result : Option (ℤ × ℤ)) : Prop :=
  if digitRun src = [] then result = some (1, integer)
  else ∃ v, result = some (0, v) ∧ (digitsValue (digitRun src) < 2 ^ 31 → v = digitsValue (digitRun src))

/-- The scanned characters end in at most eleven digits, and stand for the name. -/
structure Readable (src : List UInt8) : Prop where
  short : (digitRun (scanned src)).length ≤ 11
  ends : digitRun (scanned src) = [] ↔ digitRun src = []
  value : digitsValue (digitRun src) < 2 ^ 31 → i32 (digitsValue (digitRun (scanned src))) = digitsValue (digitRun src)

/-- The property asks for a result, whatever the name ends in. -/
theorem TailingInteger.isSome {src : List UInt8} {integer : ℤ} {result : Option (ℤ × ℤ)}
    (h : TailingInteger src integer result) : result.isSome = true := by
  unfold TailingInteger at h
  split_ifs at h
  · rw [h]
    rfl
  · obtain ⟨v, hv, -⟩ := h
    rw [hv]
    rfl

/-! ## The loop -/

theorem isdigit_of_mem_digitRun {s : List UInt8} : ∀ c ∈ digitRun s, isdigit c = true :=
  fun _ => List.mem_rtakeWhile_imp

theorem digitRun_length_le (s : List UInt8) : (digitRun s).length ≤ s.length :=
  (List.rtakeWhile_suffix isdigit s).length_le

theorem digitLoop_eq {src : List UInt8} {k : ℕ} (hk : k ≤ src.length) :
    digitLoop src k = some ((k : ℤ) - (digitRun (src.take k)).length - 1) := by
  induction k with
  | zero => rfl
  | succ k ih =>
    have hlt : k < src.length := hk
    have htake : src.take (k + 1) = src.take k ++ [src[k]] := List.take_succ_eq_append_getElem hlt
    rw [digitLoop, List.getElem?_eq_getElem hlt, Option.bind_some, htake, digitRun, List.rtakeWhile_concat]
    by_cases hdigit : isdigit src[k] = true
    · rw [if_pos hdigit, if_pos hdigit, ih (by omega), List.length_append, List.length_singleton, digitRun]
      congr 1
      omega
    · rw [if_neg hdigit, if_neg hdigit, List.length_nil]
      congr 1
      omega

theorem drop_take_eq_digitRun {src : List UInt8} {k : ℕ} (hk : k ≤ src.length) :
    (src.drop (k - (digitRun (src.take k)).length)).take (digitRun (src.take k)).length = digitRun (src.take k) := by
  obtain ⟨t, ht⟩ : ∃ t, t ++ digitRun (src.take k) = src.take k := List.rtakeWhile_suffix isdigit (src.take k)
  generalize digitRun (src.take k) = run at ht ⊢
  have hlen := congrArg List.length ht
  rw [List.length_append, List.length_take, min_eq_left hk] at hlen
  have hsrc : src = t ++ (run ++ src.drop k) := by
    rw [← List.append_assoc, ht, List.take_append_drop]
  rw [show k - run.length = t.length by omega]
  nth_rewrite 1 [hsrc]
  rw [List.drop_left, List.take_left]

theorem copyIn_buffer {run : List UInt8} (h : run.length ≤ 12) :
    Block.copyIn (List.replicate 12 (0 : UInt8)) 0 run = some (run ++ List.replicate (12 - run.length) 0) := by
  rw [Block.copyIn_of_le (by rw [Nat.zero_add, List.length_replicate]; exact h), List.take_zero, List.nil_append,
    Nat.zero_add, List.drop_replicate]

theorem atoi_buffer {run : List UInt8} (hne : run ≠ []) (hdigits : ∀ c ∈ run, isdigit c = true) (h : run.length ≤ 11)
    (k : ℕ) : atoi (run ++ List.replicate k 0) = i32 (digitsValue run) := by
  have hlt : digitsValue run < 10 ^ 11 := (digitsValue_lt hdigits).trans_le (Nat.pow_le_pow_right (by decide) h)
  rw [atoi, cstr_append_zeros, cstr_of_notMem (zero_notMem_digits hdigits), strtoll_digits hne hdigits (by omega)]

theorem atoi_copyIn {run : List UInt8} (hne : run ≠ []) (hdigits : ∀ c ∈ run, isdigit c = true) :
    (Block.copyIn (List.replicate 12 (0 : UInt8)) 0 run).bind
        (fun buffer => if 0 ∈ buffer then some ((0 : ℤ), atoi buffer) else none) =
      if run.length ≤ 11 then some (0, i32 (digitsValue run)) else none := by
  by_cases hshort : run.length ≤ 11
  · rw [if_pos hshort, copyIn_buffer (by omega), Option.bind_some, atoi_buffer hne hdigits hshort,
      if_pos (List.mem_append_right _ (List.mem_replicate.mpr ⟨by omega, rfl⟩))]
  · rw [if_neg hshort]
    by_cases htwelve : run.length = 12
    · -- the buffer is full of digits
      rw [copyIn_buffer htwelve.le, Option.bind_some, htwelve, Nat.sub_self, List.replicate_zero, List.append_nil,
        if_neg (zero_notMem_digits hdigits)]
    · have hno : Block.copyIn (List.replicate 12 (0 : UInt8)) 0 run = none :=
        if_neg (by rw [List.length_replicate]; omega)
      rw [hno, Option.bind_none]

/-! ## The whole function -/

theorem i32_le_self {n : ℕ} : i32 ((n : ℤ) - 1) + 1 ≤ n := by
  unfold i32
  omega

theorem length_scanned (src : List UInt8) : (scanned src).length = (i32 ((src.length : ℤ) - 1) + 1).toNat := by
  have hle := @i32_le_self src.length
  rw [scanned, List.length_take, min_eq_left (by omega)]

/-- **The code** by the run of the scanned characters. -/
theorem getTailingInteger_eq (src : List UInt8) (integer : ℤ) :
    getTailingInteger src integer =
      if digitRun (scanned src) = [] then some (1, integer)
      else if (digitRun (scanned src)).length ≤ 11 then some (0, i32 (digitsValue (digitRun (scanned src))))
      else none := by
  have hlen := length_scanned src
  unfold getTailingInteger
  dsimp only
  by_cases hneg : i32 ((src.length : ℤ) - 1) < 0
  · have hnil : digitRun (scanned src) = [] := by
      have hzero : scanned src = [] := List.length_eq_zero_iff.mp (by omega)
      rw [hzero]
      rfl
    rw [if_pos hneg, Option.bind_some, if_pos rfl, if_pos hnil]
  · obtain ⟨m, hm⟩ := Int.eq_ofNat_of_zero_le (Int.not_lt.mp hneg)
    have hk : m + 1 ≤ src.length := by
      have hle := @i32_le_self src.length
      omega
    have htake : scanned src = src.take (m + 1) := by
      rw [scanned, hm]
      rfl
    have hrun := digitRun_length_le (src.take (m + 1))
    rw [List.length_take, min_eq_left hk] at hrun
    rw [if_neg hneg, hm, Int.toNat_natCast, digitLoop_eq hk, Option.bind_some, htake]
    have hcopy := drop_take_eq_digitRun hk
    have hdigits := @isdigit_of_mem_digitRun (src.take (m + 1))
    generalize digitRun (src.take (m + 1)) = run at hrun hcopy hdigits ⊢
    by_cases hnil : run = []
    · rw [if_pos hnil, hnil, List.length_nil, if_pos (by omega)]
    · have hpos := List.length_pos_of_ne_nil hnil
      rw [if_neg hnil, if_neg (by omega),
        show ((m + 1 : ℕ) - (run.length : ℤ) - 1 + 1).toNat = m + 1 - run.length by omega,
        show ((m : ℤ) - ((m + 1 : ℕ) - (run.length : ℤ) - 1)).toNat = run.length by omega, hcopy,
        atoi_copyIn hnil hdigits]

/-- On a name of at most 2^31 characters the loop starts from the last one. -/
theorem scanned_of_le {src : List UInt8} (h : src.length ≤ 2 ^ 31) : scanned src = src := by
  rw [scanned, i32_of_range (by omega) (by omega)]
  exact List.take_of_length_le (by omega)

/-- **The disk list** uses this function. -/
theorem getTailingInteger_model {src : List UInt8} (h : src.length ≤ 2 ^ 31) (integer : ℤ) :
    getTailingInteger src integer = Sarah.getTailingInteger src integer := by
  rw [getTailingInteger_eq, scanned_of_le h]
  unfold Sarah.getTailingInteger
  dsimp only
  change (if digitRun src = [] then _ else _) =
    if digitRun src = [] then _ else if 12 ≤ (digitRun src).length then _ else some (0, atoi (digitRun src ++ _))
  by_cases hnil : digitRun src = []
  · rw [if_pos hnil, if_pos hnil]
  · rw [if_neg hnil, if_neg hnil]
    by_cases hshort : (digitRun src).length ≤ 11
    · rw [if_pos hshort, if_neg (by omega), atoi_buffer hnil isdigit_of_mem_digitRun hshort]
    · rw [if_neg hshort, if_pos (by omega)]

/-- A name of at most 2^31 characters is read where it ends in at most eleven digits. -/
theorem readable_of_le {src : List UInt8} (h : src.length ≤ 2 ^ 31) : Readable src ↔ (digitRun src).length ≤ 11 := by
  constructor
  · intro hread
    have hshort := hread.short
    rwa [scanned_of_le h] at hshort
  · intro hshort
    refine ⟨by rwa [scanned_of_le h], by rw [scanned_of_le h], fun hfits => ?_⟩
    rw [scanned_of_le h, i32_of_range (by omega) (by omega)]

/-- **The trailing number** is right exactly where at most eleven digits are copied, and they are those of the name
or, for a name of more than 2^31 characters, agree with them. -/
theorem tailingInteger_iff (src : List UInt8) (integer : ℤ) :
    TailingInteger src integer (getTailingInteger src integer) ↔ Readable src := by
  rw [getTailingInteger_eq, TailingInteger]
  by_cases hnil : digitRun (scanned src) = []
  · rw [if_pos hnil]
    by_cases hend : digitRun src = []
    · rw [if_pos hend]
      refine iff_of_true rfl ⟨?_, iff_of_true hnil hend, fun _ => ?_⟩
      · rw [hnil]
        exact Nat.zero_le 11
      · rw [hnil, hend]
        rfl
    · rw [if_neg hend]
      refine iff_of_false ?_ fun h => hend (h.ends.mp hnil)
      rintro ⟨v, h, -⟩
      cases h
  · rw [if_neg hnil]
    by_cases hshort : (digitRun (scanned src)).length ≤ 11
    · rw [if_pos hshort]
      by_cases hend : digitRun src = []
      · rw [if_pos hend]
        refine iff_of_false (fun h => ?_) fun h => hnil (h.ends.mpr hend)
        cases h
      · rw [if_neg hend]
        generalize hread : i32 (digitsValue (digitRun (scanned src))) = read
        constructor
        · rintro ⟨v, h, hvalue⟩
          cases h
          exact ⟨hshort, iff_of_false hnil hend, fun hfits => hread.trans (hvalue hfits)⟩
        · exact fun h => ⟨read, rfl, fun hfits => hread.symm.trans (h.value hfits)⟩
    · rw [if_neg hshort]
      refine iff_of_false (fun h => ?_) fun h => hshort h.short
      have hproperty : TailingInteger src integer none := h
      cases hproperty.isSome

/-- `sda` and thirteen digits, which are copied into twelve bytes. -/
theorem not_tailingInteger : ¬ ∀ (src : List UInt8) (integer : ℤ),
    TailingInteger src integer (getTailingInteger src integer) := by
  intro h
  have hnone : getTailingInteger (lit "sda0000000000001") 0 = none := by decide +kernel
  have hsome := (h (lit "sda0000000000001") 0).isSome
  rw [hnone] at hsome
  cases hsome

end Sarah.Tailing
