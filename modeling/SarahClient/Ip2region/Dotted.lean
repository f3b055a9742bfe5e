import SarahClient.CNum
import Mathlib.Data.List.Induction

/-!
# `ip2long` (`ext/ip2region`)

A write past the end of the part buffer is `none`. Shifts are those of the machine, on 32 bits.

* `ip2longLoop`, `ip2long`: the code;
* `ipParts`, `parts`: the loop part by part; `ip2long_eq`;
* `DottedQuad`, `AcceptsExactly`: what should be accepted;
* **`acceptsExactly_iff`**: when it is.
-/

namespace Sarah

open List

/-- `n << p`, as an `unsigned int`. -/
def shl (n : ℤ) (p : ℕ) : ℕ := (n * 2 ^ p % 2 ^ 32).toNat

/-- The loop; `buffer` holds the `i` bytes of the part. -/
def ip2longLoop : List UInt8 → List UInt8 → ℤ → ℕ → Option (List UInt8 × ℕ)
  | [], buffer, _, ipval => some (buffer, ipval)
  | c :: cs, buffer, p, ipval =>
    if c = 32 then ip2longLoop cs buffer p ipval
    else if c = 46 then
      -- single part length limit
      if 3 < buffer.length then some (buffer, 0)
      else if p < 0 then some (buffer, ipval)
      else ip2longLoop cs [] (p - 8) (ipval ||| shl (atoi buffer) p.toNat)
    else if 4 ≤ buffer.length then none
    else ip2longLoop cs (buffer ++ [c]) p ipval

/-- `ip2long`. -/
def ip2long (ip : List UInt8) : Option ℕ :=
  (ip2longLoop (cstr ip) [] 24 0).map fun r => if 3 < r.1.length then 0 else r.2 ||| shl (atoi r.1) 0

/-! ## Part by part -/

/-- The parts of a string, without its blanks. -/
def ipParts (s : List UInt8) : List (List UInt8) := (s.filter (· ≠ 32)).splitOn 46

/-- The value of the parts with the shifts that are left. -/
def partsValue : List (List UInt8) → List ℕ → ℕ → Option ℕ
  | [], _, ipval => some ipval
  | part :: rest, shifts, ipval =>
    if 4 < part.length then none
    else if part.length = 4 then some 0
    else
      match rest, shifts with
      | [], _ | _, [] => some (ipval ||| shl (atoi part) 0)
      | _ :: _, p :: shifts => partsValue rest shifts (ipval ||| shl (atoi part) p)

/-- The last `k` of the shifts 24, 16, 8 and 0. -/
def shiftsFrom : ℕ → List ℕ
  | 0 => []
  | k + 1 => 8 * k :: shiftsFrom k

theorem ipParts_ne_nil (s : List UInt8) : ipParts s ≠ [] := splitOn_ne_nil _ _

theorem ipParts_cons (c : UInt8) (s : List UInt8) : ipParts (c :: s) =
    if c = 32 then ipParts s else if c = 46 then [] :: ipParts s else (ipParts s).modifyHead (c :: ·) := by
  unfold ipParts
  by_cases hspace : c = 32
  · rw [filter_cons_of_neg (by simpa using hspace), if_pos hspace]
  · rw [filter_cons_of_pos (by simpa using hspace), if_neg hspace, splitOn_cons_eq_if_modifyHead]
    simp only [beq_iff_eq]

section Parts

variable {part q : List UInt8} {rest : List (List UInt8)} {shifts : List ℕ} {p ipval : ℕ}

theorem partsValue_long (h : 4 < part.length) : partsValue (part :: rest) shifts ipval = none := by
  rw [partsValue.eq_def]
  exact if_pos h

theorem partsValue_four (h : part.length = 4) : partsValue (part :: rest) shifts ipval = some 0 := by
  rw [partsValue.eq_def]
  dsimp only
  rw [if_neg (by omega), if_pos h]

theorem partsValue_last (h : part.length ≤ 3) (hend : rest = [] ∨ shifts = []) :
    partsValue (part :: rest) shifts ipval = some (ipval ||| shl (atoi part) 0) := by
  rw [partsValue.eq_def]
  dsimp only
  rw [if_neg (by omega), if_neg (by omega)]
  rcases hend with rfl | rfl
  · rfl
  · cases rest <;> rfl

theorem partsValue_cons (h : part.length ≤ 3) : partsValue (part :: q :: rest) (p :: shifts) ipval =
    partsValue (q :: rest) shifts (ipval ||| shl (atoi part) p) := by
  rw [partsValue.eq_def]
  dsimp only
  rw [if_neg (by omega), if_neg (by omega)]

end Parts

theorem ip2longLoop_eq (s : List UInt8) : ∀ (buffer : List UInt8) (k ipval : ℕ), buffer.length ≤ 4 →
    ((ip2longLoop s buffer (8 * k - 8) ipval).map fun r => if 3 < r.1.length then 0 else r.2 ||| shl (atoi r.1) 0) =
      partsValue ((ipParts s).modifyHead (buffer ++ ·)) (shiftsFrom k) ipval := by
  induction s with
  | nil =>
    intro buffer k ipval hfits
    rw [show ipParts [] = [[]] from rfl, modifyHead_cons, append_nil, ip2longLoop, Option.map_some]
    dsimp only
    split_ifs with hlen
    · exact (partsValue_four (by omega)).symm
    · exact (partsValue_last (by omega) (.inl rfl)).symm
  | cons c s ih =>
    intro buffer k ipval hfits
    obtain ⟨q, rest, hparts⟩ := exists_cons_of_ne_nil (ipParts_ne_nil s)
    rw [ip2longLoop, ipParts_cons]
    split_ifs with hspace hdot hlimit hend hfull
    · exact ih buffer k ipval hfits
    · rw [modifyHead_cons, append_nil, partsValue_four (by omega), Option.map_some, if_pos hlimit]
    · obtain rfl : k = 0 := by omega
      have hlast : partsValue (buffer :: ipParts s) (shiftsFrom 0) ipval = some (ipval ||| shl (atoi buffer) 0) :=
        partsValue_last (by omega) (.inr rfl)
      rw [modifyHead_cons, append_nil, hlast, Option.map_some, if_neg hlimit]
    · obtain ⟨k, rfl⟩ : ∃ m, k = m + 1 := ⟨k - 1, by omega⟩
      have hrec := ih [] k (ipval ||| shl (atoi buffer) (8 * k)) (Nat.zero_le 4)
      have hp : (8 * ((k + 1 : ℕ) : ℤ) - 8 - 8 : ℤ) = 8 * k - 8 := by omega
      have hshift : (8 * ((k + 1 : ℕ) : ℤ) - 8).toNat = 8 * k := by omega
      simp only [hparts, modifyHead_cons, nil_append] at hrec
      rw [modifyHead_cons, append_nil, hp, hshift, hparts, shiftsFrom, partsValue_cons (by omega), hrec]
    · rw [hparts, modifyHead_cons, modifyHead_cons, partsValue_long]
      · rfl
      · rw [length_append, length_cons]
        omega
    · have hrec := ih (buffer ++ [c]) k ipval (by rw [length_append, length_singleton]; omega)
      rw [hrec, hparts, modifyHead_cons, modifyHead_cons, modifyHead_cons, append_assoc, singleton_append]

theorem ip2long_eq (ip : List UInt8) : ip2long ip = partsValue (ipParts (cstr ip)) [24, 16, 8, 0] 0 := by
  obtain ⟨q, rest, hparts⟩ := exists_cons_of_ne_nil (ipParts_ne_nil (cstr ip))
  have hloop := ip2longLoop_eq (cstr ip) [] 4 0 (Nat.zero_le 4)
  rw [hparts, modifyHead_cons, nil_append] at hloop
  rw [hparts]
  exact hloop

/-! ## The number of a part -/

theorem digitsValue_takeWhile_lt {s t : List UInt8} (h : t.length ≤ s.length) :
    digitsValue (t.takeWhile isdigit) < 10 ^ s.length :=
  (digitsValue_lt fun _ hc => mem_takeWhile_imp hc).trans_le
    (Nat.pow_le_pow_right (by decide) ((takeWhile_sublist isdigit).length_le.trans h))

theorem strtoll_natAbs_lt (s : List UInt8) : (strtoll s).natAbs < 10 ^ s.length := by
  have hdrop := length_dropWhile_le isspace s
  have hpos : 0 < 10 ^ s.length := Nat.pow_pos (by decide)
  unfold strtoll
  split
  · rename_i t heq
    have hlt := digitsValue_takeWhile_lt (s := s) (t := t) (by rw [heq, length_cons] at hdrop; omega)
    dsimp only
    omega
  · rename_i t heq
    have hlt := digitsValue_takeWhile_lt (s := s) (t := t) (by rw [heq, length_cons] at hdrop; omega)
    dsimp only
    omega
  · have hlt := digitsValue_takeWhile_lt (s := s) (t := s.dropWhile isspace) hdrop
    dsimp only
    omega

theorem atoi_range {part : List UInt8} (h : part.length ≤ 3) : -1000 < atoi part ∧ atoi part < 1000 := by
  have hlen : (cstr part).length ≤ 3 := (takeWhile_sublist _).length_le.trans h
  have hlt := (strtoll_natAbs_lt (cstr part)).trans_le (Nat.pow_le_pow_right (by decide) hlen)
  rw [atoi, i32_of_range (by omega) (by omega)]
  omega

/-! ## Strings that yield zero -/

/-- One of the parts has four bytes, and no earlier one more than three. -/
def FourFirst (parts : List (List UInt8)) : Prop :=
  ∃ pre part post, parts = pre ++ part :: post ∧ part.length = 4 ∧ ∀ q ∈ pre, q.length ≤ 3

/-- Parts of at most three bytes that add nothing to the value. -/
structure ZeroParts (parts : List (List UInt8)) : Prop where
  short : ∀ part ∈ parts, part.length ≤ 3
  head : ∀ part ∈ parts.head?, 256 ∣ atoi part
  tail : ∀ part ∈ parts.tail, atoi part = 0
  last : ∀ part ∈ parts.getLast?, atoi part = 0

/-- The same, for the shifts that are left. -/
def ZeroFrom : List (List UInt8) → List ℕ → Prop
  | [], _ => True
  | part :: rest, shifts =>
    part.length ≤ 3 ∧
      match rest, shifts with
      | [], _ | _, [] => shl (atoi part) 0 = 0
      | _ :: _, p :: shifts => shl (atoi part) p = 0 ∧ ZeroFrom rest shifts

theorem fourFirst_cons (part : List UInt8) (rest : List (List UInt8)) :
    FourFirst (part :: rest) ↔ part.length = 4 ∨ (part.length ≤ 3 ∧ FourFirst rest) := by
  constructor
  · rintro ⟨_ | ⟨q, pre⟩, four, post, heq, hfour, hpre⟩
    · obtain ⟨rfl, rfl⟩ := cons.inj heq
      exact .inl hfour
    · obtain ⟨rfl, rfl⟩ := cons.inj heq
      exact .inr ⟨hpre part mem_cons_self, pre, four, post, rfl, hfour, fun q hq => hpre q (mem_cons_of_mem _ hq)⟩
  · rintro (hfour | ⟨hshort, pre, four, post, rfl, hfour, hpre⟩)
    · exact ⟨[], part, rest, rfl, hfour, fun q hq => by cases hq⟩
    · exact ⟨part :: pre, four, post, rfl, hfour, forall_mem_cons.mpr ⟨hshort, hpre⟩⟩

theorem not_fourFirst_nil : ¬ FourFirst [] := by
  rintro ⟨pre, part, post, heq, -⟩
  cases pre <;> cases heq

theorem zeroFrom_last {part : List UInt8} {rest : List (List UInt8)} {shifts : List ℕ}
    (hend : rest = [] ∨ shifts = []) :
    ZeroFrom (part :: rest) shifts ↔ part.length ≤ 3 ∧ shl (atoi part) 0 = 0 := by
  rcases hend with rfl | rfl
  · rfl
  · cases rest <;> rfl

theorem zeroFrom_cons {part q : List UInt8} {rest : List (List UInt8)} {p : ℕ} {shifts : List ℕ} :
    ZeroFrom (part :: q :: rest) (p :: shifts) ↔
      part.length ≤ 3 ∧ shl (atoi part) p = 0 ∧ ZeroFrom (q :: rest) shifts := Iff.rfl

theorem partsValue_eq_zero_iff (parts : List (List UInt8)) : ∀ (shifts : List ℕ) (ipval : ℕ), parts ≠ [] →
    (partsValue parts shifts ipval = some 0 ↔
      FourFirst (parts.take (shifts.length + 1)) ∨ (ipval = 0 ∧ ZeroFrom parts shifts)) := by
  induction parts with
  | nil => exact fun _ _ hne => absurd rfl hne
  | cons part rest ih =>
    intro shifts ipval _
    rw [take_succ_cons, fourFirst_cons]
    rcases Nat.lt_trichotomy part.length 4 with hlen | hlen | hlen
    · have hshort : part.length ≤ 3 := by omega
      have hlast : rest = [] ∨ shifts = [] → (partsValue (part :: rest) shifts ipval = some 0 ↔
          (part.length = 4 ∨ (part.length ≤ 3 ∧ FourFirst [])) ∨ (ipval = 0 ∧ ZeroFrom (part :: rest) shifts)) := by
        intro hend
        rw [partsValue_last hshort hend, Option.some_inj, Nat.or_eq_zero_iff, zeroFrom_last hend]
        have := not_fourFirst_nil
        have := hlen.ne
        tauto
      match rest, shifts with
      | [], shifts =>
        rw [take_nil]
        exact hlast (.inl rfl)
      | q :: rest, [] => exact hlast (.inr rfl)
      | q :: rest, p :: shifts =>
        rw [partsValue_cons hshort, ih shifts _ (cons_ne_nil q rest), zeroFrom_cons, Nat.or_eq_zero_iff, length_cons]
        have := hlen.ne
        tauto
    · rw [partsValue_four hlen]
      exact iff_of_true rfl (.inl (.inl hlen))
    · rw [partsValue_long hlen]
      refine iff_of_false (by simp) ?_
      rintro ((h | ⟨h, -⟩) | ⟨-, h⟩)
      · omega
      · omega
      · have := h.1
        omega

theorem shl_eq_zero {part : List UInt8} (h : part.length ≤ 3) {k : ℕ} (hk : k < 3) :
    shl (atoi part) (8 * k) = 0 ↔ atoi part = 0 := by
  have hrange := atoi_range h
  unfold shl
  match k, hk with
  | 0, _ | 1, _ | 2, _ => omega

theorem shl_head_eq_zero {part : List UInt8} (h : part.length ≤ 3) : shl (atoi part) 24 = 0 ↔ 256 ∣ atoi part := by
  have hrange := atoi_range h
  unfold shl
  omega

theorem zeroFrom_tail (parts : List (List UInt8)) : ∀ k ≤ 3,
    (ZeroFrom parts (shiftsFrom k) ↔ ∀ part ∈ parts.take (k + 1), part.length ≤ 3 ∧ atoi part = 0) := by
  induction parts with
  | nil => exact fun k _ => iff_of_true trivial fun _ h => by cases h
  | cons part rest ih =>
    intro k hk
    have hlast : rest = [] ∨ shiftsFrom k = [] → (ZeroFrom (part :: rest) (shiftsFrom k) ↔
        part.length ≤ 3 ∧ atoi part = 0) := fun hend => by
      rw [zeroFrom_last hend]
      exact and_congr_right fun h => shl_eq_zero (k := 0) h (by decide)
    rw [take_succ_cons, forall_mem_cons]
    match rest, k with
    | [], k =>
      rw [hlast (.inl rfl), take_nil]
      exact ⟨fun h => ⟨h, fun _ hq => by cases hq⟩, fun h => h.1⟩
    | q :: rest, 0 =>
      rw [hlast (.inr rfl), take_zero]
      exact ⟨fun h => ⟨h, fun _ hq => by cases hq⟩, fun h => h.1⟩
    | q :: rest, k + 1 =>
      rw [shiftsFrom, zeroFrom_cons, ih k (by omega), and_assoc]
      exact and_congr_right fun h => and_congr_left fun _ => shl_eq_zero h (by omega)

theorem zeroFrom_iff (parts : List (List UInt8)) : ZeroFrom parts [24, 16, 8, 0] ↔ ZeroParts (parts.take 5) := by
  match parts with
  | [] =>
    refine iff_of_true trivial ⟨?_, ?_, ?_, ?_⟩
    all_goals
      rintro _ h
      cases h
  | [part] =>
    rw [zeroFrom_last (.inl rfl)]
    constructor
    · rintro ⟨hshort, hzero⟩
      have hzero := (shl_eq_zero (k := 0) hshort (by decide)).mp hzero
      have hdvd : 256 ∣ atoi part := hzero ▸ Int.dvd_zero 256
      exact ⟨forall_mem_singleton.mpr hshort, fun _ h => Option.some.inj h ▸ hdvd, (fun _ h => by cases h),
        fun _ h => Option.some.inj h ▸ hzero⟩
    · intro h
      have hshort := h.short part mem_cons_self
      exact ⟨hshort, (shl_eq_zero (k := 0) hshort (by decide)).mpr (h.last part rfl)⟩
  | part :: q :: rest =>
    have htail := zeroFrom_tail (q :: rest) 3 le_rfl
    rw [zeroFrom_cons, show [16, 8, 0] = shiftsFrom 3 from rfl, htail, take_succ_cons]
    constructor
    · rintro ⟨hshort, hhead, hrest⟩
      refine ⟨forall_mem_cons.mpr ⟨hshort, fun r hr => (hrest r hr).1⟩,
        fun _ h => Option.some.inj h ▸ (shl_head_eq_zero hshort).mp hhead, fun r hr => (hrest r hr).2, fun r hr => ?_⟩
      rw [take_succ_cons, take_succ_cons, getLast?_cons_cons] at hr
      exact (hrest r (mem_of_mem_getLast? hr)).2
    · rintro ⟨hshort, hhead, hzero, -⟩
      have hpart := hshort part mem_cons_self
      exact ⟨hpart, (shl_head_eq_zero hpart).mpr (hhead part rfl), fun r hr =>
        ⟨hshort r (mem_cons_of_mem _ hr), hzero r hr⟩⟩

/-! ## Dotted quads -/

/-- A decimal part of at most three digits. -/
structure DecimalPart (part : List UInt8) (n : ℕ) : Prop where
  digits : ∀ c ∈ part, isdigit c = true
  ne : part ≠ []
  short : part.length ≤ 3
  value : digitsValue part = n
  byte : n ≤ 255

/-- The string `a.b.c.d`, blanks apart. -/
def DottedQuad (s : List UInt8) (a b c d : ℕ) : Prop :=
  ∃ p₁ p₂ p₃ p₄, s.filter (· ≠ 32) = p₁ ++ 46 :: (p₂ ++ 46 :: (p₃ ++ 46 :: p₄)) ∧
    DecimalPart p₁ a ∧ DecimalPart p₂ b ∧ DecimalPart p₃ c ∧ DecimalPart p₄ d

/-- **The property**: the value of a dotted quad, zero for every other string, and no write outside the buffer. -/
structure AcceptsExactly (ip : List UInt8) : Prop where
  quads : ∀ a b c d, DottedQuad (cstr ip) a b c d → ip2long ip = some (a * 2 ^ 24 + b * 2 ^ 16 + c * 2 ^ 8 + d)
  others : (¬ ∃ a b c d, DottedQuad (cstr ip) a b c d) → ip2long ip = some 0

theorem DecimalPart.atoi {part : List UInt8} {n : ℕ} (h : DecimalPart part n) : Sarah.atoi part = n := by
  rw [← h.value]
  exact atoi_digits h.ne h.digits (by rw [h.value]; have := h.byte; omega)

theorem DecimalPart.noDot {part : List UInt8} {n : ℕ} (h : DecimalPart part n) : 46 ∉ part := fun hmem => by
  have hdigit := h.digits 46 hmem
  revert hdigit
  decide

theorem shl_byte {n p : ℕ} (hn : n ≤ 255) (hp : p = 24 ∨ p = 16 ∨ p = 8 ∨ p = 0) : shl n p = n * 2 ^ p := by
  unfold shl
  rcases hp with rfl | rfl | rfl | rfl <;> omega

theorem or_bytes {a b c d : ℕ} (hb : b ≤ 255) (hc : c ≤ 255) (hd : d ≤ 255) :
    0 ||| a * 2 ^ 24 ||| b * 2 ^ 16 ||| c * 2 ^ 8 ||| d * 2 ^ 0 = a * 2 ^ 24 + b * 2 ^ 16 + c * 2 ^ 8 + d := by
  have h₁ := Nat.two_pow_add_eq_or_of_lt (i := 24) (b := b * 2 ^ 16) (by omega) a
  have h₂ := Nat.two_pow_add_eq_or_of_lt (i := 16) (b := c * 2 ^ 8) (by omega) (a * 2 ^ 8 + b)
  have h₃ := Nat.two_pow_add_eq_or_of_lt (i := 8) (b := d) (by omega) (a * 2 ^ 16 + b * 2 ^ 8 + c)
  have e₁ : 2 ^ 24 * a + b * 2 ^ 16 = 2 ^ 16 * (a * 2 ^ 8 + b) := by omega
  have e₂ : 2 ^ 16 * (a * 2 ^ 8 + b) + c * 2 ^ 8 = 2 ^ 8 * (a * 2 ^ 16 + b * 2 ^ 8 + c) := by omega
  rw [Nat.zero_or, Nat.mul_comm a, ← h₁, e₁, ← h₂, e₂, Nat.pow_zero, Nat.mul_one, ← h₃]

theorem ip2long_quad {ip : List UInt8} {a b c d : ℕ} (h : DottedQuad (cstr ip) a b c d) :
    ip2long ip = some (a * 2 ^ 24 + b * 2 ^ 16 + c * 2 ^ 8 + d) := by
  obtain ⟨p₁, p₂, p₃, p₄, hs, h₁, h₂, h₃, h₄⟩ := h
  have hparts : ipParts (cstr ip) = [p₁, p₂, p₃, p₄] := by
    rw [ipParts, hs, splitOn_append_cons_self_of_not_mem h₁.noDot, splitOn_append_cons_self_of_not_mem h₂.noDot,
      splitOn_append_cons_self_of_not_mem h₃.noDot, splitOn_eq_singleton h₄.noDot]
  rw [ip2long_eq, hparts, partsValue_cons h₁.short, partsValue_cons h₂.short, partsValue_cons h₃.short,
    partsValue_last h₄.short (.inl rfl), h₁.atoi, h₂.atoi, h₃.atoi, h₄.atoi, shl_byte h₁.byte (by decide),
    shl_byte h₂.byte (by decide), shl_byte h₃.byte (by decide), shl_byte h₄.byte (by decide),
    or_bytes h₂.byte h₃.byte h₄.byte]

/-- **When exactly dotted quads are accepted**: the string is one, or of its first five parts one has four bytes and no
earlier one more, or they have three at most and add nothing to the value. -/
theorem acceptsExactly_iff (ip : List UInt8) : AcceptsExactly ip ↔
    (∃ a b c d, DottedQuad (cstr ip) a b c d) ∨ FourFirst ((ipParts (cstr ip)).take 5) ∨
      ZeroParts ((ipParts (cstr ip)).take 5) := by
  have hzero : ip2long ip = some 0 ↔
      FourFirst ((ipParts (cstr ip)).take 5) ∨ ZeroParts ((ipParts (cstr ip)).take 5) := by
    rw [ip2long_eq, partsValue_eq_zero_iff _ _ _ (ipParts_ne_nil _), zeroFrom_iff]
    exact or_congr_right (and_iff_right rfl)
  rw [← hzero]
  constructor
  · intro h
    by_cases hquad : ∃ a b c d, DottedQuad (cstr ip) a b c d
    · exact .inl hquad
    · exact .inr (h.others hquad)
  · rintro (hquad | h)
    · exact ⟨fun _ _ _ _ => ip2long_quad, fun hnot => absurd hquad hnot⟩
    · refine ⟨fun _ _ _ _ => ip2long_quad, fun _ => h⟩

/-- Five characters in a row run past the end of the buffer. -/
theorem not_acceptsExactly : ¬ ∀ ip : List UInt8, AcceptsExactly ip := by
  intro hall
  have hnone : ip2long (lit "12345") = none := by decide
  have hexact := hall (lit "12345")
  by_cases hquad : ∃ a b c d, DottedQuad (cstr (lit "12345")) a b c d
  · obtain ⟨a, b, c, d, h⟩ := hquad
    rw [hexact.quads a b c d h] at hnone
    cases hnone
  · rw [hexact.others hquad] at hnone
    cases hnone

end Sarah
