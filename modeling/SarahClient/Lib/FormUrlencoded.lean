import Mathlib.Data.List.Infix
import Mathlib.Data.List.TakeWhile
import Mathlib.Data.List.Perm.Basic
import Mathlib.Algebra.BigOperators.Group.List.Basic
import Mathlib.Algebra.GroupWithZero.Nat

/-!
# `application/x-www-form-urlencoded`

* `percentDecode`, `fieldText`, `decodeField`, `parse`: the decoder of the format;
* `joined`: pairs written one after the other with `=` and `&`, and with no encoding;
* `Plain`: the texts that the decoder leaves alone; `percentDecode_eq_of_length`;
* `weight_parse`: every separator that the decoder finds is missing in what it returns;
* **`parse_joined_perm_iff`**: when the pairs come back.
-/

namespace FormUrlencoded

/-- The value of a hexadecimal digit. -/
def hexVal (c : UInt8) : Option ℕ :=
  if 48 ≤ c.toNat ∧ c.toNat ≤ 57 then some (c.toNat - 48)
  else if 65 ≤ c.toNat ∧ c.toNat ≤ 70 then some (c.toNat - 55)
  else if 97 ≤ c.toNat ∧ c.toNat ≤ 102 then some (c.toNat - 87)
  else none

/-- A hexadecimal digit. -/
def isHex (c : UInt8) : Bool := (hexVal c).isSome

/-- `%` and two hexadecimal digits become a byte; any other `%` stays. -/
def percentDecode : List UInt8 → List UInt8
  | c :: x :: y :: s =>
    if c = 37 ∧ isHex x ∧ isHex y then
      UInt8.ofNat ((hexVal x).getD 0 * 16 + (hexVal y).getD 0) :: percentDecode s
    else c :: percentDecode (x :: y :: s)
  | s => s

/-- A `+` stands for a blank. -/
def unplus (s : List UInt8) : List UInt8 := s.map fun c => if c = 43 then 32 else c

/-- The text of a name or a value. -/
def fieldText (s : List UInt8) : List UInt8 := percentDecode (unplus s)

/-- What is in front of the first `=`, and what is behind it. -/
def decodeField (seg : List UInt8) : List UInt8 × List UInt8 :=
  (fieldText (seg.takeWhile (· ≠ 61)), fieldText ((seg.dropWhile (· ≠ 61)).drop 1))

/-- The pairs of a body. -/
def parse (body : List UInt8) : List (List UInt8 × List UInt8) :=
  ((body.splitOn 38).filter (· ≠ [])).map decodeField

/-- A pair without an encoding. -/
def pairText (p : List UInt8 × List UInt8) : List UInt8 := p.1 ++ 61 :: p.2

/-- Pairs with `&` between them. -/
def joined : List (List UInt8 × List UInt8) → List UInt8
  | [] => []
  | [p] => pairText p
  | p :: q :: ps => pairText p ++ 38 :: joined (q :: ps)

/-- No separator, no `+`, and no `%` in front of two hexadecimal digits. -/
def Plain (s : List UInt8) : Prop :=
  38 ∉ s ∧ 43 ∉ s ∧ ∀ x y, isHex x = true → isHex y = true → ¬ [37, x, y] <:+: s

/-- The bytes of a pair. -/
def size (p : List UInt8 × List UInt8) : ℕ := p.1.length + p.2.length

/-- The bytes of all pairs. -/
def total (ps : List (List UInt8 × List UInt8)) : ℕ := (ps.map size).sum

@[simp] theorem total_nil : total [] = 0 := rfl

@[simp] theorem total_cons (p : List UInt8 × List UInt8) (ps : List (List UInt8 × List UInt8)) :
    total (p :: ps) = size p + total ps := List.sum_cons

@[simp] theorem total_append (ps qs : List (List UInt8 × List UInt8)) : total (ps ++ qs) = total ps + total qs := by
  rw [total, List.map_append, List.sum_append, total, total]

theorem length_pairText (p : List UInt8 × List UInt8) : (pairText p).length = size p + 1 := by
  rw [pairText, List.length_append, List.length_cons, size, Nat.add_assoc]

/-! ## Texts -/

theorem length_percentDecode_le (s : List UInt8) : (percentDecode s).length ≤ s.length := by
  induction s using percentDecode.induct with
  | case1 c x y s h ih =>
    rw [percentDecode, if_pos h, List.length_cons, List.length_cons, List.length_cons, List.length_cons]
    omega
  | case2 c x y s h ih =>
    rw [percentDecode, if_neg h, List.length_cons, List.length_cons]
    exact Nat.succ_le_succ ih
  | case3 s h => rw [percentDecode]; exact h

theorem percentDecode_eq_of_length {s : List UInt8} (h : (percentDecode s).length = s.length) :
    percentDecode s = s := by
  induction s using percentDecode.induct with
  | case1 c x y s hc ih =>
    rw [percentDecode, if_pos hc, List.length_cons, List.length_cons, List.length_cons, List.length_cons] at h
    have hle := length_percentDecode_le s
    omega
  | case2 c x y s hc ih =>
    rw [percentDecode, if_neg hc, List.length_cons, List.length_cons] at h
    rw [percentDecode, if_neg hc, ih (Nat.succ.inj h)]
  | case3 s hs => rw [percentDecode]; exact hs

theorem percentDecode_eq_self_iff {s : List UInt8} :
    percentDecode s = s ↔ ∀ x y, isHex x = true → isHex y = true → ¬ [37, x, y] <:+: s := by
  induction s using percentDecode.induct with
  | case1 c x y s hc ih =>
    obtain ⟨rfl, hx, hy⟩ := hc
    refine iff_of_false (fun h => ?_) fun h => h x y hx hy ⟨[], s, rfl⟩
    have hlen := congrArg List.length h
    rw [percentDecode, if_pos ⟨rfl, hx, hy⟩, List.length_cons, List.length_cons, List.length_cons,
      List.length_cons] at hlen
    have hle := length_percentDecode_le s
    omega
  | case2 c x y s hc ih =>
    rw [percentDecode, if_neg hc, List.cons_inj_right, ih]
    constructor
    · intro h u v hu hv hin
      rcases List.infix_cons_iff.mp hin with hstart | hin
      · obtain ⟨t, ht⟩ := hstart
        cases ht
        exact hc ⟨rfl, hu, hv⟩
      · exact h u v hu hv hin
    · exact fun h u v hu hv hin => h u v hu hv (hin.trans (List.suffix_cons c (x :: y :: s)).isInfix)
  | case3 s hs =>
    rw [percentDecode]
    · refine iff_of_true rfl fun x y _ _ hin => ?_
      obtain ⟨a, b, rfl⟩ := hin
      cases a with
      | nil => exact hs 37 x y b rfl
      | cons c a =>
        cases a with
        | nil => exact hs c 37 x (y :: b) rfl
        | cons d a =>
          cases a with
          | nil => exact hs c d 37 (x :: y :: b) rfl
          | cons e a => exact hs c d e (a ++ [37, x, y] ++ b) rfl
    · exact hs

theorem plain_iff {s : List UInt8} : Plain s ↔ 38 ∉ s ∧ 43 ∉ s ∧ percentDecode s = s := by
  rw [percentDecode_eq_self_iff]
  rfl

instance (s : List UInt8) : Decidable (Plain s) := decidable_of_iff _ plain_iff.symm

theorem length_unplus (s : List UInt8) : (unplus s).length = s.length := List.length_map _

theorem unplus_of_notMem {s : List UInt8} (h : 43 ∉ s) : unplus s = s := by
  unfold unplus
  nth_rewrite 2 [← List.map_id s]
  exact List.map_congr_left fun c hc => if_neg fun heq : c = 43 => h (heq ▸ hc)

theorem notMem_unplus (s : List UInt8) : 43 ∉ unplus s := by
  intro h
  obtain ⟨c, -, hc⟩ := List.mem_map.mp h
  split_ifs at hc with heq
  · cases hc
  · exact heq hc

theorem length_fieldText_le (s : List UInt8) : (fieldText s).length ≤ s.length := by
  have hle := length_percentDecode_le (unplus s)
  rw [length_unplus] at hle
  exact hle

theorem fieldText_of_length {s : List UInt8} (h : (fieldText s).length = s.length) : fieldText s = unplus s :=
  percentDecode_eq_of_length (h.trans (length_unplus s).symm)

theorem fieldText_of_plain {s : List UInt8} (h : Plain s) : fieldText s = s := by
  obtain ⟨-, hplus, hdecode⟩ := plain_iff.mp h
  rw [fieldText, unplus_of_notMem hplus, hdecode]

/-! ## Fields -/

theorem takeWhile_dropWhile_of_notMem {k : List UInt8} (hk : 61 ∉ k) (v : List UInt8) :
    (k ++ 61 :: v).takeWhile (· ≠ 61) = k ∧ (k ++ 61 :: v).dropWhile (· ≠ 61) = 61 :: v := by
  have hall : ∀ c ∈ k, decide (c ≠ 61) = true := fun c hc => decide_eq_true fun heq => hk (heq ▸ hc)
  rw [List.takeWhile_append_of_pos hall, List.dropWhile_append_of_pos hall]
  exact ⟨List.append_nil k, rfl⟩

theorem exists_first {seg : List UInt8} (h : 61 ∈ seg) : ∃ k v, seg = k ++ 61 :: v ∧ 61 ∉ k ∧
    decodeField seg = (fieldText k, fieldText v) := by
  obtain ⟨k, v, rfl, hk⟩ := List.eq_append_cons_of_mem h
  refine ⟨k, v, rfl, hk, ?_⟩
  obtain ⟨htake, hdrop⟩ := takeWhile_dropWhile_of_notMem hk v
  rw [decodeField, htake, hdrop]
  rfl

theorem decodeField_of_notMem {seg : List UInt8} (h : 61 ∉ seg) : decodeField seg = (fieldText seg, []) := by
  have hall : ∀ c ∈ seg, decide (c ≠ 61) = true := fun c hc => decide_eq_true fun heq => h (heq ▸ hc)
  rw [decodeField, List.takeWhile_eq_self_iff.mpr hall, List.dropWhile_eq_nil_iff.mpr hall]
  rfl

theorem weight_decodeField (seg : List UInt8) : size (decodeField seg) + (if 61 ∈ seg then 1 else 0) ≤ seg.length := by
  split_ifs with h
  · obtain ⟨k, v, rfl, -, hdecode⟩ := exists_first h
    have hk := length_fieldText_le k
    have hv := length_fieldText_le v
    rw [hdecode, size, List.length_append, List.length_cons]
    dsimp only
    omega
  · rw [decodeField_of_notMem h]
    exact length_fieldText_le seg

theorem parse_of_notMem {s : List UInt8} (h : 38 ∉ s) : parse s = if s = [] then [] else [decodeField s] := by
  rw [parse, List.splitOn_eq_singleton h]
  split_ifs with hnil
  · rw [hnil]
    rfl
  · rw [List.filter_singleton, decide_eq_true hnil]
    rfl

theorem parse_append (a b : List UInt8) : parse (a ++ 38 :: b) = parse a ++ parse b := by
  rw [parse, List.splitOn_eq_splitOnP, List.splitOnP_append_cons _ _ (by decide), List.filter_append, List.map_append]
  rfl

theorem weight_parse (s : List UInt8) : total (parse s) + s.count 38 + (if 61 ∈ s then 1 else 0) ≤ s.length := by
  induction hn : s.length using Nat.strong_induction_on generalizing s with
  | _ n ih =>
    by_cases h : 38 ∈ s
    · obtain ⟨a, b, rfl, ha⟩ := List.eq_append_cons_of_mem h
      rw [List.length_append, List.length_cons] at hn
      have hfront := ih a.length (by omega) a rfl
      have hback := ih b.length (by omega) b rfl
      rw [parse_append, total_append, List.count_append, List.count_cons_self]
      have heq : 61 ∈ a ++ 38 :: b ↔ 61 ∈ a ∨ 61 ∈ b := by simp
      by_cases h₁ : 61 ∈ a <;> by_cases h₂ : 61 ∈ b <;> simp only [h₁, h₂, heq, if_true, if_false, or_true, true_or,
        or_self] at hfront hback ⊢ <;>
        omega
    · rw [parse_of_notMem h, List.count_eq_zero_of_not_mem h, Nat.add_zero, ← hn]
      split_ifs with hnil hmem hmem
      · rw [hnil] at hmem
        cases hmem
      · exact Nat.zero_le _
      · have hle := weight_decodeField s
        rw [if_pos hmem] at hle
        rw [total_cons, total_nil]
        omega
      · have hle := weight_decodeField s
        rw [if_neg hmem] at hle
        rw [total_cons, total_nil]
        omega

/-! ## Pairs -/

theorem mem_pairText (p : List UInt8 × List UInt8) : 61 ∈ pairText p := List.mem_append_right _ List.mem_cons_self

theorem pairText_ne_nil (p : List UInt8 × List UInt8) : pairText p ≠ [] := List.ne_nil_of_mem (mem_pairText p)

theorem parse_joined : ∀ ps : List (List UInt8 × List UInt8),
    parse (joined ps) = (ps.map fun p => parse (pairText p)).flatten
  | [] => rfl
  | [p] => (List.append_nil _).symm
  | p :: q :: ps => by
    rw [joined, parse_append, parse_joined (q :: ps)]
    rfl

theorem total_parse_pairText_le (p : List UInt8 × List UInt8) :
    total (parse (pairText p)) + (pairText p).count 38 ≤ size p := by
  have hle := weight_parse (pairText p)
  rw [if_pos (mem_pairText p), length_pairText] at hle
  omega

theorem total_parse_le : ∀ ps : List (List UInt8 × List UInt8),
    total (ps.map fun p => parse (pairText p)).flatten ≤ total ps
  | [] => le_rfl
  | p :: ps => by
    rw [List.map_cons, List.flatten_cons, total_append, total_cons]
    exact Nat.add_le_add ((Nat.le_add_right _ _).trans (total_parse_pairText_le p)) (total_parse_le ps)

theorem total_parse_pairText_of_total : ∀ {ps : List (List UInt8 × List UInt8)},
    total (ps.map fun p => parse (pairText p)).flatten = total ps → ∀ p ∈ ps, total (parse (pairText p)) = size p
  | [], _, _, hp => absurd hp List.not_mem_nil
  | q :: ps, h, p, hp => by
    rw [List.map_cons, List.flatten_cons, total_append, total_cons] at h
    have hq := total_parse_pairText_le q
    have hps := total_parse_le ps
    rcases List.mem_cons.mp hp with rfl | hp
    · omega
    · exact total_parse_pairText_of_total (by omega) p hp

/-- A pair that keeps its bytes is one field, and both texts are kept up to `+`. -/
theorem parse_pairText_of_total {p : List UInt8 × List UInt8} (h : total (parse (pairText p)) = size p) :
    38 ∉ pairText p ∧ ∃ k v, pairText p = pairText (k, v) ∧ 61 ∉ k ∧ parse (pairText p) = [(unplus k, unplus v)] := by
  have hamp : 38 ∉ pairText p := by
    have hle := total_parse_pairText_le p
    exact List.count_eq_zero.mp (by omega)
  refine ⟨hamp, ?_⟩
  obtain ⟨k, v, hseg, hk, hdecode⟩ := exists_first (mem_pairText p)
  have hparse : parse (pairText p) = [(fieldText k, fieldText v)] := by
    rw [parse_of_notMem hamp, if_neg (pairText_ne_nil p), hdecode]
  have hlen := length_pairText p
  rw [hseg, List.length_append, List.length_cons] at hlen
  rw [hparse, total_cons, total_nil, size] at h
  have hkle := length_fieldText_le k
  have hvle := length_fieldText_le v
  dsimp only at h
  refine ⟨k, v, hseg, hk, ?_⟩
  rw [hparse, fieldText_of_length (by omega), fieldText_of_length (by omega)]

/-- A pair that the decoder gives back. -/
def PlainPair (p : List UInt8 × List UInt8) : Prop := Plain p.1 ∧ 61 ∉ p.1 ∧ Plain p.2

instance (p : List UInt8 × List UInt8) : Decidable (PlainPair p) := instDecidableAnd

theorem parse_pairText_of_plain {p : List UInt8 × List UInt8} (h : PlainPair p) : parse (pairText p) = [p] := by
  obtain ⟨hk, heq, hv⟩ := h
  have hamp : 38 ∉ pairText p := by
    intro hmem
    rcases List.mem_append.mp hmem with hmem | hmem
    · exact hk.1 hmem
    · rcases List.mem_cons.mp hmem with hmem | hmem
      · cases hmem
      · exact hv.1 hmem
  obtain ⟨htake, hdrop⟩ := takeWhile_dropWhile_of_notMem heq p.2
  rw [parse_of_notMem hamp, if_neg (pairText_ne_nil p), decodeField, pairText, htake, hdrop, fieldText_of_plain hk]
  exact congrArg (fun v => [(p.1, v)]) (fieldText_of_plain hv)

theorem notMem_unplus_of_notMem {s : List UInt8} (h : 61 ∉ s) : 61 ∉ unplus s := by
  intro hmem
  obtain ⟨c, hc, heq⟩ := List.mem_map.mp hmem
  split_ifs at heq
  · cases heq
  · exact h (heq ▸ hc)

/-- A pair that comes back with all its bytes, and with no `+`, and no `=` in its name. -/
theorem plainPair_of_total {p : List UInt8 × List UInt8} (hsize : total (parse (pairText p)) = size p)
    (hplus₁ : 43 ∉ p.1) (hplus₂ : 43 ∉ p.2) (heq : 61 ∉ p.1) : PlainPair p := by
  have hamp := (parse_pairText_of_total hsize).1
  obtain ⟨htake, hdrop⟩ := takeWhile_dropWhile_of_notMem heq p.2
  rw [parse_of_notMem hamp, if_neg (pairText_ne_nil p), decodeField, pairText, htake, hdrop, total_cons,
    total_nil] at hsize
  have hk := length_fieldText_le p.1
  have hv := length_fieldText_le p.2
  have hlen : (fieldText p.1).length + (fieldText p.2).length = p.1.length + p.2.length := hsize
  have hkText := fieldText_of_length (s := p.1) (by omega)
  have hvText := fieldText_of_length (s := p.2) (by omega)
  rw [fieldText, unplus_of_notMem hplus₁] at hkText
  rw [fieldText, unplus_of_notMem hplus₂] at hvText
  exact ⟨plain_iff.mpr ⟨fun h => hamp (List.mem_append_left _ h), hplus₁, hkText⟩, heq,
    plain_iff.mpr ⟨fun h => hamp (List.mem_append_right _ (List.mem_cons_of_mem _ h)), hplus₂, hvText⟩⟩

/-- **Pairs without an encoding** come back, in any order, exactly where the decoder finds nothing to change in them. -/
theorem parse_joined_perm_iff (ps : List (List UInt8 × List UInt8)) :
    (parse (joined ps)).Perm ps ↔ ∀ p ∈ ps, PlainPair p := by
  rw [parse_joined]
  constructor
  · intro hperm
    have htotal : total (ps.map fun p => parse (pairText p)).flatten = total ps := (hperm.map size).sum_eq
    have hparts := total_parse_pairText_of_total htotal
    -- no pair that comes back has a `+`, or an `=` in its name
    have hback : ∀ r ∈ (ps.map fun p => parse (pairText p)).flatten, 43 ∉ r.1 ∧ 43 ∉ r.2 ∧ 61 ∉ r.1 := by
      intro r hr
      obtain ⟨l, hl, hr⟩ := List.mem_flatten.mp hr
      obtain ⟨p, hp, rfl⟩ := List.mem_map.mp hl
      obtain ⟨-, k, v, -, hk, hparse⟩ := parse_pairText_of_total (hparts p hp)
      rw [hparse, List.mem_singleton] at hr
      rw [hr]
      exact ⟨notMem_unplus k, notMem_unplus v, notMem_unplus_of_notMem hk⟩
    intro p hp
    obtain ⟨hplus₁, hplus₂, heq⟩ := hback p (hperm.mem_iff.mpr hp)
    exact plainPair_of_total (hparts p hp) hplus₁ hplus₂ heq
  · intro h
    have hall : (ps.map fun p => parse (pairText p)) = ps.map fun p => [p] :=
      List.map_congr_left fun p hp => parse_pairText_of_plain (h p hp)
    rw [hall, ← List.flatMap_def, List.flatMap_singleton']

theorem joined_cons (p : List UInt8 × List UInt8) : ∀ ps : List (List UInt8 × List UInt8),
    joined (p :: ps) = pairText p ++ (ps.map fun p => 38 :: pairText p).flatten
  | [] => (List.append_nil _).symm
  | q :: ps => by rw [joined, joined_cons q ps, List.map_cons, List.flatten_cons, List.cons_append]

theorem total_parse_joined_le (ps : List (List UInt8 × List UInt8)) : total (parse (joined ps)) ≤ total ps := by
  rw [parse_joined]
  exact total_parse_le ps

end FormUrlencoded
