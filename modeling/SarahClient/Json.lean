import SarahClient.CInt
import Mathlib.Data.Rat.Defs
import Mathlib.Algebra.Order.Ring.Rat
import Mathlib.Tactic.Linarith

/-!
# Parsed JSON as `cJSON.c` holds it

* `Double`: a C `double` that `strtod` can return for a JSON number;
* `CJson`: the item tree, with the fields `valueint`, `valuestring`, `valuedouble` as functions;
* `getObjectItem`: the case-insensitive member lookup;
* `QueryEnv`: the outcome of a query that is answered in JSON.
-/

namespace Sarah

theorem tdiv_range {n : ℤ} {d : ℕ} (hd : 0 < d) {m : ℤ} (h₁ : -m * d < n) (h₂ : n < m * d) :
    -m < n.tdiv d ∧ n.tdiv d < m := by
  have hd' : (0 : ℤ) < d := by exact_mod_cast hd
  rcases le_total 0 n with hn | hn
  · rw [Int.tdiv_eq_ediv_of_nonneg hn]
    have hlt : n / d < m := Int.ediv_lt_of_lt_mul hd' h₂
    have hnn : 0 ≤ n / d := Int.ediv_nonneg hn hd'.le
    omega
  · have hneg : n.tdiv d = -((-n) / d) := by
      rw [← Int.tdiv_eq_ediv_of_nonneg (by omega), Int.neg_tdiv, neg_neg]
    have hlt : (-n) / d < m := Int.ediv_lt_of_lt_mul hd' (by linarith)
    have hnn : 0 ≤ (-n) / d := Int.ediv_nonneg (by omega) hd'.le
    rw [hneg]
    omega

/-- A `double` other than NaN and -0.0; the finite values are rationals, with one zero. -/
inductive Double
  | ninf
  | fin (q : ℚ)
  | pinf
  deriving DecidableEq

namespace Double

/-- `a <= b`. -/
def le : Double → Double → Bool
  | ninf, _ => true
  | _, pinf => true
  | fin p, fin q => p ≤ q
  | _, _ => false

/-- The `valueint` of a number: saturated, else truncated towards zero (`parse_number`). -/
def toInt : Double → ℤ
  | ninf => -2 ^ 31
  | pinf => 2 ^ 31 - 1
  | fin q => if 2 ^ 31 - 1 ≤ q then 2 ^ 31 - 1 else if q ≤ -2 ^ 31 then -2 ^ 31 else q.num.tdiv q.den

theorem le_total (a b : Double) (h : a.le b = false) : b.le a = true := by
  cases a with
  | ninf => cases b <;> cases h
  | fin p =>
    cases b with
    | ninf => rfl
    | fin q =>
      simp only [le, decide_eq_true_eq, decide_eq_false_iff_not, not_le] at h ⊢
      exact h.le
    | pinf => cases h
  | pinf => cases b <;> rfl

theorem le_trans {a b c : Double} (hab : a.le b = true) (hbc : b.le c = true) : a.le c = true := by
  cases a with
  | ninf => rfl
  | fin p =>
    cases b with
    | ninf => cases hab
    | fin q =>
      cases c with
      | ninf => cases hbc
      | fin r =>
        simp only [le, decide_eq_true_eq] at hab hbc ⊢
        exact hab.trans hbc
      | pinf => rfl
    | pinf => cases c <;> first | rfl | cases hbc
  | pinf => cases b <;> first | exact hbc | cases hab

theorem toInt_range (v : Double) : -2 ^ 31 ≤ v.toInt ∧ v.toInt < 2 ^ 31 := by
  cases v with
  | ninf => decide
  | pinf => decide
  | fin q =>
    simp only [toInt]
    split_ifs with h₁ h₂
    · decide
    · decide
    · rw [not_le] at h₁ h₂
      have hd : (0 : ℚ) < q.den := by exact_mod_cast q.den_pos
      have hq : (q.num : ℚ) = q * q.den := (Rat.mul_den_eq_num q).symm
      have hhi : (q.num : ℚ) < (2 ^ 31 : ℤ) * q.den := by
        rw [hq]
        exact mul_lt_mul_of_pos_right (by push_cast; linarith) hd
      have hlo : (-(2 ^ 31 : ℤ) : ℚ) * q.den < q.num := by
        rw [hq]
        exact mul_lt_mul_of_pos_right (by push_cast; linarith) hd
      have := tdiv_range q.den_pos (m := 2 ^ 31) (by exact_mod_cast hlo) (by exact_mod_cast hhi)
      omega

end Double

/-- A `cJSON` item with its children. -/
inductive CJson
  | null
  | bool (b : Bool)
  | number (v : Double)
  | string (s : List UInt8)
  | array (items : List CJson)
  | object (members : List (List UInt8 × CJson))

namespace CJson

/-- `item->valueint`; `parse_value` sets it to 1 for `true`. -/
def valueint : CJson → ℤ
  | bool true => 1
  | number v => v.toInt
  | _ => 0

/-- `item->valuestring`; `none` is `NULL`. -/
def valuestring : CJson → Option (List UInt8)
  | string s => some s
  | _ => none

/-- `item->valuedouble`. -/
def valuedouble : CJson → Double
  | number v => v
  | _ => .fin 0

/-- `tolower` in the C locale. -/
def tolower (c : UInt8) : UInt8 := if 65 ≤ c.toNat ∧ c.toNat ≤ 90 then c + 32 else c

/-- `cJSON_GetObjectItem`: the first member whose name agrees up to case. The children of an array have
no name. -/
def getObjectItem (item : CJson) (name : List UInt8) : Option CJson :=
  match item with
  | object members => (members.find? fun m => m.1.map tolower = name.map tolower).map Prod.snd
  | _ => none

theorem valueint_range (j : CJson) : -2 ^ 31 ≤ j.valueint ∧ j.valueint < 2 ^ 31 := by
  cases j with
  | number v => exact v.toInt_range
  | bool b => cases b <;> decide
  | _ => exact show -2 ^ 31 ≤ (0 : ℤ) ∧ (0 : ℤ) < 2 ^ 31 by decide

end CJson

/-- One HTTP query: whether curl starts and performs, the HTTP code, and the text that the receive callback
leaves in the caller's string buffer, which the caller clears first. -/
structure QueryEnv where
  curlInit : Bool
  performs : Bool
  httpCode : ℤ
  text : List UInt8

end Sarah
