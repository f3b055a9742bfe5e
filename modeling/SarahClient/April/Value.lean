import SarahClient.CNum
import SarahClient.Json

/-!
# Lua values

* `LuaKey`, `LuaLeaf`, `LuaTable`: a table is the list of its entries in the order of `lua_next`;
* `Double.ofInt`: the conversion of an integer to `double`;
* `luaToInteger`, `LuaTable.set`.
-/

namespace Sarah

/-- `(double) n`: 53 significant bits, halves to even. -/
def Double.ofInt (n : ℤ) : Double :=
  let m := n.natAbs
  let u := 2 ^ (m.log2 - 52)
  let q := if 2 * (m % u) < u ∨ (2 * (m % u) = u ∧ m / u % 2 = 0) then m / u else m / u + 1
  .fin ((n.sign * (q * u : ℕ) : ℤ) : ℚ)

/-- At most `LUAI_MAXSHORTLEN` bytes: such strings are shared. -/
def shortString (s : List UInt8) : Bool := s.length ≤ 40

/-- A table key; the keys of the last kind are booleans, tables, functions, threads and userdata. -/
inductive LuaKey
  | integer (i : Int64)
  | number (d : Double)
  | string (s : List UInt8)
  | other
  deriving DecidableEq

/-- A value other than a table; `none` is NaN, and the values of the last kind are functions, threads and
userdata. -/
inductive LuaLeaf
  | boolean (b : Bool)
  | integer (i : Int64)
  | number (d : Option Double)
  | string (s : List UInt8)
  | other
  deriving DecidableEq

/-- An acyclic table: an entry with its key and value, and the entries that `lua_next` visits after it. -/
inductive LuaTable
  | nil
  | leaf (key : LuaKey) (value : LuaLeaf) (rest : LuaTable)
  | table (key : LuaKey) (value : LuaTable) (rest : LuaTable)
  deriving DecidableEq

/-- `lua_tointeger` of a float: 0 where the number has no integer value of 64 bits. -/
def luaToInteger : Double → ℤ
  | .fin q => if q.den = 1 ∧ -2 ^ 63 ≤ q.num ∧ q.num < 2 ^ 63 then q.num else 0
  | _ => 0

theorem luaToInteger_range (d : Double) : -2 ^ 63 ≤ luaToInteger d ∧ luaToInteger d < 2 ^ 63 := by
  unfold luaToInteger
  split
  · split_ifs with hrange
    · exact hrange.2
    · decide
  · decide

theorem shortString_decimalInt {n : ℤ} (h₁ : -2 ^ 63 ≤ n) (h₂ : n < 2 ^ 63) : shortString (decimalInt n) = true := by
  have hlen := decimalInt_length_le h₁ h₂
  exact decide_eq_true (by omega)

namespace LuaTable

/-- The keys in order. -/
def keys : LuaTable → List LuaKey
  | nil => []
  | leaf key _ rest => key :: rest.keys
  | table key _ rest => key :: rest.keys

/-- Entries behind others. -/
def append : LuaTable → LuaTable → LuaTable
  | nil, u => u
  | leaf key value rest, u => leaf key value (rest.append u)
  | table key value rest, u => table key value (rest.append u)

/-- One entry. -/
def entry (key : LuaKey) : LuaLeaf ⊕ LuaTable → LuaTable
  | .inl value => leaf key value nil
  | .inr value => table key value nil

/-- `lua_settable` with a value that is not nil: in the place of the entry with this key, or behind the others. -/
def set (key : LuaKey) (value : LuaLeaf ⊕ LuaTable) : LuaTable → LuaTable
  | nil => entry key value
  | leaf k v rest => if k = key then (entry key value).append rest else leaf k v (rest.set key value)
  | table k v rest => if k = key then (entry key value).append rest else table k v (rest.set key value)

/-- `lua_settable` with nil. -/
def erase (key : LuaKey) : LuaTable → LuaTable
  | nil => nil
  | leaf k v rest => if k = key then rest else leaf k v (rest.erase key)
  | table k v rest => if k = key then rest else table k v (rest.erase key)

theorem append_nil (t : LuaTable) : t.append nil = t := by
  induction t with
  | nil => rfl
  | leaf key value rest ih => rw [append, ih]
  | table key value rest _ ih => rw [append, ih]

theorem append_assoc (t u w : LuaTable) : (t.append u).append w = t.append (u.append w) := by
  induction t with
  | nil => rfl
  | leaf key value rest ih => rw [append, append, append, ih]
  | table key value rest _ ih => rw [append, append, append, ih]

theorem keys_append (t u : LuaTable) : (t.append u).keys = t.keys ++ u.keys := by
  induction t with
  | nil => rfl
  | leaf key value rest ih => rw [append, keys, keys, ih, List.cons_append]
  | table key value rest _ ih => rw [append, keys, keys, ih, List.cons_append]

@[simp] theorem keys_entry (key : LuaKey) (value : LuaLeaf ⊕ LuaTable) : (entry key value).keys = [key] := by
  cases value <;> rfl

theorem append_left_cancel {t u w : LuaTable} (h : t.append u = t.append w) : u = w := by
  induction t with
  | nil => exact h
  | leaf key value rest ih => exact ih (leaf.inj h).2.2
  | table key value rest _ ih => exact ih (table.inj h).2.2

theorem set_of_notMem {t : LuaTable} {key : LuaKey} (h : key ∉ t.keys) (value : LuaLeaf ⊕ LuaTable) :
    t.set key value = t.append (entry key value) := by
  induction t with
  | nil => rfl
  | leaf k v rest ih =>
    rw [keys, List.mem_cons, not_or] at h
    rw [set, if_neg (Ne.symm h.1), ih h.2, append]
  | table k v rest _ ih =>
    rw [keys, List.mem_cons, not_or] at h
    rw [set, if_neg (Ne.symm h.1), ih h.2, append]

theorem mem_keys_set {t : LuaTable} {key k : LuaKey} {value : LuaLeaf ⊕ LuaTable} (h : k ∈ (t.set key value).keys) :
    k = key ∨ k ∈ t.keys := by
  induction t with
  | nil =>
    rw [set, keys_entry, List.mem_singleton] at h
    exact .inl h
  | leaf k' v rest ih =>
    rw [set] at h
    split_ifs at h with hk
    · rw [keys_append, keys_entry, List.singleton_append, List.mem_cons] at h
      exact h.imp_right (List.mem_cons_of_mem k')
    · rw [keys, List.mem_cons] at h ⊢
      rcases h with h | h
      · exact .inr (.inl h)
      · exact (ih h).imp_right .inr
  | table k' v rest _ ih =>
    rw [set] at h
    split_ifs at h with hk
    · rw [keys_append, keys_entry, List.singleton_append, List.mem_cons] at h
      exact h.imp_right (List.mem_cons_of_mem k')
    · rw [keys, List.mem_cons] at h ⊢
      rcases h with h | h
      · exact .inr (.inl h)
      · exact (ih h).imp_right .inr

end LuaTable

theorem Double.ofInt_of_range {n : ℤ} (h₁ : -2 ^ 53 < n) (h₂ : n < 2 ^ 53) : Double.ofInt n = .fin n := by
  have hm : n.natAbs.log2 - 52 = 0 := by
    have : n.natAbs.log2 < 53 := by
      rcases Nat.eq_zero_or_pos n.natAbs with h | h
      · rw [h]
        decide
      · rw [Nat.log2_lt (by omega)]
        omega
    omega
  rw [Double.ofInt, hm, pow_zero, Nat.mod_one, Nat.div_one, if_pos (.inl (by decide)), mul_one, Int.sign_mul_natAbs]

end Sarah
