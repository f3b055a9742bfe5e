import Mathlib.Data.List.Basic

/-!
# Writing bytes into a file at an offset

* `pwrite c off b`: the content `c` after the bytes `b` are stored from offset `off` on; a hole is
  filled with zeros, and storing nothing leaves the file alone;
* `pwrite_of_le`, `pwrite_append`: a write inside the file.
-/

namespace FileBytes

/-- The content after storing `b` at `off`. -/
def pwrite (c : List UInt8) (off : ℕ) (b : List UInt8) : List UInt8 :=
  if b = [] then c
  else (c ++ List.replicate (off - c.length) 0).take off ++ b ++ c.drop (off + b.length)

@[simp] theorem pwrite_nil (c : List UInt8) (off : ℕ) : pwrite c off [] = c := if_pos rfl

theorem pwrite_of_le {c : List UInt8} {off : ℕ} (h : off ≤ c.length) (b : List UInt8) :
    pwrite c off b = c.take off ++ b ++ c.drop (off + b.length) := by
  unfold pwrite
  split_ifs with hb
  · subst hb
    rw [List.append_nil, List.length_nil, Nat.add_zero, List.take_append_drop]
  · rw [Nat.sub_eq_zero_of_le h, List.replicate_zero, List.append_nil]

theorem length_pwrite_of_le {c b : List UInt8} {off : ℕ} (h : off + b.length ≤ c.length) :
    (pwrite c off b).length = c.length := by
  rw [pwrite_of_le (by omega)]
  simp only [List.length_append, List.length_take, List.length_drop]
  omega

theorem pwrite_append {x b b' : List UInt8} (h : b'.length = b.length) (y : List UInt8) :
    pwrite (x ++ b ++ y) x.length b' = x ++ b' ++ y := by
  rw [pwrite_of_le (by simp only [List.length_append]; omega), List.append_assoc x b y, List.take_left, h,
    ← List.append_assoc x b y, ← List.length_append, List.drop_left]

end FileBytes
