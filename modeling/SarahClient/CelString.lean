import SarahClient.CInt
import SarahClient.Disk.Model
import SarahClient.Network
import Mathlib.Data.List.DropRight
import Mathlib.Data.List.GetD

/-!
# The trims of `cel_string.c` in memory

A string is a block of bytes with a NUL; the loops work on the block. `slen` is an `int`.

* `celLeftTrim`, `celRightTrim`; `cstr_celLeftTrim`, `cstr_celRightTrim`: what they do to the string of the block;
* `Mirrors`: the law of the two trims;
* **`mirrors_iff`**: when it holds.
-/

namespace Sarah.CelString

open List

/-- The blanks of both loops. -/
def isBlank (c : UInt8) : Bool := c = 32 ∨ c = 9 ∨ c = 13

/-- `register int slen = strlen(str)`, as the number of steps of a loop up to it. -/
def slen (str : List UInt8) : ℕ := (i32 (cstr str).length).toNat

/-- The first loop of `cel_left_trim`, with `n` steps left. -/
def skipBlanks (str : List UInt8) : ℕ → ℕ → ℕ
  | 0, i => i
  | n + 1, i => if isBlank (str.getD i 0) then skipBlanks str n (i + 1) else i

/-- The second loop, with `n` steps left, and the NUL behind it. -/
def shiftLoop : ℕ → List UInt8 → ℕ → ℕ → List UInt8
  | 0, str, _, j => str.set j 0
  | n + 1, str, i, j => shiftLoop n (str.set j (str.getD i 0)) (i + 1) (j + 1)

/-- `cel_left_trim`. -/
def celLeftTrim (str : List UInt8) : List UInt8 :=
  let i := skipBlanks str (slen str) 0
  if 0 < i then shiftLoop (slen str - i) str i 0 else str

/-- The loop of `cel_right_trim` from `i = n - 1` down. -/
def cutLoop (str : List UInt8) : ℕ → List UInt8
  | 0 => str
  | n + 1 => if isBlank (str.getD n 0) then cutLoop str n else str.set (n + 1) 0

/-- `cel_right_trim`. -/
def celRightTrim (str : List UInt8) : List UInt8 := cutLoop str (slen str)

/-! ## The loops -/

section Loops

variable {str : List UInt8} {n i j : ℕ}

theorem drop_take_succ (h : i + (n + 1) ≤ str.length) :
    (str.drop i).take (n + 1) = str.getD i 0 :: (str.drop (i + 1)).take n := by
  have hi : i < str.length := by omega
  rw [drop_eq_getElem_cons hi, take_succ_cons, getD_eq_getElem _ _ hi]

theorem skipBlanks_eq (h : i + n ≤ str.length) :
    skipBlanks str n i = i + (((str.drop i).take n).takeWhile isBlank).length := by
  induction n generalizing i with
  | zero => rfl
  | succ n ih =>
    rw [skipBlanks, drop_take_succ h]
    split_ifs with hblank
    · rw [ih (by omega), takeWhile_cons_of_pos hblank, length_cons]
      omega
    · rw [takeWhile_cons_of_neg hblank]
      rfl

theorem shiftLoop_eq (hji : j < i) (h : i + n ≤ str.length) :
    shiftLoop n str i j = str.take j ++ (str.drop i).take n ++ 0 :: str.drop (j + n + 1) := by
  induction n generalizing str i j with
  | zero =>
    rw [shiftLoop, take_zero, append_nil, set_eq_take_append_cons_drop, if_pos (by omega)]
  | succ n ih =>
    have hj : j < str.length := by omega
    have htake : (str.set j (str.getD i 0)).take (j + 1) = str.take j ++ [str.getD i 0] := by
      rw [set_eq_take_append_cons_drop, if_pos hj, take_append, take_take, length_take_of_le hj.le,
        Nat.min_eq_right (Nat.le_succ j), Nat.add_sub_cancel_left, take_succ_cons, take_zero]
    rw [shiftLoop, ih (by omega) (by rw [length_set]; omega), htake, drop_set_of_lt (by omega),
      drop_set_of_lt (by omega),
      drop_take_succ h, append_assoc, append_assoc, singleton_append, append_assoc, cons_append]
    rw [show j + 1 + n + 1 = j + (n + 1) + 1 by omega]

theorem cutLoop_eq (h : n < str.length) : cutLoop str n =
    if (str.take n).rdropWhile isBlank = [] then str else str.set ((str.take n).rdropWhile isBlank).length 0 := by
  induction n with
  | zero => rfl
  | succ n ih =>
    have hn : n < str.length := by omega
    have htake : str.take (n + 1) = str.take n ++ [str.getD n 0] := by
      rw [take_succ_eq_append_getElem hn, getD_eq_getElem _ _ hn]
    rw [cutLoop, htake, rdropWhile_concat]
    split_ifs with hblank hnil hnil
    · rw [ih hn, if_pos hnil]
    · rw [ih hn, if_neg hnil]
    · exact absurd hnil (by simp)
    · rw [length_append, length_take_of_le hn.le, length_singleton]

end Loops

/-! ## What the trims do to a string -/

/-- The bytes of a string that the loops look at. -/
def seen (s : List UInt8) : List UInt8 := s.take (i32 s.length).toNat

/-- The trimmed text; one without a blank in front is left alone, however long it is. -/
def leftTrim (s : List UInt8) : List UInt8 :=
  if (seen s).takeWhile isBlank = [] then s else (seen s).dropWhile isBlank

/-- The same at the other end. -/
def rightTrim (s : List UInt8) : List UInt8 :=
  if (seen s).rdropWhile isBlank = [] then s else (seen s).rdropWhile isBlank

theorem slen_le (str : List UInt8) : slen str ≤ (cstr str).length := by
  have hrange := i32_range (cstr str).length
  unfold slen
  unfold i32 at hrange ⊢
  omega

theorem drop_length_takeWhile (p : UInt8 → Bool) (s : List UInt8) : s.drop (s.takeWhile p).length = s.dropWhile p := by
  have hsplit := congrArg (drop (s.takeWhile p).length) (takeWhile_append_dropWhile (p := p) (l := s))
  rw [drop_left] at hsplit
  exact hsplit.symm

theorem take_length_rdropWhile (p : UInt8 → Bool) (s : List UInt8) : s.take (s.rdropWhile p).length = s.rdropWhile p :=
  (prefix_iff_eq_take.mp <| rdropWhile_prefix p s).symm

theorem length_rdropWhile_le (p : UInt8 → Bool) (s : List UInt8) : (s.rdropWhile p).length ≤ s.length := by
  have hstart := rdropWhile_prefix p s
  exact hstart.length_le

theorem zero_notMem_seen (str : List UInt8) : 0 ∉ seen (cstr str) := fun hmem =>
  zero_notMem_cstr str (mem_of_mem_take hmem)

section Strings

variable {str : List UInt8} (h : 0 ∈ str)
include h

theorem exists_cstr : ∃ rest, str = cstr str ++ 0 :: rest := by
  obtain ⟨a, b, hab, ha⟩ := eq_append_cons_of_mem h
  exact ⟨b, by rw [hab, cstr_append_zero ha]⟩

theorem slen_lt : slen str < str.length := by
  obtain ⟨rest, hrest⟩ := exists_cstr h
  have hlen := congrArg length hrest
  rw [length_append, length_cons] at hlen
  have := slen_le str
  omega

theorem take_slen : str.take (slen str) = seen (cstr str) := by
  obtain ⟨rest, hrest⟩ := exists_cstr h
  exact (congrArg (take (slen str)) hrest).trans (take_append_of_le_length (slen_le str))

theorem cstr_celLeftTrim : cstr (celLeftTrim str) = leftTrim (cstr str) := by
  have hlen := slen_lt h
  have hskip : skipBlanks str (slen str) 0 = ((seen (cstr str)).takeWhile isBlank).length := by
    rw [skipBlanks_eq (by omega), Nat.zero_add, drop_zero, take_slen h]
  have hseen : (seen (cstr str)).length = slen str := by
    rw [← take_slen h, length_take_of_le hlen.le]
  have hle := (takeWhile_sublist isBlank (l := seen (cstr str))).length_le
  unfold celLeftTrim leftTrim
  simp only [hskip]
  by_cases hnil : (seen (cstr str)).takeWhile isBlank = []
  · rw [if_neg (by rw [hnil]; exact lt_irrefl 0), if_pos hnil]
  · have hpos := length_pos_of_ne_nil hnil
    have hmoved : (str.drop ((seen (cstr str)).takeWhile isBlank).length).take
        (slen str - ((seen (cstr str)).takeWhile isBlank).length) = (seen (cstr str)).dropWhile isBlank := by
      rw [← drop_take, take_slen h, drop_length_takeWhile]
    have hnul : 0 ∉ (seen (cstr str)).dropWhile isBlank := fun hmem =>
      zero_notMem_seen str ((dropWhile_sublist isBlank).subset hmem)
    rw [if_pos hpos, if_neg hnil, shiftLoop_eq hpos (by omega), hmoved, take_zero, nil_append, cstr_append_zero hnul]

theorem cstr_celRightTrim : cstr (celRightTrim str) = rightTrim (cstr str) := by
  have hlen := slen_lt h
  unfold celRightTrim rightTrim
  rw [cutLoop_eq hlen, take_slen h]
  split_ifs with hnil
  · rfl
  · have hle := length_rdropWhile_le isBlank (seen (cstr str))
    have hseen : (seen (cstr str)).length = slen str := by
      rw [← take_slen h, length_take_of_le hlen.le]
    have hkept : str.take ((seen (cstr str)).rdropWhile isBlank).length = (seen (cstr str)).rdropWhile isBlank := by
      have hshort := congrArg (take ((seen (cstr str)).rdropWhile isBlank).length) (take_slen h)
      rw [take_take, Nat.min_eq_left (by omega), take_length_rdropWhile] at hshort
      exact hshort
    have hnul : 0 ∉ (seen (cstr str)).rdropWhile isBlank := by
      have hstart := rdropWhile_prefix isBlank (seen (cstr str))
      exact fun hmem => zero_notMem_seen str (hstart.subset hmem)
    rw [set_eq_take_append_cons_drop, if_pos (by omega), hkept, cstr_append_zero hnul]

theorem zero_mem_celLeftTrim : 0 ∈ celLeftTrim str := by
  have hlen := slen_lt h
  unfold celLeftTrim
  dsimp only
  split_ifs with hpos
  · have hskip : skipBlanks str (slen str) 0 ≤ slen str := by
      rw [skipBlanks_eq (by omega), Nat.zero_add]
      exact (takeWhile_sublist isBlank).length_le.trans (length_take_le _ _)
    rw [shiftLoop_eq hpos (by omega)]
    exact mem_append_right _ mem_cons_self
  · exact h

theorem zero_mem_celRightTrim : 0 ∈ celRightTrim str := by
  have hlen := slen_lt h
  unfold celRightTrim
  rw [cutLoop_eq hlen]
  split_ifs with hnil
  · exact h
  · have hle := length_rdropWhile_le isBlank (str.take (slen str))
    rw [length_take_of_le hlen.le] at hle
    exact mem_set (by omega) 0

end Strings

theorem seen_of_lt {s : List UInt8} (h : s.length < 2 ^ 31) : seen s = s := by
  rw [seen, i32_of_range (by omega) (by omega), Int.toNat_natCast, take_length]

theorem leftTrim_of_lt {s : List UInt8} (h : s.length < 2 ^ 31) : leftTrim s = Sarah.celLeftTrim s := by
  rw [leftTrim, seen_of_lt h]
  split_ifs with hnil
  · have hsplit := takeWhile_append_dropWhile (p := isBlank) (l := s)
    rw [hnil, nil_append] at hsplit
    exact hsplit.symm
  · rfl

theorem rightTrim_of_lt {s : List UInt8} (h : s.length < 2 ^ 31) : rightTrim s = Sarah.celRightTrim s := by
  rw [rightTrim, seen_of_lt h]
  rfl

/-! ## The law of the trims -/

/-- A string that does not end in a blank. -/
def Unblank (t : List UInt8) : Prop := ∀ c ∈ t.getLast?, isBlank c = false

/-- `t` is the longest start of `s` that does not end in a blank. -/
structure LongestUnblank (t s : List UInt8) : Prop where
  start : t <+: s
  unblank : Unblank t
  longest : ∀ t', t' <+: s → Unblank t' → t'.length ≤ t.length

/-- **The law** for the string in the block `str`. -/
structure Mirrors (str : List UInt8) : Prop where
  mirror : ∀ rev, 0 ∈ rev → cstr rev = (cstr str).reverse →
    cstr (celRightTrim str) = (cstr (celLeftTrim rev)).reverse
  longest : LongestUnblank (cstr (celRightTrim str)) (cstr str)
  commute : cstr (celRightTrim (celLeftTrim str)) = cstr (celLeftTrim (celRightTrim str))
  stableLeft : cstr (celLeftTrim (celRightTrim (celLeftTrim str))) = cstr (celRightTrim (celLeftTrim str))
  stableRight : cstr (celRightTrim (celRightTrim (celLeftTrim str))) = cstr (celRightTrim (celLeftTrim str))

/-- When the trims do what they should: the string is empty or has a byte that is no blank. A length from `2 ^ 31` on is
no `int`; there the string must not end in a blank, and the bytes seen, if any, must be blanks. -/
def TrimsApply (s : List UInt8) : Prop :=
  (s.length < 2 ^ 31 ∧ (s = [] ∨ ∃ c ∈ s, isBlank c = false)) ∨
    (2 ^ 31 ≤ s.length ∧ Unblank s ∧ ∀ c ∈ seen s, isBlank c = true)

theorem unblank_iff (t : List UInt8) : Unblank t ↔ t.rdropWhile isBlank = t := by
  rw [rdropWhile_eq_self_iff]
  constructor
  · intro h hne hblank
    rw [h _ (getLast_mem_getLast? hne)] at hblank
    cases hblank
  · intro h c hc
    obtain ⟨u, rfl⟩ := getLast?_eq_some_iff.mp hc
    have hlast := h (append_ne_nil_of_right_ne_nil u (cons_ne_nil c []))
    rw [getLast_append_singleton] at hlast
    exact Bool.not_eq_true _ ▸ hlast

theorem rdropWhile_append_of_unblank {t : List UInt8} (h : Unblank t) (r : List UInt8) :
    t <+: (t ++ r).rdropWhile isBlank := by
  induction r using reverseRecOn with
  | nil => rw [append_nil, (unblank_iff t).mp h]
  | append_singleton r x ih =>
    rw [← append_assoc, rdropWhile_concat]
    split_ifs
    · exact ih
    · rw [append_assoc]
      exact prefix_append t _

theorem longestUnblank_iff (t s : List UInt8) : LongestUnblank t s ↔ t = s.rdropWhile isBlank := by
  have hself : Unblank (s.rdropWhile isBlank) := (unblank_iff _).mpr (rdropWhile_idempotent isBlank s)
  have hlongest : ∀ t', t' <+: s → Unblank t' → t' <+: s.rdropWhile isBlank := by
    rintro t' ⟨r, rfl⟩ ht'
    exact rdropWhile_append_of_unblank ht' r
  have hkept := rdropWhile_prefix isBlank s
  constructor
  · rintro ⟨hstart, hunblank, hlong⟩
    exact (hlongest t hstart hunblank).eq_of_length_le (hlong _ hkept hself)
  · rintro rfl
    exact ⟨hkept, hself, fun t' ht' hu => (hlongest t' ht' hu).length_le⟩

theorem rdropWhile_dropWhile (p : UInt8 → Bool) (s : List UInt8) :
    (s.dropWhile p).rdropWhile p = (s.rdropWhile p).dropWhile p := by
  induction s using reverseRecOn with
  | nil => rfl
  | append_singleton s x ih =>
    rw [rdropWhile_concat, dropWhile_append]
    split_ifs with hnil hx hx
    · rw [List.isEmpty_iff] at hnil
      rw [← ih, hnil, dropWhile_cons_of_pos hx]
      rfl
    · rw [dropWhile_cons_of_neg hx, dropWhile_append, if_pos hnil, dropWhile_cons_of_neg hx, rdropWhile_singleton,
        if_neg hx]
    · rw [rdropWhile_concat_pos _ _ _ hx, ih]
    · rw [rdropWhile_concat_neg _ _ _ hx, dropWhile_append, if_neg hnil]

theorem mirrors_iff_strings {str : List UInt8} (h : 0 ∈ str) : Mirrors str ↔
    rightTrim (cstr str) = (leftTrim (cstr str).reverse).reverse ∧
    rightTrim (cstr str) = (cstr str).rdropWhile isBlank ∧
    rightTrim (leftTrim (cstr str)) = leftTrim (rightTrim (cstr str)) ∧
    leftTrim (rightTrim (leftTrim (cstr str))) = rightTrim (leftTrim (cstr str)) ∧
    rightTrim (rightTrim (leftTrim (cstr str))) = rightTrim (leftTrim (cstr str)) := by
  have hl := zero_mem_celLeftTrim h
  have hr := zero_mem_celRightTrim h
  have hlr := zero_mem_celRightTrim hl
  constructor
  · rintro ⟨hmirror, hlongest, hcommute, hstableL, hstableR⟩
    have hrev : cstr ((cstr str).reverse ++ [0]) = (cstr str).reverse :=
      cstr_append_zero (fun hmem => zero_notMem_cstr str (mem_reverse.mp hmem)) []
    have hmirror := hmirror _ (mem_append_right _ mem_cons_self) hrev
    rw [cstr_celRightTrim h, cstr_celLeftTrim (mem_append_right _ mem_cons_self), hrev] at hmirror
    rw [longestUnblank_iff, cstr_celRightTrim h] at hlongest
    rw [cstr_celRightTrim hl, cstr_celLeftTrim h, cstr_celLeftTrim hr, cstr_celRightTrim h] at hcommute
    rw [cstr_celLeftTrim hlr, cstr_celRightTrim hl, cstr_celLeftTrim h] at hstableL
    rw [cstr_celRightTrim hlr, cstr_celRightTrim hl, cstr_celLeftTrim h] at hstableR
    exact ⟨hmirror, hlongest, hcommute, hstableL, hstableR⟩
  · rintro ⟨hmirror, hlongest, hcommute, hstableL, hstableR⟩
    constructor
    · intro rev hrev heq
      rw [cstr_celRightTrim h, cstr_celLeftTrim hrev, heq, hmirror]
    · rw [longestUnblank_iff, cstr_celRightTrim h, hlongest]
    · rw [cstr_celRightTrim hl, cstr_celLeftTrim h, cstr_celLeftTrim hr, cstr_celRightTrim h, hcommute]
    · rw [cstr_celLeftTrim hlr, cstr_celRightTrim hl, cstr_celLeftTrim h, hstableL]
    · rw [cstr_celRightTrim hlr, cstr_celRightTrim hl, cstr_celLeftTrim h, hstableR]

section Short

variable {s : List UInt8} (hlen : s.length < 2 ^ 31)
include hlen

theorem leftTrim_short : leftTrim s = s.dropWhile isBlank := leftTrim_of_lt hlen

theorem rightTrim_short (h : s = [] ∨ ∃ c ∈ s, isBlank c = false) : rightTrim s = s.rdropWhile isBlank := by
  rw [rightTrim, seen_of_lt hlen]
  split_ifs with hnil
  · rcases h with rfl | ⟨c, hc, hblank⟩
    · rfl
    · rw [rdropWhile_eq_nil_iff] at hnil
      rw [hnil c hc] at hblank
      cases hblank
  · rfl

theorem rightTrim_of_unblank (h : Unblank s) : rightTrim s = s := by
  rw [rightTrim, seen_of_lt hlen, (unblank_iff s).mp h, ite_self]

end Short

/-- In a short string with a byte that is no blank the trims keep the law. -/
theorem strings_of_short {s : List UInt8} (hlen : s.length < 2 ^ 31) (h : s = [] ∨ ∃ c ∈ s, isBlank c = false) :
    rightTrim s = (leftTrim s.reverse).reverse ∧ rightTrim s = s.rdropWhile isBlank ∧
      rightTrim (leftTrim s) = leftTrim (rightTrim s) ∧
      leftTrim (rightTrim (leftTrim s)) = rightTrim (leftTrim s) ∧
      rightTrim (rightTrim (leftTrim s)) = rightTrim (leftTrim s) := by
  have hright := rightTrim_short hlen h
  have hrev : leftTrim s.reverse = s.reverse.dropWhile isBlank := leftTrim_short (by rwa [length_reverse])
  have hdrop : (s.dropWhile isBlank).length < 2 ^ 31 := (length_dropWhile_le isBlank s).trans_lt hlen
  have hrdrop : (s.rdropWhile isBlank).length < 2 ^ 31 := (length_rdropWhile_le isBlank s).trans_lt hlen
  have hkeeps : s.dropWhile isBlank = [] ∨ ∃ c ∈ s.dropWhile isBlank, isBlank c = false := by
    by_cases hnil : s.dropWhile isBlank = []
    · exact .inl hnil
    · exact .inr ⟨_, head_mem hnil, head_dropWhile_not isBlank hnil⟩
  have hboth : rightTrim (leftTrim s) = (s.dropWhile isBlank).rdropWhile isBlank := by
    rw [leftTrim_short hlen, rightTrim_short hdrop hkeeps]
  have hbothLen : ((s.dropWhile isBlank).rdropWhile isBlank).length < 2 ^ 31 :=
    (length_rdropWhile_le isBlank _).trans_lt hdrop
  rw [hright, hrev, hboth, leftTrim_short hrdrop, leftTrim_short hbothLen,
    rightTrim_of_unblank hbothLen ((unblank_iff _).mpr (rdropWhile_idempotent isBlank _))]
  refine ⟨rfl, rfl, rdropWhile_dropWhile isBlank s, ?_, rfl⟩
  rw [rdropWhile_dropWhile, dropWhile_idempotent]

/-- The bytes seen of a long string are all blanks, where the right trim finds the longest start. -/
theorem seen_blank_of_longest {s : List UInt8} (hlen : 2 ^ 31 ≤ s.length)
    (hmirror : rightTrim s = (leftTrim s.reverse).reverse) (hlongest : rightTrim s = s.rdropWhile isBlank) :
    ∀ c ∈ seen s, isBlank c = true := by
  rw [← rdropWhile_eq_nil_iff]
  by_contra hne
  -- the kept bytes are among the bytes seen, and from them on there are only blanks, more than the bytes seen
  have hright : rightTrim s = (seen s).rdropWhile isBlank := if_neg hne
  have hseen : (seen s).length = (i32 s.length).toNat := by
    rw [seen, length_take]
    unfold i32
    omega
  have hpos := length_pos_of_ne_nil hne
  have hkept : (s.rdropWhile isBlank).length ≤ (seen s).length := by
    rw [← hlongest, hright]
    exact length_rdropWhile_le isBlank _
  have hseenPos : 0 < (seen s).length := hpos.trans_le (length_rdropWhile_le isBlank _)
  have hsplit : s.rdropWhile isBlank ++ s.rtakeWhile isBlank = s := rdropWhile_append_rtakeWhile
  have htail : (seen s).length ≤ (s.rtakeWhile isBlank).reverse.length := by
    have hsum := congrArg length hsplit
    rw [length_append] at hsum
    rw [length_reverse]
    unfold i32 at hseen
    omega
  have hfront : seen s.reverse = (s.rtakeWhile isBlank).reverse.take (seen s).length := by
    have hrev := congrArg reverse hsplit
    rw [reverse_append] at hrev
    rw [seen, length_reverse, ← hseen, ← hrev, take_append_of_le_length htail]
  have hblank : ∀ c ∈ seen s.reverse, isBlank c = true := by
    intro c hc
    rw [hfront] at hc
    exact mem_rtakeWhile_imp (mem_reverse.mp (mem_of_mem_take hc))
  have htake : (seen s.reverse).takeWhile isBlank = seen s.reverse := takeWhile_eq_self_iff.mpr hblank
  have hnonempty : seen s.reverse ≠ [] := by
    rw [hfront]
    exact ne_nil_of_length_pos (by rw [length_take]; omega)
  have hleft : leftTrim s.reverse = [] := by
    rw [leftTrim, if_neg (by rwa [htake]), dropWhile_eq_nil_iff.mpr hblank]
  rw [hright, hleft] at hmirror
  exact hne hmirror

theorem strings_of_blank {s : List UInt8} (hu : Unblank s) (hseen : ∀ c ∈ seen s, isBlank c = true) :
    rightTrim s = (leftTrim s.reverse).reverse ∧ rightTrim s = s.rdropWhile isBlank ∧
      rightTrim (leftTrim s) = leftTrim (rightTrim s) ∧
      leftTrim (rightTrim (leftTrim s)) = rightTrim (leftTrim s) ∧
      rightTrim (rightTrim (leftTrim s)) = rightTrim (leftTrim s) := by
  have hright : rightTrim s = s := if_pos (rdropWhile_eq_nil_iff.mpr hseen)
  have hrev : leftTrim s.reverse = s.reverse := by
    refine if_pos (Stdio.takeWhile_of_stops fun c hc => ?_)
    have hhead : c ∈ s.reverse.head? := by
      rw [seen, head?_take] at hc
      split_ifs at hc
      · cases hc
      · exact hc
    exact hu c (by rwa [head?_reverse] at hhead)
  have hleft : leftTrim s = s ∨ leftTrim s = [] := by
    unfold leftTrim
    split_ifs
    · exact .inl rfl
    · exact .inr (dropWhile_eq_nil_iff.mpr hseen)
  have hlongest : s = s.rdropWhile isBlank := ((unblank_iff s).mp hu).symm
  rcases hleft with hleft | hleft
  · simp only [hright, hrev, hleft, reverse_reverse]
    exact ⟨trivial, hlongest, trivial, trivial, trivial⟩
  · have hnil : rightTrim [] = [] ∧ leftTrim [] = [] := by decide
    simp only [hright, hrev, hleft, hnil, reverse_reverse]
    exact ⟨trivial, hlongest, trivial, trivial, trivial⟩

/-- **When the trims mirror each other.** -/
theorem mirrors_iff {str : List UInt8} (h : 0 ∈ str) : Mirrors str ↔ TrimsApply (cstr str) := by
  rw [mirrors_iff_strings h]
  rcases Nat.lt_or_ge (cstr str).length (2 ^ 31) with hlen | hlen
  · constructor
    · rintro ⟨-, hlongest, -⟩
      refine .inl ⟨hlen, ?_⟩
      by_contra hnone
      rw [not_or] at hnone
      have hblank : ∀ c ∈ cstr str, isBlank c = true := fun c hc =>
        Bool.of_not_eq_false fun hfalse => hnone.2 ⟨c, hc, hfalse⟩
      have hnil : (cstr str).rdropWhile isBlank = [] := rdropWhile_eq_nil_iff.mpr hblank
      -- the right trim leaves the blanks, and the longest start has none
      have hleaves : rightTrim (cstr str) = cstr str := by
        rw [rightTrim, seen_of_lt hlen, if_pos hnil]
      exact hnone.1 (hleaves.symm.trans (hlongest.trans hnil))
    · rintro (⟨-, hbytes⟩ | ⟨hlong, -⟩)
      · exact strings_of_short hlen hbytes
      · exact absurd hlen (Nat.not_lt.mpr hlong)
  · constructor
    · rintro ⟨hmirror, hlongest, -⟩
      have hseen := seen_blank_of_longest hlen hmirror hlongest
      have hright : rightTrim (cstr str) = cstr str := if_pos (rdropWhile_eq_nil_iff.mpr hseen)
      exact .inr ⟨hlen, (unblank_iff _).mpr (hlongest.symm.trans hright), hseen⟩
    · rintro (⟨hshort, -⟩ | ⟨-, hu, hseen⟩)
      · exact absurd hshort (Nat.not_lt.mpr hlen)
      · exact strings_of_blank hu hseen

/-- A padded value. -/
theorem mirrors_iff_padded : Mirrors (lit " sda  " ++ [0]) :=
  (mirrors_iff (by decide)).mpr (.inl (by decide))

/-- A value of blanks only. -/
theorem not_mirrors : ¬ ∀ str : List UInt8, 0 ∈ str → Mirrors str := by
  intro hall
  have hlaw := (hall (lit "  " ++ [0]) (by decide)).longest
  rw [longestUnblank_iff] at hlaw
  revert hlaw
  decide

end Sarah.CelString
