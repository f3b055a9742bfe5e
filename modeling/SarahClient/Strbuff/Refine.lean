import SarahClient.Strbuff.Model
import Mathlib.Tactic.Ring

/-!
# The string buffer refines a byte list

* `Strbuff.of xs cap`: the buffer of capacity `cap` that holds `xs` and zeros behind it;
* one lemma for each operation on `Strbuff.of xs cap` (`growFor_of`, `celStrbuffAppendFrom_of`,
  `celStrbuffAppendChar_of`, `celStrbuffInsertFrom_of`, `celStrbuffRemove_of`, `celStrbuffClear_of`);
* `bytesStep`: the abstract operation on a byte list; `StrbuffOp.Fits`: the size bound of one call;
* **`strbuffStep_refines`**: one call refines one abstract operation;
* **`strbuff_refines_bytes`**: every run refines the list run and keeps the NUL-terminated tail.
-/

namespace Sarah

open Block Machine

/-- The buffer of capacity `cap` that holds exactly `xs`. -/
def Strbuff.of (xs : List UInt8) (cap : ℕ) : Strbuff :=
  ⟨xs ++ List.replicate (cap - xs.length) 0, cap, xs.length⟩

/-- `sb` holds exactly `xs`, with at least one zero behind it. -/
def Strbuff.Holds (sb : Strbuff) (xs : List UInt8) : Prop :=
  xs.length < sb.opacity ∧ sb = Strbuff.of xs sb.opacity

@[simp] theorem Strbuff.of_size (xs : List UInt8) (cap : ℕ) : (Strbuff.of xs cap).size = xs.length := rfl

@[simp] theorem Strbuff.of_opacity (xs : List UInt8) (cap : ℕ) : (Strbuff.of xs cap).opacity = cap := rfl

theorem Strbuff.of_buffer (xs : List UInt8) (cap : ℕ) :
    (Strbuff.of xs cap).buffer = xs ++ List.replicate (cap - xs.length) 0 := rfl

theorem Strbuff.holds_of {xs : List UInt8} {cap : ℕ} (h : xs.length < cap) : (Strbuff.of xs cap).Holds xs :=
  ⟨h, rfl⟩

theorem Strbuff.of_buffer_length {xs : List UInt8} {cap : ℕ} (h : xs.length ≤ cap) :
    (Strbuff.of xs cap).buffer.length = cap := by
  rw [Strbuff.of_buffer, List.length_append, List.length_replicate]; omega

theorem Strbuff.of_getElem? (xs : List UInt8) (cap j : ℕ) :
    (Strbuff.of xs cap).buffer[j]? =
      if j < xs.length then xs[j]? else if j < cap then some 0 else none := by
  rw [Strbuff.of_buffer]
  split_ifs with h₁ h₂
  · exact List.getElem?_append_left h₁
  · rw [List.getElem?_append_right (by omega), List.getElem?_replicate, if_pos (by omega)]
  · rw [List.getElem?_append_right (by omega), List.getElem?_replicate, if_neg (by omega)]

/-! ## Growing -/

section Grow

variable {mem : ℕ → Bool}

theorem createBuffer_nat {n : ℕ} (hmem : mem n = true) : createBuffer mem (n : ℤ) = some (List.replicate n 0) := by
  simp [createBuffer, hmem]

theorem resizeBuffer_of {xs : List UInt8} {cap n : ℕ} (hmem : mem n = true) (hcap : xs.length ≤ cap)
    (hn : xs.length < n) : resizeBuffer mem (Strbuff.of xs cap) (n : ℤ) = some (1, Strbuff.of xs n) := by
  have hlen : (if ((Strbuff.of xs cap).size : ℤ) < (n : ℤ) then (Strbuff.of xs cap).size else (n : ℤ).toNat) =
      xs.length := if_pos (by simpa using hn)
  have htake : (Strbuff.of xs cap).buffer.take xs.length = xs := List.take_left
  unfold resizeBuffer
  simp only [createBuffer_nat hmem, hlen, Strbuff.of_buffer_length hcap, if_pos hcap, htake]
  rw [copyIn_of_le (by simpa using hn.le)]
  simp [Strbuff.of]

/-- `s` bytes and a NUL fit into `cap` bytes, or into the allocation that replaces them. -/
def CanHold (mem : ℕ → Bool) (cap s : ℕ) : Prop := s < cap ∨ (2 * s + 1 < 2 ^ 31 ∧ mem (2 * s + 1) = true)

instance (mem : ℕ → Bool) (cap s : ℕ) : Decidable (CanHold mem cap s) :=
  inferInstanceAs (Decidable (s < cap ∨ (2 * s + 1 < 2 ^ 31 ∧ mem (2 * s + 1) = true)))

theorem growFor_of {xs : List UInt8} {cap len : ℕ} (hcap : xs.length < cap) (h32 : xs.length + len < 2 ^ 32)
    (hfit : CanHold mem cap (xs.length + len)) :
    ∃ cap', xs.length + len < cap' ∧ (cap' = cap ∨ cap' < 2 ^ 31) ∧
      growFor mem (Strbuff.of xs cap) len = some (1, Strbuff.of xs cap') := by
  unfold growFor
  rw [Strbuff.of_size, Strbuff.of_opacity, u32_of_lt h32]
  by_cases h : cap ≤ xs.length + len
  · obtain ⟨h31, hmem⟩ := hfit.resolve_left (not_lt.mpr h)
    refine ⟨2 * (xs.length + len) + 1, by omega, .inr h31, ?_⟩
    rw [if_pos h, u32_of_lt (by omega), i32_of_range (by omega) (by omega), Nat.mul_comm]
    exact resizeBuffer_of hmem hcap.le (by omega)
  · exact ⟨cap, by omega, .inl rfl, if_neg h⟩

theorem CanHold.of_forall (hmem : ∀ n, mem n = true) (cap : ℕ) {s : ℕ} (hfit : 2 * s + 1 < 2 ^ 31) :
    CanHold mem cap s := .inr ⟨hfit, hmem _⟩

end Grow

/-! ## Appending -/

theorem copyIn_of {xs ys : List UInt8} {cap : ℕ} (h : xs.length + ys.length ≤ cap) :
    copyIn (Strbuff.of xs cap).buffer xs.length ys = some (Strbuff.of (xs ++ ys) cap).buffer := by
  rw [Strbuff.of_buffer, copyIn_append _ _ _ (by rw [List.length_replicate]; omega), List.drop_replicate,
    Strbuff.of_buffer, List.length_append]
  congr 3
  omega

theorem memcpy_of {xs src : List UInt8} {cap len : ℕ} (hlen : len ≤ src.length) (h : xs.length + len ≤ cap) :
    memcpy (Strbuff.of xs cap).buffer xs.length src len =
      some (Strbuff.of (xs ++ src.take len) cap).buffer := by
  rw [memcpy, if_pos hlen, copyIn_of (by rw [List.length_take]; omega)]

theorem store_of {xs : List UInt8} {cap : ℕ} (c : UInt8) (h : xs.length < cap) :
    store (Strbuff.of xs cap).buffer xs.length c = some (Strbuff.of (xs ++ [c]) cap).buffer := by
  have hlen : xs.length < (Strbuff.of xs cap).buffer.length := by rwa [Strbuff.of_buffer_length h.le]
  have hcopy := copyIn_of (show xs.length + [c].length ≤ cap from h)
  rw [copyIn_of_le hlen] at hcopy
  rw [store_of_lt hlen, List.set_eq_take_append_cons_drop, if_pos hlen]
  simpa using hcopy

/-- Repeating a source `n` times. -/
def repeated (n : ℕ) (src : List UInt8) : List UInt8 := (List.replicate n src).flatten

@[simp] theorem repeated_zero (src : List UInt8) : repeated 0 src = [] := rfl

theorem repeated_succ (n : ℕ) (src : List UInt8) : repeated (n + 1) src = src ++ repeated n src := rfl

theorem appendFromLoop_succ_of {mem : ℕ → Bool} {src xs : List UInt8} {len cap cap' : ℕ} (hlen : len ≤ src.length)
    (hgrow : growFor mem (Strbuff.of xs cap) len = some (1, Strbuff.of xs cap')) (hcap' : xs.length + len < cap')
    (h32 : xs.length + len < 2 ^ 32) (n : ℕ) :
    appendFromLoop mem src len (n + 1) (Strbuff.of xs cap) =
      appendFromLoop mem src len n (Strbuff.of (xs ++ src.take len) cap') := by
  have hlen' : (xs ++ src.take len).length = xs.length + len := by rw [List.length_append, List.length_take]; omega
  have hout : ∀ m, m = len → ({ Strbuff.of xs cap' with
      buffer := (Strbuff.of (xs ++ src.take len) cap').buffer, size := u32 (xs.length + m) } : Strbuff) =
      Strbuff.of (xs ++ src.take len) cap' := by
    rintro m rfl
    rw [u32_of_lt h32, ← hlen']
    rfl
  rw [appendFromLoop, hgrow, Option.bind_some]
  simp only [one_ne_zero, if_false, Strbuff.of_size]
  split_ifs with h₁
  · subst h₁
    have h0 : 0 < src.length := hlen
    have hone : src.take 1 = [src[0]] := by rw [List.take_one, List.head?_eq_getElem?, List.getElem?_eq_getElem h0]; rfl
    rw [List.getElem?_eq_getElem h0, Option.bind_some, store_of _ (by omega), ← hone, Option.bind_some, hout 1 rfl]
  · rw [memcpy_of hlen (by omega), Option.bind_some, hout len rfl]

section Append

variable {mem : ℕ → Bool} (hmem : ∀ n, mem n = true)
include hmem

theorem appendFromLoop_of {src : List UInt8} {len : ℕ} (hlen : len ≤ src.length) :
    ∀ (n : ℕ) (xs : List UInt8) (cap : ℕ), xs.length < cap → (n = 0 ∨ 2 * (xs.length + n * len) + 1 < 2 ^ 31) →
      ∃ cap', (xs ++ repeated n (src.take len)).length < cap' ∧
        appendFromLoop mem src len n (Strbuff.of xs cap) =
          some (1, Strbuff.of (xs ++ repeated n (src.take len)) cap')
  | 0, xs, cap, hcap, _ => ⟨cap, by simpa using hcap, by simp [appendFromLoop]⟩
  | n + 1, xs, cap, hcap, hfit => by
    have hsucc : (n + 1) * len = n * len + len := by ring
    have hfit : 2 * (xs.length + (n * len + len)) + 1 < 2 ^ 31 := by omega
    obtain ⟨c₁, hc₁, -, hg⟩ := growFor_of hcap (by omega) (.of_forall hmem cap (s := xs.length + len) (by omega))
    have hlen' : (xs ++ src.take len).length = xs.length + len := by rw [List.length_append, List.length_take]; omega
    obtain ⟨c₂, hc₂, hrec⟩ := appendFromLoop_of hlen n (xs ++ src.take len) c₁ (by omega) (by
      rw [hlen']; omega)
    refine ⟨c₂, by rw [repeated_succ, ← List.append_assoc]; exact hc₂, ?_⟩
    rw [appendFromLoop_succ_of hlen hg hc₁ (by omega), hrec, repeated_succ, ← List.append_assoc]

theorem celStrbuffAppendFrom_of {src : List UInt8} {len : ℕ} (hlen : len ≤ src.length) {xs : List UInt8}
    {cap : ℕ} (hcap : xs.length < cap) (count : ℤ)
    (hfit : count.toNat = 0 ∨ 2 * (xs.length + count.toNat * len) + 1 < 2 ^ 31) :
    ∃ cap', (xs ++ repeated count.toNat (src.take len)).length < cap' ∧
      celStrbuffAppendFrom mem (Strbuff.of xs cap) src len count =
        some (1, Strbuff.of (xs ++ repeated count.toNat (src.take len)) cap') :=
  appendFromLoop_of hmem hlen _ xs cap hcap hfit

theorem appendCharLoop_of (ch : UInt8) :
    ∀ (n : ℕ) (xs : List UInt8) (cap : ℕ), xs.length < cap → (n = 0 ∨ 2 * (xs.length + n) + 1 < 2 ^ 31) →
      ∃ cap', (xs ++ List.replicate n ch).length < cap' ∧
        appendCharLoop mem ch n (Strbuff.of xs cap) = some (1, Strbuff.of (xs ++ List.replicate n ch) cap')
  | 0, xs, cap, hcap, _ => ⟨cap, by simpa using hcap, by simp [appendCharLoop]⟩
  | n + 1, xs, cap, hcap, hfit => by
    have hlen' : (xs ++ [ch]).length = xs.length + 1 := List.length_append
    have hgrow : ∃ c₁, xs.length + 1 < c₁ ∧ (if (Strbuff.of xs cap).opacity ≤ u32 ((Strbuff.of xs cap).size + 1)
        then resizeBuffer mem (Strbuff.of xs cap) (i32 (u32 ((Strbuff.of xs cap).opacity * 2 + 1)))
        else some (1, Strbuff.of xs cap)) = some (1, Strbuff.of xs c₁) := by
      rw [Strbuff.of_size, Strbuff.of_opacity, u32_of_lt (by omega)]
      split_ifs with h
      · refine ⟨cap * 2 + 1, by omega, ?_⟩
        rw [u32_of_lt (by omega), i32_of_range (by omega) (by omega)]
        exact resizeBuffer_of (hmem _) hcap.le (by omega)
      · exact ⟨cap, by omega, rfl⟩
    obtain ⟨c₁, hc₁, hg⟩ := hgrow
    obtain ⟨c₂, hc₂, hrec⟩ := appendCharLoop_of ch n (xs ++ [ch]) c₁ (by omega) (by omega)
    have hrep : xs ++ List.replicate (n + 1) ch = (xs ++ [ch]) ++ List.replicate n ch := by
      rw [List.replicate_succ]; simp
    refine ⟨c₂, by rw [hrep]; exact hc₂, ?_⟩
    rw [appendCharLoop, hg, Option.bind_some]
    simp only [one_ne_zero, if_false, Strbuff.of_size]
    rw [store_of ch (by omega), Option.bind_some, hrep, ← hrec, u32_of_lt (by omega), ← hlen']
    rfl

theorem celStrbuffAppendChar_of (ch : UInt8) {xs : List UInt8} {cap : ℕ} (hcap : xs.length < cap) (count : ℤ)
    (hfit : count.toNat = 0 ∨ 2 * (xs.length + count.toNat) + 1 < 2 ^ 31) :
    ∃ cap', (xs ++ List.replicate count.toNat ch).length < cap' ∧
      celStrbuffAppendChar mem (Strbuff.of xs cap) ch count =
        some (1, Strbuff.of (xs ++ List.replicate count.toNat ch) cap') :=
  appendCharLoop_of hmem ch _ xs cap hcap hfit

end Append

/-! ## Inserting -/

theorem shiftTail_eq_moveUp (len l : ℕ) : ∀ (k : ℕ) (b : List UInt8), l + k + len ≤ 2 ^ 32 →
    shiftTail len l k b = moveUp len l k b
  | 0, _, _ => rfl
  | k + 1, b, h => by
    rw [shiftTail, moveUp, u32_of_lt (by omega)]
    congr 1
    funext v
    congr 1
    funext b'
    exact shiftTail_eq_moveUp len l k b' (by omega)

theorem append_getElem? (pre mid suf : List UInt8) (j : ℕ) : (pre ++ mid ++ suf)[j]? =
    if j < pre.length then pre[j]? else if j < pre.length + mid.length then mid[j - pre.length]?
    else suf[j - (pre.length + mid.length)]? := by
  split_ifs with h₁ h₂
  · rw [List.append_assoc, List.getElem?_append_left h₁]
  · rw [List.append_assoc, List.getElem?_append_right (by omega), List.getElem?_append_left (by omega)]
  · rw [List.getElem?_append_right (by rw [List.length_append]; omega), List.length_append]

theorem shiftTail_memcpy_of {pre suf src : List UInt8} {cap len : ℕ} (hlen : len ≤ src.length)
    (hcap : (pre ++ suf).length + len ≤ cap) (h32 : (pre ++ suf).length + len ≤ 2 ^ 32) :
    ((shiftTail len pre.length suf.length (Strbuff.of (pre ++ suf) cap).buffer).bind fun b =>
      memcpy b pre.length src len) = some (Strbuff.of (pre ++ src.take len ++ suf) cap).buffer := by
  have htake : (src.take len).length = len := by rw [List.length_take]; omega
  rw [List.length_append] at hcap h32
  have hB : (Strbuff.of (pre ++ suf) cap).buffer.length = cap :=
    Strbuff.of_buffer_length (by rw [List.length_append]; omega)
  obtain ⟨b₁, hb₁, hl₁, hg₁⟩ := moveUp_spec len pre.length suf.length (Strbuff.of (pre ++ suf) cap).buffer (by
    rw [hB]; omega)
  rw [shiftTail_eq_moveUp _ _ _ _ (by omega), hb₁, Option.bind_some, memcpy, if_pos hlen,
    copyIn_of_le (by rw [htake, hl₁, hB]; omega)]
  refine congrArg some (List.ext_getElem? fun j => ?_)
  rw [copyIn_getElem? (copyIn_of_le (by rw [htake, hl₁, hB]; omega)) j, hg₁, htake, Strbuff.of_getElem?,
    Strbuff.of_getElem?, Strbuff.of_getElem?]
  have h₁ := append_getElem? pre (src.take len) suf j
  have h₂ := append_getElem? pre [] suf (j - len)
  have h₃ := append_getElem? pre [] suf j
  simp only [List.append_nil, List.length_nil, Nat.add_zero, htake] at h₁ h₂ h₃
  simp only [List.length_append, htake, h₁, h₂, h₃]
  -- below, inside, shifted and behind: the four regions of the new buffer
  by_cases c₁ : j < pre.length
  · simp [c₁, show ¬ pre.length ≤ j by omega, show ¬ pre.length + len ≤ j by omega,
      show j < pre.length + suf.length by omega, show j < pre.length + len + suf.length by omega]
  by_cases c₂ : j < pre.length + len
  · simp [c₁, c₂, show pre.length ≤ j by omega, show j < pre.length + len + suf.length by omega]
  by_cases c₃ : j < pre.length + suf.length + len
  · simp [c₁, c₂, c₃, show pre.length ≤ j by omega, show pre.length + len ≤ j by omega,
      show ¬ j - len < pre.length by omega, show j - len < pre.length + suf.length by omega,
      show j < pre.length + len + suf.length by omega, show j - len - pre.length = j - (pre.length + len) by omega]
  · simp [c₂, c₃, show ¬ j < pre.length + suf.length by omega,
      show ¬ j < pre.length + len + suf.length by omega]

theorem insertFromLoop_succ_of {mem : ℕ → Bool} {src pre suf : List UInt8} {len cap cap' : ℕ} (hlen : len ≤ src.length)
    (hgrow : growFor mem (Strbuff.of (pre ++ suf) cap) len = some (1, Strbuff.of (pre ++ suf) cap'))
    (hcap' : (pre ++ suf).length + len ≤ cap') (h32 : (pre ++ suf).length + len < 2 ^ 32) (n : ℕ) :
    insertFromLoop mem src len (n + 1) pre.length (Strbuff.of (pre ++ suf) cap) =
      insertFromLoop mem src len n (pre ++ src.take len).length (Strbuff.of (pre ++ src.take len ++ suf) cap') := by
  have htake : (src.take len).length = len := by rw [List.length_take]; omega
  have hlen' : (pre ++ src.take len ++ suf).length = (pre ++ suf).length + len := by
    simp only [List.length_append, htake]
    omega
  have hsuf : (pre ++ suf).length - pre.length = suf.length := by rw [List.length_append]; omega
  obtain ⟨b₁, hb₁, hb₂⟩ := Option.bind_eq_some_iff.mp (shiftTail_memcpy_of hlen hcap' h32.le)
  have hidx : u32 (pre.length + len) = (pre ++ src.take len).length := by
    rw [u32_of_lt (by rw [List.length_append] at h32; omega), List.length_append, htake]
  rw [insertFromLoop, Strbuff.of_size, if_neg (by rw [List.length_append]; omega), hgrow, Option.bind_some]
  simp only [one_ne_zero, if_false, Strbuff.of_size, hsuf]
  rw [hb₁, Option.bind_some, hb₂, Option.bind_some, hidx, u32_of_lt h32, ← hlen']
  rfl

section Insert

variable {mem : ℕ → Bool} (hmem : ∀ n, mem n = true)
include hmem

theorem insertFromLoop_of {src : List UInt8} {len : ℕ} (hlen : len ≤ src.length) (suf : List UInt8) :
    ∀ (n : ℕ) (pre : List UInt8) (cap : ℕ), (pre ++ suf).length < cap →
      (n = 0 ∨ 2 * ((pre ++ suf).length + n * len) + 1 < 2 ^ 31) →
      ∃ cap', (pre ++ repeated n (src.take len) ++ suf).length < cap' ∧
        insertFromLoop mem src len n pre.length (Strbuff.of (pre ++ suf) cap) =
          some (1, Strbuff.of (pre ++ repeated n (src.take len) ++ suf) cap')
  | 0, pre, cap, hcap, _ => ⟨cap, by simpa using hcap, by simp [insertFromLoop]⟩
  | n + 1, pre, cap, hcap, hfit => by
    have htake : (src.take len).length = len := by rw [List.length_take]; omega
    have hsucc : (n + 1) * len = n * len + len := by ring
    have hfit : 2 * ((pre ++ suf).length + (n * len + len)) + 1 < 2 ^ 31 := by omega
    obtain ⟨c₁, hc₁, -, hg⟩ := growFor_of hcap (by omega)
      (.of_forall hmem cap (s := (pre ++ suf).length + len) (by omega))
    have hlen' : (pre ++ src.take len ++ suf).length = (pre ++ suf).length + len := by
      simp only [List.length_append, htake]; omega
    obtain ⟨c₂, hc₂, hrec⟩ := insertFromLoop_of hlen suf n (pre ++ src.take len) c₁ (by omega) (by omega)
    refine ⟨c₂, by rw [repeated_succ, ← List.append_assoc]; exact hc₂, ?_⟩
    rw [insertFromLoop_succ_of hlen hg hc₁.le (by omega), hrec, repeated_succ, ← List.append_assoc]

/-- `cel_strbuff_insert_from` inserts its source `count` times at an index inside the contents. -/
theorem celStrbuffInsertFrom_of {src : List UInt8} {len : ℕ} (hlen : len ≤ src.length) {xs : List UInt8}
    {idx cap : ℕ} (hidx : idx ≤ xs.length) (hcap : xs.length < cap) (count : ℤ)
    (hfit : count.toNat = 0 ∨ 2 * (xs.length + count.toNat * len) + 1 < 2 ^ 31) :
    ∃ cap', (xs.take idx ++ repeated count.toNat (src.take len) ++ xs.drop idx).length < cap' ∧
      celStrbuffInsertFrom mem (Strbuff.of xs cap) idx src len count =
        some (1, Strbuff.of (xs.take idx ++ repeated count.toNat (src.take len) ++ xs.drop idx) cap') := by
  have h := insertFromLoop_of hmem hlen (xs.drop idx) count.toNat (xs.take idx) cap
  rw [List.take_append_drop, List.length_take, Nat.min_eq_left hidx] at h
  exact h hcap hfit

end Insert

/-! ## Removing and clearing -/

/-- `cel_strbuff_remove` removes at most `len` bytes from an index inside the contents. -/
theorem celStrbuffRemove_of {pre mid suf : List UInt8} {cap len : ℕ} (hcap : (pre ++ mid ++ suf).length ≤ cap)
    (hpos : 0 < (mid ++ suf).length) (hmid : mid.length = min len (mid ++ suf).length) :
    celStrbuffRemove (Strbuff.of (pre ++ mid ++ suf) cap) pre.length len =
      some (1, Strbuff.of (pre ++ suf) cap) := by
  simp only [List.length_append] at hcap hpos hmid
  have hB : (Strbuff.of (pre ++ mid ++ suf) cap).buffer.length = cap :=
    Strbuff.of_buffer_length (by simp only [List.length_append]; omega)
  have hlen : (if (Strbuff.of (pre ++ mid ++ suf) cap).size - pre.length < len then
      (Strbuff.of (pre ++ mid ++ suf) cap).size - pre.length else len) = mid.length := by
    simp only [Strbuff.of_size, List.length_append]; split_ifs <;> omega
  obtain ⟨b₁, hb₁, hl₁, hg₁⟩ := moveDown_spec mid.length suf.length (pre.length + mid.length)
    (Strbuff.of (pre ++ mid ++ suf) cap).buffer (by omega) (by omega)
  unfold celStrbuffRemove
  rw [if_neg (by simp only [Strbuff.of_size, List.length_append]; omega)]
  dsimp only
  rw [hlen]
  simp only [Strbuff.of_size]
  simp only [List.length_append] at hg₁ ⊢
  rw [show pre.length + mid.length + suf.length - (pre.length + mid.length) = suf.length by omega,
    show pre.length + mid.length + suf.length - mid.length = pre.length + suf.length by omega, hb₁,
    Option.bind_some, fill, copyIn_of_le (by rw [List.length_replicate]; omega), Option.map_some]
  have hbuf : b₁.take (pre.length + suf.length) ++ List.replicate mid.length 0 ++
      b₁.drop (pre.length + suf.length + (List.replicate mid.length (0 : UInt8)).length) =
      (Strbuff.of (pre ++ suf) cap).buffer := by
    refine List.ext_getElem? fun j => ?_
    rw [copyIn_getElem? (copyIn_of_le (by rw [List.length_replicate]; omega)) j, hg₁,
      List.length_replicate, List.getElem?_replicate, Strbuff.of_getElem?, Strbuff.of_getElem?, Strbuff.of_getElem?]
    have h₁ := append_getElem? pre mid suf j
    have h₂ := append_getElem? pre mid suf (j + mid.length)
    have h₃ := append_getElem? pre [] suf j
    simp only [List.append_nil, List.length_nil, Nat.add_zero] at h₃
    simp only [List.length_append, h₁, h₂, h₃]
    -- below the hole, moved down, cleared and behind
    by_cases c₁ : j < pre.length
    · simp [c₁, show ¬ pre.length + suf.length ≤ j by omega, show ¬ pre.length ≤ j by omega,
        show j < pre.length + mid.length + suf.length by omega, show j < pre.length + suf.length by omega]
    by_cases c₂ : j < pre.length + suf.length
    · simp [c₁, c₂, show pre.length ≤ j by omega, show ¬ j + mid.length < pre.length by omega,
        show j < pre.length + mid.length + suf.length - mid.length by omega,
        show j + mid.length < pre.length + mid.length + suf.length by omega,
        show j + mid.length - (pre.length + mid.length) = j - pre.length by omega]
    by_cases c₃ : j < pre.length + suf.length + mid.length
    · simp [c₂, c₃, show pre.length + suf.length ≤ j by omega, show j < cap by omega,
        show j - (pre.length + suf.length) < mid.length by omega]
    · simp [c₂, c₃, show ¬ j < pre.length + mid.length + suf.length by omega,
        show ¬ j < pre.length + mid.length + suf.length - mid.length by omega]
  rw [hbuf]
  simp [Strbuff.of]

theorem celStrbuffClear_of {xs : List UInt8} {cap : ℕ} (hcap : xs.length ≤ cap) :
    celStrbuffClear (Strbuff.of xs cap) = some (1, Strbuff.of [] cap) := by
  have h := fill_append [] (Strbuff.of xs cap).buffer (0 : UInt8) (n := xs.length) (by
    rw [Strbuff.of_buffer_length hcap]; exact hcap)
  rw [List.nil_append, List.length_nil, List.nil_append, Strbuff.of_buffer, List.drop_left,
    List.replicate_append_replicate] at h
  rw [celStrbuffClear, Strbuff.of_size, Strbuff.of_buffer, h, Option.map_some]
  simp [Strbuff.of, show xs.length + (cap - xs.length) = cap by omega]

/-! ## The refinement -/

/-- The byte-list operation that a call stands for, with the return code of the call. -/
def bytesStep (xs : List UInt8) : StrbuffOp → List UInt8 × ℤ
  | .appendFrom src len _ count => (xs ++ repeated count.toNat (src.take len), 1)
  | .appendChar ch count => (xs ++ List.replicate count.toNat ch, 1)
  | .insertFrom idx src len _ count =>
    (if idx ≤ xs.length then xs.take idx ++ repeated count.toNat (src.take len) ++ xs.drop idx else xs, 1)
  | .remove idx len => if idx < xs.length then (xs.take idx ++ xs.drop (idx + len), 1) else (xs, 0)
  | .clear => ([], 1)

/-- `2 * (size + len) + 1` stays below `2 ^ 31` in every repetition of a call that adds bytes. -/
def StrbuffOp.Fits (sb : Strbuff) : StrbuffOp → Prop
  | .appendFrom _ len _ count => 2 * (sb.size + count.toNat * len) + 1 < 2 ^ 31
  | .appendChar _ count => 2 * (sb.size + count.toNat) + 1 < 2 ^ 31
  | .insertFrom idx _ len _ count => idx ≤ sb.size → 2 * (sb.size + count.toNat * len) + 1 < 2 ^ 31
  | .remove _ _ | .clear => True

instance (sb : Strbuff) : ∀ o : StrbuffOp, Decidable (o.Fits sb)
  | .appendFrom _ _ _ _ | .appendChar _ _ => Nat.decLt _ _
  | .insertFrom idx _ len _ count =>
    inferInstanceAs (Decidable (idx ≤ sb.size → 2 * (sb.size + count.toNat * len) + 1 < 2 ^ 31))
  | .remove _ _ | .clear => .isTrue trivial

/-- **One call refines one list operation.** -/
theorem strbuffStep_refines {mem : ℕ → Bool} (hmem : ∀ n, mem n = true) (sb : Strbuff) (xs : List UInt8)
    (o : StrbuffOp) (h : sb.Holds xs) (hfit : o.Fits sb) :
    ∃ sb', strbuffStep mem sb o = some (sb', (bytesStep xs o).2) ∧ sb'.Holds (bytesStep xs o).1 := by
  obtain ⟨hcap, hsb⟩ := h
  generalize hc : sb.opacity = cap at hcap hsb
  subst hsb
  cases o with
  | appendFrom src len hlen count =>
    obtain ⟨c, hc, h⟩ := celStrbuffAppendFrom_of hmem hlen hcap count (.inr hfit)
    exact ⟨_, by rw [strbuffStep, h]; rfl, Strbuff.holds_of hc⟩
  | appendChar ch count =>
    obtain ⟨c, hc, h⟩ := celStrbuffAppendChar_of hmem ch hcap count (.inr hfit)
    exact ⟨_, by rw [strbuffStep, h]; rfl, Strbuff.holds_of hc⟩
  | insertFrom idx src len hlen count =>
    by_cases hidx : idx ≤ xs.length
    · obtain ⟨c, hc, h⟩ := celStrbuffInsertFrom_of hmem hlen hidx hcap count (.inr (hfit hidx))
      exact ⟨_, by rw [strbuffStep, h]; rfl, by rw [bytesStep, if_pos hidx]; exact Strbuff.holds_of hc⟩
    · refine ⟨Strbuff.of xs cap, ?_, by rw [bytesStep, if_neg hidx]; exact Strbuff.holds_of hcap⟩
      have hout : celStrbuffInsertFrom mem (Strbuff.of xs cap) idx src len count =
          some (1, Strbuff.of xs cap) := by
        unfold celStrbuffInsertFrom
        cases count.toNat with
        | zero => rfl
        | succ n => rw [insertFromLoop, Strbuff.of_size, if_pos (by omega)]
      rw [strbuffStep, hout]
      rfl
  | remove idx len =>
    by_cases hidx : idx < xs.length
    · have hsplit : xs = xs.take idx ++ (xs.drop idx).take len ++ xs.drop (idx + len) := by
        rw [List.append_assoc, ← List.drop_drop, List.take_append_drop, List.take_append_drop]
      have hmid : (xs.drop idx).take len ++ xs.drop (idx + len) = xs.drop idx := by
        rw [← List.drop_drop, List.take_append_drop]
      have hpre : (xs.take idx).length = idx := by rw [List.length_take]; omega
      have hcap' : (xs.take idx ++ (xs.drop idx).take len ++ xs.drop (idx + len)).length ≤ cap := by
        rw [← hsplit]; exact hcap.le
      have h := celStrbuffRemove_of hcap' (by rw [hmid, List.length_drop]; omega) (by rw [hmid, List.length_take])
      rw [hpre, ← hsplit] at h
      refine ⟨_, by rw [strbuffStep, h, bytesStep, if_pos hidx]; rfl, ?_⟩
      rw [bytesStep, if_pos hidx]
      refine Strbuff.holds_of ?_
      simp only [List.length_append, List.length_take, List.length_drop]
      omega
    · refine ⟨Strbuff.of xs cap, ?_, by rw [bytesStep, if_neg hidx]; exact Strbuff.holds_of hcap⟩
      rw [strbuffStep, celStrbuffRemove, Strbuff.of_size, if_pos (by omega), bytesStep, if_neg hidx]
      rfl
  | clear =>
    exact ⟨_, by rw [strbuffStep, celStrbuffClear_of hcap.le]; rfl, Strbuff.holds_of (Nat.zero_lt_of_lt hcap)⟩

theorem celStrbuffInit_holds {mem : ℕ → Bool} (hmem : ∀ n, mem n = true) {opacity : ℤ} (hpos : 0 < opacity) :
    ∃ sb, celStrbuffInit mem opacity = some sb ∧ sb.Holds [] := by
  obtain ⟨n, rfl⟩ := Int.eq_ofNat_of_zero_le hpos.le
  refine ⟨Strbuff.of [] n, ?_, Strbuff.holds_of (by simpa using hpos)⟩
  simp [celStrbuffInit, createBuffer_nat (hmem n), Strbuff.of]

/-- What it means for a buffer to hold `xs`: the bytes in use are `xs`, and only zeros follow. -/
theorem Strbuff.Holds.spec {sb : Strbuff} {xs : List UInt8} (h : sb.Holds xs) :
    sb.buffer.take sb.size = xs ∧ sb.size < sb.opacity ∧ sb.buffer.length = sb.opacity ∧
      ∀ j, sb.size ≤ j → j < sb.opacity → sb.buffer[j]? = some 0 := by
  obtain ⟨hlt, hsb⟩ := h
  generalize sb.opacity = cap at hlt hsb
  subst hsb
  refine ⟨List.take_left, hlt, Strbuff.of_buffer_length hlt.le, fun j h₁ h₂ => ?_⟩
  rw [Strbuff.of_getElem?, if_neg (by simpa using h₁), if_pos (by simpa using h₂)]

/-- **The string buffer refines a byte list**, over every run whose sizes fit. -/
theorem strbuff_refines_bytes {mem : ℕ → Bool} (hmem : ∀ n, mem n = true) {opacity : ℤ} (hpos : 0 < opacity)
    (ops : List StrbuffOp)
    (hfit : ∀ sb, celStrbuffInit mem opacity = some sb →
      Guarded (strbuffStep mem) (fun sb o => o.Fits sb) sb ops) :
    ∃ sb₀ sb, celStrbuffInit mem opacity = some sb₀ ∧
      exec (strbuffStep mem) sb₀ ops = some (sb, (specExec bytesStep [] ops).2) ∧
      sb.size = (specExec bytesStep [] ops).1.length ∧
      sb.buffer.take sb.size = (specExec bytesStep [] ops).1 ∧ sb.size < sb.opacity ∧
      sb.buffer.length = sb.opacity ∧ ∀ j, sb.size ≤ j → j < sb.opacity → sb.buffer[j]? = some 0 := by
  obtain ⟨sb₀, h₀, hR⟩ := celStrbuffInit_holds hmem hpos
  obtain ⟨sb, hsb, hR'⟩ := exec_refines Strbuff.Holds
    (fun s x o => strbuffStep_refines hmem s x o) ops sb₀ [] hR (hfit sb₀ h₀)
  obtain ⟨h₁, h₂, h₃, h₄⟩ := hR'.spec
  exact ⟨sb₀, sb, h₀, hsb, by rw [hR'.2]; rfl, h₁, h₂, h₃, h₄⟩

/-- Ask for three characters in a buffer of two bytes, drop the middle one, insert it twice in front. -/
theorem strbuff_refines_bytes_run :
    ∃ sb, ((celStrbuffInit (fun _ => true) 2).bind fun sb₀ => exec (strbuffStep fun _ => true) sb₀
        [.appendFrom [97, 98, 99] 3 (by decide) 1, .remove 1 1, .insertFrom 0 [98] 1 (by decide) 2]) =
      some (sb, [1, 1, 1]) ∧ sb.buffer.take sb.size = [98, 98, 97, 99] := by
  obtain ⟨sb₀, sb, h₀, hrun, -, hbytes, -⟩ := @strbuff_refines_bytes (fun _ => true) (fun _ => rfl) 2 (by decide)
    [.appendFrom [97, 98, 99] 3 (by decide) 1, .remove 1 1, .insertFrom 0 [98] 1 (by decide) 2] (by
      intro sb h
      cases h
      exact guarded_cons (by decide) rfl (guarded_cons (by decide) rfl
        (guarded_cons (by decide) rfl (guarded_nil _))))
  refine ⟨sb, ?_, hbytes⟩
  rw [h₀, Option.bind_some, hrun]
  rfl

end Sarah
