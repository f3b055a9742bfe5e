import SarahClient.Booter.SingleInstance

/-!
# Replacing and appending with `sarah_file_put_buffer` (`utils.c`)

* `sarahFileGetBufferRet`: the code of `sarah_file_get_buffer`, which is an `int`;
* `PutsAndGets`: the content after a complete write, and what a complete read returns of it;
* **`putsAndGets_iff`**: when it is as expected.
-/

namespace Sarah

open FileBytes

/-- The code of `sarah_file_get_buffer`. -/
def sarahFileGetBufferRet (env : GetEnv) (file : Option (List UInt8)) (size : ℕ) : ℤ :=
  match sarahFileGetBuffer env file size with
  | none => -1
  | some bytes => i32 bytes.length

/-- Every step succeeds, and `write` takes the whole buffer. -/
structure PutEnv.WritesAll (env : PutEnv) (buffer : List UInt8) : Prop where
  opens : env.opens = true
  locks : env.locks = true
  truncates : env.truncates = true
  stored : ∃ n, env.stored = some n ∧ buffer.length ≤ n

/-- Every step succeeds, and `read` returns `n` bytes where there are as many. -/
structure GetEnv.ReadsAll (env : GetEnv) (n : ℕ) : Prop where
  opens : env.opens = true
  locks : env.locks = true
  got : ∃ m, env.got = some m ∧ n ≤ m

/-- What the file should hold. -/
def putExpected (file : Option (List UInt8)) (buffer : List UInt8) (append : ℤ) : List UInt8 :=
  if append = 1 then file.getD [] ++ buffer else buffer

/-- **The property**: the content, and what is read of it. -/
structure PutsAndGets (file : Option (List UInt8)) (buffer : List UInt8) (append : ℤ) : Prop where
  puts : ∀ put : PutEnv, put.WritesAll buffer →
    (sarahFilePutBuffer put file buffer append).2 = some (putExpected file buffer append)
  gets : ∀ (put : PutEnv) (get : GetEnv) (size : ℕ), put.WritesAll buffer →
    get.ReadsAll (putExpected file buffer append).length → (putExpected file buffer append).length ≤ size →
    sarahFileGetBuffer get (sarahFilePutBuffer put file buffer append).2 size = some (putExpected file buffer append) ∧
      sarahFileGetBufferRet get (sarahFilePutBuffer put file buffer append).2 size =
        ((putExpected file buffer append).length : ℤ)

/-- A write from the start of the file appends only to nothing, or nothing. -/
theorem pwrite_zero_eq_append_iff (c b : List UInt8) : pwrite c 0 b = c ++ b ↔ c = [] ∨ b = [] := by
  rcases eq_or_ne b [] with rfl | hb
  · rw [pwrite_nil, List.append_nil]
    exact iff_of_true rfl (.inr rfl)
  · rw [pwrite_of_le (Nat.zero_le _), List.take_zero, List.nil_append, Nat.zero_add]
    constructor
    · intro h
      have hlen := congrArg List.length h
      have hpos := List.length_pos_of_ne_nil hb
      rw [List.length_append, List.length_append, List.length_drop] at hlen
      exact .inl (List.length_eq_zero_iff.mp (by omega))
    · rintro (rfl | rfl)
      · rw [List.drop_nil, List.append_nil, List.nil_append]
      · exact absurd rfl hb

section Complete

variable {put : PutEnv} {file : Option (List UInt8)} {buffer : List UInt8} {append : ℤ}

theorem putBuffer_of_writesAll (h : put.WritesAll buffer) : (sarahFilePutBuffer put file buffer append).2 =
    some (pwrite (if append = 1 then file.getD [] else []) 0 buffer) := by
  obtain ⟨n, hn, hle⟩ := h.stored
  have hgo : ¬ (append ≠ 1 ∧ put.truncates = false) := fun hand => by
    rw [h.truncates] at hand
    cases hand.2
  unfold sarahFilePutBuffer
  rw [if_neg (by rw [h.opens]; decide), if_neg (by rw [h.locks]; decide), if_neg hgo]
  simp only [hn, List.take_of_length_le hle]

theorem getBuffer_of_readsAll {get : GetEnv} {size : ℕ} {content : List UInt8} (h : get.ReadsAll content.length)
    (hsize : content.length ≤ size) : sarahFileGetBuffer get (some content) size = some content := by
  obtain ⟨m, hm, hle⟩ := h.got
  have hgo : ¬ (get.opens = false ∨ get.locks = false) := by
    rw [h.opens, h.locks]
    decide
  rw [sarahFileGetBuffer, if_neg hgo, hm, Option.map_some, List.take_of_length_le hsize,
    List.take_of_length_le hle]

theorem putBuffer_eq_expected_iff (h : put.WritesAll buffer) :
    (sarahFilePutBuffer put file buffer append).2 = some (putExpected file buffer append) ↔
      append ≠ 1 ∨ file.getD [] = [] ∨ buffer = [] := by
  rw [putBuffer_of_writesAll h, Option.some_inj, putExpected]
  split_ifs with happend
  · rw [pwrite_zero_eq_append_iff, happend, or_iff_right (not_not.mpr rfl)]
  · refine iff_of_true ?_ (.inl happend)
    have hnil := (pwrite_zero_eq_append_iff [] buffer).mpr (.inl rfl)
    rwa [List.nil_append] at hnil

end Complete

theorem i32_length_eq_iff (n : ℕ) : i32 n = (n : ℤ) ↔ n < 2 ^ 31 := by
  unfold i32
  omega

theorem exists_writesAll (buffer : List UInt8) : ∃ put : PutEnv, put.WritesAll buffer :=
  ⟨⟨true, true, true, some buffer.length⟩, rfl, rfl, rfl, buffer.length, rfl, le_rfl⟩

theorem exists_readsAll (size : ℕ) : ∃ get : GetEnv, get.ReadsAll size :=
  ⟨⟨true, true, some size⟩, rfl, rfl, size, rfl, le_rfl⟩

/-- **When the buffer is put and got whole**: nothing is appended to something, and the count is an `int`. -/
theorem putsAndGets_iff (file : Option (List UInt8)) (buffer : List UInt8) (append : ℤ) :
    PutsAndGets file buffer append ↔
      (append ≠ 1 ∨ file.getD [] = [] ∨ buffer = []) ∧
        (if append = 1 then (file.getD []).length + buffer.length else buffer.length) < 2 ^ 31 := by
  have hlength : (putExpected file buffer append).length =
      if append = 1 then (file.getD []).length + buffer.length else buffer.length := by
    rw [putExpected, apply_ite List.length, List.length_append]
  rw [← hlength]
  constructor
  · rintro ⟨hputs, hgets⟩
    obtain ⟨put, hput⟩ := exists_writesAll buffer
    obtain ⟨get, hget⟩ := exists_readsAll (putExpected file buffer append).length
    have hcontent := hputs put hput
    have hret := (hgets put get _ hput hget le_rfl).2
    rw [hcontent, sarahFileGetBufferRet, getBuffer_of_readsAll hget le_rfl] at hret
    exact ⟨(putBuffer_eq_expected_iff hput).mp hcontent, (i32_length_eq_iff _).mp hret⟩
  · rintro ⟨hcond, hlen⟩
    have hputs : ∀ put : PutEnv, put.WritesAll buffer →
        (sarahFilePutBuffer put file buffer append).2 = some (putExpected file buffer append) := fun put hput =>
      (putBuffer_eq_expected_iff hput).mpr hcond
    refine ⟨hputs, fun put get size hput hget hsize => ?_⟩
    rw [hputs put hput, sarahFileGetBufferRet, getBuffer_of_readsAll hget hsize]
    exact ⟨rfl, (i32_length_eq_iff _).mpr hlen⟩

/-- Appending to a file overwrites its start. -/
theorem not_putsAndGets : ¬ ∀ (file : Option (List UInt8)) (buffer : List UInt8) (append : ℤ),
    append = 0 ∨ append = 1 → PutsAndGets file buffer append := by
  intro hall
  have hputs := (hall (some (lit "one")) (lit "two") 1 (.inr rfl)).puts ⟨true, true, true, some 3⟩
    ⟨rfl, rfl, rfl, 3, rfl, by decide⟩
  revert hputs
  decide

end Sarah
