import SarahClient.Mysql.Model

/-!
# `file_get_contents` (`lib_april.c`)

The file is read in chunks of 1023 bytes into one block of 1024 bytes, and each chunk is added to the result as a
C string. `fread` returns full chunks except for the last.

* `fread`, `readLoop`, `luaFileGetContents`: the code; the result grows in a `luaL_Buffer`;
* `readLoop_full`: behind a full chunk, the last one is followed by the end of the chunk before it;
* **`fileGetContents_iff`**: a file without NUL is returned exactly when it ends with its first chunk, or with a full
  one.
-/

namespace Sarah

open StackBuffer

/-- `sizeof(buf) - 1`. -/
def chunkSize : ℕ := 1023

/-- `fread(buf, 1, n, fp)` before the bytes `rest`: how many it reads, the block, and the bytes behind. -/
def freadChunk (buf : List UInt8) (n : ℕ) (rest : List UInt8) : ℕ × List UInt8 × List UInt8 :=
  (min n rest.length, rest.take n ++ buf.drop (min n rest.length), rest.drop n)

/-- The loop over the chunks. -/
def readLoop (buf rest : List UInt8) (st : LuaState) : Option LuaState :=
  if (freadChunk buf chunkSize rest).1 < 1 then some st
  else
    (add st (cstr (freadChunk buf chunkSize rest).2.1)).bind
      (readLoop (freadChunk buf chunkSize rest).2.1 (freadChunk buf chunkSize rest).2.2)
termination_by rest.length
decreasing_by
  simp only [freadChunk, chunkSize, List.length_drop] at *
  omega

/-- `lua_file_get_contents` with the bytes of the file, if `fopen` succeeds, and whether `flock` does; `some none` for
`nil`. -/
def luaFileGetContents (file : Option (List UInt8)) (lock : Bool) (filePath : CString) : Option (Option (List UInt8)) :=
  match file with
  | none => some none
  | some content =>
    if lock = false then some none
    else
      (readLoop (List.replicate (chunkSize + 1) 0) content
        ⟨[.val (.scalar (.string filePath.1))], [], lualBuffersize, false⟩).bind fun st =>
        (pushResult st).map fun r => some r.1

/-! ## One chunk -/

variable {rest : List UInt8} {st : LuaState}

theorem readLoop_nil (buf : List UInt8) (st : LuaState) : readLoop buf [] st = some st := by
  have hread : (freadChunk buf chunkSize []).1 < 1 := Nat.zero_lt_one
  rw [readLoop, if_pos hread]

theorem readLoop_round {buf : List UInt8} (hrest : rest ≠ []) (htop : BoxOnTop st) :
    ∃ st', BoxOnTop st' ∧ st'.text = st.text ++ cstr (rest.take chunkSize ++ buf.drop (min chunkSize rest.length)) ∧
      readLoop buf rest st =
        readLoop (rest.take chunkSize ++ buf.drop (min chunkSize rest.length)) (rest.drop chunkSize) st' := by
  have hpos := List.length_pos_iff.mpr hrest
  obtain ⟨st', hadd, htext, htop'⟩ := htop.add (cstr (rest.take chunkSize ++ buf.drop (min chunkSize rest.length)))
  refine ⟨st', htop', htext, ?_⟩
  rw [readLoop, if_neg (by simp only [freadChunk, chunkSize]; omega)]
  simp only [freadChunk]
  rw [hadd, Option.bind_some]

theorem readLoop_chunk {p : List UInt8} (hp : p.length = chunkSize) (hfull : chunkSize ≤ rest.length)
    (hnul : 0 ∉ rest) (htop : BoxOnTop st) : ∃ st', BoxOnTop st' ∧ st'.text = st.text ++ rest.take chunkSize ∧
      readLoop (p ++ [0]) rest st = readLoop (rest.take chunkSize ++ [0]) (rest.drop chunkSize) st' := by
  have hne : rest ≠ [] := by
    rintro rfl
    exact absurd hfull (by decide)
  obtain ⟨st', htop', htext, hloop⟩ := @readLoop_round rest st (p ++ [0]) hne htop
  rw [Nat.min_eq_left hfull, ← hp, List.drop_left, hp] at htext hloop
  rw [cstr_append_zero (fun h => hnul (List.mem_of_mem_take h))] at htext
  exact ⟨st', htop', htext, hloop⟩

/-- Behind a full chunk `p` the rest of the file is read, and then, unless the last chunk is full, the bytes of the
chunk before it that the last chunk leaves in the block. -/
theorem readLoop_full (n : ℕ) : ∀ {rest p : List UInt8} {st : LuaState}, rest.length ≤ n → p.length = chunkSize →
    0 ∉ p → 0 ∉ rest → BoxOnTop st → ∃ st' stale, readLoop (p ++ [0]) rest st = some st' ∧ BoxOnTop st' ∧
      st'.text = st.text ++ rest ++ stale ∧ (stale = [] ↔ chunkSize ∣ rest.length) := by
  induction n with
  | zero =>
    intro rest p st hn _ _ _ htop
    obtain rfl := List.length_eq_zero_iff.mp (Nat.le_zero.mp hn)
    exact ⟨st, [], readLoop_nil _ _, htop, by simp, by simp⟩
  | succ n ih =>
    intro rest p st hn hp hpnul hnul htop
    by_cases hne : rest = []
    · subst hne
      exact ⟨st, [], readLoop_nil _ _, htop, by simp, by simp⟩
    have hpos := List.length_pos_iff.mpr hne
    by_cases hfull : chunkSize ≤ rest.length
    · -- a full chunk, and the rest behind it
      obtain ⟨st₁, htop₁, htext₁, hloop⟩ := readLoop_chunk hp hfull hnul htop
      have hdrop : (rest.drop chunkSize).length ≤ n := by
        rw [List.length_drop]
        unfold chunkSize at hfull ⊢
        omega
      obtain ⟨st₂, stale, hrun, htop₂, htext₂, hstale⟩ := ih hdrop
        (List.length_take_of_le hfull) (fun h => hnul (List.mem_of_mem_take h)) (fun h => hnul (List.mem_of_mem_drop h))
        htop₁
      refine ⟨st₂, stale, hloop.trans hrun, htop₂, ?_, ?_⟩
      · rw [htext₂, htext₁, List.append_assoc st.text, List.take_append_drop]
      · rw [hstale, List.length_drop, Nat.dvd_sub_iff_left hfull (Nat.dvd_refl _)]
    · -- the last chunk leaves the end of the one before it in the block
      obtain ⟨st₁, htop₁, htext₁, hloop⟩ := @readLoop_round rest st (p ++ [0]) hne htop
      have htake : rest.take chunkSize = rest := List.take_of_length_le (by omega)
      have hdrop : rest.drop chunkSize = [] := List.drop_of_length_le (by omega)
      have hstale : (p ++ [0]).drop (min chunkSize rest.length) = p.drop rest.length ++ [0] := by
        rw [Nat.min_eq_right (by omega), List.drop_append_of_le_length (by omega)]
      rw [htake, hstale, ← List.append_assoc, cstr_append_zero (by
        rw [List.mem_append, not_or]
        exact ⟨hnul, fun h => hpnul (List.mem_of_mem_drop h)⟩)] at htext₁
      refine ⟨st₁, p.drop rest.length, ?_, htop₁, by rw [htext₁, List.append_assoc], ?_⟩
      · rw [hloop, hdrop, readLoop_nil]
      · rw [List.drop_eq_nil_iff]
        constructor
        · omega
        · intro hdvd
          exact absurd (Nat.le_of_dvd hpos hdvd) hfull

/-! ## Whole files -/

theorem cstr_firstChunk {content : List UInt8} (hnul : 0 ∉ content) (n : ℕ) :
    cstr (content ++ List.replicate n 0) = content := by
  rw [cstr_append_zeros, cstr_of_notMem hnul]

theorem readLoop_start {content : List UInt8} (hnul : 0 ∉ content) (htop : BoxOnTop st) :
    ∃ st' stale, readLoop (List.replicate (chunkSize + 1) 0) content st = some st' ∧ BoxOnTop st' ∧
      st'.text = st.text ++ content ++ stale ∧
      (stale = [] ↔ content.length ≤ chunkSize ∨ chunkSize ∣ content.length) := by
  by_cases hne : content = []
  · subst hne
    exact ⟨st, [], readLoop_nil _ _, htop, by simp, by simp⟩
  obtain ⟨st₁, htop₁, htext₁, hloop⟩ := @readLoop_round content st (List.replicate (chunkSize + 1) 0) hne htop
  by_cases hfull : chunkSize ≤ content.length
  · rw [Nat.min_eq_left hfull, List.drop_replicate, Nat.add_sub_cancel_left] at htext₁ hloop
    rw [cstr_firstChunk (fun h => hnul (List.mem_of_mem_take h))] at htext₁
    obtain ⟨st₂, stale, hrun, htop₂, htext₂, hstale⟩ := readLoop_full _ le_rfl (List.length_take_of_le hfull)
      (fun h => hnul (List.mem_of_mem_take h)) (fun h => hnul (List.mem_of_mem_drop h)) htop₁
    refine ⟨st₂, stale, hloop.trans hrun, htop₂, ?_, ?_⟩
    · rw [htext₂, htext₁, List.append_assoc st.text, List.take_append_drop]
    · rw [hstale, List.length_drop, Nat.dvd_sub_iff_left hfull (Nat.dvd_refl _)]
      refine ⟨.inr, fun h => h.elim (fun hle => ?_) id⟩
      exact ⟨1, by omega⟩
  · rw [List.take_of_length_le (by omega), List.drop_replicate, cstr_firstChunk hnul,
      List.drop_of_length_le (by omega)] at *
    refine ⟨st₁, [], hloop.trans (readLoop_nil _ _), htop₁, by rw [htext₁, List.append_nil], ?_⟩
    exact iff_of_true rfl (.inl (by omega))

theorem fileGetContents_eq {content : List UInt8} (hnul : 0 ∉ content) (filePath : CString) :
    ∃ stale, luaFileGetContents (some content) true filePath = some (some (content ++ stale)) ∧
      (stale = [] ↔ content.length ≤ chunkSize ∨ chunkSize ∣ content.length) := by
  obtain ⟨st, stale, hrun, htop, htext, hstale⟩ := @readLoop_start
    ⟨[.val (.scalar (.string filePath.1))], [], lualBuffersize, false⟩ content hnul nofun
  obtain ⟨st', hpush⟩ := htop.pushResult
  refine ⟨stale, ?_, hstale⟩
  rw [luaFileGetContents, if_neg (by decide), hrun, Option.bind_some, hpush, htext]
  rfl

/-- **`file_get_contents`.** A readable file without NUL is returned as it is exactly when it has at most 1023 bytes, or
a multiple of 1023. -/
theorem fileGetContents_iff {content : List UInt8} (hnul : 0 ∉ content) (filePath : CString) :
    luaFileGetContents (some content) true filePath = some (some content) ↔
      content.length ≤ chunkSize ∨ chunkSize ∣ content.length := by
  obtain ⟨stale, hresult, hstale⟩ := fileGetContents_eq hnul filePath
  rw [hresult, ← hstale, Option.some.injEq, Option.some.injEq]
  exact List.append_right_eq_self

theorem fileGetContents_iff_hosts :
    luaFileGetContents (some (lit "127.0.0.1 localhost")) true ⟨lit "hosts", by decide⟩ =
    some (some (lit "127.0.0.1 localhost")) :=
  (fileGetContents_iff (by decide +kernel) _).mpr (.inl (by decide))

/-- A file of 1024 bytes is returned with 1022 bytes of its first chunk behind it. -/
theorem not_fileGetContents : ¬ ∀ (content : List UInt8) (filePath : CString), 0 ∉ content →
    luaFileGetContents (some content) true filePath = some (some content) := by
  intro hall
  have hnul : (0 : UInt8) ∉ List.replicate 1024 (97 : UInt8) := fun h => absurd (List.eq_of_mem_replicate h) (by decide)
  obtain ⟨stale, hresult, hstale⟩ := fileGetContents_eq hnul ⟨lit "f", by decide⟩
  rw [hall _ _ hnul, Option.some.injEq, Option.some.injEq] at hresult
  have hlen := hstale.mp (List.append_right_eq_self.mp hresult.symm)
  rw [List.length_replicate] at hlen
  exact absurd hlen (by decide)

end Sarah
