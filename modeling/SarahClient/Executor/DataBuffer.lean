import SarahClient.Executor.Sync

/-!
# The limit of the data buffer

* `DataOp`, `dataStep`: the calls that fill and clear the data buffer; `limitedStep`: the byte list they stand for;
* `Limited`: a call does what `limitedStep` says; `Served`: the calls on which it does;
* `scriptBashDostring`: the output of a command, read by `fgets`;
* **`dataBuffer_limited`**: every run of served calls, and every command whose pieces are served, keeps the limit and
  the longest prefixes; a run is limited exactly when its calls are served.
-/

namespace Sarah

open Block

variable {mem : ℕ → Bool}

/-! ## Calls on the data buffer -/

/-- The calls of a task on the data buffer. -/
inductive DataOp
  | append (data : List UInt8)
  | insert (idx : ℕ) (data : List UInt8)
  | clear

/-- One call, with its return code (0 for a `void` function). -/
def dataStep (mem : ℕ → Bool) (ex : Executor) : DataOp → Option (Executor × ℤ)
  | .append data => (sarahExecutorDataAppend mem ex data).map Prod.swap
  | .insert idx data => (sarahExecutorDataInsert mem ex idx data).map Prod.swap
  | .clear => (sarahExecutorDataClear ex).map fun ex => (ex, 0)

/-- `script_bash_dostring` when `fgets` delivers the output in `chunks`; `none` when `popen` fails. -/
def bashLoop (mem : ℕ → Bool) : List (List UInt8) → Executor → Option Executor
  | [], ex => some ex
  | chunk :: chunks, ex =>
    (sarahExecutorDataAppend mem ex (cstr chunk)).bind fun r => if r.1 ≠ 0 then some r.2 else bashLoop mem chunks r.2

/-- `script_bash_dostring`, with the chunks that `fgets` reads from the command. -/
def scriptBashDostring (mem : ℕ → Bool) (fd : Option (List (List UInt8))) (ex : Executor) : Option (ℤ × Executor) :=
  match fd with
  | none => some (1, ex)
  | some chunks => (bashLoop mem chunks ex).map fun ex => (0, ex)

/-- The byte list behind a call: each insertion takes the longest prefix that fits into `limit` bytes. -/
def limitedStep (limit : ℕ) (xs : List UInt8) : DataOp → List UInt8
  | .append data => xs ++ data.take (limit - xs.length)
  | .insert idx data => if idx ≤ xs.length then xs.take idx ++ data.take (limit - xs.length) ++ xs.drop idx else xs
  | .clear => []

/-- The bytes in the data buffer. -/
def Executor.data (ex : Executor) : List UInt8 := ex.dataBuffer.buffer.take ex.dataBuffer.size

/-- **The property of a call**: it leaves the bytes that it should, and the limit. -/
def Limited (mem : ℕ → Bool) (ex : Executor) (op : DataOp) : Prop :=
  ∃ r, dataStep mem ex op = some r ∧ r.1.dataBuffer.Holds (limitedStep ex.maxDatalen ex.data op) ∧
    r.1.maxDatalen = ex.maxDatalen

/-- The insertion is measured without a wrap-around, and the buffer can hold it. -/
def Serves (mem : ℕ → Bool) (ex : Executor) (data : List UInt8) : Prop :=
  ex.maxDatalen ≤ ex.dataBuffer.size ∨
    ((ex.dataBuffer.size + data.length < 2 ^ 32 ∨ ex.maxDatalen ≤ (ex.dataBuffer.size + data.length) % 2 ^ 32) ∧
      CanHold mem ex.dataBuffer.opacity
        (ex.dataBuffer.size + min data.length (ex.maxDatalen - ex.dataBuffer.size)))

/-- The allocator gives a call what it asks for. -/
def Served (mem : ℕ → Bool) (ex : Executor) : DataOp → Prop
  | .append data => Serves mem ex data
  | .insert idx data => ex.dataBuffer.size < idx ∨ Serves mem ex data
  | .clear => True

/-! ## The length that is handed on -/

/-- The measured length is the one that fits exactly when nothing wraps around below the limit. -/
theorem dataLength_eq_iff {ex : Executor} (hM : ex.maxDatalen < 2 ^ 32) (hlt : ex.dataBuffer.size < ex.maxDatalen)
    (data : List UInt8) : dataLength ex data = min data.length (ex.maxDatalen - ex.dataBuffer.size) ↔
      (ex.dataBuffer.size + data.length < 2 ^ 32 ∨ ex.maxDatalen ≤ (ex.dataBuffer.size + data.length) % 2 ^ 32) := by
  unfold dataLength u32
  split_ifs with h <;> omega

theorem dataLength_le (ex : Executor) (data : List UInt8) : dataLength ex data ≤ data.length := by
  unfold dataLength u32
  split_ifs with h <;> omega

/-! ## What a call can do -/

/-- A buffer after an attempt to add `len` bytes: unchanged, or grown and longer. -/
def Attempted (mem : ℕ → Bool) (sb : Strbuff) (len : ℕ) (sb' : Strbuff) : Prop :=
  sb' = sb ∨ ∃ q, growFor mem sb len = some q ∧ q.1 ≠ 0 ∧ sb'.opacity = q.2.opacity ∧ sb'.size = u32 (sb.size + len)

theorem append_attempted {sb : Strbuff} {src : List UInt8} {len : ℕ} {r : ℤ × Strbuff} (hb : sb.buffer.length < 2 ^ 31)
    (h : celStrbuffAppendFrom mem sb src len 1 = some r) : Attempted mem sb len r.2 := by
  obtain ⟨q, hgrow, h⟩ := Option.bind_eq_some_iff.mp h
  obtain ⟨hsize, -, hfail⟩ := growFor_bound hb hgrow
  split_ifs at h with h0 h1
  · cases h
    exact .inl (hfail h0)
  · obtain ⟨c, -, h⟩ := Option.bind_eq_some_iff.mp h
    obtain ⟨b, -, h⟩ := Option.bind_eq_some_iff.mp h
    cases h
    refine .inr ⟨q, hgrow, h0, rfl, ?_⟩
    rw [h1, ← hsize]
  · obtain ⟨b, -, h⟩ := Option.bind_eq_some_iff.mp h
    cases h
    refine .inr ⟨q, hgrow, h0, rfl, ?_⟩
    rw [← hsize]

theorem insert_attempted {sb : Strbuff} {idx : ℕ} {src : List UInt8} {len : ℕ} {r : ℤ × Strbuff}
    (hb : sb.buffer.length < 2 ^ 31) (h : celStrbuffInsertFrom mem sb idx src len 1 = some r) :
    Attempted mem sb len r.2 := by
  have h : insertFromLoop mem src len 1 idx sb = some r := h
  unfold insertFromLoop at h
  split_ifs at h with hidx
  · cases h
    exact .inl rfl
  · obtain ⟨q, hgrow, h⟩ := Option.bind_eq_some_iff.mp h
    obtain ⟨hsize, -, hfail⟩ := growFor_bound hb hgrow
    split_ifs at h with h0
    · cases h
      exact .inl (hfail h0)
    · obtain ⟨b, -, h⟩ := Option.bind_eq_some_iff.mp h
      obtain ⟨b', -, h⟩ := Option.bind_eq_some_iff.mp h
      cases h
      refine .inr ⟨q, hgrow, h0, rfl, ?_⟩
      rw [← hsize]

theorem resizeBuffer_opacity {sb : Strbuff} {n : ℤ} {q : ℤ × Strbuff} (h : resizeBuffer mem sb n = some q)
    (hq : q.1 ≠ 0) : 0 ≤ n ∧ mem n.toNat = true ∧ q.2.opacity = n.toNat := by
  unfold resizeBuffer createBuffer at h
  by_cases hmem : 0 ≤ n ∧ mem n.toNat = true
  · rw [if_pos hmem] at h
    refine ⟨hmem.1, hmem.2, ?_⟩
    dsimp only at h
    split_ifs at h
    all_goals
      obtain ⟨b, -, rfl⟩ := Option.map_eq_some_iff.mp h
      rfl
  · rw [if_neg hmem] at h
    rw [← Option.some.inj h] at hq
    exact absurd rfl hq

/-- What `growFor` makes of a full buffer: the allocation asked for, or less than is needed. -/
theorem growFor_full {sb : Strbuff} {len : ℕ} {q : ℤ × Strbuff} (h32 : sb.size + len < 2 ^ 32)
    (hfull : sb.opacity ≤ sb.size + len) (h : growFor mem sb len = some q) (hq : q.1 ≠ 0) :
    (2 * (sb.size + len) + 1 < 2 ^ 31 ∧ mem (2 * (sb.size + len) + 1) = true) ∨ q.2.opacity ≤ sb.size + len := by
  unfold growFor at h
  rw [u32_of_lt h32, if_pos hfull, Nat.mul_comm] at h
  obtain ⟨hpos, hmem, hopacity⟩ := resizeBuffer_opacity h hq
  by_cases h31 : 2 * (sb.size + len) + 1 < 2 ^ 31
  · rw [u32_of_lt (by omega), i32_of_range (by omega) (by omega), Int.toNat_natCast] at hmem
    exact .inl ⟨h31, hmem⟩
  · right
    rw [hopacity]
    unfold i32 u32 at hpos ⊢
    omega

/-- When an attempt leaves the bytes that it should, it measured the length right and the buffer could hold them. -/
theorem serves_of_attempted {ex : Executor} {data ys : List UInt8} {sb' : Strbuff} (hM : ex.maxDatalen < 2 ^ 32)
    (hcap : ex.dataBuffer.size < ex.dataBuffer.opacity) (hlt : ex.dataBuffer.size < ex.maxDatalen)
    (h : Attempted mem ex.dataBuffer (dataLength ex data) sb') (hys : sb'.Holds ys)
    (hlen : ys.length = ex.dataBuffer.size + min data.length (ex.maxDatalen - ex.dataBuffer.size)) :
    Serves mem ex data := by
  have hsize : sb'.size = ys.length := by rw [hys.2]; rfl
  rcases h with rfl | ⟨q, hgrow, hq, hopacity, hsize'⟩
  · -- nothing was added, and nothing had to be
    have hmin : min data.length (ex.maxDatalen - ex.dataBuffer.size) = 0 := by omega
    have hnil : data.length = 0 := by omega
    exact .inr ⟨.inl (by omega), .inl (by omega)⟩
  · have hdata : dataLength ex data = min data.length (ex.maxDatalen - ex.dataBuffer.size) := by
      by_contra hne
      have hwrap := mt (dataLength_eq_iff hM hlt data).mpr hne
      have hadd : u32 (ex.dataBuffer.size + dataLength ex data) = (ex.dataBuffer.size + data.length) % 2 ^ 32 := by
        unfold dataLength u32
        split_ifs <;> omega
      omega
    have h32 : ex.dataBuffer.size + dataLength ex data < 2 ^ 32 := by omega
    refine .inr ⟨(dataLength_eq_iff hM hlt data).mp hdata, ?_⟩
    rw [← hdata]
    by_cases hfull : ex.dataBuffer.opacity ≤ ex.dataBuffer.size + dataLength ex data
    · rcases growFor_full h32 hfull hgrow hq with hmem | hsmall
      · exact .inr hmem
      · have hroom : ys.length < sb'.opacity := hys.1
        omega
    · exact .inl (not_le.mp hfull)

/-! ## One call -/

/-- The executor holds `xs` under its limit. -/
structure HoldsData (ex : Executor) (xs : List UInt8) : Prop where
  limit : ex.maxDatalen < 2 ^ 32
  opacity : ex.dataBuffer.opacity < 2 ^ 31
  holds : ex.dataBuffer.Holds xs
  le : xs.length ≤ ex.maxDatalen

theorem HoldsData.data_eq {ex : Executor} {xs : List UInt8} (h : HoldsData ex xs) : ex.data = xs := h.holds.spec.1

theorem HoldsData.size_eq {ex : Executor} {xs : List UInt8} (h : HoldsData ex xs) : ex.dataBuffer.size = xs.length := by
  rw [h.holds.2]
  rfl

theorem HoldsData.buffer_length {ex : Executor} {xs : List UInt8} (h : HoldsData ex xs) :
    ex.dataBuffer.buffer.length < 2 ^ 31 := by
  rw [h.holds.spec.2.2.1]
  exact h.opacity

/-- The allocation of a limited buffer stays as small as an `int` can say. -/
theorem limitedStep_length {limit : ℕ} {xs : List UInt8} (h : xs.length ≤ limit) (op : DataOp) :
    (limitedStep limit xs op).length ≤ limit := by
  cases op with
  | append data =>
    simp only [limitedStep, List.length_append, List.length_take]
    omega
  | insert idx data =>
    simp only [limitedStep]
    split_ifs
    · simp only [List.length_append, List.length_take, List.length_drop]
      omega
    · exact h
  | clear => exact Nat.zero_le limit

/-- A served call hands on the length that fits, and the buffer grows for it. -/
theorem grow_of_serves {ex : Executor} {xs data : List UInt8} (hex : HoldsData ex xs) (hlt : xs.length < ex.maxDatalen)
    (hs : Serves mem ex data) : dataLength ex data = min data.length (ex.maxDatalen - xs.length) ∧
      ∃ cap, xs.length + dataLength ex data < cap ∧ cap < 2 ^ 31 ∧
        growFor mem (Strbuff.of xs ex.dataBuffer.opacity) (dataLength ex data) = some (1, Strbuff.of xs cap) := by
  have hsize := hex.size_eq
  have hM := hex.limit
  obtain ⟨hwrap, hcan⟩ := hs.resolve_left (by omega)
  have hdata := (dataLength_eq_iff hM (by omega) data).mpr hwrap
  rw [hsize] at hdata hcan
  rw [← hdata] at hcan
  obtain ⟨cap, hcap, hbound, hgrow⟩ := growFor_of hex.holds.1 (by omega) hcan
  refine ⟨hdata, cap, hcap, ?_, hgrow⟩
  rcases hbound with rfl | hbound
  · exact hex.opacity
  · exact hbound

theorem limitedStep_full {xs data : List UInt8} {limit : ℕ} (h : limit ≤ xs.length) (idx : ℕ) :
    limitedStep limit xs (.append data) = xs ∧ limitedStep limit xs (.insert idx data) = xs := by
  have hnil : data.take (limit - xs.length) = [] := by rw [Nat.sub_eq_zero_of_le h, List.take_zero]
  constructor
  · simp only [limitedStep, hnil, List.append_nil]
  · simp only [limitedStep, hnil, List.append_nil, List.take_append_drop, ite_self]

theorem append_of_serves {ex : Executor} {xs data : List UInt8} (hex : HoldsData ex xs) (hs : Serves mem ex data) :
    ∃ ex', sarahExecutorDataAppend mem ex data = some (0, ex') ∧
      HoldsData ex' (limitedStep ex.maxDatalen xs (.append data)) ∧ ex'.maxDatalen = ex.maxDatalen := by
  unfold sarahExecutorDataAppend
  rw [hex.size_eq]
  by_cases hfull : ex.maxDatalen ≤ xs.length
  · rw [if_pos hfull, (limitedStep_full hfull 0).1]
    exact ⟨ex, rfl, hex, rfl⟩
  · rw [if_neg hfull]
    obtain ⟨hdata, cap, hcap, hbound, hgrow⟩ := grow_of_serves hex (not_le.mp hfull) hs
    have happ : celStrbuffAppendFrom mem ex.dataBuffer data (dataLength ex data) 1 =
        some (1, Strbuff.of (xs ++ data.take (dataLength ex data)) cap) := by
      rw [hex.holds.2]
      exact appendFromLoop_succ_of (dataLength_le ex data) hgrow hcap (by omega) 0
    have htake : data.take (dataLength ex data) = data.take (ex.maxDatalen - xs.length) := by
      rw [hdata, Nat.min_comm, ← List.take_eq_take_min]
    rw [happ, htake]
    refine ⟨_, rfl, ⟨hex.limit, hbound, Strbuff.holds_of ?_, limitedStep_length hex.le (.append data)⟩, rfl⟩
    rw [List.length_append, List.length_take]
    omega

theorem insert_of_serves {ex : Executor} {xs data : List UInt8} (hex : HoldsData ex xs) {idx : ℕ}
    (hs : ex.dataBuffer.size < idx ∨ Serves mem ex data) :
    ∃ ex', sarahExecutorDataInsert mem ex idx data = some (0, ex') ∧
      HoldsData ex' (limitedStep ex.maxDatalen xs (.insert idx data)) ∧ ex'.maxDatalen = ex.maxDatalen := by
  unfold sarahExecutorDataInsert
  rw [hex.size_eq] at hs ⊢
  by_cases hfull : ex.maxDatalen ≤ xs.length
  · rw [if_pos hfull, (limitedStep_full hfull idx).2]
    exact ⟨ex, rfl, hex, rfl⟩
  rw [if_neg hfull]
  by_cases hidx : idx ≤ xs.length
  · obtain ⟨hdata, cap, hcap, hbound, hgrow⟩ := grow_of_serves hex (not_le.mp hfull) (hs.resolve_left (not_lt.mpr hidx))
    have hins : celStrbuffInsertFrom mem ex.dataBuffer idx data (dataLength ex data) 1 =
        some (1, Strbuff.of (xs.take idx ++ data.take (dataLength ex data) ++ xs.drop idx) cap) := by
      have hsplit : xs.take idx ++ xs.drop idx = xs := List.take_append_drop idx xs
      have hone := @insertFromLoop_succ_of mem data (xs.take idx) (xs.drop idx) _ ex.dataBuffer.opacity cap
        (dataLength_le ex data) (by rw [hsplit]; exact hgrow) (by rw [hsplit]; exact hcap.le) (by rw [hsplit]; omega) 0
      rw [hsplit, List.length_take, Nat.min_eq_left hidx, ← hex.holds.2] at hone
      exact hone
    have htake : data.take (dataLength ex data) = data.take (ex.maxDatalen - xs.length) := by
      rw [hdata, Nat.min_comm, ← List.take_eq_take_min]
    rw [hins, htake]
    have hspec : limitedStep ex.maxDatalen xs (.insert idx data) =
        xs.take idx ++ data.take (ex.maxDatalen - xs.length) ++ xs.drop idx := if_pos hidx
    have hle := limitedStep_length hex.le (.insert idx data)
    rw [hspec] at hle ⊢
    refine ⟨_, rfl, ⟨hex.limit, hbound, Strbuff.holds_of ?_, hle⟩, rfl⟩
    simp only [List.length_append, List.length_take, List.length_drop]
    omega
  · -- an index behind the bytes is ignored
    have hins : celStrbuffInsertFrom mem ex.dataBuffer idx data (dataLength ex data) 1 = some (1, ex.dataBuffer) := by
      show insertFromLoop mem data (dataLength ex data) 1 idx ex.dataBuffer = _
      rw [insertFromLoop, hex.size_eq, if_pos (not_le.mp hidx)]
    have hspec : limitedStep ex.maxDatalen xs (.insert idx data) = xs := if_neg hidx
    rw [hins, hspec]
    exact ⟨_, rfl, ⟨hex.limit, hex.opacity, hex.holds, hex.le⟩, rfl⟩

theorem clear_of {ex : Executor} {xs : List UInt8} (hex : HoldsData ex xs) :
    ∃ ex', sarahExecutorDataClear ex = some ex' ∧ HoldsData ex' [] ∧ ex'.maxDatalen = ex.maxDatalen := by
  have hclear := celStrbuffClear_of hex.holds.1.le
  rw [← hex.holds.2] at hclear
  unfold sarahExecutorDataClear
  rw [hclear]
  exact ⟨_, rfl, ⟨hex.limit, hex.opacity, Strbuff.holds_of (Nat.zero_lt_of_lt hex.holds.1), Nat.zero_le _⟩, rfl⟩

theorem dataStep_of_served {ex : Executor} {xs : List UInt8} (hex : HoldsData ex xs) {op : DataOp}
    (hs : Served mem ex op) : ∃ ex', dataStep mem ex op = some (ex', 0) ∧
      HoldsData ex' (limitedStep ex.maxDatalen xs op) ∧ ex'.maxDatalen = ex.maxDatalen := by
  cases op with
  | append data =>
    obtain ⟨ex', h, hex'⟩ := append_of_serves hex hs
    exact ⟨ex', by rw [dataStep, h]; rfl, hex'⟩
  | insert idx data =>
    obtain ⟨ex', h, hex'⟩ := insert_of_serves hex hs
    exact ⟨ex', by rw [dataStep, h]; rfl, hex'⟩
  | clear =>
    obtain ⟨ex', h, hex'⟩ := clear_of hex
    exact ⟨ex', by rw [dataStep, h]; rfl, hex'⟩

/-- **One call is limited exactly when it is served.** -/
theorem limited_iff_served {ex : Executor} {xs : List UInt8} (hex : HoldsData ex xs) (op : DataOp) :
    Served mem ex op ↔ Limited mem ex op := by
  constructor
  · intro hs
    obtain ⟨ex', h, hex', hlimit⟩ := dataStep_of_served hex hs
    exact ⟨_, h, by rw [hex.data_eq]; exact hex'.holds, hlimit⟩
  · rintro ⟨r, h, hholds, -⟩
    rw [hex.data_eq] at hholds
    have hsize := hex.size_eq
    have hcap : ex.dataBuffer.size < ex.dataBuffer.opacity := hsize ▸ hex.holds.1
    cases op with
    | append data =>
      obtain ⟨q, hq, rfl⟩ := Option.map_eq_some_iff.mp h
      unfold sarahExecutorDataAppend at hq
      split_ifs at hq with hfull
      · exact .inl hfull
      · obtain ⟨d, hd, rfl⟩ := Option.map_eq_some_iff.mp hq
        refine serves_of_attempted hex.limit hcap (not_le.mp hfull) (append_attempted hex.buffer_length hd) hholds ?_
        simp only [limitedStep, List.length_append, List.length_take]
        omega
    | insert idx data =>
      by_cases hidx : ex.dataBuffer.size < idx
      · exact .inl hidx
      right
      obtain ⟨q, hq, rfl⟩ := Option.map_eq_some_iff.mp h
      unfold sarahExecutorDataInsert at hq
      split_ifs at hq with hfull
      · exact .inl hfull
      · obtain ⟨d, hd, rfl⟩ := Option.map_eq_some_iff.mp hq
        refine serves_of_attempted hex.limit hcap (not_le.mp hfull) (insert_attempted hex.buffer_length hd) hholds ?_
        have hspec : limitedStep ex.maxDatalen xs (.insert idx data) =
            xs.take idx ++ data.take (ex.maxDatalen - xs.length) ++ xs.drop idx := if_pos (by omega)
        rw [hspec]
        simp only [List.length_append, List.length_take, List.length_drop]
        omega
    | clear => trivial

/-! ## Runs -/

theorem exec_of_served : ∀ (ops : List DataOp) {ex : Executor} {xs : List UInt8}, HoldsData ex xs →
    Machine.Guarded (dataStep mem) (Served mem) ex ops →
      ∃ r, Machine.exec (dataStep mem) ex ops = some r ∧ HoldsData r.1 (ops.foldl (limitedStep ex.maxDatalen) xs) ∧
        r.1.maxDatalen = ex.maxDatalen
  | [], ex, xs, hex, _ => ⟨_, rfl, hex, rfl⟩
  | op :: ops, ex, xs, hex, hops => by
    obtain ⟨ex₁, h₁, hex₁, hlimit₁⟩ := dataStep_of_served hex hops.1
    obtain ⟨r, hr, hex₂, hlimit₂⟩ := exec_of_served ops hex₁ (hops.2 _ h₁)
    rw [hlimit₁] at hex₂ hlimit₂
    exact ⟨(r.1, 0 :: r.2), by rw [Machine.exec_cons_of_step h₁, hr]; rfl, hex₂, hlimit₂⟩

theorem foldl_append (limit : ℕ) : ∀ (chunks : List (List UInt8)) {xs : List UInt8}, xs.length ≤ limit →
    (chunks.map DataOp.append).foldl (limitedStep limit) xs = (xs ++ chunks.flatten).take limit
  | [], xs, hxs => by
    rw [List.flatten_nil, List.append_nil, List.take_of_length_le hxs]
    rfl
  | chunk :: chunks, xs, hxs => by
    rw [List.map_cons, List.foldl_cons, foldl_append limit chunks (limitedStep_length hxs _), List.flatten_cons]
    simp only [limitedStep]
    by_cases hfit : xs.length + chunk.length ≤ limit
    · rw [List.take_of_length_le (l := chunk) (by omega), List.append_assoc]
    · rw [List.take_append_of_le_length (by rw [List.length_append, List.length_take]; omega), ← List.append_assoc,
        @List.take_append_of_le_length _ (xs ++ chunk) _ limit (by rw [List.length_append]; omega), List.take_append,
        List.take_append, List.take_take, Nat.min_self]

theorem bashLoop_of_served : ∀ (chunks : List (List UInt8)) {ex : Executor} {xs : List UInt8}, HoldsData ex xs →
    Machine.Guarded (dataStep mem) (Served mem) ex (chunks.map fun chunk => .append (cstr chunk)) →
      ∃ ex', bashLoop mem chunks ex = some ex' ∧
        HoldsData ex' ((chunks.map fun chunk => DataOp.append (cstr chunk)).foldl (limitedStep ex.maxDatalen) xs)
  | [], ex, xs, hex, _ => ⟨ex, rfl, hex⟩
  | chunk :: chunks, ex, xs, hex, hops => by
    obtain ⟨ex₁, h₁, hex₁, hlimit₁⟩ := append_of_serves hex hops.1
    have hstep : dataStep mem ex (.append (cstr chunk)) = some (ex₁, 0) := by rw [dataStep, h₁]; rfl
    obtain ⟨ex', hloop, hex'⟩ := bashLoop_of_served chunks hex₁ (hops.2 _ hstep)
    rw [hlimit₁] at hex'
    refine ⟨ex', ?_, hex'⟩
    rw [bashLoop, h₁, Option.bind_some, if_neg (not_not.mpr rfl), hloop]

/-- **The limit of the data buffer.** From any executor that holds `xs` under its limit: a run is limited exactly when
its calls are served, and then the buffer holds what `limitedStep` makes of `xs`; a command whose pieces are served
leaves the first bytes of its output. -/
theorem dataBuffer_limited (mem : ℕ → Bool) {ex : Executor} {xs : List UInt8} (hex : HoldsData ex xs) :
    (∀ ops, Machine.Guarded (dataStep mem) (Served mem) ex ops ↔ Machine.Guarded (dataStep mem) (Limited mem) ex ops) ∧
    (∀ ops, Machine.Guarded (dataStep mem) (Served mem) ex ops → ∃ r, Machine.exec (dataStep mem) ex ops = some r ∧
      r.1.dataBuffer.Holds (ops.foldl (limitedStep ex.maxDatalen) xs) ∧ r.1.dataBuffer.size ≤ ex.maxDatalen) ∧
    (∀ chunks : List (List UInt8), 0 ∉ chunks.flatten →
      Machine.Guarded (dataStep mem) (Served mem) ex (chunks.map DataOp.append) →
      ∃ ex', scriptBashDostring mem (some chunks) ex = some (0, ex') ∧
        ex'.dataBuffer.Holds ((xs ++ chunks.flatten).take ex.maxDatalen)) := by
  refine ⟨fun ops => ?_, fun ops hops => ?_, fun chunks hzero hops => ?_⟩
  · refine Machine.guarded_iff_of_guarded_invariant (fun ex => ∃ xs, HoldsData ex xs) (fun _ => True) ?_ ?_ ops ex
      ⟨xs, hex⟩ fun _ _ => trivial
    · rintro ex op r ⟨xs, hex⟩ - hs h
      obtain ⟨ex', h', hex', -⟩ := dataStep_of_served hex hs
      rw [h'] at h
      cases h
      exact ⟨_, hex'⟩
    · rintro ex op ⟨xs, hex⟩ -
      exact limited_iff_served hex op
  · obtain ⟨r, hr, hex', hlimit⟩ := exec_of_served ops hex hops
    exact ⟨r, hr, hex'.holds, hex'.size_eq.trans_le (hex'.le.trans_eq hlimit)⟩
  · have hcstr : (chunks.map fun chunk => DataOp.append (cstr chunk)) = chunks.map DataOp.append := by
      refine List.map_congr_left fun chunk hchunk => ?_
      rw [cstr_of_notMem fun hmem => hzero (List.mem_flatten.mpr ⟨chunk, hchunk, hmem⟩)]
    obtain ⟨ex', hloop, hex'⟩ := bashLoop_of_served chunks hex (hcstr ▸ hops)
    rw [hcstr, foldl_append _ _ hex.le] at hex'
    exact ⟨ex', by rw [scriptBashDostring, hloop]; rfl, hex'.holds⟩

/-- After `sarah_executor_init` and `sarah_executor_set_maxdatalen` the executor holds nothing. -/
theorem holdsData_init {node : Node} {ex : Executor} (h : sarahExecutorInit mem node = some (.ok ex)) {limit : ℕ}
    (hlimit : limit < 2 ^ 32) : HoldsData { ex with maxDatalen := limit } [] := by
  obtain ⟨appKey, -, h⟩ := Option.map_eq_some_iff.mp h
  dsimp only at h
  split_ifs at h
  split at h
  · cases h
  · cases h
  · cases h
  · rename_i res error data _ _ hdata
    cases h
    obtain ⟨b, hb, rfl⟩ := Option.map_eq_some_iff.mp hdata
    unfold createBuffer at hb
    split_ifs at hb
    cases hb
    refine ⟨hlimit, ?_, Strbuff.holds_of (by decide), Nat.zero_le _⟩
    show (1024 * 64 + 1 : ℤ).toNat < 2 ^ 31
    decide

/-- Two calls on a new executor with the limit 3. -/
theorem dataBuffer_limited_three : ∃ ex, sarahExecutorInit (fun _ => true) plainNode = some (.ok ex) ∧
    ∃ ex', scriptBashDostring (fun _ => true) (some [lit "ab", lit "cd"]) { ex with maxDatalen := 3 } = some (0, ex') ∧
      ex'.dataBuffer.Holds (lit "abc") := by
  obtain ⟨ex, hex⟩ : ∃ ex, sarahExecutorInit (fun _ => true) plainNode = some (.ok ex) := ⟨_, rfl⟩
  have hdata : HoldsData { ex with maxDatalen := 3 } [] := holdsData_init hex (by decide)
  have hfit : ∀ ex : Executor, ex.maxDatalen = 3 → ∀ data : List UInt8, ex.dataBuffer.size ≤ 3 → data.length ≤ 2 →
      Serves (fun _ => true) ex data := by
    intro ex hlimit data hsize hlen
    exact .inr ⟨.inl (by omega), .inr ⟨by omega, rfl⟩⟩
  refine ⟨ex, hex, (dataBuffer_limited (fun _ => true) hdata).2.2 [lit "ab", lit "cd"] (by decide +kernel) ?_⟩
  refine ⟨hfit _ rfl _ (by rw [hdata.size_eq]; decide) (by decide), fun r hr => ⟨?_, fun _ _ => trivial⟩⟩
  obtain ⟨ex', h', hex', hlimit⟩ := @dataStep_of_served _ _ _ hdata (.append (lit "ab"))
    (hfit _ rfl _ (by rw [hdata.size_eq]; decide) (by decide))
  rw [h'] at hr
  cases hr
  exact hfit ex' hlimit _ (hex'.size_eq.trans_le (hex'.le.trans_eq hlimit)) (by decide)

/-- With a limit above `2 ^ 30`, a string of `2 ^ 30` bytes is lost: the new size is no `int`. -/
theorem not_dataBuffer_limited : ¬ ∀ ex, sarahExecutorInit (fun _ => true) plainNode = some (.ok ex) → ∀ ops,
    Machine.Guarded (dataStep fun _ => true) (Limited fun _ => true) { ex with maxDatalen := 2 ^ 31 - 1 } ops := by
  intro hall
  obtain ⟨ex, hex⟩ : ∃ ex, sarahExecutorInit (fun _ => true) plainNode = some (.ok ex) := ⟨_, rfl⟩
  have hlimited := hall ex hex [.append (List.replicate (2 ^ 30) 97)]
  have hdata : HoldsData { ex with maxDatalen := 2 ^ 31 - 1 } [] := holdsData_init hex (by decide)
  have hopacity : ex.dataBuffer.opacity = 1024 * 64 + 1 := by
    cases hex
    rfl
  have hserved := (limited_iff_served hdata _).mpr hlimited.1
  have hsize : ex.dataBuffer.size = 0 := hdata.size_eq
  rcases hserved with hfull | ⟨-, hcan⟩
  · dsimp only at hfull
    omega
  · unfold CanHold at hcan
    dsimp only at hcan
    rw [List.length_replicate, hopacity, hsize] at hcan
    omega

end Sarah
