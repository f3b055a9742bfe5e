import SarahClient.Node.Model
import SarahClient.Strbuff.Growth
import Mathlib.Data.List.TakeWhile

/-!
# Start-up of the node record

* `decodeRecord`, `Node.record`: the record on disk and in memory;
* `readUnsignedInt_eq_iff`: the words of the record are read as they are written;
* `LinesFit`, `readConfig_isSome_iff`: the lines of `config.json`, the 1024 bytes of `file_buff` and the text in
  `strbuff`;
* `ConfigLoads`, `WriteEnv.storedOf`: when `config.json` is accepted, and which bytes of a write reach the file;
* `StopsEarly`, `InitDefined`: the exits before there is a buffer, and the runs without a stray `free` or a long line;
* **`sarahNodeInit_agrees_iff`**: exactly when a return code 0 means that memory and disk agree;
* **`sarahNodeInit_leaves_file_iff`**: exactly when a record that cannot be read is reported and left alone.
-/

namespace Sarah

open FileBytes

/-! ## Reading and writing the record -/

/-- A word is read back exactly from the bytes it is written as. -/
theorem readUnsignedInt_eq_iff {c : List UInt8} {off : ℕ} (h : off + 4 ≤ c.length) (v : UInt32) :
    readUnsignedInt c off = v ↔ (c.drop off).take 4 = writeUnsignedInt v := by
  have hslice : (c.drop off).take 4 =
      [c.getD off 0, c.getD (off + 1) 0, c.getD (off + 2) 0, c.getD (off + 3) 0] := by
    refine List.ext_getElem? fun i => ?_
    rw [List.getElem?_take]
    split_ifs with hi
    · rw [List.getElem?_drop, List.getElem?_eq_getElem (by omega)]
      have hi' : i = 0 ∨ i = 1 ∨ i = 2 ∨ i = 3 := by omega
      rcases hi' with rfl | rfl | rfl | rfl
      · simp [List.getD_eq_getElem?_getD, List.getElem?_eq_getElem (show off < c.length by omega)]
      · simp [List.getD_eq_getElem?_getD, List.getElem?_eq_getElem (show off + 1 < c.length by omega)]
      · simp [List.getD_eq_getElem?_getD, List.getElem?_eq_getElem (show off + 2 < c.length by omega)]
      · simp [List.getD_eq_getElem?_getD, List.getElem?_eq_getElem (show off + 3 < c.length by omega)]
    · rw [List.getElem?_eq_none (by simp; omega)]
  rw [hslice, readUnsignedInt, writeUnsignedInt]
  have h₀ := (c.getD off 0).toNat_lt
  have h₁ := (c.getD (off + 1) 0).toNat_lt
  have h₂ := (c.getD (off + 2) 0).toNat_lt
  have h₃ := (c.getD (off + 3) 0).toNat_lt
  have hv := v.toNat_lt
  simp only [List.cons.injEq, and_true, ← UInt8.toNat_inj, ← UInt32.toNat_inj, UInt8.toNat_ofNat',
    UInt32.toNat_ofNat']
  omega

/-- The record at the start of a file. -/
def decodeRecord (content : List UInt8) : Option (UInt32 × UInt32 × UInt32 × List UInt8) :=
  if 52 ≤ content.length then
    some (readUnsignedInt content 0, readUnsignedInt content 4, readUnsignedInt content 8,
      (content.drop 12).take 40)
  else none

/-- The record in memory. -/
def Node.record (node : Node) : UInt32 × UInt32 × UInt32 × List UInt8 :=
  (node.createdAt, node.interval, node.lastBootAt, node.nodeId.1)

theorem decodeRecord_eq_iff {c : List UInt8} (h : 52 ≤ c.length) (node : Node) :
    decodeRecord c = some node.record ↔ (c.drop 0).take 4 = writeUnsignedInt node.createdAt ∧
      (c.drop 4).take 4 = writeUnsignedInt node.interval ∧ (c.drop 8).take 4 = writeUnsignedInt node.lastBootAt ∧
        (c.drop 12).take 40 = node.nodeId.1 := by
  rw [decodeRecord, if_pos h, Node.record, Option.some.injEq, Prod.mk.injEq, Prod.mk.injEq, Prod.mk.injEq,
    readUnsignedInt_eq_iff (by omega), readUnsignedInt_eq_iff (by omega), readUnsignedInt_eq_iff (by omega)]

/-- Storing at most four bytes at offset 8 leaves the rest of the record alone. -/
theorem pwrite_frame {c w : List UInt8} (h : 52 ≤ c.length) (hw : w.length ≤ 4) :
    52 ≤ (pwrite c 8 w).length ∧ ((pwrite c 8 w).drop 0).take 4 = (c.drop 0).take 4 ∧
      ((pwrite c 8 w).drop 4).take 4 = (c.drop 4).take 4 ∧
      ((pwrite c 8 w).drop 12).take 40 = (c.drop 12).take 40 := by
  have htake : (c.take 8).length = 8 := by rw [List.length_take]; omega
  refine ⟨by rw [length_pwrite_of_le (by omega)]; exact h, ?_, ?_, ?_⟩
  · rw [pwrite_of_le (by omega), List.append_assoc, List.drop_zero, List.drop_zero,
      List.take_append_of_le_length (by omega), List.take_take]
    rfl
  · rw [pwrite_of_le (by omega), List.append_assoc, List.drop_append_of_le_length (by omega),
      List.take_append_of_le_length (by rw [List.length_drop]; omega), List.drop_take, List.take_take]
    rfl
  · have hlen : (c.take 8 ++ w).length = 8 + w.length := by rw [List.length_append, htake]
    rw [pwrite_of_le (by omega), List.drop_append, List.drop_of_length_le (by omega), List.nil_append,
      List.drop_drop, hlen]
    congr 2
    omega

/-! ## The write back and the configuration -/

/-- The bytes of a write that reach the file. -/
def WriteEnv.storedOf (env : WriteEnv) (buff : List UInt8) : List UInt8 :=
  if env.opens && env.locks then buff.take env.stored else []

theorem storedOf_length_le (env : WriteEnv) (v : UInt32) :
    (env.storedOf (writeUnsignedInt v)).length ≤ 4 := by
  unfold WriteEnv.storedOf
  split_ifs
  · exact List.length_take_le' _ _
  · exact Nat.zero_le 4

theorem writeBuffer_existing {node : Node} {path : List UInt8} (hdb : node.dbFile = some path) (off : ℕ)
    (buff : List UInt8) (env : WriteEnv) (c : List UInt8) :
    (writeBuffer node off buff env (some c)).2 = some (pwrite c off (env.storedOf buff)) := by
  unfold writeBuffer WriteEnv.storedOf lockAndWrite
  rw [hdb]
  cases env.opens with
  | false => simp
  | true => cases env.locks <;> simp

theorem packNode_length (node : Node) : (packNode node).length = 52 := by
  rw [packNode, List.length_append, node.nodeId.2]
  rfl

/-- All of `n` bytes reach the file. -/
def WriteEnv.completes (env : WriteEnv) (n : ℕ) : Bool := env.opens && env.locks && n ≤ env.stored

/-- A new file holds the whole record exactly when its flush returns 0. -/
theorem flush_new {node : Node} {path : List UInt8} (hdb : node.dbFile = some path) (env : WriteEnv) :
    ((sarahNodeFlush node env none).1 = 0 ↔ env.completes 52 = true) ∧
      (env.completes 52 = true → (sarahNodeFlush node env none).2 = some (packNode node)) := by
  have hlen := packNode_length node
  unfold sarahNodeFlush WriteEnv.completes lockAndWrite
  rw [hdb]
  cases env.opens with
  | false => simp
  | true =>
    cases env.locks with
    | false => simp
    | true =>
      simp only [Bool.and_self, Bool.true_and, if_true, hlen, decide_eq_true_eq]
      split_ifs with h
      · refine ⟨by simp [h], fun _ => ?_⟩
        have hne : packNode node ≠ [] := List.ne_nil_of_length_pos (by omega)
        rw [List.take_of_length_le (by omega), pwrite, if_neg hne]
        simp
      · simp [h]

/-! ## The lines of the configuration -/

/-- Bytes in use and capacity of `strbuff` once `len` bytes were to be appended. -/
def roomAfter (grow : ℕ → Bool) (len : ℕ) (room : ℕ × ℕ) : ℕ × ℕ :=
  (capacityFor grow room.2 (room.1 + len)).elim room fun cap => (room.1 + len, cap)

/-- Every line leaves room for a NUL in `file_buff`, and no line that is appended makes the size of `strbuff` wrap
around. -/
def LinesFit (grow : ℕ → Bool) : List (List UInt8) → ℕ × ℕ → Prop
  | [], _ => True
  | line :: lines, room => line.length < 1024 ∧
      if line.head? = some 35 then LinesFit grow lines room
      else GrowthSafe grow (room.1 + (cstr line).length) ∧
        LinesFit grow lines (roomAfter grow (cstr line).length room)

/-- The lines of `config.json` fit, from the 128 bytes that `strbuff` starts with. -/
def NodeEnv.ConfigFits (env : NodeEnv) (stream : List UInt8) : Prop :=
  LinesFit env.grow (stream.splitOn 10) (0, 128)

section Lines

variable {grow : ℕ → Bool} {xs line : List UInt8} {cap : ℕ}

theorem roomAfter_bounds (len : ℕ) {room : ℕ × ℕ} (h : room.1 < room.2 ∧ room.2 < 2 ^ 31) :
    (roomAfter grow len room).1 < (roomAfter grow len room).2 ∧ (roomAfter grow len room).2 < 2 ^ 31 := by
  unfold roomAfter
  cases hcap : capacityFor grow room.2 (room.1 + len) with
  | none => exact h
  | some cap => exact capacityFor_bounds h.2 hcap

/-- **One line**: it is appended, or dropped where the buffer cannot grow, exactly if the sum of the sizes is safe. -/
theorem appendLine_safe (hcap : xs.length < cap) (hbound : cap < 2 ^ 31)
    (hsafe : GrowthSafe grow (xs.length + line.length)) : ∃ code ys,
      celStrbuffAppendFrom grow (Strbuff.of xs cap) line line.length 1 =
        some (code, Strbuff.of ys (roomAfter grow line.length (xs.length, cap)).2) ∧
      ys.length = (roomAfter grow line.length (xs.length, cap)).1 := by
  have hgrow := growFor_eq hcap.le hsafe
  show ∃ code ys, appendFromLoop grow line line.length 1 (Strbuff.of xs cap) = _ ∧ _
  unfold roomAfter
  cases hroom : capacityFor grow cap (xs.length + line.length) with
  | none =>
    rw [hroom] at hgrow
    refine ⟨0, xs, ?_, rfl⟩
    rw [appendFromLoop, hgrow]
    rfl
  | some cap' =>
    rw [hroom] at hgrow
    obtain ⟨hlt, hbound'⟩ := capacityFor_bounds hbound hroom
    refine ⟨1, xs ++ line, ?_, List.length_append⟩
    rw [appendFromLoop_succ_of le_rfl hgrow hlt (by omega), appendFromLoop, List.take_length]
    rfl

theorem linesFit_cons {lines : List (List UInt8)} {room : ℕ × ℕ} :
    LinesFit grow (line :: lines) room ↔ line.length < 1024 ∧
      if line.head? = some 35 then LinesFit grow lines room
      else GrowthSafe grow (room.1 + (cstr line).length) ∧
        LinesFit grow lines (roomAfter grow (cstr line).length room) := Iff.rfl

theorem linesFit_nil {room : ℕ × ℕ} (h : room.1 < 2 ^ 31) : LinesFit grow [[]] room :=
  ⟨by decide, .inl h, trivial⟩

theorem linesFit_iff {stream : List UInt8} {r : List UInt8 × List UInt8} (h : sarahGetLine stream = some r)
    {room : ℕ × ℕ} (hroom : room.1 < room.2 ∧ room.2 < 2 ^ 31) :
    LinesFit grow (stream.splitOn 10) room ↔ LinesFit grow (r.1 :: r.2.splitOn 10) room := by
  rw [sarahGetLine] at h
  split_ifs at h
  cases h
  by_cases hmem : (10 : UInt8) ∈ stream
  · obtain ⟨line, rest, rfl, hline⟩ := List.eq_append_cons_of_mem hmem
    have hall : ∀ c ∈ line, decide (c ≠ 10) = true := fun c hc => decide_eq_true fun h => hline (h ▸ hc)
    rw [List.splitOn_append_cons_self_of_not_mem hline, List.takeWhile_append_of_pos hall,
      List.dropWhile_append_of_pos hall]
    simp
  · -- behind the last line nothing is left, and an empty line fits
    have hall : ∀ c ∈ stream, decide (c ≠ 10) = true := fun c hc => decide_eq_true fun h => hmem (h ▸ hc)
    have hlast (room' : ℕ × ℕ) (h : room'.1 < room'.2 ∧ room'.2 < 2 ^ 31) :
        LinesFit grow [] room' ↔ LinesFit grow [[]] room' := iff_of_true trivial (linesFit_nil (by omega))
    rw [List.splitOn_eq_singleton hmem, List.takeWhile_eq_self_iff.mpr hall, List.dropWhile_eq_nil_iff.mpr hall,
      List.tail_nil, List.splitOn_nil]
    dsimp only
    rw [linesFit_cons, linesFit_cons, hlast room hroom, hlast (roomAfter grow _ room) (roomAfter_bounds _ hroom)]

/-- **The loop over the lines** stays inside its buffers exactly if the lines fit. -/
theorem readConfig_isSome_iff (stream : List UInt8) (strbuff : Strbuff) (xs : List UInt8)
    (hcap : xs.length < strbuff.opacity) (hbound : strbuff.opacity < 2 ^ 31)
    (hsb : strbuff = Strbuff.of xs strbuff.opacity) : (readConfig grow stream strbuff).isSome ↔
      LinesFit grow (stream.splitOn 10) (xs.length, strbuff.opacity) := by
  induction stream, strbuff using readConfig.induct generalizing xs with
  | case1 stream strbuff h =>
    have hnil : stream = [] := by
      by_contra hne
      rw [sarahGetLine, if_neg hne] at h
      cases h
    rw [readConfig, hnil, List.splitOn_nil]
    exact iff_of_true rfl (linesFit_nil (by dsimp only; omega))
  | case2 stream strbuff r h hlen hcomment ih =>
    rw [linesFit_iff h ⟨hcap, hbound⟩, readConfig, h]
    dsimp only
    rw [if_pos hlen, if_pos hcomment, ih xs hcap hbound hsb, linesFit_cons, if_pos hcomment, and_iff_right hlen]
  | case3 stream strbuff r h hlen hcomment ih =>
    rw [linesFit_iff h ⟨hcap, hbound⟩, readConfig, h]
    dsimp only
    rw [if_pos hlen, if_neg hcomment, linesFit_cons, if_neg hcomment, and_iff_right hlen]
    by_cases hsafe : GrowthSafe grow (xs.length + (cstr r.1).length)
    · obtain ⟨code, ys, happend, hys⟩ := appendLine_safe hcap hbound hsafe
      have hroom : (xs.length, strbuff.opacity).1 < (xs.length, strbuff.opacity).2 ∧
          (xs.length, strbuff.opacity).2 < 2 ^ 31 := ⟨hcap, hbound⟩
      obtain ⟨hcap', hbound'⟩ := @roomAfter_bounds grow (cstr r.1).length _ hroom
      rw [← hsb] at happend
      rw [happend, Option.bind_some, and_iff_right hsafe, ih _ ys (by rw [hys]; exact hcap') hbound' rfl, hys]
      rfl
    · have hline : (cstr r.1).length ≤ r.1.length := (List.takeWhile_prefix _).length_le
      have hwraps := @celStrbuffAppendFrom_wraps grow xs _ _ (cstr r.1) le_rfl (by omega) hcap.le hbound hsafe
      rw [← hsb] at hwraps
      rw [hwraps]
      exact iff_of_false (fun h => by cases h) fun h => hsafe h.1
  | case4 stream strbuff r h hlen =>
    rw [linesFit_iff h ⟨hcap, hbound⟩, readConfig, h]
    dsimp only
    rw [if_neg hlen]
    exact iff_of_false (fun h => by cases h) fun h => hlen h.1

theorem configText_isSome_iff (env : NodeEnv) (stream : List UInt8) :
    (env.configText stream).isSome ↔ env.ConfigFits stream :=
  readConfig_isSome_iff stream _ [] (by decide : (0 : ℕ) < 128) (by decide : 128 < 2 ^ 31) rfl

end Lines

/-- `config.json` is there, its lines fit, it has at least two bytes outside comments, and it parses. -/
def ConfigLoads (parse : List UInt8 → Option CJson) (env : NodeEnv) : Prop :=
  env.mallocConfig = true ∧ ∃ stream strbuff, env.config = some stream ∧ env.configText stream = some strbuff ∧
    2 ≤ strbuff.size ∧ (parse (cstr strbuff.buffer)).isSome

/-- `sarah_node_init` stops before it has a buffer for `config.json`. -/
def ConfigStops (env : NodeEnv) : Prop := env.mallocConfig = false ∨ env.config = none

/-- No stray pointer is freed then, and otherwise the lines of `config.json` fit. -/
def ConfigDefined (env : NodeEnv) : Prop :=
  (ConfigStops env → env.stray = false) ∧
    (¬ ConfigStops env → ∀ stream, env.config = some stream → env.ConfigFits stream)

theorem cleanNode_record (rno : ℤ) (node : Node) : (cleanNode rno node).record = node.record := by
  unfold cleanNode
  split_ifs
  · rfl
  · rfl

section Config

variable {parse : List UInt8 → Option CJson} {env : NodeEnv} (dir : List UInt8) (rno : ℤ) (node : Node)
  (disk : Option (List UInt8))

theorem ConfigLoads.not_stops (h : ConfigLoads parse env) : ¬ ConfigStops env := by
  obtain ⟨hm, stream, -, hstream, -⟩ := h
  rintro (h | h)
  · rw [hm] at h
    cases h
  · rw [hstream] at h
    cases h

theorem ConfigLoads.defined (h : ConfigLoads parse env) : ConfigDefined env := by
  refine ⟨fun hstops => absurd hstops h.not_stops, fun _ stream' hstream' => ?_⟩
  obtain ⟨-, stream, strbuff, hstream, htext, -⟩ := h
  rw [hstream, Option.some.injEq] at hstream'
  rw [← hstream', ← configText_isSome_iff, htext]
  rfl

theorem loadConfig_of_loads (h : ConfigLoads parse env) :
    ∃ node', loadConfig parse env dir rno node disk = some (rno, node', disk) ∧ node'.record = node.record := by
  obtain ⟨hm, stream, strbuff, hstream, htext, hsize, hparse⟩ := h
  obtain ⟨json, hjson⟩ := Option.isSome_iff_exists.mp hparse
  refine ⟨_, ?_, cleanNode_record rno { node with configFile := some (dir ++ lit "config.json"),
                                                   config := nodeConfig json }⟩
  simp only [loadConfig, hm, if_true, hstream, htext, Option.bind_some, if_neg (Nat.not_lt.mpr hsize), hjson]

theorem loadConfig_of_not_loads (h : ¬ ConfigLoads parse env) :
    (¬ ConfigDefined env ∧ loadConfig parse env dir rno node disk = none) ∨
      (ConfigDefined env ∧ ∃ code node', loadConfig parse env dir rno node disk = some (code, node', disk) ∧
        code ≠ 0) := by
  -- the two exits before there is a buffer
  have hearly (hstops : ConfigStops env) (code : ℤ) (node' : Node) (hcode : code ≠ 0) :
      (¬ ConfigDefined env ∧ leaveEarly env code node' disk = none) ∨
        (ConfigDefined env ∧ ∃ c n, leaveEarly env code node' disk = some (c, n, disk) ∧ c ≠ 0) := by
    unfold leaveEarly
    cases hs : env.stray with
    | true =>
      refine .inl ⟨fun hdef => ?_, rfl⟩
      have := hdef.1 hstops
      rw [hs] at this
      cases this
    | false => exact .inr ⟨⟨fun _ => hs, fun hno => absurd hstops hno⟩, code, _, rfl, hcode⟩
  unfold loadConfig
  cases hm : env.mallocConfig with
  | false =>
    simp only [Bool.false_eq_true, if_false]
    exact hearly (.inl hm) 5 node (by decide)
  | true =>
    cases hc : env.config with
    | none =>
      simp only [if_true]
      exact hearly (.inr hc) 6 _ (by decide)
    | some stream =>
      have hlate : ¬ ConfigStops env := by
        rintro (h | h)
        · rw [hm] at h
          cases h
        · rw [hc] at h
          cases h
      have hdef : ConfigDefined env ↔ (env.configText stream).isSome := by
        rw [configText_isSome_iff]
        refine ⟨fun hdef => hdef.2 hlate stream hc, fun hfit => ⟨fun hstops => absurd hstops hlate, fun _ s hs => ?_⟩⟩
        rw [hc, Option.some.injEq] at hs
        rw [← hs]
        exact hfit
      rw [hdef]
      simp only [if_true]
      cases htext : env.configText stream with
      | none => exact .inl ⟨Bool.false_ne_true, rfl⟩
      | some strbuff =>
        refine .inr ⟨rfl, ?_⟩
        rw [Option.bind_some]
        by_cases hsize : strbuff.size < 2
        · exact ⟨7, _, if_pos hsize, by decide⟩
        · rw [if_neg hsize]
          cases hp : parse (cstr strbuff.buffer) with
          | none => exact ⟨8, _, rfl, by decide⟩
          | some json => exact absurd ⟨hm, stream, strbuff, hc, htext, Nat.le_of_not_lt hsize, by rw [hp]; rfl⟩ h

end Config

/-! ## The two paths of the start-up -/

section Paths

variable (parse : List UInt8 → Option CJson) {env : NodeEnv} (dir : List UInt8)

/-- The boot time as a word. -/
def NodeEnv.bootAt (env : NodeEnv) : UInt32 := UInt32.ofNat env.tvSec

theorem init_no_memory (hm : env.mallocDb = false) (disk : Option (List UInt8)) :
    sarahNodeInit parse env (some dir) disk = leaveEarly env 2 { blankNode with baseDir := some dir } disk := by
  simp only [sarahNodeInit, hm, Bool.false_eq_true, if_false]

/-- An existing file: the boot time is written back whether the record was read or not. -/
theorem init_existing (hm : env.mallocDb = true) (content : List UInt8) : ∃ rno node,
    sarahNodeInit parse env (some dir) (some content) =
      loadConfig parse env dir rno node
        (some (pwrite content 8 (env.patch.storedOf (writeUnsignedInt env.bootAt)))) ∧
      (rno = 0 ↔ (env.openRead = true → env.readsRecord content = true)) ∧
      (env.openRead = true → env.readsRecord content = true → node.record =
        (readUnsignedInt content 0, readUnsignedInt content 4, env.bootAt, (content.drop 12).take 40)) := by
  have hset : ∀ node : Node, ∀ path, node.dbFile = some path → node.isNew = false →
      sarahNodeSetLastBootAt node (UInt32.ofNat env.tvSec) (if node.isNew then 0 else 1) env.patch (some content) =
        ((sarahNodeSetLastBootAt node (UInt32.ofNat env.tvSec) 1 env.patch (some content)).1,
          { node with lastBootAt := env.bootAt },
          some (pwrite content 8 (env.patch.storedOf (writeUnsignedInt env.bootAt)))) := by
    intro node path hdb hnew
    have h : (writeBuffer { node with lastBootAt := env.bootAt } 8 (writeUnsignedInt env.bootAt) env.patch
        (some content)).2 = _ := writeBuffer_existing hdb 8 (writeUnsignedInt env.bootAt) env.patch content
    simp only [hnew, sarahNodeSetLastBootAt, if_true, Bool.false_eq_true, if_false]
    rw [← h]
    rfl
  unfold sarahNodeInit loadRecord
  simp only [hm, if_true]
  by_cases ho : env.openRead = true
  · by_cases hr : env.readsRecord content = true
    · simp only [if_pos ho, dif_pos hr]
      rw [if_neg (by decide), hset _ (dir ++ lit "node.db") rfl rfl]
      exact ⟨0, _, rfl, ⟨fun _ _ => hr, fun _ => rfl⟩, fun _ _ => rfl⟩
    · simp only [if_pos ho, dif_neg hr]
      rw [if_neg (by decide), hset _ (dir ++ lit "node.db") rfl rfl]
      exact ⟨2, _, rfl, ⟨fun h => absurd h (by decide), fun h => absurd (h ho) hr⟩,
        fun _ h => absurd h hr⟩
  · simp only [if_neg ho]
    rw [if_neg (by decide), hset _ (dir ++ lit "node.db") rfl rfl]
    exact ⟨0, _, rfl, ⟨fun _ h => absurd h ho, fun _ => rfl⟩, fun h => absurd h ho⟩

theorem init_new (hm : env.mallocDb = true) : ∃ node disk,
    sarahNodeInit parse env (some dir) none =
      (if env.flush.completes 52 then
        loadConfig parse env dir 0 { node with lastBootAt := env.bootAt } (some (packNode node))
      else leaveEarly env 4 node disk) ∧ node.lastBootAt = 0 := by
  obtain ⟨node, hnode⟩ : ∃ node, node =
      newNode env { blankNode with baseDir := some dir, dbFile := some (dir ++ lit "node.db") } := ⟨_, rfl⟩
  have hdb : node.dbFile = some (dir ++ lit "node.db") := by rw [hnode]; rfl
  have hnew : node.isNew = true := by rw [hnode]; rfl
  obtain ⟨hcode, hdisk⟩ := flush_new hdb env.flush
  refine ⟨node, (sarahNodeFlush node env.flush none).2, ?_, by rw [hnode]; rfl⟩
  unfold sarahNodeInit loadRecord
  simp only [hm, if_true, ← hnode]
  by_cases hc : env.flush.completes 52 = true
  · rw [if_pos hc, if_neg (not_not.mpr (hcode.mpr hc)), if_neg (by decide), hdisk hc]
    simp only [hnew, sarahNodeSetLastBootAt, if_true, if_neg (show ¬ (0 : ℤ) = 1 by decide)]
    rfl
  · rw [if_neg hc, if_pos (mt hcode.mp hc), if_pos rfl]

end Paths

/-! ## Runs that are defined -/

/-- `sarah_node_init` stops before it has a buffer for `config.json`: a file name has no memory, the record of a new
file is not stored, or there is no `config.json`. -/
def StopsEarly (env : NodeEnv) (disk : Option (List UInt8)) : Prop :=
  env.mallocDb = false ∨ (disk = none ∧ env.flush.completes 52 = false) ∨ ConfigStops env

/-- No stray pointer is freed then, and otherwise the lines of `config.json` fit. -/
def InitDefined (env : NodeEnv) (disk : Option (List UInt8)) : Prop :=
  (StopsEarly env disk → env.stray = false) ∧
    (¬ StopsEarly env disk → ∀ stream, env.config = some stream → env.ConfigFits stream)

theorem initDefined_of_stops {env : NodeEnv} {disk : Option (List UInt8)} (h : StopsEarly env disk) :
    InitDefined env disk ↔ env.stray = false :=
  ⟨fun hdef => hdef.1 h, fun hs => ⟨fun _ => hs, fun hno => absurd h hno⟩⟩

theorem stopsEarly_iff {env : NodeEnv} {disk : Option (List UInt8)} (hm : env.mallocDb = true)
    (hflush : disk = none → env.flush.completes 52 = true) : StopsEarly env disk ↔ ConfigStops env := by
  refine ⟨fun h => ?_, fun h => .inr (.inr h)⟩
  rcases h with h | ⟨hdisk, h⟩ | h
  · rw [hm] at h
    cases h
  · rw [hflush hdisk] at h
    cases h
  · exact h

theorem initDefined_iff {env : NodeEnv} {disk : Option (List UInt8)} (hm : env.mallocDb = true)
    (hflush : disk = none → env.flush.completes 52 = true) : InitDefined env disk ↔ ConfigDefined env := by
  rw [InitDefined, ConfigDefined, stopsEarly_iff hm hflush]

/-! ## Agreement of memory and disk -/

/-- Start-up is defined, and if it returns 0, the file decodes to the record in memory, and an existing file was
read. -/
def InitAgrees (parse : List UInt8 → Option CJson) (env : NodeEnv) (dir : Option (List UInt8))
    (disk : Option (List UInt8)) : Prop :=
  ∃ code node disk', sarahNodeInit parse env dir disk = some (code, node, disk') ∧
    (code = 0 → (∃ content, disk' = some content ∧ decodeRecord content = some node.record) ∧
      ∀ content, disk = some content → env.openRead = true ∧ env.readsRecord content = true)

/-- The file can be opened and ends up with the boot time: an existing record after the write back, a new
record (flushed with boot time 0) only if the clock is at a multiple of `2 ^ 32`. -/
def BootRecorded (env : NodeEnv) : Option (List UInt8) → Prop
  | some content => env.openRead = true ∧ (env.readsRecord content = true →
      ((pwrite content 8 (env.patch.storedOf (writeUnsignedInt env.bootAt))).drop 8).take 4 =
        writeUnsignedInt env.bootAt)
  | none => env.flush.completes 52 = true → env.bootAt = 0

theorem NodeEnv.length_of_readsRecord {env : NodeEnv} {content : List UInt8}
    (h : env.readsRecord content = true) : 52 ≤ content.length := by
  simp only [readsRecord, Bool.and_eq_true, decide_eq_true_eq] at h
  exact h.2

/-- A record that was read agrees with the patched file exactly when the boot time is in it. -/
theorem decodeRecord_patched {content w : List UInt8} (h : 52 ≤ content.length) (hw : w.length ≤ 4) {node : Node}
    {boot : UInt32} (hrec : node.record =
      (readUnsignedInt content 0, readUnsignedInt content 4, boot, (content.drop 12).take 40)) :
    decodeRecord (pwrite content 8 w) = some node.record ↔
      ((pwrite content 8 w).drop 8).take 4 = writeUnsignedInt boot := by
  simp only [Node.record, Prod.mk.injEq] at hrec
  obtain ⟨hcreated, hinterval, hboot, hid⟩ := hrec
  obtain ⟨hlen, h₀, h₄, h₁₂⟩ := pwrite_frame h hw
  rw [decodeRecord_eq_iff hlen, h₀, h₄, h₁₂, ← hid, ← hboot,
    ← (readUnsignedInt_eq_iff (by omega) node.createdAt), ← (readUnsignedInt_eq_iff (by omega) node.interval)]
  simp [hcreated, hinterval]

theorem decodeRecord_packNode (node : Node) : decodeRecord (packNode node) = some node.record := by
  rw [decodeRecord_eq_iff (by rw [packNode_length])]
  have hid : (packNode node).drop 12 = node.nodeId.1 := rfl
  refine ⟨rfl, rfl, rfl, ?_⟩
  rw [hid, List.take_of_length_le (by rw [node.nodeId.2])]

section Paths

variable {parse : List UInt8 → Option CJson} {env : NodeEnv} {dir : Option (List UInt8)} {disk : Option (List UInt8)}

theorem initAgrees_of_run {code : ℤ} {node : Node} {disk' : Option (List UInt8)}
    (hrun : sarahNodeInit parse env dir disk = some (code, node, disk')) : InitAgrees parse env dir disk ↔
      (code = 0 → (∃ content, disk' = some content ∧ decodeRecord content = some node.record) ∧
        ∀ content, disk = some content → env.openRead = true ∧ env.readsRecord content = true) := by
  refine ⟨fun ⟨code', node', disk'', hrun', h⟩ => ?_, fun h => ⟨code, node, disk', hrun, h⟩⟩
  rw [hrun, Option.some.injEq, Prod.mk.injEq, Prod.mk.injEq] at hrun'
  obtain ⟨rfl, rfl, rfl⟩ := hrun'
  exact h

theorem initAgrees_of_error {code : ℤ} {node : Node} {disk' : Option (List UInt8)}
    (hrun : sarahNodeInit parse env dir disk = some (code, node, disk')) (hcode : code ≠ 0) :
    InitAgrees parse env dir disk := (initAgrees_of_run hrun).mpr fun h => absurd h hcode

theorem not_initAgrees_of_undefined (hrun : sarahNodeInit parse env dir disk = none) :
    ¬ InitAgrees parse env dir disk := by
  rintro ⟨code, node, disk', h, -⟩
  rw [hrun] at h
  cases h

theorem initAgrees_of_leaveEarly {code : ℤ} {node : Node} {disk' : Option (List UInt8)} (hcode : code ≠ 0)
    (hrun : sarahNodeInit parse env dir disk = leaveEarly env code node disk') (hstops : StopsEarly env disk) :
    InitAgrees parse env dir disk ↔ InitDefined env disk := by
  rw [initDefined_of_stops hstops]
  rw [leaveEarly] at hrun
  cases hs : env.stray with
  | true =>
    rw [hs, if_pos rfl] at hrun
    exact iff_of_false (not_initAgrees_of_undefined hrun) nofun
  | false =>
    rw [hs, if_neg Bool.false_ne_true] at hrun
    exact iff_of_true (initAgrees_of_error hrun hcode) rfl

theorem initAgrees_of_not_loads {path : List UInt8} {rno : ℤ} {node : Node} {disk' : Option (List UInt8)}
    (hload : ¬ ConfigLoads parse env)
    (hrun : sarahNodeInit parse env dir disk = loadConfig parse env path rno node disk') :
    InitAgrees parse env dir disk ↔ ConfigDefined env := by
  obtain ⟨hdef, hconf⟩ | ⟨hdef, code, node', hconf, hcode⟩ := loadConfig_of_not_loads path rno node disk' hload
  · exact iff_of_false (not_initAgrees_of_undefined (hrun.trans hconf)) hdef
  · exact iff_of_true (initAgrees_of_error (hrun.trans hconf) hcode) hdef

end Paths

section Loads

variable {parse : List UInt8 → Option CJson} {env : NodeEnv} (dir : List UInt8) (hm : env.mallocDb = true)
include hm

theorem initAgrees_existing_iff (hload : ConfigLoads parse env) (content : List UInt8) :
    InitAgrees parse env (some dir) (some content) ↔ BootRecorded env (some content) := by
  obtain ⟨rno, node, hinit, hrno, hrec⟩ := init_existing parse dir hm content
  obtain ⟨node', hconf, hrec'⟩ := loadConfig_of_loads dir rno node
    (some (pwrite content 8 (env.patch.storedOf (writeUnsignedInt env.bootAt)))) hload
  rw [initAgrees_of_run (hinit.trans hconf)]
  constructor
  · intro hagree
    have hopen : env.openRead = true := by
      by_contra hno
      exact hno ((hagree (hrno.mpr fun h => absurd h hno)).2 content rfl).1
    refine ⟨hopen, fun hread => ?_⟩
    obtain ⟨⟨c, hc, hdec⟩, -⟩ := hagree (hrno.mpr fun _ => hread)
    cases hc
    rw [hrec'] at hdec
    exact (decodeRecord_patched (NodeEnv.length_of_readsRecord hread) (storedOf_length_le _ _)
      (hrec hopen hread)).mp hdec
  · rintro ⟨hopen, hboot⟩ hcode
    have hread := hrno.mp hcode hopen
    refine ⟨⟨_, rfl, ?_⟩, fun c hc => ?_⟩
    · rw [hrec']
      exact (decodeRecord_patched (NodeEnv.length_of_readsRecord hread) (storedOf_length_le _ _)
        (hrec hopen hread)).mpr (hboot hread)
    · cases hc
      exact ⟨hopen, hread⟩

/-- No file yet, with a record that is stored and a configuration that is accepted. -/
theorem initAgrees_new_iff (hload : ConfigLoads parse env) (hflush : env.flush.completes 52 = true) :
    InitAgrees parse env (some dir) none ↔ BootRecorded env none := by
  obtain ⟨node, disk₀, hinit, hzero⟩ := init_new parse dir hm
  obtain ⟨node', hconf, hrec'⟩ := loadConfig_of_loads dir 0 { node with lastBootAt := env.bootAt }
    (some (packNode node)) hload
  have hrecord : decodeRecord (packNode node) = some node'.record ↔ env.bootAt = 0 := by
    rw [decodeRecord_packNode, hrec', Option.some.injEq]
    simp only [Node.record, Prod.mk.injEq, hzero, true_and, and_true]
    exact eq_comm
  rw [if_pos hflush] at hinit
  rw [initAgrees_of_run (hinit.trans hconf), BootRecorded, ← hrecord]
  constructor
  · intro hagree _
    obtain ⟨⟨c, hc, hdec⟩, -⟩ := hagree rfl
    cases hc
    exact hdec
  · exact fun hboot _ => ⟨⟨_, rfl, hboot hflush⟩, nofun⟩

end Loads

/-- **Exactly when start-up is defined and a return code 0 means agreement.** -/
theorem sarahNodeInit_agrees_iff (parse : List UInt8 → Option CJson) (env : NodeEnv) (dir : Option (List UInt8))
    (disk : Option (List UInt8)) : InitAgrees parse env dir disk ↔ dir = none ∨
      (InitDefined env disk ∧ (StopsEarly env disk ∨ ¬ ConfigLoads parse env ∨ BootRecorded env disk)) := by
  cases dir with
  | none => exact iff_of_true (initAgrees_of_error rfl (by decide)) (.inl rfl)
  | some dir =>
    rw [or_iff_right (Option.some_ne_none dir)]
    cases hm : env.mallocDb with
    | false =>
      have hstops : StopsEarly env disk := .inl hm
      rw [initAgrees_of_leaveEarly (by decide) (init_no_memory parse dir hm disk) hstops, and_iff_left (.inl hstops)]
    | true =>
      -- with the record in place
      have hbehind (hflush : disk = none → env.flush.completes 52 = true) (path : List UInt8) (rno : ℤ) (node : Node)
          (disk' : Option (List UInt8)) (hrun : sarahNodeInit parse env (some dir) disk =
            loadConfig parse env path rno node disk')
          (hboot : ConfigLoads parse env → (InitAgrees parse env (some dir) disk ↔ BootRecorded env disk)) :
          InitAgrees parse env (some dir) disk ↔
            InitDefined env disk ∧ (StopsEarly env disk ∨ ¬ ConfigLoads parse env ∨ BootRecorded env disk) := by
        rw [stopsEarly_iff hm hflush, initDefined_iff hm hflush]
        by_cases hload : ConfigLoads parse env
        · rw [hboot hload, and_iff_right hload.defined, or_iff_right hload.not_stops, or_iff_right (not_not.mpr hload)]
        · rw [initAgrees_of_not_loads hload hrun, and_iff_left (.inr (.inl hload))]
      cases disk with
      | some content =>
        obtain ⟨rno, node, hinit, -⟩ := init_existing parse dir hm content
        exact hbehind nofun dir rno node _ hinit fun hload => initAgrees_existing_iff dir hm hload content
      | none =>
        obtain ⟨node, disk₀, hinit, -⟩ := init_new parse dir hm
        cases hflush : env.flush.completes 52 with
        | true =>
          rw [if_pos hflush] at hinit
          exact hbehind (fun _ => hflush) dir 0 _ _ hinit fun hload => initAgrees_new_iff dir hm hload hflush
        | false =>
          have hstops : StopsEarly env none := .inr (.inl ⟨rfl, hflush⟩)
          rw [hflush, if_neg Bool.false_ne_true] at hinit
          rw [initAgrees_of_leaveEarly (by decide) hinit hstops, and_iff_left (.inl hstops)]

/-- A configuration of two bytes, and a parser that knows it. -/
def tinyParse (s : List UInt8) : Option CJson := if s = lit "\x7b\x7d" then some (.object []) else none

/-- Every call of this start-up works. -/
def calmEnv : NodeEnv where
  mallocDb := true
  mallocConfig := true
  stray := false
  tvSec := 1600000000
  openRead := true
  lockRead := true
  readLen := 52
  genId := ⟨List.replicate 40 48, List.length_replicate⟩
  flush := ⟨true, true, 52⟩
  patch := ⟨true, true, 4⟩
  config := some (lit "\x7b\x7d")
  grow := fun _ => true

theorem calmEnv_config (env : NodeEnv) :
    env.configText (lit "\x7b\x7d") = some (Strbuff.of (lit "\x7b\x7d") 128) := by
  have hline : sarahGetLine (lit "\x7b\x7d") = some (lit "\x7b\x7d", []) := by decide
  have hend : sarahGetLine [] = none := rfl
  have hgrow : growFor env.grow (Strbuff.of [] 128) 2 = some (1, Strbuff.of [] 128) := if_neg (by decide)
  have happend : celStrbuffAppendFrom env.grow (Strbuff.of [] 128) (lit "\x7b\x7d") 2 1 =
      some (1, Strbuff.of (lit "\x7b\x7d") 128) :=
    appendFromLoop_succ_of (by decide) hgrow (by decide) (by decide) 0
  rw [NodeEnv.configText, readConfig, hline]
  dsimp only
  rw [if_pos (by decide), if_neg (by decide)]
  refine (congrArg (Option.bind · _) happend).trans ?_
  rw [Option.bind_some, readConfig, hend]

theorem configLoads_calm {env : NodeEnv} (hm : env.mallocConfig = true) (hc : env.config = calmEnv.config) :
    ConfigLoads tinyParse env :=
  ⟨hm, _, _, hc, calmEnv_config env, by decide, by decide⟩

/-- A fresh start at a nonzero time returns 0 with boot time 0 in the file. -/
theorem not_init_agrees : ¬ InitAgrees tinyParse calmEnv (some (lit "/")) none := by
  have hload : ConfigLoads tinyParse calmEnv := configLoads_calm rfl rfl
  rw [initAgrees_new_iff (lit "/") rfl hload (by decide)]
  exact fun h => absurd (h (by decide)) (by decide)

/-! ## A record that cannot be read -/

/-- Start-up reports an error and leaves the file as it was. -/
def LeavesFile (parse : List UInt8 → Option CJson) (env : NodeEnv) (dir : Option (List UInt8))
    (content : List UInt8) : Prop :=
  ∃ code node, sarahNodeInit parse env dir (some content) = some (code, node, some content) ∧ code ≠ 0

section Leaves

variable {parse : List UInt8 → Option CJson} {env : NodeEnv} {dir : Option (List UInt8)} {content : List UInt8}

theorem not_leavesFile_of_undefined (hrun : sarahNodeInit parse env dir (some content) = none) :
    ¬ LeavesFile parse env dir content := by
  rintro ⟨code, node, h, -⟩
  rw [hrun] at h
  cases h

theorem leavesFile_of_run {code : ℤ} {node : Node} {patched : List UInt8}
    (hrun : sarahNodeInit parse env dir (some content) = some (code, node, some patched)) :
    LeavesFile parse env dir content ↔ patched = content ∧ code ≠ 0 := by
  constructor
  · rintro ⟨code', node', h, hcode⟩
    rw [hrun] at h
    cases h
    exact ⟨rfl, hcode⟩
  · rintro ⟨rfl, hcode⟩
    exact ⟨code, node, hrun, hcode⟩

end Leaves

/-- **Exactly when a record that cannot be read is reported and left alone**: start-up is defined, and, unless it has no
memory, the write back of the boot time stores nothing new and a configuration is accepted only after a file that could
be opened. -/
theorem sarahNodeInit_leaves_file_iff (parse : List UInt8 → Option CJson) (env : NodeEnv)
    (dir : Option (List UInt8)) (content : List UInt8)
    (hunread : ¬ (env.openRead = true ∧ env.readsRecord content = true)) : LeavesFile parse env dir content ↔
      dir = none ∨ (InitDefined env (some content) ∧ (env.mallocDb = false ∨
        (pwrite content 8 (env.patch.storedOf (writeUnsignedInt env.bootAt)) = content ∧
          (ConfigLoads parse env → env.openRead = true)))) := by
  cases dir with
  | none => exact iff_of_true ⟨1, blankNode, rfl, by decide⟩ (.inl rfl)
  | some dir =>
    rw [or_iff_right (Option.some_ne_none dir)]
    cases hm : env.mallocDb with
    | false =>
      have hrun := init_no_memory parse dir hm (some content)
      rw [leaveEarly] at hrun
      rw [initDefined_of_stops (.inl hm), and_iff_left (.inl rfl)]
      cases hs : env.stray with
      | true =>
        rw [hs, if_pos rfl] at hrun
        exact iff_of_false (not_leavesFile_of_undefined hrun) nofun
      | false =>
        rw [hs, if_neg Bool.false_ne_true] at hrun
        exact iff_of_true ((leavesFile_of_run hrun).mpr ⟨rfl, by decide⟩) rfl
    | true =>
      obtain ⟨rno, node, hinit, hrno, -⟩ := init_existing parse dir hm content
      have hzero : rno ≠ 0 ↔ env.openRead = true := by
        rw [ne_eq, hrno]
        exact ⟨fun h => by_contra fun ho => h fun h' => absurd h' ho, fun ho h => hunread ⟨ho, h ho⟩⟩
      rw [initDefined_iff hm fun h => absurd h (Option.some_ne_none content), or_iff_right (by decide)]
      by_cases hload : ConfigLoads parse env
      · obtain ⟨node', hconf, -⟩ := loadConfig_of_loads dir rno node
          (some (pwrite content 8 (env.patch.storedOf (writeUnsignedInt env.bootAt)))) hload
        rw [leavesFile_of_run (hinit.trans hconf), hzero, and_iff_right hload.defined]
        exact and_congr_right fun _ => ⟨fun ho _ => ho, fun h => h hload⟩
      · obtain ⟨hdef, hconf⟩ | ⟨hdef, code, node', hconf, hcode⟩ := loadConfig_of_not_loads dir rno node
          (some (pwrite content 8 (env.patch.storedOf (writeUnsignedInt env.bootAt)))) hload
        · exact iff_of_false (not_leavesFile_of_undefined (hinit.trans hconf)) fun h => hdef h.1
        · rw [leavesFile_of_run (hinit.trans hconf), and_iff_left hcode, and_iff_right hdef,
            and_iff_left fun h => absurd h hload]

/-- An empty file that another process has locked for writing is reported and left alone. -/
theorem sarahNodeInit_leaves_file_iff_locked :
    LeavesFile tinyParse { calmEnv with patch := ⟨true, false, 0⟩ } (some (lit "/")) [] := by
  have hload : ConfigLoads tinyParse { calmEnv with patch := ⟨true, false, 0⟩ } := configLoads_calm rfl rfl
  refine (sarahNodeInit_leaves_file_iff tinyParse { calmEnv with patch := ⟨true, false, 0⟩ } (some (lit "/")) []
    (by rintro ⟨-, h⟩; cases h)).mpr
    (.inr ⟨(initDefined_iff rfl (by decide)).mpr hload.defined, .inr ⟨rfl, fun _ => rfl⟩⟩)

/-- An empty file is reported, and it has 12 bytes afterwards. -/
theorem not_leaves_file : ¬ LeavesFile tinyParse calmEnv (some (lit "/")) [] := by
  intro hleaves
  have hmalloc : calmEnv.mallocDb = true := rfl
  have hload : ConfigLoads tinyParse calmEnv := configLoads_calm rfl rfl
  obtain ⟨rno, node, hinit, -⟩ := init_existing tinyParse (lit "/") hmalloc []
  obtain ⟨node', hconf, -⟩ := loadConfig_of_loads (lit "/") rno node _ hload
  exact absurd ((leavesFile_of_run (hinit.trans hconf)).mp hleaves).1 (by decide)

end Sarah
