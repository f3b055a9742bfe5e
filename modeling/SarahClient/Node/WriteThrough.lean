import SarahClient.Lib.Machine
import SarahClient.Node.Init

/-!
# The setters write through

* `NodeField`, `NodeOp`, `nodeStep`: a call of a setter or of `sarah_node_flush`;
* `fieldStep`: one field in memory and on disk, told from the calls alone;
* `packWords`: a record with given words; `Node.Stored`: the file behind a node;
* **`node_writes_through`**: after any calls every field has the value that the calls tell.
-/

namespace Sarah

open FileBytes Machine

/-- The numeric fields of the record. -/
inductive NodeField
  | createdAt
  | interval
  | lastBootAt
  deriving DecidableEq

namespace NodeField

/-- Where the field starts in `node.db`. -/
def offset : NodeField → ℕ
  | createdAt => 0
  | interval => 4
  | lastBootAt => 8

end NodeField

/-- The word of a field in memory. -/
def Node.word (node : Node) : NodeField → UInt32
  | .createdAt => node.createdAt
  | .interval => node.interval
  | .lastBootAt => node.lastBootAt

/-- A call on a node, with the outcome of its system calls. -/
inductive NodeOp
  | set (field : NodeField) (value : UInt32) (syn : ℤ) (env : WriteEnv)
  | flush (env : WriteEnv)

/-- The writes of the call succeed. -/
def NodeOp.Succeeds : NodeOp → Prop
  | .set _ _ syn env => syn = 1 → env.completes 4 = true
  | .flush env => env.completes 52 = true

/-- The setter of a field. -/
def setField (node : Node) (field : NodeField) (value : UInt32) (syn : ℤ) (env : WriteEnv)
    (disk : Option (List UInt8)) : ℤ × Node × Option (List UInt8) :=
  match field with
  | .createdAt => sarahNodeSetCreatedAt node value syn env disk
  | .interval => sarahNodeSetInterval node value syn env disk
  | .lastBootAt => sarahNodeSetLastBootAt node value syn env disk

/-- One call, on the node in memory and its file. -/
def nodeStep (st : Node × Option (List UInt8)) : NodeOp → Option ((Node × Option (List UInt8)) × ℤ)
  | .set field value syn env => some ((setField st.1 field value syn env st.2).2,
    (setField st.1 field value syn env st.2).1)
  | .flush env => some ((st.1, (sarahNodeFlush st.1 env st.2).2), (sarahNodeFlush st.1 env st.2).1)

/-- One field in memory and on disk: its setter gives it a value, with `syn = 1` on disk too, and a flush
captures the value in memory. -/
def fieldStep (field : NodeField) (w : UInt32 × UInt32) : NodeOp → UInt32 × UInt32
  | .set f value syn _ => if f = field then (value, if syn = 1 then value else w.2) else w
  | .flush _ => (w.1, w.1)

/-- All fields, as an abstract machine; every call returns 0. -/
def wordsStep (w : NodeField → UInt32 × UInt32) (op : NodeOp) : (NodeField → UInt32 × UInt32) × ℤ :=
  (fun field => fieldStep field (w field) op, 0)

theorem wordsStep_set (w : NodeField → UInt32 × UInt32) (f field : NodeField) (value : UInt32) (syn : ℤ)
    (env : WriteEnv) :
    (wordsStep w (.set f value syn env)).1 field =
      if f = field then (value, if syn = 1 then value else (w field).2) else w field := rfl

/-- A record with given words. -/
def packWords (w : NodeField → UInt32) (id : NodeId) : List UInt8 :=
  writeUnsignedInt (w .createdAt) ++ writeUnsignedInt (w .interval) ++ writeUnsignedInt (w .lastBootAt) ++ id.1

theorem packNode_eq (node : Node) : packNode node = packWords node.word node.nodeId := rfl

theorem packWords_length (w : NodeField → UInt32) (id : NodeId) : (packWords w id).length = 52 := by
  rw [packWords, List.length_append, id.2]
  rfl

theorem decodeRecord_packWords (w : NodeField → UInt32) (id : NodeId) (rest : List UInt8) :
    decodeRecord (packWords w id ++ rest) = some (w .createdAt, w .interval, w .lastBootAt, id.1) := by
  have hlen : 52 ≤ (packWords w id ++ rest).length := by
    rw [List.length_append, packWords_length]
    omega
  have h := (decodeRecord_eq_iff hlen { blankNode with
    createdAt := w .createdAt, interval := w .interval, lastBootAt := w .lastBootAt, nodeId := id }).mpr
  refine h ⟨rfl, rfl, rfl, ?_⟩
  have hdrop : (packWords w id ++ rest).drop 12 = id.1 ++ rest := rfl
  rw [hdrop, List.take_append_of_le_length id.2.ge, List.take_of_length_le id.2.le]

theorem readUnsignedInt_packWords (w : NodeField → UInt32) (id : NodeId) (rest : List UInt8) (field : NodeField) :
    readUnsignedInt (packWords w id ++ rest) field.offset = w field := by
  have hlen : 52 ≤ (packWords w id ++ rest).length := by
    rw [List.length_append, packWords_length]
    omega
  cases field with
  | createdAt => exact (readUnsignedInt_eq_iff (show 0 + 4 ≤ _ by omega) _).mpr rfl
  | interval => exact (readUnsignedInt_eq_iff (show 4 + 4 ≤ _ by omega) _).mpr rfl
  | lastBootAt => exact (readUnsignedInt_eq_iff (show 8 + 4 ≤ _ by omega) _).mpr rfl

theorem pwrite_packWords (w : NodeField → UInt32) (id : NodeId) (rest : List UInt8) (field : NodeField) (v : UInt32) :
    pwrite (packWords w id ++ rest) field.offset (writeUnsignedInt v) =
      packWords (Function.update w field v) id ++ rest := by
  have hlen : ∀ u : UInt32, (writeUnsignedInt v).length = (writeUnsignedInt u).length := fun _ => rfl
  cases field with
  | createdAt =>
    exact pwrite_append (x := []) (hlen (w .createdAt))
      (writeUnsignedInt (w .interval) ++ writeUnsignedInt (w .lastBootAt) ++ id.1 ++ rest)
  | interval =>
    exact pwrite_append (x := writeUnsignedInt (w .createdAt)) (hlen (w .interval))
      (writeUnsignedInt (w .lastBootAt) ++ id.1 ++ rest)
  | lastBootAt =>
    exact pwrite_append (x := writeUnsignedInt (w .createdAt) ++ writeUnsignedInt (w .interval))
      (hlen (w .lastBootAt)) (id.1 ++ rest)

/-! ## One call -/

/-- The file behind a node: its record has the words on disk, the node those in memory. -/
structure Stored (id : NodeId) (rest : List UInt8) (st : Node × Option (List UInt8))
    (w : NodeField → UInt32 × UInt32) : Prop where
  named : ∃ path, st.1.dbFile = some path
  nodeId : st.1.nodeId = id
  memory : ∀ field, st.1.word field = (w field).1
  disk : st.2 = some (packWords (fun field => (w field).2) id ++ rest)

theorem lockAndWrite_of_completes {env : WriteEnv} {buff : List UInt8} (h : env.completes buff.length = true)
    (content : List UInt8) (off : ℕ) : env.opens = true ∧
      lockAndWrite env content off buff = (0, pwrite content off buff) := by
  simp only [WriteEnv.completes, Bool.and_eq_true, decide_eq_true_eq] at h
  obtain ⟨⟨hopens, hlocks⟩, hstored⟩ := h
  refine ⟨hopens, ?_⟩
  rw [lockAndWrite, if_pos hlocks, if_pos hstored, List.take_of_length_le hstored]

theorem setField_eq (node : Node) (field : NodeField) (value : UInt32) (syn : ℤ) (env : WriteEnv)
    (disk : Option (List UInt8)) : ∃ node', (∀ f, node'.word f = Function.update node.word field value f) ∧
      node'.nodeId = node.nodeId ∧ node'.dbFile = node.dbFile ∧
      setField node field value syn env disk =
        ((if syn = 1 then writeBuffer node' field.offset (writeUnsignedInt value) env disk else (0, disk)).1, node',
          (if syn = 1 then writeBuffer node' field.offset (writeUnsignedInt value) env disk else (0, disk)).2) := by
  cases field with
  | createdAt =>
    exact ⟨{ node with createdAt := value }, fun f => by cases f <;> rfl, rfl, rfl, rfl⟩
  | interval =>
    exact ⟨{ node with interval := value }, fun f => by cases f <;> rfl, rfl, rfl, rfl⟩
  | lastBootAt =>
    exact ⟨{ node with lastBootAt := value }, fun f => by cases f <;> rfl, rfl, rfl, rfl⟩

theorem writeBuffer_of_completes {node : Node} {path : List UInt8} (hdb : node.dbFile = some path) {env : WriteEnv}
    {buff : List UInt8} (h : env.completes buff.length = true) (off : ℕ) (content : List UInt8) :
    writeBuffer node off buff env (some content) = (0, some (pwrite content off buff)) := by
  obtain ⟨hopens, hwrite⟩ := lockAndWrite_of_completes h content off
  unfold writeBuffer
  rw [hdb]
  simp only [if_pos hopens, hwrite]

theorem flush_of_completes {node : Node} {path : List UInt8} (hdb : node.dbFile = some path) {env : WriteEnv}
    (h : env.completes 52 = true) (content : List UInt8) :
    sarahNodeFlush node env (some content) = (0, some (pwrite content 0 (packNode node))) := by
  rw [← packNode_length node] at h
  obtain ⟨hopens, hwrite⟩ := lockAndWrite_of_completes h content 0
  unfold sarahNodeFlush
  rw [hdb]
  simp only [if_pos hopens, Option.getD_some, hwrite]

/-- **One call** does to the words what `fieldStep` tells. -/
theorem nodeStep_stored {id : NodeId} {rest : List UInt8} {st : Node × Option (List UInt8)}
    {w : NodeField → UInt32 × UInt32} (h : Stored id rest st w) {op : NodeOp} (hop : op.Succeeds) :
    ∃ st', nodeStep st op = some (st', (wordsStep w op).2) ∧ Stored id rest st' (wordsStep w op).1 := by
  obtain ⟨node, disk⟩ := st
  obtain ⟨⟨path, hdb⟩, hid, hmem, rfl⟩ := h
  cases op with
  | set field value syn env =>
    obtain ⟨node', hword, hid', hdb', hset⟩ := setField_eq node field value syn env
      (some (packWords (fun field => (w field).2) id ++ rest))
    rw [nodeStep, hset]
    have hmem' : ∀ f, node'.word f = ((wordsStep w (.set field value syn env)).1 f).1 := by
      intro f
      rw [hword, wordsStep_set, Function.update_apply]
      by_cases hf : f = field
      · rw [if_pos hf, if_pos hf.symm]
      · rw [if_neg hf, if_neg (Ne.symm hf)]
        exact hmem f
    by_cases hsyn : syn = 1
    · rw [if_pos hsyn, writeBuffer_of_completes (hdb'.trans hdb) (hop hsyn), pwrite_packWords]
      refine ⟨_, rfl, ⟨path, hdb'.trans hdb⟩, hid'.trans hid, hmem', ?_⟩
      refine congrArg (fun w => some (packWords w id ++ rest)) (funext fun f => ?_)
      rw [wordsStep_set, Function.update_apply]
      by_cases hf : f = field
      · rw [if_pos hf, if_pos hf.symm, if_pos hsyn]
      · rw [if_neg hf, if_neg (Ne.symm hf)]
    · rw [if_neg hsyn]
      refine ⟨_, rfl, ⟨path, hdb'.trans hdb⟩, hid'.trans hid, hmem', ?_⟩
      refine congrArg (fun w => some (packWords w id ++ rest)) (funext fun f => ?_)
      rw [wordsStep_set]
      by_cases hf : field = f
      · rw [if_pos hf, if_neg hsyn]
      · rw [if_neg hf]
  | flush env =>
    rw [nodeStep, flush_of_completes hdb hop]
    refine ⟨_, rfl, ⟨path, hdb⟩, hid, hmem, ?_⟩
    have hover : pwrite (packWords (fun field => (w field).2) id ++ rest) 0 (packNode node) = packNode node ++ rest :=
      pwrite_append (x := []) (b := packWords (fun field => (w field).2) id)
        ((packNode_length node).trans (packWords_length _ _).symm) rest
    rw [hover, packNode_eq, hid]
    exact congrArg (fun w => some (packWords w id ++ rest)) (funext hmem)

/-! ## Runs of calls -/

/-- The value of a field in memory and on disk after the calls, from the value it had before. -/
def fieldAfter (field : NodeField) (v : UInt32) (ops : List NodeOp) : UInt32 × UInt32 :=
  ops.foldl (fieldStep field) (v, v)

theorem specExec_words (ops : List NodeOp) (w : NodeField → UInt32 × UInt32) :
    specExec wordsStep w ops = (fun field => ops.foldl (fieldStep field) (w field), List.replicate ops.length 0) := by
  induction ops generalizing w with
  | nil => rfl
  | cons op ops ih =>
    rw [specExec, ih]
    rfl

/-- The calls write the field on disk. -/
def NodeOp.stores (field : NodeField) : NodeOp → Bool
  | .set f _ syn _ => f = field && syn = 1
  | .flush _ => true

theorem foldl_fieldStep_of_not_stores {field : NodeField} {ops : List NodeOp} (h : ∀ op ∈ ops, op.stores field = false)
    (w : UInt32 × UInt32) : (ops.foldl (fieldStep field) w).2 = w.2 := by
  induction ops generalizing w with
  | nil => rfl
  | cons op ops ih =>
    rw [List.foldl_cons, ih fun op' hop' => h op' (List.mem_cons_of_mem _ hop')]
    have hop := h op List.mem_cons_self
    cases op with
    | set f v syn env =>
      rw [fieldStep]
      split_ifs with hf hsyn
      · simp [NodeOp.stores, hf, hsyn] at hop
      · rfl
      · rfl
    | flush env => cases hop

theorem fieldAfter_set {field : NodeField} {post : List NodeOp} (h : ∀ op ∈ post, op.stores field = false)
    (v₀ v : UInt32) (pre : List NodeOp) (env : WriteEnv) :
    (fieldAfter field v₀ (pre ++ .set field v 1 env :: post)).2 = v := by
  rw [fieldAfter, List.foldl_append, List.foldl_cons, foldl_fieldStep_of_not_stores h, fieldStep, if_pos rfl,
    if_pos rfl]

theorem fieldAfter_flush {field : NodeField} {post : List NodeOp} (h : ∀ op ∈ post, op.stores field = false)
    (v₀ : UInt32) (pre : List NodeOp) (env : WriteEnv) :
    (fieldAfter field v₀ (pre ++ .flush env :: post)).2 = (fieldAfter field v₀ pre).1 := by
  rw [fieldAfter, List.foldl_append, List.foldl_cons, foldl_fieldStep_of_not_stores h, fieldStep, fieldAfter]

/-- **The record is written through.** From a flushed record, any calls whose writes succeed return 0 and leave
every field, in memory and on disk, with the value that the calls tell, and the rest of the file as it was; a flush
at the end makes the two records the same. -/
theorem node_writes_through {node : Node} {path : List UInt8} (hdb : node.dbFile = some path) (rest : List UInt8)
    (ops : List NodeOp) (hops : ∀ op ∈ ops, op.Succeeds) :
    ∃ node' content, exec nodeStep (node, some (packNode node ++ rest)) ops =
        some ((node', some content), List.replicate ops.length 0) ∧
      (∀ field, node'.word field = (fieldAfter field (node.word field) ops).1) ∧
      (∀ field, readUnsignedInt content field.offset = (fieldAfter field (node.word field) ops).2) ∧
      content = packWords (fun field => (fieldAfter field (node.word field) ops).2) node.nodeId ++ rest ∧
      ∀ ops' env, ops = ops' ++ [.flush env] → decodeRecord content = some node'.record := by
  have hstart : Stored node.nodeId rest (node, some (packNode node ++ rest)) fun field =>
    (node.word field, node.word field) :=
    ⟨⟨path, hdb⟩, rfl, fun _ => rfl, rfl⟩
  have hguard : Guarded nodeStep (fun _ op => op.Succeeds) (node, some (packNode node ++ rest)) ops :=
    guarded_of_forall hops _
  have hstep : ∀ st w op, Stored node.nodeId rest st w → NodeOp.Succeeds op →
      ∃ st', nodeStep st op = some (st', (wordsStep w op).2) ∧ Stored node.nodeId rest st' (wordsStep w op).1 :=
    fun _ _ _ h hop => nodeStep_stored h hop
  obtain ⟨⟨node', disk⟩, hrun, -, hid, hmem, hdisk⟩ :=
    exec_refines (Stored node.nodeId rest) hstep ops _ _ hstart hguard
  rw [specExec_words] at hrun hmem hdisk
  cases hdisk
  refine ⟨node', _, hrun, hmem, fun field => readUnsignedInt_packWords _ _ rest field, rfl, ?_⟩
  rintro ops' env rfl
  have hsame : ∀ field, ((ops' ++ [NodeOp.flush env]).foldl (fieldStep field) (node.word field, node.word field)).2 =
      node'.word field := by
    intro field
    refine Eq.trans ?_ (hmem field).symm
    dsimp only
    rw [List.foldl_append]
    rfl
  rw [decodeRecord_packWords, hsame, hsame, hsame, ← hid]
  rfl

/-- A node with a file. -/
def storedNode : Node := { blankNode with dbFile := some (lit "/etc/sarah/node.db") }

/-- Two setters and a flush. -/
def storedOps : List NodeOp :=
  [.set .createdAt 4294967295 1 ⟨true, true, 52⟩, .set .interval 128 0 ⟨true, true, 52⟩, .flush ⟨true, true, 52⟩]

theorem node_writes_through_run :
    ∃ node' content, exec nodeStep (storedNode, some (packNode storedNode ++ [])) storedOps =
        some ((node', some content), List.replicate storedOps.length 0) ∧
      (∀ field, node'.word field = (fieldAfter field (storedNode.word field) storedOps).1) ∧
      (∀ field, readUnsignedInt content field.offset = (fieldAfter field (storedNode.word field) storedOps).2) ∧
      content =
        packWords (fun field => (fieldAfter field (storedNode.word field) storedOps).2) storedNode.nodeId ++ [] ∧
      ∀ ops' env, storedOps = ops' ++ [.flush env] → decodeRecord content = some node'.record :=
  node_writes_through rfl [] storedOps (by simp [storedOps, NodeOp.Succeeds, WriteEnv.completes])

end Sarah
