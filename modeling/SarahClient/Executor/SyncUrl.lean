import SarahClient.CNum
import SarahClient.Executor.Sync
import SarahClient.Md5.Stream

/-!
# The URL of a status sync

`sync_url` is built once and patched in place for every request.

* `syncUrlText`: the URL of a request, written out;
* `UrlShape`: the parts of `sync_url`, kept by every call;
* **`syncUrl_exact`**: in every run each request uses the URL of its own task, package and signature.
-/

namespace Sarah

open Block

variable {mem : ℕ → Bool} {parse : List UInt8 → Option CJson} {print : CJson → Option (List UInt8)}
  {node : Node} {appKey : List UInt8}

/-- The signature of the request that posts `json` for the task `id`: the digest of what is taken of node id, task id,
package and key. -/
def syncDigest (node : Node) (appKey json : List UInt8) (id : ℕ) : List UInt8 :=
  md5Hex (cstr node.nodeId.1 ++ decimal id ++ md5Fed json ++ md5Fed appKey)

/-- The URL of the request that posts `json` for the task `id`. -/
def syncUrlText (node : Node) (appKey json : List UInt8) (id : ℕ) : List UInt8 :=
  syncUrlHead (cstr node.nodeId.1) appKey ++ syncDigest node appKey json id ++ lit "&cmd_id=" ++ decimal id

/-- **The property of a request**: the string in `sync_url` is the one of this request when curl gets it, and stays
there. -/
def UrlExact (mem : ℕ → Bool) (parse : List UInt8 → Option CJson) (print : CJson → Option (List UInt8)) (node : Node)
    (appKey : List UInt8) (ex : Executor) (op : ExecutorOp) : Prop :=
  ∀ env task json, op = .sync env → ex.task = some task → print (syncPackage ex) = some json →
    ∃ url, patchSyncUrl ex task json = some url ∧ cstr url = syncUrlText node appKey json task.id ∧
      (env.curlInit = true → ∀ r, sarahExecutorSyncStatus mem parse print ex env = some r → r.2.syncUrl = url)

/-- `sync_url` with a signature and the 19 bytes of an id. -/
def syncUrlParts (node : Node) (appKey sign tail : List UInt8) : List UInt8 :=
  syncUrlHead (cstr node.nodeId.1) appKey ++ (sign ++ (lit "&cmd_id=" ++ (tail ++ [0])))

/-- The executor can patch its URL. -/
structure UrlShape (node : Node) (appKey : List UInt8) (ex : Executor) : Prop where
  sameNode : ex.node = node
  signOffset : ex.signOffset = (syncUrlHead (cstr node.nodeId.1) appKey).length
  cmidOffset : ex.cmidOffset = (syncUrlHead (cstr node.nodeId.1) appKey).length + 40
  syncUrl : ∃ sign tail, sign.length = 32 ∧ tail.length = 19 ∧ ex.syncUrl = syncUrlParts node appKey sign tail
  taskId : ∀ task, ex.task = some task → task.id < 2 ^ 63

/-! ## Patching -/

theorem copyIn_syncUrl_tail {sign tail tail' : List UInt8} (hs : sign.length = 32) (ht : tail.length = 19)
    (ht' : tail'.length = 19) :
    copyIn (syncUrlParts node appKey sign tail) ((syncUrlHead (cstr node.nodeId.1) appKey).length + 40) tail' =
      some (syncUrlParts node appKey sign tail') := by
  have h := copyIn_append (syncUrlHead (cstr node.nodeId.1) appKey ++ (sign ++ lit "&cmd_id=")) (tail ++ [0]) tail'
    (by rw [List.length_append]; omega)
  have hlen : (syncUrlHead (cstr node.nodeId.1) appKey ++ (sign ++ lit "&cmd_id=")).length =
      (syncUrlHead (cstr node.nodeId.1) appKey).length + 40 := by
    rw [List.length_append, List.length_append, hs]
    rfl
  rw [hlen, ht', ← ht, List.drop_left] at h
  simpa only [syncUrlParts, List.append_assoc] using h

theorem copyIn_syncUrl_sign {sign sign' tail : List UInt8} (hs : sign.length = 32) (hs' : sign'.length = 32) :
    copyIn (syncUrlParts node appKey sign tail) (syncUrlHead (cstr node.nodeId.1) appKey).length sign' =
      some (syncUrlParts node appKey sign' tail) := by
  have h := copyIn_append (syncUrlHead (cstr node.nodeId.1) appKey) (sign ++ (lit "&cmd_id=" ++ (tail ++ [0]))) sign'
    (by rw [List.length_append]; omega)
  rw [hs', ← hs, List.drop_left] at h
  simpa only [syncUrlParts, List.append_assoc] using h

/-- The id in 19 bytes. -/
def paddedId (id : ℕ) : List UInt8 := decimal id ++ List.replicate (19 - (decimal id).length) 0

theorem decimal_length_id {id : ℕ} (h : id < 2 ^ 63) : (decimal id).length ≤ 19 :=
  decimal_length_le (by decide) (by omega)

theorem length_paddedId {id : ℕ} (h : id < 2 ^ 63) : (paddedId id).length = 19 := by
  have hlen := decimal_length_id h
  rw [paddedId, List.length_append, List.length_replicate]
  omega

theorem syncSign_eq {ex : Executor} (hex : ex.node = node) {id : ℕ} (hid : id < 2 ^ 63) (json : List UInt8) :
    syncSign ex appKey (decimal id) json = syncDigest node appKey json id := by
  have hstream := @celMd5_stream ⟨0, 0, ⟨0, 0, 0, 0⟩, List.replicate 64 0⟩ List.length_replicate
    [cstr node.nodeId.1, decimal id, json, appKey]
  have hnode : (cstr node.nodeId.1).length < 2 ^ 31 := by
    have hle := (List.takeWhile_prefix (· ≠ (0 : UInt8)) (l := node.nodeId.1)).length_le
    rw [node.nodeId.2] at hle
    exact Nat.lt_of_le_of_lt hle (by decide)
  have hdecimal : (decimal id).length < 2 ^ 31 := Nat.lt_of_le_of_lt (decimal_length_id hid) (by decide)
  rw [syncSign, hex, hstream, syncDigest, md5Hex]
  simp only [List.map_cons, List.map_nil, List.flatten_cons, List.flatten_nil, List.append_nil, List.append_assoc,
    md5Fed_of_short hnode, md5Fed_of_short hdecimal]

@[simp] theorem length_syncDigest (json : List UInt8) (id : ℕ) : (syncDigest node appKey json id).length = 32 := by
  rw [syncDigest, length_md5Hex]

theorem patchSyncUrl_of_shape {ex : Executor} (hex : UrlShape node appKey ex) (hkey : node.config.appKey = some appKey)
    {task : SarahTask} (htask : ex.task = some task) (json : List UInt8) :
    patchSyncUrl ex task json = some (syncUrlParts node appKey
      (syncDigest node appKey json task.id) (paddedId task.id)) := by
  have hid := hex.taskId task htask
  obtain ⟨sign, tail, hsign, htail, hurl⟩ := hex.syncUrl
  have htext : idText task.id = decimal task.id := if_pos hid
  rw [patchSyncUrl, htext, if_pos (decimal_length_id hid), hurl, hex.cmidOffset, ← paddedId,
    copyIn_syncUrl_tail hsign htail (length_paddedId hid), Option.bind_some, hex.sameNode, hkey, Option.bind_some,
    hex.signOffset, syncSign_eq hex.sameNode hid, copyIn_syncUrl_sign hsign (length_syncDigest json task.id)]

/-- The string in the patched URL ends with the id: the bytes behind it are zeros. -/
theorem cstr_syncUrlParts (hkey : 0 ∉ appKey) (json : List UInt8) (id : ℕ) :
    cstr (syncUrlParts node appKey (syncDigest node appKey json id) (paddedId id)) =
      syncUrlText node appKey json id := by
  have hzero : (0 : UInt8) ∉ syncUrlText node appKey json id := by
    have hlits : 0 ∉ executorSyncUrl ++ lit "?node_uid=" ∧ 0 ∉ lit "&app_key=" ∧ 0 ∉ lit "&sign=" ∧
        0 ∉ lit "&cmd_id=" := by decide +kernel
    simp only [syncUrlText, syncUrlHead, List.mem_append, not_or] at hlits ⊢
    obtain ⟨⟨hurl, huid⟩, happ, hsign, hcmd⟩ := hlits
    exact ⟨⟨⟨⟨⟨⟨⟨⟨hurl, huid⟩, zero_notMem_cstr _⟩, happ⟩, hkey⟩, hsign⟩, zero_notMem_md5Hex _⟩, hcmd⟩,
      zero_notMem_decimal id⟩
  have hpad : List.replicate (19 - (decimal id).length) (0 : UInt8) ++ [0] =
      0 :: List.replicate (19 - (decimal id).length) 0 := List.replicate_succ'.symm.trans List.replicate_succ
  rw [← cstr_append_zero hzero (List.replicate (19 - (decimal id).length) 0), ← hpad]
  simp only [syncUrlParts, syncUrlText, paddedId, List.append_assoc]

/-! ## The run -/

theorem urlShape_init {ex : Executor} (hkey : node.config.appKey = some appKey)
    (h : sarahExecutorInit mem node = some (.ok ex)) : UrlShape node appKey ex := by
  obtain ⟨key, hkey', h⟩ := Option.map_eq_some_iff.mp h
  obtain rfl : appKey = key := Option.some.inj (hkey.symm.trans hkey')
  dsimp only at h
  split_ifs at h
  split at h
  · cases h
  · cases h
  · cases h
  · cases h
    refine ⟨rfl, rfl, ?_, ⟨lit "7f9106d9a1fa6d0f3550cc1783342638", lit "6639193343686609942", rfl, rfl, ?_⟩, ?_⟩
    · show (syncUrlHead _ appKey ++ _ ++ _).length = _
      rw [List.length_append, List.length_append, Nat.add_assoc]
      rfl
    · simp only [syncUrlParts, List.append_assoc]
    · exact fun task h => by cases h

theorem urlShape_step (hkey : node.config.appKey = some appKey) {ex : Executor} {op : ExecutorOp}
    {r : Executor × ℤ} (hop : ∀ task, op = .setTask task → task.id < 2 ^ 63) (hex : UrlShape node appKey ex)
    (h : executorStep mem parse print ex op = some r) : UrlShape node appKey r.1 := by
  rcases executorStep_frame h with ⟨env, -, hs, hsync⟩ | ⟨hsame, htask⟩
  · obtain ⟨htask, hcurl, hprint⟩ := hs
    obtain ⟨task, htask⟩ := Option.isSome_iff_exists.mp htask
    obtain ⟨json, hprint⟩ := Option.isSome_iff_exists.mp hprint
    simp only [sarahExecutorSyncStatus, htask, hcurl, hprint, patchSyncUrl_of_shape hex hkey htask json] at hsync
    obtain ⟨sb, -, hsync⟩ := Option.bind_eq_some_iff.mp hsync
    obtain ⟨code, -, hr⟩ := Option.map_eq_some_iff.mp hsync
    obtain ⟨-, hr⟩ := Prod.mk.inj hr
    rw [← hr]
    exact ⟨hex.sameNode, hex.signOffset, hex.cmidOffset,
      ⟨_, _, length_syncDigest json task.id, length_paddedId (hex.taskId task htask), rfl⟩, htask ▸ hex.taskId⟩
  · refine ⟨hsame.node.trans hex.sameNode, hsame.signOffset.trans hex.signOffset,
      hsame.cmidOffset.trans hex.cmidOffset, hsame.syncUrl ▸ hex.syncUrl, fun t ht => ?_⟩
    rcases htask with heq | hnone | ⟨task, rfl, hset⟩
    · exact hex.taskId t (heq ▸ ht)
    · rw [hnone] at ht
      cases ht
    · rw [hset] at ht
      cases ht
      exact hop t rfl

theorem urlExact_of_shape (hkey : node.config.appKey = some appKey) (hzero : 0 ∉ appKey) {ex : Executor}
    (hex : UrlShape node appKey ex) (op : ExecutorOp) : UrlExact mem parse print node appKey ex op := by
  intro env task json _ htask hprint
  have hpatch := patchSyncUrl_of_shape hex hkey htask json
  refine ⟨_, hpatch, cstr_syncUrlParts hzero json task.id, fun hcurl r hr => ?_⟩
  simp only [sarahExecutorSyncStatus, htask, hcurl, hprint, hpatch] at hr
  obtain ⟨sb, -, hr⟩ := Option.bind_eq_some_iff.mp hr
  obtain ⟨code, -, rfl⟩ := Option.map_eq_some_iff.mp hr
  rfl

/-- **Every request uses its own URL**, in every run from `sarah_executor_init` over tasks with ids below `2 ^ 63`. -/
theorem syncUrl_exact {ex : Executor} (hkey : node.config.appKey = some appKey) (hzero : 0 ∉ appKey)
    (h : sarahExecutorInit mem node = some (.ok ex)) {ops : List ExecutorOp}
    (hops : ∀ task, ExecutorOp.setTask task ∈ ops → task.id < 2 ^ 63) :
    Machine.Guarded (executorStep mem parse print) (UrlExact mem parse print node appKey) ex ops := by
  refine (Machine.guarded_iff_of_invariant (G := fun _ _ => True) (UrlShape node appKey)
    (fun op => ∀ task, op = .setTask task → task.id < 2 ^ 63)
    (fun _ _ _ hex hop h => urlShape_step hkey hop hex h)
    (fun ex op hex _ => iff_of_true trivial (urlExact_of_shape hkey hzero hex op)) ops ex (urlShape_init hkey h)
    fun op hop task htask => hops task (htask ▸ hop)).mp ?_
  exact Machine.guarded_of_forall (H := fun _ => True) (fun _ _ => trivial) ex

/-- A long id, then a short one. -/
def shrinkingIds : List ExecutorOp :=
  [.setTask { plainTask with id := 2 ^ 63 - 1 }, .sync firstReply, .setTask plainTask, .sync secondReply]

theorem syncUrl_exact_shrinking : ∃ ex, sarahExecutorInit (fun _ => true) plainNode = some (.ok ex) ∧
    Machine.Guarded (executorStep (fun _ => true) parseReply printPlain)
      (UrlExact (fun _ => true) parseReply printPlain plainNode (lit "key")) ex shrinkingIds := by
  obtain ⟨ex, hex⟩ : ∃ ex, sarahExecutorInit (fun _ => true) plainNode = some (.ok ex) := ⟨_, rfl⟩
  refine ⟨ex, hex, syncUrl_exact rfl (by decide) hex fun task htask => ?_⟩
  simp only [shrinkingIds, List.mem_cons, ExecutorOp.setTask.injEq, reduceCtorEq, List.not_mem_nil, or_false, false_or]
    at htask
  rcases htask with rfl | rfl
  · exact show 2 ^ 63 - 1 < 2 ^ 63 by decide
  · exact show 7 < 2 ^ 63 by decide

end Sarah
