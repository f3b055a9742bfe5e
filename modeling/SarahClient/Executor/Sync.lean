import SarahClient.Executor.Model
import SarahClient.Strbuff.Refine

/-!
# When a status sync is decided by its own reply

`res_buffer` is filled by every request and cleared by none.

* `freshBuffer`: the response buffer after `sarah_executor_init`; `Untouched`: a buffer without bytes
  is still the fresh one;
* `ownReply`: the code that a request gets when its reply stands alone in the buffer;
* **`executor_isolated`**: along every run in which each reply with HTTP code 200 is read from a buffer
  without earlier bytes, every request returns the code of its own reply.
-/

namespace Sarah

open Block

variable {mem : ℕ → Bool} {parse : List UInt8 → Option CJson} {print : CJson → Option (List UInt8)}

/-- The response buffer after `sarah_executor_init`. -/
def freshBuffer : Strbuff := ⟨List.replicate 128 0, 128, 0⟩

/-- The allocation is as large as an `int` can say, and without bytes the buffer is the fresh one. -/
structure Untouched (sb : Strbuff) : Prop where
  bound : sb.buffer.length < 2 ^ 31
  fresh : sb.size = 0 → sb = freshBuffer

theorem createBuffer_length {n : ℤ} {b : List UInt8} (h : createBuffer mem n = some b) : b.length = n.toNat := by
  unfold createBuffer at h
  split_ifs at h
  cases h
  exact List.length_replicate

/-- Growing keeps the number of bytes in use and the allocation below `2 ^ 31`; when it fails it keeps all. -/
theorem resizeBuffer_bound {sb : Strbuff} {n : ℤ} {r : ℤ × Strbuff} (hn : n < 2 ^ 31) (hb : sb.buffer.length < 2 ^ 31)
    (h : resizeBuffer mem sb n = some r) :
    r.2.size = sb.size ∧ r.2.buffer.length < 2 ^ 31 ∧ (r.1 = 0 → r.2 = sb) := by
  unfold resizeBuffer at h
  cases hc : createBuffer mem n with
  | none =>
    rw [hc] at h
    cases h
    exact ⟨rfl, hb, fun _ => rfl⟩
  | some str =>
    simp only [hc] at h
    split_ifs at h
    all_goals
      obtain ⟨b, hb', heq⟩ := Option.map_eq_some_iff.mp h
      cases heq
      refine ⟨rfl, ?_, fun h0 => absurd h0 Int.one_ne_zero⟩
      rw [copyIn_length hb', createBuffer_length hc]
      omega

theorem growFor_bound {sb : Strbuff} {len : ℕ} {r : ℤ × Strbuff} (hb : sb.buffer.length < 2 ^ 31)
    (h : growFor mem sb len = some r) :
    r.2.size = sb.size ∧ r.2.buffer.length < 2 ^ 31 ∧ (r.1 = 0 → r.2 = sb) := by
  unfold growFor at h
  split_ifs at h
  · exact resizeBuffer_bound (i32_range _).2 hb h
  · cases h
    exact ⟨rfl, hb, fun _ => rfl⟩

/-- What one append leaves: nothing changed, or all of `src` behind the bytes in use. -/
theorem appendOnce_cases {sb : Strbuff} {src : List UInt8} {r : ℤ × Strbuff} (hb : sb.buffer.length < 2 ^ 31)
    (h : celStrbuffAppendFrom mem sb src src.length 1 = some r) :
    r.2 = sb ∨ (r.2.size = sb.size + src.length ∧ r.2.buffer.length < 2 ^ 31) := by
  obtain ⟨q, hgrow, h⟩ := Option.bind_eq_some_iff.mp h
  obtain ⟨hsize, hlen, hfail⟩ := growFor_bound hb hgrow
  split_ifs at h with h0 h1
  · cases h
    exact Or.inl (hfail h0)
  · obtain ⟨c, -, h⟩ := Option.bind_eq_some_iff.mp h
    obtain ⟨b, hb', h⟩ := Option.bind_eq_some_iff.mp h
    cases h
    unfold store at hb'
    split_ifs at hb' with hlt
    cases hb'
    refine Or.inr ⟨?_, ?_⟩
    · show u32 (q.2.size + 1) = _
      rw [u32_of_lt (by omega), hsize, h1]
    · show (q.2.buffer.set _ c).length < 2 ^ 31
      rw [List.length_set]
      exact hlen
  · obtain ⟨b, hb', h⟩ := Option.bind_eq_some_iff.mp h
    cases h
    unfold memcpy at hb'
    rw [if_pos (le_refl _), List.take_length] at hb'
    have hfit := hb'
    unfold copyIn at hfit
    split_ifs at hfit with hle
    refine Or.inr ⟨?_, ?_⟩
    · show u32 (q.2.size + src.length) = _
      rw [u32_of_lt (by omega), hsize]
    · show b.length < 2 ^ 31
      rw [copyIn_length hb']
      exact hlen

theorem appendOnce_fresh (mem : ℕ → Bool) : celStrbuffAppendFrom mem freshBuffer [] 0 1 = some (1, freshBuffer) := by
  have hgrow : growFor mem freshBuffer 0 = some (1, freshBuffer) := if_neg (show ¬ 128 ≤ u32 (0 + 0) by decide)
  have hcopy : memcpy freshBuffer.buffer freshBuffer.size [] 0 = some freshBuffer.buffer := by
    rw [memcpy, if_pos (Nat.zero_le _), List.take_nil, copyIn_of_le (Nat.zero_le _)]
    rfl
  show appendFromLoop mem [] 0 1 freshBuffer = _
  rw [appendFromLoop, hgrow, Option.bind_some, if_neg (show ¬ (1 : ℤ) = 0 by decide), if_neg (by decide), hcopy]
  rfl

theorem Untouched.append {sb : Strbuff} (hsb : Untouched sb) {src : List UInt8} {r : ℤ × Strbuff}
    (h : celStrbuffAppendFrom mem sb src src.length 1 = some r) : Untouched r.2 := by
  rcases appendOnce_cases hsb.bound h with heq | ⟨hsize, hlen⟩
  · rw [heq]
    exact hsb
  · refine ⟨hlen, fun h0 => ?_⟩
    have hsz : sb.size = 0 := by omega
    have hnil : src = [] := List.length_eq_zero_iff.mp (by omega)
    rw [hsb.fresh hsz, hnil] at h
    cases (appendOnce_fresh mem).symm.trans h
    rfl

theorem Untouched.recv : ∀ (bs : List NetPiece) {sb sb' : Strbuff}, Untouched sb →
    recvPieces mem bs sb = some sb' → Untouched sb'
  | [], _, _, hsb, h => by cases h; exact hsb
  | b :: bs, sb, sb', hsb, h => by
    obtain ⟨r, hr, h⟩ := Option.bind_eq_some_iff.mp h
    exact Untouched.recv bs (hsb.append hr) h

/-! ## Requests -/

/-- The call sends a request. -/
def Sends (print : CJson → Option (List UInt8)) (ex : Executor) (env : SyncEnv) : Prop :=
  ex.task.isSome = true ∧ env.curlInit = true ∧ (print (syncPackage ex)).isSome = true

/-- The code that a request gets from its own reply: the HTTP outcome, or what the body alone says. -/
def ownReply (mem : ℕ → Bool) (parse : List UInt8 → Option CJson) (env : SyncEnv) : Option ℤ :=
  if env.performs = false then some 3
  else if env.httpCode ≠ 200 then some 4
  else (recvPieces mem env.chunks freshBuffer).bind fun sb => readReply parse (cstr sb.buffer)

theorem recvPieces_of (hmem : ∀ n, mem n = true) : ∀ (bs : List NetPiece) (xs : List UInt8) (cap : ℕ),
    xs.length < cap → 2 * (xs.length + (bs.map Subtype.val).flatten.length) + 1 < 2 ^ 31 →
      ∃ cap', recvPieces mem bs (Strbuff.of xs cap) = some (Strbuff.of (xs ++ (bs.map Subtype.val).flatten) cap')
  | [], xs, cap, _, _ => ⟨cap, by rw [List.map_nil, List.flatten_nil, List.append_nil]; rfl⟩
  | b :: bs, xs, cap, hcap, hfit => by
    rw [List.map_cons, List.flatten_cons, List.length_append] at hfit
    obtain ⟨c₁, hc₁, happ⟩ := celStrbuffAppendFrom_of hmem (le_refl b.1.length) hcap 1
      (Or.inr (show 2 * (xs.length + 1 * b.1.length) + 1 < 2 ^ 31 by omega))
    have hone : repeated (1 : ℤ).toNat (b.1.take b.1.length) = b.1 := by
      rw [List.take_length]
      exact List.append_nil b.1
    rw [hone] at hc₁ happ
    obtain ⟨c₂, hrec⟩ := recvPieces_of hmem bs (xs ++ b.1) c₁ hc₁ (by rw [List.length_append]; omega)
    refine ⟨c₂, ?_⟩
    rw [recvPieces, happ, Option.bind_some, hrec, List.map_cons, List.flatten_cons, List.append_assoc]

/-- **A reply's own code depends on its HTTP outcome and its body only**, however the body is cut into pieces. -/
theorem ownReply_eq (hmem : ∀ n, mem n = true) (env : SyncEnv)
    (hfit : 2 * (env.chunks.map Subtype.val).flatten.length + 1 < 2 ^ 31) : ownReply mem parse env =
      if env.performs = false then some 3
      else if env.httpCode ≠ 200 then some 4
      else readReply parse (cstr (env.chunks.map Subtype.val).flatten) := by
  obtain ⟨cap, hrecv⟩ := recvPieces_of hmem env.chunks [] 128 (by decide) (by rw [List.length_nil]; omega)
  have hfresh : Strbuff.of [] 128 = freshBuffer := rfl
  rw [hfresh] at hrecv
  rw [ownReply, hrecv, Option.bind_some, Strbuff.of_buffer, cstr_append_zeros, List.nil_append]

/-- **The property of a call**: a request that returns, returns the code of its own reply. -/
def Isolated (mem : ℕ → Bool) (parse : List UInt8 → Option CJson) (print : CJson → Option (List UInt8))
    (ex : Executor) (op : ExecutorOp) : Prop :=
  ∀ env, op = .sync env → Sends print ex env → ∀ r, sarahExecutorSyncStatus mem parse print ex env = some r →
    ownReply mem parse env = some r.1

/-- A reply that is read finds no earlier bytes in the buffer. -/
def ReadsAlone (print : CJson → Option (List UInt8)) (ex : Executor) (op : ExecutorOp) : Prop :=
  ∀ env, op = .sync env → Sends print ex env → env.performs = true → env.httpCode = 200 → ex.resBuffer.size = 0

theorem syncStatus_of_sends {ex : Executor} {env : SyncEnv} (hs : Sends print ex env) {r : ℤ × Executor}
    (h : sarahExecutorSyncStatus mem parse print ex env = some r) : ∃ sb,
      recvPieces mem env.chunks ex.resBuffer = some sb ∧
      syncCode parse env sb = some r.1 ∧ r.2.resBuffer = sb := by
  obtain ⟨htask, hcurl, hprint⟩ := hs
  obtain ⟨task, htask⟩ := Option.isSome_iff_exists.mp htask
  obtain ⟨json, hprint⟩ := Option.isSome_iff_exists.mp hprint
  simp only [sarahExecutorSyncStatus, htask, hcurl, hprint] at h
  obtain ⟨url, -, h⟩ := Option.bind_eq_some_iff.mp h
  obtain ⟨sb, hsb, h⟩ := Option.bind_eq_some_iff.mp h
  obtain ⟨code, hcode, rfl⟩ := Option.map_eq_some_iff.mp h
  exact ⟨sb, hsb, hcode, rfl⟩

theorem syncStatus_of_not_sends {ex : Executor} {env : SyncEnv} (hs : ¬ Sends print ex env) {r : ℤ × Executor}
    (h : sarahExecutorSyncStatus mem parse print ex env = some r) : r.2 = ex ∧ r.1 ≠ 0 := by
  unfold sarahExecutorSyncStatus at h
  cases htask : ex.task with
  | none =>
    rw [htask] at h
    cases h
    exact ⟨rfl, show (1 : ℤ) ≠ 0 by decide⟩
  | some task =>
    simp only [htask] at h
    split_ifs at h with hcurl
    · cases h
      exact ⟨rfl, show (1 : ℤ) ≠ 0 by decide⟩
    · cases hprint : print (syncPackage ex) with
      | none =>
        rw [hprint] at h
        cases h
        exact ⟨rfl, show (2 : ℤ) ≠ 0 by decide⟩
      | some json =>
        refine absurd ⟨?_, Bool.not_eq_false _ ▸ hcurl, ?_⟩ hs
        · rw [htask]
          rfl
        · rw [hprint]
          rfl

theorem isolated_of_readsAlone {ex : Executor} (hex : Untouched ex.resBuffer) {op : ExecutorOp}
    (h : ReadsAlone print ex op) : Isolated mem parse print ex op := by
  intro env hop hs r hr
  obtain ⟨sb, hrecv, hcode, -⟩ := syncStatus_of_sends hs hr
  unfold syncCode at hcode
  unfold ownReply
  split_ifs at hcode ⊢ with hperf hhttp
  · exact hcode
  · exact hcode
  · have hsize := h env hop hs (Bool.not_eq_false _ ▸ hperf) (not_not.mp hhttp)
    rw [hex.fresh hsize] at hrecv
    rw [hrecv, Option.bind_some]
    exact hcode

/-- What the requests share is the same in both. -/
structure Executor.SameRequest (ex ex' : Executor) : Prop where
  node : ex'.node = ex.node
  syncUrl : ex'.syncUrl = ex.syncUrl
  signOffset : ex'.signOffset = ex.signOffset
  cmidOffset : ex'.cmidOffset = ex.cmidOffset
  resBuffer : ex'.resBuffer = ex.resBuffer

theorem Executor.SameRequest.refl (ex : Executor) : ex.SameRequest ex := ⟨rfl, rfl, rfl, rfl, rfl⟩

/-- **What a call can do**: only a request touches what the requests share, and only `sarah_executor_set_task` sets
a task. -/
theorem executorStep_frame {ex : Executor} {op : ExecutorOp} {r : Executor × ℤ}
    (h : executorStep mem parse print ex op = some r) :
    (∃ env, op = .sync env ∧ Sends print ex env ∧ sarahExecutorSyncStatus mem parse print ex env = some (r.2, r.1)) ∨
      (ex.SameRequest r.1 ∧
        (r.1.task = ex.task ∨ r.1.task = none ∨ ∃ task, op = .setTask task ∧ r.1.task = some task)) := by
  cases op with
  | sync env =>
    obtain ⟨q, hq, rfl⟩ := Option.map_eq_some_iff.mp h
    by_cases hs : Sends print ex env
    · exact .inl ⟨env, rfl, hs, hq⟩
    · rw [Prod.fst_swap, (syncStatus_of_not_sends hs hq).1]
      exact .inr ⟨.refl ex, .inl rfl⟩
  | clear =>
    obtain ⟨q, hq, rfl⟩ := Option.map_eq_some_iff.mp h
    obtain ⟨e, -, hq⟩ := Option.bind_eq_some_iff.mp hq
    obtain ⟨d, -, rfl⟩ := Option.map_eq_some_iff.mp hq
    exact .inr ⟨⟨rfl, rfl, rfl, rfl, rfl⟩, .inr (.inl rfl)⟩
  | setTask task =>
    cases h
    exact .inr ⟨⟨rfl, rfl, rfl, rfl, rfl⟩, .inr (.inr ⟨task, rfl, rfl⟩)⟩
  | dataAppend data =>
    obtain ⟨q, hq, rfl⟩ := Option.map_eq_some_iff.mp h
    unfold sarahExecutorDataAppend at hq
    split_ifs at hq
    · cases hq
      exact .inr ⟨.refl ex, .inl rfl⟩
    · obtain ⟨d, -, rfl⟩ := Option.map_eq_some_iff.mp hq
      exact .inr ⟨⟨rfl, rfl, rfl, rfl, rfl⟩, .inl rfl⟩
  | dataInsert idx data =>
    obtain ⟨q, hq, rfl⟩ := Option.map_eq_some_iff.mp h
    unfold sarahExecutorDataInsert at hq
    split_ifs at hq
    · cases hq
      exact .inr ⟨.refl ex, .inl rfl⟩
    · obtain ⟨d, -, rfl⟩ := Option.map_eq_some_iff.mp hq
      exact .inr ⟨⟨rfl, rfl, rfl, rfl, rfl⟩, .inl rfl⟩
  | errorAppend errstr | errorInsert idx errstr =>
    obtain ⟨q, hq, rfl⟩ := Option.map_eq_some_iff.mp h
    obtain ⟨d, -, rfl⟩ := Option.map_eq_some_iff.mp hq
    exact .inr ⟨⟨rfl, rfl, rfl, rfl, rfl⟩, .inl rfl⟩
  | dataClear | errorClear =>
    obtain ⟨q, hq, rfl⟩ := Option.map_eq_some_iff.mp h
    obtain ⟨d, -, rfl⟩ := Option.map_eq_some_iff.mp hq
    exact .inr ⟨⟨rfl, rfl, rfl, rfl, rfl⟩, .inl rfl⟩
  | setStatus status progress | setErrno errno | setAttach attach | setMaxdatalen maxlen =>
    cases h
    exact .inr ⟨⟨rfl, rfl, rfl, rfl, rfl⟩, .inl rfl⟩

theorem untouched_step {ex : Executor} {op : ExecutorOp} {r : Executor × ℤ} (hex : Untouched ex.resBuffer)
    (h : executorStep mem parse print ex op = some r) : Untouched r.1.resBuffer := by
  rcases executorStep_frame h with ⟨env, -, hs, hsync⟩ | ⟨hsame, -⟩
  · obtain ⟨sb, hrecv, -, hbuf⟩ := syncStatus_of_sends hs hsync
    exact hbuf ▸ hex.recv env.chunks hrecv
  · rw [hsame.resBuffer]
    exact hex

theorem untouched_init {node : Node} {ex : Executor} (h : sarahExecutorInit mem node = some (.ok ex)) :
    Untouched ex.resBuffer := by
  obtain ⟨appKey, -, h⟩ := Option.map_eq_some_iff.mp h
  dsimp only at h
  split_ifs at h
  split at h
  · cases h
  · cases h
  · cases h
  · rename_i res error data hres _ _
    cases h
    obtain ⟨b, hb, heq⟩ := Option.map_eq_some_iff.mp hres
    unfold createBuffer at hb
    split_ifs at hb
    cases hb
    cases heq
    exact ⟨by rw [List.length_replicate]; decide, fun _ => rfl⟩

/-- **Status syncs that do not see each other's replies.** In every run from `sarah_executor_init` in which
no reply with HTTP code 200 is read behind earlier bytes, every request that returns, returns the code of
its own reply. -/
theorem executor_isolated {node : Node} {ex : Executor} (h : sarahExecutorInit mem node = some (.ok ex))
    {ops : List ExecutorOp}
    (hops : Machine.Guarded (executorStep mem parse print) (ReadsAlone print) ex ops) :
    Machine.Guarded (executorStep mem parse print) (Isolated mem parse print) ex ops :=
  Machine.guarded_of_invariant (fun ex => Untouched ex.resBuffer) (fun _ _ _ hex h => untouched_step hex h)
    (fun _ _ hex h => isolated_of_readsAlone hex h) ops ex (untouched_init h) hops

/-! ## Two replies -/

/-- A node with an application key. -/
def plainNode : Node :=
  { blankNode with config := { blankNode.config with appKey := some (lit "key") } }

/-- A bash task with the id 7. -/
def plainTask : SarahTask := ⟨7, 0, 0, some (lit "bash"), none, some [], some []⟩

/-- The server accepts the first status. -/
def firstReply : SyncEnv := ⟨true, true, 200, [⟨lit "\x7b\"errno\":0,\"data\":1\x7d", by decide⟩]⟩

/-- The server refuses the second one. -/
def secondReply : SyncEnv := ⟨true, true, 200, [⟨lit "\x7b\"errno\":5,\"data\":1\x7d", by decide⟩]⟩

/-- The first value of a text; what follows it is not looked at. -/
def parseReply (text : List UInt8) : Option CJson :=
  if lit "\x7b\"errno\":0,\"data\":1\x7d" <+: text then
    some (.object [(lit "errno", .number (.fin 0)), (lit "data", .number (.fin 1))])
  else if lit "\x7b\"errno\":5,\"data\":1\x7d" <+: text then
    some (.object [(lit "errno", .number (.fin 5)), (lit "data", .number (.fin 1))])
  else none

/-- The text of a package with nothing to report. -/
def printPlain (_ : CJson) : Option (List UInt8) :=
  some (lit "\x7b\"version\":1.57,\"data\":\x7b\"status\":0,\"progress\":0,\"errno\":0,\"attach\":0," ++
    lit "\"res_error\":\"\",\"res_data\":\"\"\x7d\x7d")

/-- A request that meets no server: nothing is received. -/
def lostReply : SyncEnv := ⟨true, false, 0, []⟩

/-- A request behind one that was lost is decided by its own reply. -/
theorem executor_isolated_once : ∃ ex, sarahExecutorInit (fun _ => true) plainNode = some (.ok ex) ∧
    Machine.Guarded (executorStep (fun _ => true) parseReply printPlain)
      (Isolated (fun _ => true) parseReply printPlain)
      ex [.setTask plainTask, .sync lostReply, .sync secondReply] := by
  obtain ⟨ex, hex⟩ : ∃ ex, sarahExecutorInit (fun _ => true) plainNode = some (.ok ex) := ⟨_, rfl⟩
  have hsize : ex.resBuffer.size = 0 := by
    cases hex
    rfl
  refine ⟨ex, hex, executor_isolated hex (Machine.guarded_cons (fun env h => ?_) rfl ⟨fun env h _ hperf => ?_,
    fun r hr => ⟨fun env _ _ _ _ => ?_, fun _ _ => trivial⟩⟩)⟩
  · cases h
  · cases h
    cases hperf
  · -- the lost request leaves the buffer empty
    rcases executorStep_frame hr with ⟨env, henv, hs, hsync⟩ | ⟨hsame, -⟩
    · cases henv
      obtain ⟨sb, hrecv, -, hbuf⟩ := syncStatus_of_sends hs hsync
      cases hrecv
      rw [hbuf]
      exact hsize
    · rw [hsame.resBuffer]
      exact hsize

/-- After an accepted status the refusal of the next one is not seen. -/
theorem not_executor_isolated : ¬ ∀ ex, sarahExecutorInit (fun _ => true) plainNode = some (.ok ex) →
    Machine.Guarded (executorStep (fun _ => true) parseReply printPlain)
      (Isolated (fun _ => true) parseReply printPlain)
      ex [.setTask plainTask, .sync firstReply, .sync secondReply] := by
  intro h
  obtain ⟨ex, hex⟩ : ∃ ex, sarahExecutorInit (fun _ => true) plainNode = some (.ok ex) := ⟨_, rfl⟩
  have hcodes : ((sarahExecutorInit (fun _ => true) plainNode).bind Except.toOption).bind (fun ex =>
      (Machine.exec (executorStep (fun _ => true) parseReply printPlain) ex
        [.setTask plainTask, .sync firstReply, .sync secondReply]).map Prod.snd) = some [0, 0, 0] := by decide +kernel
  rw [hex] at hcodes
  obtain ⟨q, hrun, hq⟩ := Option.map_eq_some_iff.mp hcodes
  obtain ⟨r₁, q₁, h₁, hrun₁, rfl⟩ := Machine.exec_cons_eq_some.mp hrun
  obtain ⟨r₂, q₂, h₂, hrun₂, rfl⟩ := Machine.exec_cons_eq_some.mp hrun₁
  obtain ⟨r₃, q₃, h₃, -, rfl⟩ := Machine.exec_cons_eq_some.mp hrun₂
  obtain ⟨hiso, -⟩ := ((h ex hex).2 r₁ h₁).2 r₂ h₂
  have hcode : r₃.2 = 0 := by
    simp only [List.cons.injEq] at hq
    exact hq.2.2.1
  obtain ⟨r, hr, rfl⟩ := Option.map_eq_some_iff.mp h₃
  rw [Prod.snd_swap] at hcode
  by_cases hs : Sends printPlain r₂.1 secondReply
  · have hown := hiso secondReply rfl hs r hr
    rw [hcode] at hown
    exact absurd hown (by decide +kernel)
  · exact (syncStatus_of_not_sends hs hr).2 hcode

end Sarah
