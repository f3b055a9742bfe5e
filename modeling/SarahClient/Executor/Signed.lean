import SarahClient.Executor.PullSound
import SarahClient.Md5.Stream

/-!
# What the signature of a task covers

* `signedPieces`, `signedBytes`: what `sarah_task_validity` feeds to MD5;
* `SuffixFree`: texts that can end a concatenation without a separator;
* **`signedBytes_determines`**: the signed bytes determine the text, the engine and the time of texts below `2 ^ 31`
  bytes;
* **`not_signedBytes_determines`**: two texts of `2 ^ 31` bytes;
* `dispatchTask`: what the loop hands to a script engine;
* **`signed_dispatch`**: the signature covers the engine and the text of what is handed over, and nothing else.
-/

namespace Sarah

variable {node : Node} {t₁ t₂ : SarahTask} {msg : List UInt8}

/-! ## The signed bytes -/

/-- The arguments of the calls of `cel_md5_update`, in order. -/
def signedPieces (node : Node) (task : SarahTask) : Option (List (List UInt8)) :=
  task.cmdText.bind fun cmdText => task.engine.map fun engine =>
    [cstr node.nodeId.1, cmdText, engine, decimal10 task.createdAt]

/-- The byte string that is fed to MD5: what the calls take of their arguments. -/
def signedBytes (node : Node) (task : SarahTask) : Option (List UInt8) :=
  (signedPieces node task).map fun pieces => (pieces.map md5Fed).flatten

/-- A task is valid when its signature is the digest of the signed bytes. -/
theorem sarahTaskValidity_eq (node : Node) (task : SarahTask) : sarahTaskValidity node task =
    (signedBytes node task).bind fun msg => task.sign.map fun sign => if sign = md5Hex msg then 0 else 1 := by
  unfold sarahTaskValidity signedBytes signedPieces
  cases task.cmdText with
  | none => rfl
  | some cmdText =>
    cases task.engine with
    | none => rfl
    | some engine =>
      have hstream := @celMd5_stream ⟨0, 0, ⟨0, 0, 0, 0⟩, List.replicate 64 0⟩ List.length_replicate
        [cstr node.nodeId.1, cmdText, engine, decimal10 task.createdAt]
      simp only [Option.bind_some, Option.map_some, hstream, md5Hex]
      rfl

theorem sign_of_valid (hv : sarahTaskValidity node t₁ = some 0) (h : signedBytes node t₁ = some msg) :
    t₁.sign = some (md5Hex msg) := by
  rw [sarahTaskValidity_eq, h, Option.bind_some] at hv
  obtain ⟨sign, hsign, hzero⟩ := Option.map_eq_some_iff.mp hv
  split_ifs at hzero with heq
  · rw [hsign, heq]
  · cases hzero

/-! ## The time -/

theorem length_decimal10 {n : ℕ} (h : n < 2 ^ 32) : (decimal10 n).length = 10 := by
  have hlen : (decimal n).length ≤ 10 := decimal_length_le (by decide) (by omega)
  rw [decimal10, List.length_append, List.length_replicate]
  omega

theorem digitsValue_decimal10 (n : ℕ) : digitsValue (decimal10 n) = n := by
  have hzeros : ∀ k, (List.replicate k (48 : UInt8)).foldl (fun n c => 10 * n + (c.toNat - 48)) 0 = 0 := by
    intro k
    induction k with
    | zero => rfl
    | succ k ih => rw [List.replicate_succ, List.foldl_cons]; exact ih
  have hdigits := digitsValue_decimal n
  rw [digitsValue] at hdigits
  rw [decimal10, digitsValue, List.foldl_append, hzeros, hdigits]

/-! ## The engine -/

/-- No text of the list is a proper suffix of another. -/
def SuffixFree {α : Type} (S : List (List α)) : Prop := ∀ e ∈ S, ∀ e' ∈ S, e <:+ e' → e = e'

instance {α : Type} [DecidableEq α] (S : List (List α)) : Decidable (SuffixFree S) :=
  inferInstanceAs (Decidable (∀ e ∈ S, ∀ e' ∈ S, e <:+ e' → e = e'))

theorem SuffixFree.append_inj {α : Type} {S : List (List α)} (hS : SuffixFree S) {a b e e' : List α} (he : e ∈ S)
    (he' : e' ∈ S) (h : a ++ e = b ++ e') : a = b ∧ e = e' := by
  have heq : e = e' := by
    obtain hsuf | hsuf := List.suffix_or_suffix_of_suffix (List.suffix_append a e) (h ▸ List.suffix_append b e')
    · exact hS e he e' he' hsuf
    · exact (hS e' he' e he hsuf).symm
  subst heq
  exact ⟨List.append_cancel_right h, rfl⟩

/-- The names that the dispatcher knows. -/
def engineNames : List (List UInt8) := [lit "bash", lit "lua", lit "sarah"]

theorem engineNames_suffixFree : SuffixFree engineNames := by decide

theorem signedBytes_eq_some (h : signedBytes node t₁ = some msg) : ∃ cmdText engine, t₁.cmdText = some cmdText ∧
    t₁.engine = some engine ∧
    msg = md5Fed (cstr node.nodeId.1) ++ (md5Fed cmdText ++ md5Fed engine ++ md5Fed (decimal10 t₁.createdAt)) := by
  obtain ⟨pieces, hpieces, rfl⟩ := Option.map_eq_some_iff.mp h
  obtain ⟨cmdText, hcmd, hpieces⟩ := Option.bind_eq_some_iff.mp hpieces
  obtain ⟨engine, hengine, rfl⟩ := Option.map_eq_some_iff.mp hpieces
  refine ⟨cmdText, engine, hcmd, hengine, ?_⟩
  simp only [List.map_cons, List.map_nil, List.flatten_cons, List.flatten_nil, List.append_nil, List.append_assoc]

theorem md5Fed_engine {e : List UInt8} (h : e ∈ engineNames) : md5Fed e = e := by
  apply md5Fed_of_short
  simp only [engineNames, List.mem_cons, List.not_mem_nil, or_false] at h
  rcases h with rfl | rfl | rfl <;> decide

theorem md5Fed_decimal10 {n : ℕ} (h : n < 2 ^ 32) : md5Fed (decimal10 n) = decimal10 n := by
  apply md5Fed_of_short
  rw [length_decimal10 h]
  decide

/-- The node id and the ten digits are split off first, then the engine, of which no other is a suffix. -/
theorem signedBytes_fields (node : Node) {t₁ t₂ : SarahTask} {e₁ e₂ msg : List UInt8} (he₁ : t₁.engine = some e₁)
    (he₂ : t₂.engine = some e₂) (hmem₁ : e₁ ∈ engineNames) (hmem₂ : e₂ ∈ engineNames) (hc₁ : t₁.createdAt < 2 ^ 32)
    (hc₂ : t₂.createdAt < 2 ^ 32) (h₁ : signedBytes node t₁ = some msg) (h₂ : signedBytes node t₂ = some msg) :
    t₁.cmdText.map md5Fed = t₂.cmdText.map md5Fed ∧ e₁ = e₂ ∧ t₁.createdAt = t₂.createdAt := by
  obtain ⟨c₁, e₁', hcmd₁, hengine₁, hmsg₁⟩ := signedBytes_eq_some h₁
  obtain ⟨c₂, e₂', hcmd₂, hengine₂, hmsg₂⟩ := signedBytes_eq_some h₂
  obtain rfl : e₁ = e₁' := Option.some.inj (he₁.symm.trans hengine₁)
  obtain rfl : e₂ = e₂' := Option.some.inj (he₂.symm.trans hengine₂)
  rw [md5Fed_engine hmem₁, md5Fed_decimal10 hc₁] at hmsg₁
  rw [md5Fed_engine hmem₂, md5Fed_decimal10 hc₂] at hmsg₂
  -- the node id goes first, the ten digits last
  have hrest := List.append_cancel_left (hmsg₁.symm.trans hmsg₂)
  have hlen : (decimal10 t₁.createdAt).length = (decimal10 t₂.createdAt).length := by
    rw [length_decimal10 hc₁, length_decimal10 hc₂]
  obtain ⟨htext, htime⟩ := List.append_inj' hrest hlen
  obtain ⟨hfed, rfl⟩ := engineNames_suffixFree.append_inj hmem₁ hmem₂ htext
  refine ⟨?_, rfl, ?_⟩
  · rw [hcmd₁, hcmd₂, Option.map_some, Option.map_some, hfed]
  · rw [← digitsValue_decimal10 t₁.createdAt, htime, digitsValue_decimal10]

/-- The text has fewer than `2 ^ 31` bytes, so that its length is an `int`. -/
def SarahTask.Short (task : SarahTask) : Prop := ∀ text, task.cmdText = some text → text.length < 2 ^ 31

theorem SarahTask.Short.map_md5Fed {task : SarahTask} (h : task.Short) : task.cmdText.map md5Fed = task.cmdText := by
  cases htext : task.cmdText with
  | none => rfl
  | some text => rw [Option.map_some, md5Fed_of_short (h text htext)]

/-- **The signed bytes determine the signed fields** of tasks whose texts are short. -/
theorem signedBytes_determines (node : Node) {t₁ t₂ : SarahTask} {e₁ e₂ msg : List UInt8} (he₁ : t₁.engine = some e₁)
    (he₂ : t₂.engine = some e₂) (hmem₁ : e₁ ∈ engineNames) (hmem₂ : e₂ ∈ engineNames) (hc₁ : t₁.createdAt < 2 ^ 32)
    (hc₂ : t₂.createdAt < 2 ^ 32) (hs₁ : t₁.Short) (hs₂ : t₂.Short) (h₁ : signedBytes node t₁ = some msg)
    (h₂ : signedBytes node t₂ = some msg) :
    t₁.cmdText = t₂.cmdText ∧ t₁.engine = t₂.engine ∧ t₁.createdAt = t₂.createdAt := by
  obtain ⟨htext, rfl, htime⟩ := signedBytes_fields node he₁ he₂ hmem₁ hmem₂ hc₁ hc₂ h₁ h₂
  rw [hs₁.map_md5Fed, hs₂.map_md5Fed] at htext
  exact ⟨htext, he₁.trans he₂.symm, htime⟩

/-- Two tasks with one signature: they differ in the id and in what is reported. -/
def sameSignature : SarahTask × SarahTask :=
  (⟨1, 7, 0, some (lit "bash"), none, some (lit "lua"), some []⟩,
    ⟨2, 7, 3, some (lit "bash"), none, some (lit "lua"), some []⟩)

theorem signedBytes_determines_bash : sameSignature.1.cmdText = sameSignature.2.cmdText ∧
    sameSignature.1.engine = sameSignature.2.engine ∧ sameSignature.1.createdAt = sameSignature.2.createdAt := by
  have hshort : ∀ text, some (lit "lua") = some text → text.length < 2 ^ 31 := by
    rintro _ ⟨⟩
    decide
  exact @signedBytes_determines blankNode _ _ (lit "bash") _ _ rfl rfl (by decide) (by decide) (by decide) (by decide)
    hshort hshort rfl rfl

/-- A bash task whose text is a character `n` times. -/
def repeatedTask (c : UInt8) (n : ℕ) : SarahTask :=
  ⟨1, 7, 0, some (lit "bash"), none, some (List.replicate n c), some []⟩

theorem signedBytes_repeatedTask {n : ℕ} (hn : i32 n ≤ 0) (c : UInt8) : signedBytes blankNode (repeatedTask c n) =
    some (md5Fed (cstr blankNode.nodeId.1) ++ (md5Fed (lit "bash") ++ md5Fed (decimal10 7))) := by
  have hnothing : md5Fed (List.replicate n c) = [] := md5Fed_of_nonpos (by rw [List.length_replicate]; exact hn)
  simp only [signedBytes, signedPieces, repeatedTask, Option.bind_some, Option.map_some, List.map_cons, List.map_nil,
    hnothing, List.flatten_cons, List.flatten_nil, List.nil_append, List.append_nil]

theorem repeatedTask_ne {n : ℕ} (hn : n ≠ 0) : (repeatedTask 97 n).cmdText ≠ (repeatedTask 98 n).cmdText := by
  intro h
  have hmem : (97 : UInt8) ∈ List.replicate n 97 := List.mem_replicate.mpr ⟨hn, rfl⟩
  rw [show List.replicate n (97 : UInt8) = List.replicate n 98 from Option.some.inj h] at hmem
  exact absurd (List.eq_of_mem_replicate hmem) (by decide)

theorem zero_notMem_repeatedTask {c : UInt8} (hc : c ≠ 0) (n : ℕ) :
    ∀ text, (repeatedTask c n).cmdText = some text → 0 ∉ text := by
  rintro _ ⟨⟩ hmem
  exact hc (List.eq_of_mem_replicate hmem).symm

/-- Two bash texts of `2 ^ 31` bytes feed the same bytes: those of the node id, the engine and the time. -/
theorem not_signedBytes_determines : ¬ ∀ (node : Node) (t₁ t₂ : SarahTask) (e₁ e₂ msg : List UInt8),
    t₁.engine = some e₁ → t₂.engine = some e₂ → e₁ ∈ engineNames → e₂ ∈ engineNames → t₁.createdAt < 2 ^ 32 →
    t₂.createdAt < 2 ^ 32 → (∀ text, t₁.cmdText = some text → 0 ∉ text) → (∀ text, t₂.cmdText = some text → 0 ∉ text) →
    signedBytes node t₁ = some msg → signedBytes node t₂ = some msg →
    t₁.cmdText = t₂.cmdText ∧ t₁.engine = t₂.engine ∧ t₁.createdAt = t₂.createdAt := by
  intro h
  have hlong : i32 ((2 ^ 31 : ℕ) : ℤ) ≤ 0 := by decide
  have hne : (2 ^ 31 : ℕ) ≠ 0 := by decide
  revert hlong hne
  generalize (2 ^ 31 : ℕ) = n
  intro hlong hne
  exact repeatedTask_ne hne (h blankNode (repeatedTask 97 n) (repeatedTask 98 n) (lit "bash") (lit "bash") _ rfl rfl
    (by decide) (by decide) (show 7 < 2 ^ 32 by decide) (show 7 < 2 ^ 32 by decide)
    (zero_notMem_repeatedTask (by decide) n) (zero_notMem_repeatedTask (by decide) n)
    (signedBytes_repeatedTask hlong 97)
    (signedBytes_repeatedTask hlong 98)).1

/-! ## What is handed over -/

/-- What `dostring` gets: the engine it belongs to, `cmd_text` and `cmd_argv`; `none` when the task is not run. -/
def dispatchTask (task : SarahTask) : Option (List UInt8 × Option (List UInt8) × Option (List UInt8)) :=
  task.engine.bind fun engine => if engine ∈ engineNames then some (engine, task.cmdText, task.cmdArgv) else none

theorem dispatchTask_eq_some {task : SarahTask} {d : List UInt8 × Option (List UInt8) × Option (List UInt8)}
    (h : dispatchTask task = some d) :
    task.engine = some d.1 ∧ d.1 ∈ engineNames ∧ d.2.1 = task.cmdText ∧ d.2.2 = task.cmdArgv := by
  obtain ⟨engine, hengine, h⟩ := Option.bind_eq_some_iff.mp h
  split_ifs at h with hmem
  cases h
  exact ⟨hengine, hmem, rfl, rfl⟩

theorem pullRound_dispatches {parse : List UInt8 → Option CJson} {st : PullState} {round : PullRound}
    {task : SarahTask} {next : Option PullState} (h : pullRound parse node st round = some (some task, next)) :
    sarahTaskValidity node task = some 0 ∧ (dispatchTask task).isSome = true := by
  obtain ⟨-, hnone, -⟩ | ⟨-, code, pulled, -, ⟨-, hr⟩ | ⟨-, t, -, ⟨_, -, -, hr⟩ | ⟨hvalid, engine, hengine, hr⟩⟩⟩ :=
    pullRound_cases h
  · cases hnone
  · cases hr
  · cases hr
  · obtain ⟨htask, -⟩ := Prod.mk.inj hr
    split_ifs at htask with hknown
    cases htask
    refine ⟨hvalid, ?_⟩
    have hmem : engine ∈ engineNames := by simpa [engineNames] using hknown
    rw [dispatchTask, hengine, Option.bind_some, if_pos hmem]
    rfl

/-- **What the signature covers**: of what is handed over, the engine and a short text; the arguments can be anything.
-/
theorem signed_dispatch (node : Node) {t₁ t₂ : SarahTask} {msg : List UInt8}
    {d₁ d₂ : List UInt8 × Option (List UInt8) × Option (List UInt8)} (hc₁ : t₁.createdAt < 2 ^ 32)
    (hc₂ : t₂.createdAt < 2 ^ 32) (hs₁ : t₁.Short) (hs₂ : t₂.Short) (h₁ : signedBytes node t₁ = some msg)
    (h₂ : signedBytes node t₂ = some msg) (hv₁ : sarahTaskValidity node t₁ = some 0)
    (hv₂ : sarahTaskValidity node t₂ = some 0) (hd₁ : dispatchTask t₁ = some d₁)
    (hd₂ : dispatchTask t₂ = some d₂) :
    d₁.1 = d₂.1 ∧ d₁.2.1 = d₂.2.1 ∧ t₁.sign = t₂.sign ∧
      ∀ argv, signedBytes node { t₁ with cmdArgv := argv } = some msg ∧
        sarahTaskValidity node { t₁ with cmdArgv := argv } = some 0 ∧
        dispatchTask { t₁ with cmdArgv := argv } = some (d₁.1, d₁.2.1, argv) := by
  obtain ⟨he₁, hmem₁, htext₁, -⟩ := dispatchTask_eq_some hd₁
  obtain ⟨he₂, hmem₂, htext₂, -⟩ := dispatchTask_eq_some hd₂
  obtain ⟨hcmd, hengine, -⟩ := signedBytes_fields node he₁ he₂ hmem₁ hmem₂ hc₁ hc₂ h₁ h₂
  rw [hs₁.map_md5Fed, hs₂.map_md5Fed] at hcmd
  refine ⟨hengine, htext₁.trans (hcmd.trans htext₂.symm), ?_, fun argv => ⟨h₁, ?_, ?_⟩⟩
  · rw [sign_of_valid hv₁ h₁, sign_of_valid hv₂ h₂]
  · rw [sarahTaskValidity_eq] at hv₁ ⊢
    exact hv₁
  · rw [dispatchTask, he₁, Option.bind_some, if_pos hmem₁, htext₁]

/-- Two tasks that differ in their arguments alone. -/
def argvTask (argv : Option (List UInt8)) : SarahTask :=
  ⟨1, 7, 0, some (lit "bash"), argv, some (lit "ls"), some (md5Hex (lit "lsbash0000000007"))⟩

theorem argvTask_short (argv : Option (List UInt8)) : (argvTask argv).Short := by
  rintro _ ⟨⟩
  decide

theorem argvTask_valid (argv : Option (List UInt8)) :
    signedBytes blankNode (argvTask argv) = some (lit "lsbash0000000007") ∧
    sarahTaskValidity blankNode (argvTask argv) = some 0 ∧
    dispatchTask (argvTask argv) = some (lit "bash", some (lit "ls"), argv) := by
  have hbytes : signedBytes blankNode (argvTask argv) = some (lit "lsbash0000000007") := by
    have hpieces : ([cstr blankNode.nodeId.1, lit "ls", lit "bash", decimal10 7] : List (List UInt8)).flatten =
        lit "lsbash0000000007" := by decide +kernel
    rw [← hpieces, ← @map_md5Fed_of_short [cstr blankNode.nodeId.1, lit "ls", lit "bash", decimal10 7]
      (by decide +kernel)]
    rfl
  refine ⟨hbytes, ?_, rfl⟩
  rw [sarahTaskValidity_eq, hbytes, Option.bind_some, argvTask, Option.map_some, if_pos rfl]

theorem signed_dispatch_ls : (lit "bash" : List UInt8) = lit "bash" ∧ some (lit "ls") = some (lit "ls") ∧
    (argvTask none).sign = (argvTask (some (lit "-a"))).sign ∧
    ∀ argv, signedBytes blankNode (argvTask argv) = some (lit "lsbash0000000007") ∧
      sarahTaskValidity blankNode (argvTask argv) = some 0 ∧
      dispatchTask (argvTask argv) = some (lit "bash", some (lit "ls"), argv) :=
  @signed_dispatch blankNode (argvTask none) (argvTask (some (lit "-a"))) _ (lit "bash", some (lit "ls"), none) _
    (by decide) (by decide) (argvTask_short none) (argvTask_short _)
    (argvTask_valid none).1 (argvTask_valid _).1 (argvTask_valid none).2.1 (argvTask_valid _).2.1
    (argvTask_valid none).2.2 (argvTask_valid _).2.2

/-- The arguments reach the engine without being signed. -/
theorem not_signed_dispatch : ¬ ∀ (node : Node) (t₁ t₂ : SarahTask) (msg : List UInt8)
    (d₁ d₂ : List UInt8 × Option (List UInt8) × Option (List UInt8)),
    t₁.createdAt < 2 ^ 32 → t₂.createdAt < 2 ^ 32 → signedBytes node t₁ = some msg → signedBytes node t₂ = some msg →
    sarahTaskValidity node t₁ = some 0 → sarahTaskValidity node t₂ = some 0 →
    dispatchTask t₁ = some d₁ → dispatchTask t₂ = some d₂ → d₁ = d₂ := by
  intro h
  obtain ⟨hbytes₁, hvalid₁, hdispatch₁⟩ := argvTask_valid none
  obtain ⟨hbytes₂, hvalid₂, hdispatch₂⟩ := argvTask_valid (some (lit "-a"))
  have heq := h blankNode _ _ _ _ _ (by decide) (by decide) hbytes₁ hbytes₂ hvalid₁ hvalid₂ hdispatch₁ hdispatch₂
  cases heq

end Sarah
