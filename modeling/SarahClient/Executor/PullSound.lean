import SarahClient.Executor.Pull

/-!
# Which responses the pull handles as it should

* `responseTask`: the task that a well-formed response describes;
* `PullMeets`: the pull takes exactly the tasks of well-formed responses, and reports everything else;
* `Readable`: the responses on which it does;
* **`pull_meets_iff`**: the two agree on every response, from every state that the loop reaches;
* `pull_dispatches_own`: the loop dispatches complete tasks only, while the responses are readable.
-/

namespace Sarah

/-! ## Well-formed responses -/

/-- A member that has to be a string. -/
def stringMember (data : CJson) (name : List UInt8) : Option (List UInt8) :=
  (data.getObjectItem name).bind fun cursor => cursor.valuestring.map cstr

/-- An optional member that has to be a string; `none` when it is something else. -/
def optionalString (data : CJson) (name : List UInt8) : Option (Option (List UInt8)) :=
  match data.getObjectItem name with
  | none => some none
  | some (.string s) => some (some (cstr s))
  | some _ => none

/-- An optional member that has to be a number, 0 when it is missing. -/
def optionalNumber (data : CJson) (name : List UInt8) : Option ℕ :=
  match data.getObjectItem name with
  | none => some 0
  | some (.number v) => some (intToUnsigned v.toInt)
  | some _ => none

/-- The task in the `data` of a response. -/
def dataTask (data : CJson) : Option SarahTask :=
  (stringMember data (lit "id_str")).bind fun id =>
  (stringMember data (lit "engine")).bind fun engine =>
  (stringMember data (lit "cmd_text")).bind fun cmdText =>
  (stringMember data (lit "sign")).bind fun sign =>
  (optionalString data (lit "cmd_argv")).bind fun cmdArgv =>
  (optionalNumber data (lit "created_at")).bind fun createdAt =>
  (optionalNumber data (lit "sync_mask")).map fun syncMask =>
    ⟨(strtoll id % 2 ^ 64).toNat, createdAt, syncMask, some engine, cmdArgv, some cmdText, some sign⟩

/-- The task of a response whose `errno` is the number 0. -/
def responseTask (json : CJson) : Option SarahTask :=
  match json.getObjectItem (lit "errno") with
  | some (.number v) => if v = .fin 0 then (json.getObjectItem (lit "data")).bind dataTask else none
  | _ => none

/-- **The property of a pull** of a response, given its return code and `*task`. -/
def PullMeets (json : CJson) (r : Option (ℤ × Option SarahTask)) : Prop :=
  match responseTask json with
  | some task => r = some (0, some task)
  | none => ∃ code, code ≠ 0 ∧ r = some (code, none)

/-! ## Reading `data` -/

/-- The members without which a task is refused, in the order in which they are read. -/
def taskNames : List (List UInt8) := [lit "id_str", lit "engine", lit "cmd_text", lit "sign"]

/-- Every member before the first missing one is a string. -/
def StringsFirst (data : CJson) : List (List UInt8) → Prop
  | [] => True
  | name :: names =>
    match data.getObjectItem name with
    | none => True
    | some cursor => cursor.valuestring.isSome = true ∧ StringsFirst data names

/-- No member is missing. -/
def Complete (data : CJson) : Prop := ∀ name ∈ taskNames, (data.getObjectItem name).isSome = true

/-- What is left of a complete task: the optional members, and the `errno` of its response. -/
structure WellTyped (cursor data : CJson) : Prop where
  errno : cursor = .number (.fin 0)
  cmdArgv : (optionalString data (lit "cmd_argv")).isSome = true
  createdAt : (optionalNumber data (lit "created_at")).isSome = true
  syncMask : (optionalNumber data (lit "sync_mask")).isSome = true

/-- The responses that the pull handles: it finds an `errno` other than -10, and in an accepted response all
members before a missing one are strings; when none is missing, the response is well typed. -/
def Readable (json : CJson) : Prop :=
  ∃ cursor, json.getObjectItem (lit "errno") = some cursor ∧ cursor.valueint ≠ -10 ∧
    ∀ data, json.getObjectItem (lit "data") = some data → cursor.valueint = 0 →
      StringsFirst data taskNames ∧ (Complete data → WellTyped cursor data)

/-- How `sarah_task_init_from_json` ends: it crashes on a member that is no string, it reports the first missing
member, or it has all four. -/
theorem init_cases (data : CJson) (task : SarahTask) :
    (¬ StringsFirst data taskNames ∧ sarahTaskInitFromJson task (some data) = none) ∨
    (StringsFirst data taskNames ∧ ¬ Complete data ∧
      ∃ r, sarahTaskInitFromJson task (some data) = some r ∧ r.1 ≠ 0) ∨
    (StringsFirst data taskNames ∧ Complete data ∧ ∃ id engine cmdText sign,
      stringMember data (lit "id_str") = some id ∧ stringMember data (lit "engine") = some engine ∧
      stringMember data (lit "cmd_text") = some cmdText ∧ stringMember data (lit "sign") = some sign ∧
      sarahTaskInitFromJson task (some data) =
        (readArgv { task with id := (strtoll id % 2 ^ 64).toNat, engine := some engine, cmdText := some cmdText,
                              sign := some sign } data).map fun task => (0, readNumbers task data)) := by
  simp only [StringsFirst, taskNames, Complete, sarahTaskInitFromJson, stringMember, List.forall_mem_cons]
  cases h₁ : data.getObjectItem (lit "id_str") with
  | none => exact Or.inr (Or.inl ⟨trivial, by simp, _, rfl, show (2 : ℤ) ≠ 0 by decide⟩)
  | some c₁ =>
  cases v₁ : c₁.valuestring with
  | none => exact Or.inl (by simp [v₁])
  | some s₁ =>
  cases h₂ : data.getObjectItem (lit "engine") with
  | none => exact Or.inr (Or.inl ⟨by simp [v₁], by simp, _, by simp [v₁]; rfl, show (3 : ℤ) ≠ 0 by decide⟩)
  | some c₂ =>
  cases v₂ : c₂.valuestring with
  | none => exact Or.inl (by simp [v₁, v₂])
  | some s₂ =>
  cases h₃ : data.getObjectItem (lit "cmd_text") with
  | none => exact Or.inr (Or.inl ⟨by simp [v₁, v₂], by simp, _, by simp [v₁, v₂]; rfl, show (4 : ℤ) ≠ 0 by decide⟩)
  | some c₃ =>
  cases v₃ : c₃.valuestring with
  | none => exact Or.inl (by simp [v₁, v₂, v₃])
  | some s₃ =>
  cases h₄ : data.getObjectItem (lit "sign") with
  | none =>
    exact Or.inr (Or.inl ⟨by simp [v₁, v₂, v₃], by simp, _, by simp [v₁, v₂, v₃]; rfl, show (5 : ℤ) ≠ 0 by decide⟩)
  | some c₄ =>
  cases v₄ : c₄.valuestring with
  | none => exact Or.inl (by simp [v₁, v₂, v₃, v₄])
  | some s₄ =>
    refine Or.inr (Or.inr ⟨by simp [v₁, v₂, v₃, v₄], by simp, cstr s₁, cstr s₂, cstr s₃, cstr s₄, ?_⟩)
    simp [v₁, v₂, v₃, v₄]

theorem readArgv_of_some {data : CJson} {argv : Option (List UInt8)}
    (h : optionalString data (lit "cmd_argv") = some argv) (id : ℕ) (engine cmdText sign : Option (List UInt8)) :
    readArgv ⟨id, 0, 0, engine, none, cmdText, sign⟩ data = some ⟨id, 0, 0, engine, argv, cmdText, sign⟩ := by
  unfold optionalString at h
  unfold readArgv
  split at h
  · rename_i hcur
    cases h
    rw [hcur]
  · rename_i hcur
    cases h
    rw [hcur]
    rfl
  · cases h

theorem readNumbers_of_some {data : CJson} {c m : ℕ} (hc : optionalNumber data (lit "created_at") = some c)
    (hm : optionalNumber data (lit "sync_mask") = some m) (id : ℕ) (engine argv cmdText sign : Option (List UInt8)) :
    readNumbers ⟨id, 0, 0, engine, argv, cmdText, sign⟩ data = ⟨id, c, m, engine, argv, cmdText, sign⟩ := by
  have hnumber : ∀ name n, optionalNumber data name = some n →
      (data.getObjectItem name = none ∧ n = 0) ∨
        ∃ cursor, data.getObjectItem name = some cursor ∧ intToUnsigned cursor.valueint = n := by
    intro name n h
    unfold optionalNumber at h
    split at h
    · rename_i hcur
      cases h
      exact Or.inl ⟨hcur, rfl⟩
    · rename_i v hcur
      cases h
      exact Or.inr ⟨.number v, hcur, rfl⟩
    · cases h
  unfold readNumbers
  rcases hnumber _ c hc with ⟨h₁, rfl⟩ | ⟨cur₁, h₁, rfl⟩
  · rcases hnumber _ m hm with ⟨h₂, rfl⟩ | ⟨cur₂, h₂, rfl⟩
    · rw [h₁, h₂]
    · rw [h₁, h₂]
  · rcases hnumber _ m hm with ⟨h₂, rfl⟩ | ⟨cur₂, h₂, rfl⟩
    · rw [h₁, h₂]
    · rw [h₁, h₂]

/-! ## The pull -/

variable {parse : List UInt8 → Option CJson}

theorem pullRemoteTask_of_reply {env : QueryEnv} {json : CJson} (hcurl : env.curlInit = true)
    (hperf : env.performs = true) (hhttp : env.httpCode = 200) (hparse : parse (cstr env.text) = some json)
    (task : Option SarahTask) : pullRemoteTask parse env task =
      match json.getObjectItem (lit "errno"), json.getObjectItem (lit "data") with
      | none, _ => none
      | some cursor, none => some (i32 (10 + cursor.valueint), task)
      | some cursor, some data =>
        if cursor.valueint ≠ 0 then some (i32 (10 + cursor.valueint), task)
        else
          (sarahTaskInitFromJson newTaskEntry (some data)).map fun r =>
            if r.1 ≠ 0 then (3, none) else (0, some r.2) := by
  have hinit : ¬ env.curlInit = false := by simp [hcurl]
  have hfetched : ¬ (env.performs = false ∨ env.httpCode ≠ 200) := by simp [hperf, hhttp]
  unfold pullRemoteTask
  cases herrno : json.getObjectItem (lit "errno") with
  | none => simp only [if_neg hinit, if_neg hfetched, hparse, herrno]
  | some cursor =>
    cases hdata : json.getObjectItem (lit "data") with
    | none => simp only [if_neg hinit, if_neg hfetched, hparse, herrno, hdata]
    | some data => simp only [if_neg hinit, if_neg hfetched, hparse, herrno, hdata]

theorem foldedCode_eq_zero_iff (cursor : CJson) : i32 (10 + cursor.valueint) = 0 ↔ cursor.valueint = -10 := by
  have hrange := cursor.valueint_range
  unfold i32
  omega

theorem not_pullMeets_crash (json : CJson) : ¬ PullMeets json none := by
  unfold PullMeets
  split
  · intro h
    cases h
  · rintro ⟨code, -, h⟩
    cases h

theorem pullMeets_refused_iff {json : CJson} (h : responseTask json = none) (code : ℤ) :
    PullMeets json (some (code, none)) ↔ code ≠ 0 := by
  rw [PullMeets, h]
  constructor
  · rintro ⟨c, hc, heq⟩
    cases heq
    exact hc
  · exact fun hc => ⟨code, hc, rfl⟩

theorem not_pullMeets_taken {json : CJson} (h : responseTask json = none) (task : SarahTask) :
    ¬ PullMeets json (some (0, some task)) := by
  rw [PullMeets, h]
  rintro ⟨c, hc, heq⟩
  cases heq

theorem dataTask_eq_some {data : CJson} {task : SarahTask} (h : dataTask data = some task) :
    Complete data ∧ (optionalString data (lit "cmd_argv")).isSome = true ∧
      (optionalNumber data (lit "created_at")).isSome = true ∧
      (optionalNumber data (lit "sync_mask")).isSome = true := by
  obtain ⟨id, hid, h⟩ := Option.bind_eq_some_iff.mp h
  obtain ⟨engine, hengine, h⟩ := Option.bind_eq_some_iff.mp h
  obtain ⟨cmdText, htext, h⟩ := Option.bind_eq_some_iff.mp h
  obtain ⟨sign, hsign, h⟩ := Option.bind_eq_some_iff.mp h
  obtain ⟨argv, hargv, h⟩ := Option.bind_eq_some_iff.mp h
  obtain ⟨c, hc, h⟩ := Option.bind_eq_some_iff.mp h
  obtain ⟨m, hm, -⟩ := Option.map_eq_some_iff.mp h
  have hmember : ∀ name s, stringMember data name = some s → (data.getObjectItem name).isSome = true := by
    intro name s hs
    obtain ⟨cursor, hcur, -⟩ := Option.bind_eq_some_iff.mp hs
    rw [hcur]
    rfl
  refine ⟨?_, by rw [hargv]; rfl, by rw [hc]; rfl, by rw [hm]; rfl⟩
  intro name hname
  simp only [taskNames, List.mem_cons, List.not_mem_nil, or_false] at hname
  rcases hname with rfl | rfl | rfl | rfl
  exacts [hmember _ _ hid, hmember _ _ hengine, hmember _ _ htext, hmember _ _ hsign]

theorem responseTask_eq_some {json : CJson} {task : SarahTask} (h : responseTask json = some task) :
    ∃ data, json.getObjectItem (lit "errno") = some (.number (.fin 0)) ∧
      json.getObjectItem (lit "data") = some data ∧ dataTask data = some task := by
  unfold responseTask at h
  split at h
  · rename_i v hcur
    split_ifs at h with hv
    obtain ⟨data, hdata, h⟩ := Option.bind_eq_some_iff.mp h
    exact ⟨data, hv ▸ hcur, hdata, h⟩
  · cases h

/-- A response that is accepted, once all members are there: the pull meets the protocol exactly when the
response is well typed. -/
theorem pullMeets_complete_iff {json cursor data : CJson} (herr : json.getObjectItem (lit "errno") = some cursor)
    (hdata : json.getObjectItem (lit "data") = some data) {id engine cmdText sign : List UInt8}
    (h₁ : stringMember data (lit "id_str") = some id) (h₂ : stringMember data (lit "engine") = some engine)
    (h₃ : stringMember data (lit "cmd_text") = some cmdText) (h₄ : stringMember data (lit "sign") = some sign) :
    PullMeets json ((readArgv ⟨(strtoll id % 2 ^ 64).toNat, 0, 0, some engine, none, some cmdText, some sign⟩ data).map
        fun task => (0, some (readNumbers task data))) ↔ WellTyped cursor data := by
  constructor
  · intro hmeets
    cases hresp : responseTask json with
    | some task =>
      obtain ⟨data', herr', hdata', htask⟩ := responseTask_eq_some hresp
      rw [hdata] at hdata'
      cases hdata'
      rw [herr] at herr'
      obtain ⟨-, hargv, hc, hm⟩ := dataTask_eq_some htask
      exact ⟨Option.some.inj herr', hargv, hc, hm⟩
    | none =>
      exfalso
      cases hargv : readArgv ⟨(strtoll id % 2 ^ 64).toNat, 0, 0, some engine, none, some cmdText, some sign⟩ data with
      | none =>
        rw [hargv] at hmeets
        exact not_pullMeets_crash json hmeets
      | some task =>
        rw [hargv] at hmeets
        exact not_pullMeets_taken hresp _ hmeets
  · rintro ⟨rfl, hargv, hc, hm⟩
    obtain ⟨argv, hargv⟩ := Option.isSome_iff_exists.mp hargv
    obtain ⟨c, hc⟩ := Option.isSome_iff_exists.mp hc
    obtain ⟨m, hm⟩ := Option.isSome_iff_exists.mp hm
    rw [readArgv_of_some hargv, Option.map_some, readNumbers_of_some hc hm]
    have htask : responseTask json =
        some ⟨(strtoll id % 2 ^ 64).toNat, c, m, some engine, argv, some cmdText, some sign⟩ := by
      simp only [responseTask, herr, hdata, dataTask, h₁, h₂, h₃, h₄, hargv, hc, hm, Option.bind_some, Option.map_some,
        if_true]
    rw [PullMeets, htask]

/-- With no task before, the pull meets the protocol exactly on the readable responses. -/
theorem pullRemoteTask_meets_iff {env : QueryEnv} {json : CJson} (hcurl : env.curlInit = true)
    (hperf : env.performs = true) (hhttp : env.httpCode = 200) (hparse : parse (cstr env.text) = some json) :
    PullMeets json (pullRemoteTask parse env none) ↔ Readable json := by
  rw [pullRemoteTask_of_reply hcurl hperf hhttp hparse]
  cases herr : json.getObjectItem (lit "errno") with
  | none =>
    -- the code of the error is read through a missing member
    refine iff_of_false (not_pullMeets_crash json) fun ⟨cursor, hcur, _⟩ => ?_
    rw [herr] at hcur
    cases hcur
  | some cursor =>
  have hreadable : Readable json ↔ cursor.valueint ≠ -10 ∧
      ∀ data, json.getObjectItem (lit "data") = some data → cursor.valueint = 0 →
        StringsFirst data taskNames ∧ (Complete data → WellTyped cursor data) := by
    constructor
    · rintro ⟨cursor', hcur, h⟩
      rw [herr] at hcur
      cases hcur
      exact h
    · exact fun h => ⟨cursor, herr, h⟩
  rw [hreadable]
  cases hdata : json.getObjectItem (lit "data") with
  | none =>
    have hresp : responseTask json = none := by
      by_contra hc
      obtain ⟨task, htask⟩ := Option.ne_none_iff_exists'.mp hc
      obtain ⟨data, -, hdata', -⟩ := responseTask_eq_some htask
      rw [hdata] at hdata'
      cases hdata'
    rw [pullMeets_refused_iff hresp, Ne, foldedCode_eq_zero_iff]
    exact ⟨fun h => ⟨h, fun data h => by cases h⟩, And.left⟩
  | some data =>
    by_cases hzero : cursor.valueint = 0
    · have hten : cursor.valueint ≠ -10 := by omega
      have hrhs : (cursor.valueint ≠ -10 ∧ ∀ data', some data = some data' → cursor.valueint = 0 →
          StringsFirst data' taskNames ∧ (Complete data' → WellTyped cursor data')) ↔
            StringsFirst data taskNames ∧ (Complete data → WellTyped cursor data) := by
        constructor
        · exact fun h => h.2 data rfl hzero
        · rintro h
          refine ⟨hten, fun data' hd _ => ?_⟩
          cases hd
          exact h
      rw [hrhs]
      dsimp only
      rw [if_neg (not_not.mpr hzero)]
      rcases init_cases data newTaskEntry with ⟨hfirst, hinit⟩ | ⟨hfirst, hmissing, r, hinit, hcode⟩ |
        ⟨hfirst, hall, id, engine, cmdText, sign, h₁, h₂, h₃, h₄, hinit⟩
      · -- a member that is no string
        rw [hinit]
        exact iff_of_false (not_pullMeets_crash json) fun h => hfirst h.1
      · -- a missing member
        have hresp : responseTask json = none := by
          by_contra hc
          obtain ⟨task, htask⟩ := Option.ne_none_iff_exists'.mp hc
          obtain ⟨data', -, hdata', hdt⟩ := responseTask_eq_some htask
          rw [hdata] at hdata'
          cases hdata'
          exact hmissing (dataTask_eq_some hdt).1
        rw [hinit, Option.map_some, if_pos hcode, pullMeets_refused_iff hresp]
        exact iff_of_true (by decide) ⟨hfirst, fun h => absurd h hmissing⟩
      · rw [hinit, Option.map_map]
        refine (pullMeets_complete_iff herr hdata h₁ h₂ h₃ h₄).trans ?_
        exact ⟨fun h => ⟨hfirst, fun _ => h⟩, fun h => h.2 hall⟩
    · -- refused by the server
      have hresp : responseTask json = none := by
        by_contra hc
        obtain ⟨task, htask⟩ := Option.ne_none_iff_exists'.mp hc
        obtain ⟨data', herr', -, -⟩ := responseTask_eq_some htask
        rw [herr] at herr'
        cases herr'
        exact hzero (by decide +kernel)
      dsimp only
      rw [if_pos hzero, pullMeets_refused_iff hresp, Ne, foldedCode_eq_zero_iff]
      exact ⟨fun h => ⟨h, fun _ _ h0 => absurd h0 hzero⟩, And.left⟩

/-! ## The loop -/

/-- The rounds of the loop one after the other, with the task that each of them dispatches. -/
def pullStep (parse : List UInt8 → Option CJson) (node : Node) (st : PullState) (round : PullRound) :
    Option (PullState × Option SarahTask) :=
  (pullRound parse node st round).bind fun r => r.2.map fun st' => (st', r.1)

/-- A response that is read is readable. -/
def ReadableRound (parse : List UInt8 → Option CJson) (_ : PullState) (round : PullRound) : Prop :=
  round.query.curlInit = true → round.query.performs = true → round.query.httpCode = 200 →
    ∀ json, parse (cstr round.query.text) = some json → Readable json

/-- The round does not crash, and what it dispatches is the complete task of its own response. -/
def DispatchesOwn (parse : List UInt8 → Option CJson) (node : Node) (st : PullState) (round : PullRound) : Prop :=
  ∃ r, pullRound parse node st round = some r ∧ ∀ task, r.1 = some task →
    ∃ json, parse (cstr round.query.text) = some json ∧ responseTask json = some task

/-- A readable pull does not crash, and when it reports success it has taken the task of its own response. -/
theorem pullRemoteTask_of_readable {st : PullState} {round : PullRound} (hst : st.task = none)
    (hread : ReadableRound parse st round) :
    ∃ code task, pullRemoteTask parse round.query st.task = some (code, task) ∧ (code = 0 →
      ∃ json t, parse (cstr round.query.text) = some json ∧ responseTask json = some t ∧ task = some t) := by
  rw [hst]
  by_cases hcurl : round.query.curlInit = false
  · exact ⟨1, none, by rw [pullRemoteTask, if_pos hcurl], fun h => by cases h⟩
  by_cases hperf : round.query.performs = false ∨ round.query.httpCode ≠ 200
  · exact ⟨2, none, by rw [pullRemoteTask, if_neg hcurl, if_pos hperf], fun h => by cases h⟩
  cases hparse : parse (cstr round.query.text) with
  | none => exact ⟨3, none, by rw [pullRemoteTask, if_neg hcurl, if_neg hperf, hparse], fun h => by cases h⟩
  | some json =>
    rw [Bool.not_eq_false] at hcurl
    rw [not_or, Bool.not_eq_false, not_not] at hperf
    have hmeets := (pullRemoteTask_meets_iff hcurl hperf.1 hperf.2 hparse).mpr (hread hcurl hperf.1 hperf.2 json hparse)
    unfold PullMeets at hmeets
    cases hresp : responseTask json with
    | none =>
      rw [hresp] at hmeets
      obtain ⟨code, hcode, hpull⟩ := hmeets
      exact ⟨code, none, hpull, fun h => absurd h hcode⟩
    | some t =>
      rw [hresp] at hmeets
      exact ⟨0, some t, hmeets, fun _ => ⟨json, t, rfl, hresp, rfl⟩⟩

/-- The signature of the task of a response can be computed, and its engine compared. -/
theorem responseTask_dispatchable {json : CJson} {task : SarahTask} (h : responseTask json = some task) (node : Node) :
    (∃ invalid, sarahTaskValidity node task = some invalid) ∧ ∃ engine, task.engine = some engine := by
  obtain ⟨data, -, -, h⟩ := responseTask_eq_some h
  unfold dataTask at h
  obtain ⟨id, -, h⟩ := Option.bind_eq_some_iff.mp h
  obtain ⟨engine, -, h⟩ := Option.bind_eq_some_iff.mp h
  obtain ⟨cmdText, -, h⟩ := Option.bind_eq_some_iff.mp h
  obtain ⟨sign, -, h⟩ := Option.bind_eq_some_iff.mp h
  obtain ⟨argv, -, h⟩ := Option.bind_eq_some_iff.mp h
  obtain ⟨createdAt, -, h⟩ := Option.bind_eq_some_iff.mp h
  obtain ⟨syncMask, -, rfl⟩ := Option.map_eq_some_iff.mp h
  exact ⟨⟨_, rfl⟩, engine, rfl⟩

theorem dispatchesOwn_of_readable {node : Node} {st : PullState} {round : PullRound} (hst : st.task = none)
    (hread : ReadableRound parse st round) : DispatchesOwn parse node st round := by
  unfold DispatchesOwn pullRound
  split
  · exact ⟨_, rfl, fun task h => by cases h⟩
  · exact ⟨_, rfl, fun task h => by cases h⟩
  by_cases hparent : round.sameParent = false
  · rw [if_pos hparent]
    exact ⟨_, rfl, fun task h => by cases h⟩
  rw [if_neg hparent]
  obtain ⟨code, task, hpull, htask⟩ := pullRemoteTask_of_readable hst hread
  rw [hpull, Option.bind_some]
  dsimp only
  by_cases hcode : code = 0
  · obtain ⟨json, t, hparse, hresp, rfl⟩ := htask hcode
    obtain ⟨⟨invalid, hinvalid⟩, engine, hengine⟩ := responseTask_dispatchable hresp node
    rw [if_neg (not_not.mpr hcode), Option.bind_some, hinvalid, Option.bind_some]
    by_cases hvalid : invalid = 0
    · rw [if_neg (not_not.mpr hvalid), hengine, Option.map_some]
      refine ⟨_, rfl, fun task h => ⟨json, hparse, ?_⟩⟩
      dsimp only at h
      split_ifs at h
      cases h
      exact hresp
    · rw [if_pos hvalid]
      exact ⟨_, rfl, fun task h => by cases h⟩
  · rw [if_pos hcode]
    exact ⟨_, rfl, fun task h => by cases h⟩

/-- The round asks for a task. -/
def PullRound.Pulls (round : PullRound) : Prop :=
  round.status ≠ .exit ∧ round.status ≠ .stop ∧ round.sameParent = true

/-- **What a round can do**: leave the loop, skip it, get a nonzero code, get a task that is not valid, or get a
valid one. -/
theorem pullRound_cases {node : Node} {st : PullState} {round : PullRound} {r : Option SarahTask × Option PullState}
    (h : pullRound parse node st round = some r) :
    (¬ round.Pulls ∧ r.1 = none ∧ (r.2 = none ∨ r.2 = some st)) ∨
    (round.Pulls ∧ ∃ code task, pullRemoteTask parse round.query st.task = some (code, task) ∧
      ((code ≠ 0 ∧ r = (none, pullCleanup round
          (if maxBusyCount ≤ st.emptyCount then ⟨task, 0, normPullDuration⟩
            else ⟨task, st.emptyCount + 1, st.pullDuration⟩))) ∨
        (code = 0 ∧ ∃ t, task = some t ∧
          ((∃ invalid, sarahTaskValidity node t = some invalid ∧ invalid ≠ 0 ∧
              r = (none, pullCleanup round ⟨task, st.emptyCount, st.pullDuration⟩)) ∨
            (sarahTaskValidity node t = some 0 ∧ ∃ engine, t.engine = some engine ∧
              r = (if engine = lit "bash" ∨ engine = lit "lua" ∨ engine = lit "sarah" then some t else none,
                pullCleanup round ⟨task, st.emptyCount, busyPullDuration⟩)))))) := by
  unfold pullRound at h
  split at h
  next hexit =>
    cases h
    exact .inl ⟨fun hp => hp.1 hexit, rfl, .inl rfl⟩
  next hstop =>
    cases h
    exact .inl ⟨fun hp => hp.2.1 hstop, rfl, .inr rfl⟩
  next hexit hstop =>
    by_cases hparent : round.sameParent = false
    · rw [if_pos hparent] at h
      cases h
      refine .inl ⟨fun hp => ?_, rfl, .inl rfl⟩
      rw [hp.2.2] at hparent
      cases hparent
    rw [if_neg hparent] at h
    obtain ⟨⟨code, task⟩, hpull, h⟩ := Option.bind_eq_some_iff.mp h
    refine .inr ⟨⟨hexit, hstop, eq_true_of_ne_false hparent⟩, code, task, hpull, ?_⟩
    dsimp only at h
    by_cases hcode : code = 0
    · rw [if_neg (not_not.mpr hcode)] at h
      obtain ⟨t, rfl, h⟩ := Option.bind_eq_some_iff.mp h
      obtain ⟨invalid, hinvalid, h⟩ := Option.bind_eq_some_iff.mp h
      refine .inr ⟨hcode, t, rfl, ?_⟩
      by_cases hvalid : invalid = 0
      · rw [if_neg (not_not.mpr hvalid)] at h
        obtain ⟨engine, hengine, rfl⟩ := Option.map_eq_some_iff.mp h
        exact .inr ⟨hvalid ▸ hinvalid, engine, hengine, rfl⟩
      · rw [if_pos hvalid] at h
        exact .inl ⟨invalid, hinvalid, hvalid, (Option.some.inj h).symm⟩
    · rw [if_pos hcode] at h
      refine .inl ⟨hcode, ?_⟩
      rw [← Option.some.inj h]

theorem pullCleanup_task {round : PullRound} {st st' : PullState} (h : pullCleanup round st = some st') :
    st'.task = none := by
  unfold pullCleanup at h
  split_ifs at h
  cases h
  rfl

theorem pullStep_task {node : Node} {st : PullState} {round : PullRound} {r : PullState × Option SarahTask}
    (hst : st.task = none) (h : pullStep parse node st round = some r) : r.1.task = none := by
  obtain ⟨q, hq, h⟩ := Option.bind_eq_some_iff.mp h
  obtain ⟨next, hnext, rfl⟩ := Option.map_eq_some_iff.mp h
  obtain ⟨-, -, hleft | hskipped⟩ |
    ⟨-, _, _, -, ⟨-, rfl⟩ | ⟨-, _, -, ⟨_, -, -, rfl⟩ | ⟨-, _, -, rfl⟩⟩⟩ := pullRound_cases hq
  · rw [hleft] at hnext
    cases hnext
  · rw [hskipped] at hnext
    cases hnext
    exact hst
  · exact pullCleanup_task hnext
  · exact pullCleanup_task hnext
  · exact pullCleanup_task hnext

/-- **The pull, from every state that the loop reaches**: the round meets the protocol exactly when its response
is readable, and then it dispatches the task of this response or none, without a crash. -/
theorem pull_meets_iff (node : Node) (rounds : List PullRound) {st : PullState} {tasks : List (Option SarahTask)}
    (hrun : Machine.exec (pullStep parse node) pullStart rounds = some (st, tasks)) {round : PullRound} {json : CJson}
    (hcurl : round.query.curlInit = true) (hperf : round.query.performs = true) (hhttp : round.query.httpCode = 200)
    (hparse : parse (cstr round.query.text) = some json) :
    (PullMeets json (pullRemoteTask parse round.query st.task) ↔ Readable json) ∧
      (Readable json → DispatchesOwn parse node st round) := by
  have hst : st.task = none :=
    Machine.exec_invariant (fun st => st.task = none)
      (fun _ _ _ hst h => pullStep_task hst h) rounds pullStart _ rfl hrun
  constructor
  · rw [hst]
    exact pullRemoteTask_meets_iff hcurl hperf hhttp hparse
  · intro hread
    refine dispatchesOwn_of_readable hst fun _ _ _ json' hparse' => ?_
    rw [hparse] at hparse'
    cases hparse'
    exact hread

/-- A response with a task. -/
def taskText : List UInt8 :=
  lit "\x7b\"errno\":0,\"data\":\x7b\"id_str\":\"7\",\"engine\":\"bash\",\"cmd_text\":\"ls\",\"sign\":\"x\"\x7d\x7d"

/-- A response that refuses with the code -10. -/
def refusalText : List UInt8 := lit "\x7b\"errno\":-10,\"data\":\x7b\x7d\x7d"

/-- The tree of `taskText`. -/
def taskJson : CJson :=
  .object [(lit "errno", .number (.fin 0)), (lit "data", .object [(lit "id_str", .string (lit "7")),
    (lit "engine", .string (lit "bash")), (lit "cmd_text", .string (lit "ls")), (lit "sign", .string (lit "x"))])]

/-- The tree of `refusalText`. -/
def refusalJson : CJson := .object [(lit "errno", .number (.fin (-10))), (lit "data", .object [])]

/-- A parser that reads the two texts. -/
def parsePull (text : List UInt8) : Option CJson :=
  if text = taskText then some taskJson else if text = refusalText then some refusalJson else none

/-- A round that receives a text. -/
def textRound (text : List UInt8) : PullRound := ⟨.running, .running, true, ⟨true, true, 200, text⟩⟩

theorem pull_meets_iff_task :
    (PullMeets taskJson (pullRemoteTask parsePull (textRound taskText).query pullStart.task) ↔ Readable taskJson) ∧
      (Readable taskJson → DispatchesOwn parsePull blankNode pullStart (textRound taskText)) :=
  pull_meets_iff blankNode [] rfl rfl rfl rfl (if_pos (by decide +kernel))

/-- The code -10 is folded into 0, and the caller goes on with no task. -/
theorem not_pull_meets :
    ¬ PullMeets refusalJson (pullRemoteTask parsePull (textRound refusalText).query pullStart.task) := by
  have hpull : pullRemoteTask parsePull (textRound refusalText).query pullStart.task = some (0, none) := by
    decide +kernel
  have hresp : responseTask refusalJson = none := by decide +kernel
  rw [hpull, pullMeets_refused_iff hresp]
  exact fun h => h rfl

/-- **The loop dispatches complete tasks only**, in every run whose responses are readable. -/
theorem pull_dispatches_own (node : Node) (rounds : List PullRound)
    (h : Machine.Guarded (pullStep parse node) (ReadableRound parse) pullStart rounds) :
    Machine.Guarded (pullStep parse node) (DispatchesOwn parse node) pullStart rounds :=
  Machine.guarded_of_invariant (fun st => st.task = none) (fun _ _ _ hst h => pullStep_task hst h)
    (fun _ _ hst hread => dispatchesOwn_of_readable hst hread) rounds pullStart rfl h

end Sarah
