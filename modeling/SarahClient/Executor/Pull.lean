import SarahClient.Booter.Model
import SarahClient.CNum
import SarahClient.Executor.Model

/-!
# Pulling a task: `_pull_remote_task` of `app_executor.c`

* `newTaskEntry`, `sarahTaskInitFromJson`: a task from the `data` of a response;
* `pullRemoteTask`: one pull, `none` when it reads through `NULL`;
* `sarahTaskValidity`: the signature of a task;
* `PullRound`, `pullRound`: one round of the loop of `sarah_executor_application` up to the dispatch.

Allocations succeed.
-/

namespace Sarah

/-- `new_task_entry`. -/
def newTaskEntry : SarahTask := ⟨0, 0, 0, none, none, none, none⟩

/-- The conversion of an `int` to `unsigned int`. -/
def intToUnsigned (n : ℤ) : ℕ := (n % 2 ^ 32).toNat

/-- The optional member `cmd_argv`. -/
def readArgv (task : SarahTask) (data : CJson) : Option SarahTask :=
  match data.getObjectItem (lit "cmd_argv") with
  | none => some task
  | some cursor => cursor.valuestring.map fun s => { task with cmdArgv := some (cstr s) }

/-- The optional members `created_at` and `sync_mask`. -/
def readNumbers (task : SarahTask) (data : CJson) : SarahTask :=
  let task :=
    match data.getObjectItem (lit "created_at") with
    | none => task
    | some cursor => { task with createdAt := intToUnsigned cursor.valueint }
  match data.getObjectItem (lit "sync_mask") with
  | none => task
  | some cursor => { task with syncMask := intToUnsigned cursor.valueint }

/-- `sarah_task_init_from_json`; a member that is no string is read through its null `valuestring`. -/
def sarahTaskInitFromJson (task : SarahTask) (data : Option CJson) : Option (ℤ × SarahTask) :=
  match data with
  | none => some (1, task)
  | some data =>
    match data.getObjectItem (lit "id_str") with
    | none => some (2, task)
    | some cursor =>
      cursor.valuestring.bind fun s =>
        let task := { task with id := (strtoll (cstr s) % 2 ^ 64).toNat }
        match data.getObjectItem (lit "engine") with
        | none => some (3, task)
        | some cursor =>
          cursor.valuestring.bind fun s =>
            let task := { task with engine := some (cstr s) }
            match data.getObjectItem (lit "cmd_text") with
            | none => some (4, task)
            | some cursor =>
              cursor.valuestring.bind fun s =>
                let task := { task with cmdText := some (cstr s) }
                match data.getObjectItem (lit "sign") with
                | none => some (5, task)
                | some cursor =>
                  cursor.valuestring.bind fun s =>
                    (readArgv { task with sign := some (cstr s) } data).map fun task => (0, readNumbers task data)

variable (parse : List UInt8 → Option CJson)

/-- `_pull_remote_task`, with what `*task` is after it; `task` is what it was before. -/
def pullRemoteTask (env : QueryEnv) (task : Option SarahTask) : Option (ℤ × Option SarahTask) :=
  if env.curlInit = false then some (1, task)
  else if env.performs = false ∨ env.httpCode ≠ 200 then some (2, task)
  else
    match parse (cstr env.text) with
    | none => some (3, task)
    | some json =>
      match json.getObjectItem (lit "errno"), json.getObjectItem (lit "data") with
      -- the code of the error is read through the null `cursor`
      | none, _ => none
      | some cursor, none => some (i32 (10 + cursor.valueint), task)
      | some cursor, some data =>
        if cursor.valueint ≠ 0 then some (i32 (10 + cursor.valueint), task)
        else
          (sarahTaskInitFromJson newTaskEntry (some data)).map fun r =>
            if r.1 ≠ 0 then (3, none) else (0, some r.2)

/-- A number of at most ten digits as `%010u` writes it. -/
def decimal10 (n : ℕ) : List UInt8 := List.replicate (10 - (decimal n).length) 48 ++ decimal n

/-- `sarah_task_validity`: 0 when the task carries the signature of its text, engine and time. -/
def sarahTaskValidity (node : Node) (task : SarahTask) : Option ℤ :=
  task.cmdText.bind fun cmdText => task.engine.bind fun engine => task.sign.map fun sign =>
    let pms := [cstr node.nodeId.1, cmdText, engine, decimal10 task.createdAt].foldl celMd5Update
      (celMd5Init ⟨0, 0, ⟨0, 0, 0, 0⟩, List.replicate 64 0⟩)
    if sign = celMd5Print (celMd5Final pms) then 0 else 1

/-- The variables of the pulling loop. -/
structure PullState where
  task : Option SarahTask
  emptyCount : ℕ
  pullDuration : ℕ
  deriving DecidableEq

/-- `norm_pull_duration`. -/
def normPullDuration : ℕ := 3

/-- `busy_pull_duration`. -/
def busyPullDuration : ℕ := 1

/-- `max_busy_count`. -/
def maxBusyCount : ℕ := 12

/-- The variables before the first round. -/
def pullStart : PullState := ⟨none, 0, normPullDuration⟩

/-- What one round meets: `booter->status` at the top and at `cleanup`, whether the parent is unchanged, and
the response to the pull. -/
structure PullRound where
  status : ProcStatus
  statusEnd : ProcStatus
  sameParent : Bool
  query : QueryEnv

/-- The label `cleanup`: the task is freed. -/
def pullCleanup (round : PullRound) (st : PullState) : Option PullState :=
  if round.statusEnd = .exit then none else some { st with task := none }

/-- One round, with the task that it dispatches to an engine; the state is `none` when the loop is left.
A crash is `none`. -/
def pullRound (node : Node) (st : PullState) (round : PullRound) : Option (Option SarahTask × Option PullState) :=
  match round.status with
  | .exit => some (none, none)
  | .stop => some (none, some st)
  | _ =>
    if round.sameParent = false then some (none, none)
    else
      (pullRemoteTask parse round.query st.task).bind fun r =>
        let st := { st with task := r.2 }
        if r.1 ≠ 0 then
          some (none, pullCleanup round
            (if maxBusyCount ≤ st.emptyCount then { st with emptyCount := 0, pullDuration := normPullDuration }
              else { st with emptyCount := st.emptyCount + 1 }))
        else
          r.2.bind fun task => (sarahTaskValidity node task).bind fun invalid =>
            if invalid ≠ 0 then some (none, pullCleanup round st)
            else
              let st := { st with pullDuration := busyPullDuration }
              task.engine.map fun engine =>
                (if engine = lit "bash" ∨ engine = lit "lua" ∨ engine = lit "sarah" then some task else none,
                  pullCleanup round st)

end Sarah
