import SarahClient.Json
import SarahClient.Md5.Model
import SarahClient.Node.Model
import SarahClient.Strbuff.Model

/-!
# The executor of `executor.c`

`mem` says which allocations succeed, `parse` stands for `cJSON_Parse` and `print` for
`cJSON_PrintUnformatted`; an access outside an allocation or through `NULL` is `none`.

* `SarahTask`, `Executor`, `sarahExecutorInit`;
* the functions that fill and clear the result of a task;
* `SyncEnv`, `sarahExecutorSyncStatus`: posting the status and reading the reply;
* `ExecutorOp`, `executorStep`: one call on an executor.
-/

namespace Sarah

open Block

/-- `sarah_task_t`; a pointer is `none` for `NULL`. -/
structure SarahTask where
  id : ℕ
  createdAt : ℕ
  syncMask : ℕ
  engine : Option (List UInt8)
  cmdArgv : Option (List UInt8)
  cmdText : Option (List UInt8)
  sign : Option (List UInt8)
  deriving DecidableEq

/-- `sarah_executor_t`. -/
structure Executor where
  node : Node
  task : Option SarahTask
  syncUrl : List UInt8
  resBuffer : Strbuff
  signOffset : ℕ
  cmidOffset : ℕ
  errno : ℤ
  status : ℤ
  progress : Double
  attach : ℕ
  maxDatalen : ℕ
  errorBuffer : Strbuff
  dataBuffer : Strbuff

variable (mem : ℕ → Bool) (parse : List UInt8 → Option CJson) (print : CJson → Option (List UInt8))

/-- `executor_sync_url`. -/
def executorSyncUrl : List UInt8 := lit "http://sarah.grandhelmsman.com/api/node/command/export/notify"

/-- The part of `sync_url` before the signature. -/
def syncUrlHead (nodeId appKey : List UInt8) : List UInt8 :=
  executorSyncUrl ++ lit "?node_uid=" ++ nodeId ++ lit "&app_key=" ++ appKey ++ lit "&sign="

/-- `sarah_executor_init`, with its error code; a missing `app_key` is read through `NULL`. -/
def sarahExecutorInit (node : Node) : Option (Except ℤ Executor) :=
  node.config.appKey.map fun appKey =>
    let head := syncUrlHead (cstr node.nodeId.1) appKey
    let sign := lit "7f9106d9a1fa6d0f3550cc1783342638"
    let url := head ++ sign ++ lit "&cmd_id=" ++ lit "6639193343686609942"
    if mem (url.length + 1) = false then .error 2
    else
      match celStrbuffInit mem 128, celStrbuffInit mem 256, celStrbuffInit mem (1024 * 64 + 1) with
      | none, _, _ => .error 3
      | some _, none, _ => .error 4
      | some _, some _, none => .error 5
      | some res, some error, some data =>
        .ok
          { node := node, task := none, syncUrl := url ++ [0], resBuffer := res, signOffset := head.length
            cmidOffset := (head ++ sign ++ lit "&cmd_id=").length, errno := 0, status := 0, progress := .fin 0
            attach := 0, maxDatalen := 1024 * 64 + 1, errorBuffer := error, dataBuffer := data }

/-- `sarah_executor_clear`. -/
def sarahExecutorClear (ex : Executor) : Option Executor :=
  (celStrbuffClear ex.errorBuffer).bind fun e => (celStrbuffClear ex.dataBuffer).map fun d =>
    { ex with task := none, status := 0, progress := .fin 0, errno := 0, errorBuffer := e.2, dataBuffer := d.2 }

/-- The length that is handed on, an `int` that becomes an `unsigned int`: what still fits into the data buffer,
or all of `data`. -/
def dataLength (ex : Executor) (data : List UInt8) : ℕ :=
  if ex.maxDatalen < u32 (ex.dataBuffer.size + data.length) then ex.maxDatalen - ex.dataBuffer.size
  else u32 data.length

/-- `sarah_executor_data_append` of a C string. -/
def sarahExecutorDataAppend (ex : Executor) (data : List UInt8) : Option (ℤ × Executor) :=
  if ex.maxDatalen ≤ ex.dataBuffer.size then some (0, ex)
  else
    (celStrbuffAppendFrom mem ex.dataBuffer data (dataLength ex data) 1).map fun r =>
      (if r.1 = 0 then i32 (dataLength ex data) else 0, { ex with dataBuffer := r.2 })

/-- `sarah_executor_data_insert` of a C string. -/
def sarahExecutorDataInsert (ex : Executor) (idx : ℕ) (data : List UInt8) : Option (ℤ × Executor) :=
  if ex.maxDatalen ≤ ex.dataBuffer.size then some (0, ex)
  else
    (celStrbuffInsertFrom mem ex.dataBuffer idx data (dataLength ex data) 1).map fun r =>
      (if r.1 = 0 then i32 (dataLength ex data) else 0, { ex with dataBuffer := r.2 })

/-- `sarah_executor_data_clear`. -/
def sarahExecutorDataClear (ex : Executor) : Option Executor :=
  (celStrbuffClear ex.dataBuffer).map fun r => { ex with dataBuffer := r.2 }

/-- `sarah_executor_error_append` of a C string. -/
def sarahExecutorErrorAppend (ex : Executor) (errstr : List UInt8) : Option (ℤ × Executor) :=
  (celStrbuffAppendFrom mem ex.errorBuffer errstr errstr.length 1).map fun r =>
    (if r.1 = 0 then 1 else 0, { ex with errorBuffer := r.2 })

/-- `sarah_executor_error_insert` of a C string. -/
def sarahExecutorErrorInsert (ex : Executor) (idx : ℕ) (errstr : List UInt8) : Option (ℤ × Executor) :=
  (celStrbuffInsertFrom mem ex.errorBuffer idx errstr errstr.length 1).map fun r =>
    (if r.1 = 0 then 1 else 0, { ex with errorBuffer := r.2 })

/-- `sarah_executor_error_clear`. -/
def sarahExecutorErrorClear (ex : Executor) : Option Executor :=
  (celStrbuffClear ex.errorBuffer).map fun r => { ex with errorBuffer := r.2 }

/-! ## Posting the status -/

/-- What one request meets: its body arrives in the pieces of `chunks`. -/
structure SyncEnv where
  curlInit : Bool
  performs : Bool
  httpCode : ℤ
  chunks : List NetPiece

/-- The JSON package that is posted; the version is the `double` nearest to 1.57. -/
def syncPackage (ex : Executor) : CJson :=
  .object [(lit "version", .number (.fin (7070651414971679 / 4503599627370496))),
    (lit "data", .object [(lit "status", .number (.fin ex.status)), (lit "progress", .number ex.progress),
      (lit "errno", .number (.fin ex.errno)), (lit "attach", .number (.fin ex.attach)),
      (lit "res_error", .string (cstr ex.errorBuffer.buffer)),
      (lit "res_data", .string (cstr ex.dataBuffer.buffer))])]

/-- The task id as `%lld` writes it. -/
def idText (id : ℕ) : List UInt8 := if id < 2 ^ 63 then decimal id else lit "-" ++ decimal (2 ^ 64 - id)

/-- The signature of a request. -/
def syncSign (ex : Executor) (appKey id json : List UInt8) : List UInt8 :=
  celMd5Print (celMd5Final ([cstr ex.node.nodeId.1, id, json, appKey].foldl celMd5Update
    (celMd5Init ⟨0, 0, ⟨0, 0, 0, 0⟩, List.replicate 64 0⟩)))

/-- `sync_url` with the id and the signature of a request written into it. -/
def patchSyncUrl (ex : Executor) (task : SarahTask) (json : List UInt8) : Option (List UInt8) :=
  let id := idText task.id
  -- `id_buffer` has 20 bytes, of which 19 are copied
  if id.length ≤ 19 then
    (copyIn ex.syncUrl ex.cmidOffset (id ++ List.replicate (19 - id.length) 0)).bind fun url =>
      ex.node.config.appKey.bind fun appKey => copyIn url ex.signOffset (syncSign ex appKey id json)
  else none

/-- The return code for the text of a reply; without `errno` the code is read through `NULL`. -/
def readReply (text : List UInt8) : Option ℤ :=
  match parse text with
  | none => some 5
  | some json =>
    match json.getObjectItem (lit "errno"), json.getObjectItem (lit "data") with
    | none, _ => none
    | some cursor, none => some (i32 (10 + cursor.valueint))
    | some cursor, some _ => if cursor.valueint ≠ 0 then some (i32 (10 + cursor.valueint)) else some 0

/-- The return code for a request, given the response buffer after it. -/
def syncCode (env : SyncEnv) (sb : Strbuff) : Option ℤ :=
  if env.performs = false then some 3
  else if env.httpCode ≠ 200 then some 4
  else readReply parse (cstr sb.buffer)

/-- `sarah_executor_sync_status`, with its return code. -/
def sarahExecutorSyncStatus (ex : Executor) (env : SyncEnv) : Option (ℤ × Executor) :=
  match ex.task with
  | none => some (1, ex)
  | some task =>
    if env.curlInit = false then some (1, ex)
    else
      match print (syncPackage ex) with
      | none => some (2, ex)
      | some json =>
        (patchSyncUrl ex task json).bind fun url =>
          (recvPieces mem env.chunks ex.resBuffer).bind fun sb =>
            (syncCode parse env sb).map fun code => (code, { ex with syncUrl := url, resBuffer := sb })

/-! ## Calls on an executor -/

/-- A call on an executor; texts are C strings. -/
inductive ExecutorOp
  | clear
  | setTask (task : SarahTask)
  | setStatus (status : ℤ) (progress : Double)
  | setErrno (errno : ℤ)
  | setAttach (attach : ℕ)
  | setMaxdatalen (maxlen : ℕ)
  | dataAppend (data : List UInt8)
  | dataInsert (idx : ℕ) (data : List UInt8)
  | dataClear
  | errorAppend (errstr : List UInt8)
  | errorInsert (idx : ℕ) (errstr : List UInt8)
  | errorClear
  | sync (env : SyncEnv)

/-- One call, with its return code (0 for a `void` function). -/
def executorStep (ex : Executor) : ExecutorOp → Option (Executor × ℤ)
  | .clear => (sarahExecutorClear ex).map fun ex => (ex, 0)
  | .setTask task => some ({ ex with task := some task }, 0)
  | .setStatus status progress => some ({ ex with status := status, progress := progress }, 0)
  | .setErrno errno => some ({ ex with errno := errno }, 0)
  | .setAttach attach => some ({ ex with attach := attach }, 0)
  | .setMaxdatalen maxlen => some ({ ex with maxDatalen := maxlen }, 0)
  | .dataAppend data => (sarahExecutorDataAppend mem ex data).map Prod.swap
  | .dataInsert idx data => (sarahExecutorDataInsert mem ex idx data).map Prod.swap
  | .dataClear => (sarahExecutorDataClear ex).map fun ex => (ex, 0)
  | .errorAppend errstr => (sarahExecutorErrorAppend mem ex errstr).map Prod.swap
  | .errorInsert idx errstr => (sarahExecutorErrorInsert mem ex idx errstr).map Prod.swap
  | .errorClear => (sarahExecutorErrorClear ex).map fun ex => (ex, 0)
  | .sync env => (sarahExecutorSyncStatus mem parse print ex env).map Prod.swap

end Sarah
