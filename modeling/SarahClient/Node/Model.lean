import SarahClient.Json
import SarahClient.Lib.FileBytes
import SarahClient.Strbuff.Model

/-!
# The node record of `node.c`

`node.db` is a file of 52 bytes: three little-endian words and 40 bytes of node id. A file is the
list of its bytes, `none` when it does not exist.

* `Node`, `packNode`, `readUnsignedInt`, `writeUnsignedInt`: the record in memory and on disk;
* `WriteEnv`: the outcome of one open-lock-write sequence;
* `sarahNodeFlush`, `writeBuffer`, the setters;
* `NodeEnv`, `sarahNodeInit`: start-up, over every outcome of the system calls it makes.
-/

namespace Sarah

open FileBytes

/-- `sarah_node_config_t`. -/
structure NodeConfig where
  build : Option (List UInt8)
  appKey : Option (List UInt8)
  diskAutoPartition : ℤ
  diskMountBasedir : Option (List UInt8)
  diskMountPrefix : Option (List UInt8)
  diskMountAlgorithm : Option (List UInt8)

/-- The 40 characters of a node id; the last byte of `node_id` is always NUL. -/
abbrev NodeId := { s : List UInt8 // s.length = 40 }

/-- The fields of `sarah_node_t` that the record and its start-up use. -/
structure Node where
  baseDir : Option (List UInt8)
  dbFile : Option (List UInt8)
  configFile : Option (List UInt8)
  isNew : Bool
  createdAt : UInt32
  lastBootAt : UInt32
  interval : UInt32
  config : NodeConfig
  nodeId : NodeId

/-- `_write_unsigned_int`. -/
def writeUnsignedInt (val : UInt32) : List UInt8 :=
  [UInt8.ofNat val.toNat, UInt8.ofNat (val.toNat / 2 ^ 8), UInt8.ofNat (val.toNat / 2 ^ 16),
    UInt8.ofNat (val.toNat / 2 ^ 24)]

/-- `_read_unsigned_int`. -/
def readUnsignedInt (buffer : List UInt8) (offset : ℕ) : UInt32 :=
  UInt32.ofNat ((buffer.getD offset 0).toNat + (buffer.getD (offset + 1) 0).toNat * 2 ^ 8 +
    (buffer.getD (offset + 2) 0).toNat * 2 ^ 16 + (buffer.getD (offset + 3) 0).toNat * 2 ^ 24)

/-- The record as `sarah_node_flush` packs it. -/
def packNode (node : Node) : List UInt8 :=
  writeUnsignedInt node.createdAt ++ writeUnsignedInt node.interval ++ writeUnsignedInt node.lastBootAt ++
    node.nodeId.1

/-- What one open, `flock` and `write` do: whether the first two succeed and how many bytes are stored. -/
structure WriteEnv where
  opens : Bool
  locks : Bool
  stored : ℕ

/-- `flock`, then `write` of all of `buff` at `offset`. -/
def lockAndWrite (env : WriteEnv) (content : List UInt8) (offset : ℕ) (buff : List UInt8) : ℤ × List UInt8 :=
  if env.locks then
    (if buff.length ≤ env.stored then 0 else 2, pwrite content offset (buff.take env.stored))
  else (2, content)

/-- `sarah_node_flush`; `O_CREAT` makes the file. -/
def sarahNodeFlush (node : Node) (env : WriteEnv) (disk : Option (List UInt8)) : ℤ × Option (List UInt8) :=
  match node.dbFile with
  | none => (0, disk)
  | some _ =>
    if env.opens then
      ((lockAndWrite env (disk.getD []) 0 (packNode node)).1,
        some (lockAndWrite env (disk.getD []) 0 (packNode node)).2)
    else (1, disk)

/-- `_write_buffer`; a file that does not exist cannot be opened. -/
def writeBuffer (node : Node) (offset : ℕ) (buff : List UInt8) (env : WriteEnv) (disk : Option (List UInt8)) :
    ℤ × Option (List UInt8) :=
  match node.dbFile, disk with
  | none, _ => (0, disk)
  | some _, none => (1, disk)
  | some _, some content =>
    if env.opens then
      ((lockAndWrite env content offset buff).1, some (lockAndWrite env content offset buff).2)
    else (1, disk)

/-- `sarah_node_set_created_at`. -/
def sarahNodeSetCreatedAt (node : Node) (createdAt : UInt32) (syn : ℤ) (env : WriteEnv)
    (disk : Option (List UInt8)) : ℤ × Node × Option (List UInt8) :=
  let node := { node with createdAt := createdAt }
  let r := if syn = 1 then writeBuffer node 0 (writeUnsignedInt createdAt) env disk else (0, disk)
  (r.1, node, r.2)

/-- `sarah_node_set_interval`. -/
def sarahNodeSetInterval (node : Node) (interval : UInt32) (syn : ℤ) (env : WriteEnv)
    (disk : Option (List UInt8)) : ℤ × Node × Option (List UInt8) :=
  let node := { node with interval := interval }
  let r := if syn = 1 then writeBuffer node 4 (writeUnsignedInt interval) env disk else (0, disk)
  (r.1, node, r.2)

/-- `sarah_node_set_last_boot_at`. -/
def sarahNodeSetLastBootAt (node : Node) (lastBootAt : UInt32) (syn : ℤ) (env : WriteEnv)
    (disk : Option (List UInt8)) : ℤ × Node × Option (List UInt8) :=
  let node := { node with lastBootAt := lastBootAt }
  let r := if syn = 1 then writeBuffer node 8 (writeUnsignedInt lastBootAt) env disk else (0, disk)
  (r.1, node, r.2)

/-! ## Start-up -/

/-- What the system calls of `sarah_node_init` give. -/
structure NodeEnv where
  /-- The two `sarah_malloc` calls for the file names. -/
  mallocDb : Bool
  mallocConfig : Bool
  /-- The pointer in the uninitialised `strbuff` happens not to be `NULL`. -/
  stray : Bool
  tvSec : ℕ
  openRead : Bool
  lockRead : Bool
  readLen : ℕ
  genId : NodeId
  flush : WriteEnv
  patch : WriteEnv
  /-- The bytes of `config.json`; `none` when it cannot be opened. -/
  config : Option (List UInt8)
  /-- The allocations with which `strbuff` grows; its first 128 bytes are there. -/
  grow : ℕ → Bool

/-- The node after the first assignments. -/
def blankNode : Node where
  baseDir := none
  dbFile := none
  configFile := none
  isNew := false
  createdAt := 0
  lastBootAt := 0
  interval := 30
  config := ⟨none, none, 0, none, none, none⟩
  nodeId := ⟨List.replicate 40 0, List.length_replicate⟩

/-- `flock` and `read` deliver a whole record. -/
def NodeEnv.readsRecord (env : NodeEnv) (content : List UInt8) : Bool :=
  env.lockRead && 52 ≤ env.readLen && 52 ≤ content.length

theorem NodeEnv.nodeId_length {env : NodeEnv} {content : List UInt8} (h : env.readsRecord content = true) :
    ((content.drop 12).take 40).length = 40 := by
  simp only [readsRecord, Bool.and_eq_true, decide_eq_true_eq] at h
  rw [List.length_take, List.length_drop]
  omega

/-- The record of a new node; its boot time is still that of `node`. -/
def newNode (env : NodeEnv) (node : Node) : Node :=
  { node with isNew := true, nodeId := env.genId, createdAt := UInt32.ofNat env.tvSec, interval := 30 }

/-- The first half of `sarah_node_init`: load the record, or make a new one. -/
def loadRecord (env : NodeEnv) (node : Node) (disk : Option (List UInt8)) : ℤ × Node × Option (List UInt8) :=
  match disk with
  | some content =>
    if env.openRead then
      if h : env.readsRecord content = true then
        (0, { node with createdAt := readUnsignedInt content 0, interval := readUnsignedInt content 4,
                        lastBootAt := readUnsignedInt content 8,
                        nodeId := ⟨(content.drop 12).take 40, NodeEnv.nodeId_length h⟩ }, disk)
      else (2, node, disk)
    else (0, node, disk)
  | none =>
    let r := sarahNodeFlush (newNode env node) env.flush disk
    (if r.1 ≠ 0 then 4 else 0, newNode env node, r.2)

/-- `sarah_get_line`: a line without its newline, and the rest of the stream. -/
def sarahGetLine (stream : List UInt8) : Option (List UInt8 × List UInt8) :=
  if stream = [] then none else some (stream.takeWhile (· ≠ 10), (stream.dropWhile (· ≠ 10)).tail)

theorem length_of_sarahGetLine {stream : List UInt8} {r : List UInt8 × List UInt8} (h : sarahGetLine stream = some r) :
    r.2.length < stream.length := by
  rw [sarahGetLine] at h
  split_ifs at h with hne
  cases h
  have hpos := List.length_pos_of_ne_nil hne
  have hle := (List.dropWhile_sublist (l := stream) (· ≠ 10)).length_le
  rw [List.length_tail]
  omega

/-- The loop over the lines of `config.json`: those that are no comment are appended to `strbuff`, and an append that
fails is ignored. A line is copied into the 1024 bytes of `file_buff`, with its NUL. -/
def readConfig (grow : ℕ → Bool) (stream : List UInt8) (strbuff : Strbuff) : Option Strbuff :=
  match _h : sarahGetLine stream with
  | none => some strbuff
  | some r =>
    if r.1.length < 1024 then
      if r.1.head? = some 35 then readConfig grow r.2 strbuff
      else
        (celStrbuffAppendFrom grow strbuff (cstr r.1) (cstr r.1).length 1).bind fun a => readConfig grow r.2 a.2
    else none
termination_by stream.length
decreasing_by all_goals exact length_of_sarahGetLine _h

/-- The text of `config.json` in `strbuff`. -/
def NodeEnv.configText (env : NodeEnv) (stream : List UInt8) : Option Strbuff :=
  readConfig env.grow stream ⟨List.replicate 128 0, 128, 0⟩

/-- A string member of the configuration. -/
def configString (json : CJson) (name : String) : Option (List UInt8) :=
  (json.getObjectItem (lit name)).bind CJson.valuestring

/-- The fields that `sarah_node_init` takes from `config.json`. -/
def nodeConfig (json : CJson) : NodeConfig where
  build := configString json "build"
  appKey := configString json "app_key"
  diskAutoPartition :=
    match json.getObjectItem (lit "disk_auto_partition") with
    | some (.string s) => if s.map CJson.tolower = lit "true" then 1 else 0
    | some (.number v) => if 0 < v.toInt then 1 else 0
    | _ => 0
  diskMountBasedir := configString json "disk_mount_basedir"
  diskMountPrefix := configString json "disk_mount_prefix"
  diskMountAlgorithm := configString json "disk_mount_algorithm"

/-- The label `failed`: the file names are dropped when there is an error. -/
def cleanNode (rno : ℤ) (node : Node) : Node :=
  if 0 < rno then { node with dbFile := none, configFile := none } else node

/-- `goto failed` before `strbuff` is initialised: a stray pointer in it is freed. -/
def leaveEarly (env : NodeEnv) (rno : ℤ) (node : Node) (disk : Option (List UInt8)) :
    Option (ℤ × Node × Option (List UInt8)) :=
  if env.stray then none else some (rno, cleanNode rno node, disk)

/-- The second half of `sarah_node_init`: read `config.json`; `rno` is still that of the first half. -/
def loadConfig (parse : List UInt8 → Option CJson) (env : NodeEnv) (dir : List UInt8) (rno : ℤ) (node : Node)
    (disk : Option (List UInt8)) : Option (ℤ × Node × Option (List UInt8)) :=
  if env.mallocConfig then
    let node := { node with configFile := some (dir ++ lit "config.json") }
    match env.config with
    | none => leaveEarly env 6 node disk
    | some stream =>
      (env.configText stream).bind fun strbuff =>
        if strbuff.size < 2 then some (7, cleanNode 7 node, disk)
        else
          match parse (cstr strbuff.buffer) with
          | none => some (8, cleanNode 8 node, disk)
          | some json => some (rno, cleanNode rno { node with config := nodeConfig json }, disk)
  else leaveEarly env 5 node disk

/-- `sarah_node_init`. -/
def sarahNodeInit (parse : List UInt8 → Option CJson) (env : NodeEnv) (baseDir : Option (List UInt8))
    (disk : Option (List UInt8)) : Option (ℤ × Node × Option (List UInt8)) :=
  match baseDir with
  | none => some (1, blankNode, disk)
  | some dir =>
    let node := { blankNode with baseDir := some dir }
    if env.mallocDb then
      let r := loadRecord env { node with dbFile := some (dir ++ lit "node.db") } disk
      if r.1 = 4 then leaveEarly env 4 r.2.1 r.2.2
      else
        let s := sarahNodeSetLastBootAt r.2.1 (UInt32.ofNat env.tvSec) (if r.2.1.isNew then 0 else 1) env.patch r.2.2
        loadConfig parse env dir r.1 s.2.1 s.2.2
    else leaveEarly env 2 node disk

end Sarah
