import Mathlib.Data.Finset.Basic

/-!
# The userdata of `lua_leveldb.c`

A leveldb object is named by the userdata that holds it. Keys, values, write batches and the settings of the options
are left out.

* `Userdata`, `Binding`: the userdata, and which of them the program can reach;
* `luaLeveldbNew`, `luaLeveldbGet`, …: the functions of the binding, and the calls into leveldb that they make;
* `collect`: a cycle of the garbage collector;
* `bindingStep`: a call of the program, or a collection;
* `Leveldb`: what the calls into leveldb need.
-/

namespace Sarah.LevelDb

/-- `lua_leveldb_readoptions_t` and `lua_leveldb_writeoptions_t`. -/
inductive OptionsKind
  | read
  | write
  deriving DecidableEq

/-- `lua_leveldb_t`: whether `db` is not `NULL`, and the userdata it points to. -/
structure LuaLeveldb where
  db : Bool
  writeOptions : ℕ
  readOptions : ℕ
  deriving DecidableEq

/-- The option pointer of one kind. -/
def LuaLeveldb.pointer (self : LuaLeveldb) : OptionsKind → ℕ
  | .read => self.readOptions
  | .write => self.writeOptions

/-- It is replaced. -/
def LuaLeveldb.setPointer (self : LuaLeveldb) (kind : OptionsKind) (p : ℕ) : LuaLeveldb :=
  match kind with
  | .read => { self with readOptions := p }
  | .write => { self with writeOptions := p }

/-- A userdata; the flag says whether its pointer into leveldb is not `NULL`. -/
inductive Userdata
  | options (kind : OptionsKind) (options : Bool)
  | leveldb (self : LuaLeveldb)
  | iterator (db : ℕ) (it : Bool)
  deriving DecidableEq

/-- The userdata by number, the next number, and what the program can reach. -/
structure Binding where
  objs : ℕ → Option Userdata
  fresh : ℕ
  held : Finset ℕ

/-- A call into leveldb; the options pointer `none` is `NULL` or was read out of a freed userdata. -/
inductive LevelCall
  | createOptions (p : ℕ)
  | setOptions (p : ℕ)
  | destroyOptions (p : ℕ)
  | openDb (d : ℕ)
  | closeDb (d : ℕ)
  | useDb (d : ℕ) (options : Option ℕ)
  | createIterator (i d : ℕ) (options : Option ℕ)
  | useIterator (i : ℕ)
  | destroyIterator (i : ℕ)
  deriving DecidableEq

namespace Binding

/-- One userdata is replaced. -/
def set (st : Binding) (p : ℕ) (u : Option Userdata) : Binding := { st with objs := Function.update st.objs p u }

/-- `lua_newuserdata`. -/
def alloc (st : Binding) (u : Userdata) : Binding := { st.set st.fresh (some u) with fresh := st.fresh + 1 }

/-- The script holds the userdata from here on. -/
def hold (st : Binding) (p : ℕ) : Binding := { st with held := insert p st.held }

/-- `self->readOptions->options` and `self->writeOptions->options`. -/
def optionsOf (st : Binding) (self : LuaLeveldb) (kind : OptionsKind) : Option ℕ :=
  match st.objs (self.pointer kind) with
  | some (.options _ true) => some (self.pointer kind)
  | _ => none

end Binding

/-! ## The functions of the binding

A function that raises an error makes no call. -/

/-- What both constructors of options do. -/
def optionNew (kind : OptionsKind) (st : Binding) : Binding × List LevelCall :=
  ((st.alloc (.options kind true)).hold st.fresh, [.createOptions st.fresh])

/-- `lua_leveldb_readoption_new`. -/
def luaLeveldbReadoptionNew : Binding → Binding × List LevelCall := optionNew .read

/-- `lua_leveldb_writeoption_new`. -/
def luaLeveldbWriteoptionNew : Binding → Binding × List LevelCall := optionNew .write

/-- `lua_leveldb_readoptions_set_verify_checksums`, `lua_leveldb_readoptions_set_fill_cache` and
`lua_leveldb_writeoptions_set_sync`. -/
def optionsSet (p : ℕ) (st : Binding) : Binding × List LevelCall :=
  match st.objs p with
  | some (.options _ true) => (st, [.setOptions p])
  | _ => (st, [])

/-- `lua_leveldb_readoptions_destroy` and `lua_leveldb_writeoptions_destroy`. -/
def optionsDestroy (p : ℕ) (st : Binding) : Binding × List LevelCall :=
  match st.objs p with
  | some (.options kind true) => (st.set p (some (.options kind false)), [.destroyOptions p])
  | _ => (st, [])

/-- The options that are given, or else the default ones, which are popped from the Lua stack. -/
def givenOptions (kind : OptionsKind) (given : Option ℕ) (st : Binding) : ℕ × Binding × List LevelCall :=
  match given with
  | some p => (p, st, [])
  | none => (st.fresh, st.alloc (.options kind true), [.createOptions st.fresh])

/-- `luaL_checkudata` on an option of the configuration. -/
def checkOptions (st : Binding) (kind : OptionsKind) (p : ℕ) : Bool :=
  match st.objs p with
  | some (.options k _) => k = kind
  | _ => false

/-- `lua_leveldb_new`; `opens` says whether `leveldb_open` succeeds. -/
def luaLeveldbNew (opens : Bool) (readOption writeOption : Option ℕ) (st : Binding) : Binding × List LevelCall :=
  if readOption.all (checkOptions st .read) ∧ writeOption.all (checkOptions st .write) then
    let self := st.fresh
    let st := st.alloc (.leveldb ⟨false, 0, 0⟩)
    let w := givenOptions .write writeOption st
    let r := givenOptions .read readOption w.2.1
    let st := r.2.1.set self (some (.leveldb ⟨opens, w.1, r.1⟩))
    (if opens then st.hold self else st, w.2.2 ++ r.2.2 ++ if opens then [.openDb self] else [])
  else (st, [])

/-- `lua_leveldb_destroy`. -/
def luaLeveldbDestroy (d : ℕ) (st : Binding) : Binding × List LevelCall :=
  match st.objs d with
  | some (.leveldb self) =>
    if self.db then (st.set d (some (.leveldb { self with db := false })), [.closeDb d]) else (st, [])
  | _ => (st, [])

/-- What both setters of options do. -/
def setOption (kind : OptionsKind) (d p : ℕ) (st : Binding) : Binding × List LevelCall :=
  match st.objs d with
  | some (.leveldb self) =>
    if self.db ∧ checkOptions st kind p then (st.set d (some (.leveldb (self.setPointer kind p))), []) else (st, [])
  | _ => (st, [])

/-- `lua_leveldb_set_read_option`. -/
def luaLeveldbSetReadOption : ℕ → ℕ → Binding → Binding × List LevelCall := setOption .read

/-- `lua_leveldb_set_write_option`. -/
def luaLeveldbSetWriteOption : ℕ → ℕ → Binding → Binding × List LevelCall := setOption .write

/-- A call of the library with options of one kind. -/
def useDb (kind : OptionsKind) (d : ℕ) (st : Binding) : Binding × List LevelCall :=
  match st.objs d with
  | some (.leveldb self) => if self.db then (st, [.useDb d (st.optionsOf self kind)]) else (st, [])
  | _ => (st, [])

/-- `lua_leveldb_put`. -/
def luaLeveldbPut : ℕ → Binding → Binding × List LevelCall := useDb .write

/-- `lua_leveldb_write`. -/
def luaLeveldbWrite : ℕ → Binding → Binding × List LevelCall := useDb .write

/-- `lua_leveldb_get`. -/
def luaLeveldbGet : ℕ → Binding → Binding × List LevelCall := useDb .read

/-- `lua_leveldb_delete`. -/
def luaLeveldbDelete : ℕ → Binding → Binding × List LevelCall := useDb .write

/-- `lua_leveldb_iterator_new`; whether the database is open is not asked. -/
def luaLeveldbIteratorNew (d : ℕ) (st : Binding) : Binding × List LevelCall :=
  match st.objs d with
  | some (.leveldb self) =>
    ((st.alloc (.iterator d true)).hold st.fresh,
      [.createIterator st.fresh d (st.optionsOf self .read), .useIterator st.fresh])
  | _ => (st, [])

/-- `lua_leveldb_iterator_valid`, `lua_leveldb_iterator_next` and the other functions of an iterator. -/
def iteratorUse (i : ℕ) (st : Binding) : Binding × List LevelCall :=
  match st.objs i with
  | some (.iterator _ true) => (st, [.useIterator i])
  | _ => (st, [])

/-- `lua_leveldb_iterator_destroy`. -/
def luaLeveldbIteratorDestroy (i : ℕ) (st : Binding) : Binding × List LevelCall :=
  match st.objs i with
  | some (.iterator d true) => (st.set i (some (.iterator d false)), [.destroyIterator i])
  | _ => (st, [])

/-! ## The program and the collector -/

/-- The `__gc` of a userdata. -/
def finalizer (p : ℕ) (st : Binding) : Binding × List LevelCall :=
  match st.objs p with
  | some (.options _ _) => optionsDestroy p st
  | some (.leveldb _) => luaLeveldbDestroy p st
  | some (.iterator _ _) => luaLeveldbIteratorDestroy p st
  | none => (st, [])

/-- A userdata that the program cannot reach is finalised and freed. -/
def sweep (p : ℕ) (r : Binding × List LevelCall) : Binding × List LevelCall :=
  if p ∈ r.1.held then r else ((finalizer p r.1).1.set p none, r.2 ++ (finalizer p r.1).2)

/-- A cycle of the collector: the finalisers run against the order of creation. -/
def collect (st : Binding) : Binding × List LevelCall := (List.range st.fresh).foldr sweep (st, [])

/-- What the program does with the binding, and a collection. -/
inductive LevelOp
  | createReadOption
  | createWriteOption
  | setOptions (p : ℕ)
  | destroyOptions (p : ℕ)
  | new (opens : Bool) (readOption writeOption : Option ℕ)
  | setReadOption (d p : ℕ)
  | setWriteOption (d p : ℕ)
  | put (d : ℕ)
  | write (d : ℕ)
  | get (d : ℕ)
  | delete (d : ℕ)
  | iterator (d : ℕ)
  | useIterator (i : ℕ)
  | destroyIterator (i : ℕ)
  | close (d : ℕ)
  | drop (p : ℕ)
  | collect
  deriving DecidableEq

/-- The userdata among the arguments of a call. -/
def LevelOp.args : LevelOp → List ℕ
  | .new _ readOption writeOption => readOption.toList ++ writeOption.toList
  | .setReadOption d p | .setWriteOption d p => [d, p]
  | .setOptions p | .destroyOptions p | .put p | .write p | .get p | .delete p | .iterator p | .useIterator p
  | .destroyIterator p | .close p => [p]
  | .createReadOption | .createWriteOption | .drop _ | .collect => []

/-- The function that is called. -/
def LevelOp.run : LevelOp → Binding → Binding × List LevelCall
  | .createReadOption => luaLeveldbReadoptionNew
  | .createWriteOption => luaLeveldbWriteoptionNew
  | .setOptions p => optionsSet p
  | .destroyOptions p => optionsDestroy p
  | .new opens readOption writeOption => luaLeveldbNew opens readOption writeOption
  | .setReadOption d p => luaLeveldbSetReadOption d p
  | .setWriteOption d p => luaLeveldbSetWriteOption d p
  | .put d => luaLeveldbPut d
  | .write d => luaLeveldbWrite d
  | .get d => luaLeveldbGet d
  | .delete d => luaLeveldbDelete d
  | .iterator d => luaLeveldbIteratorNew d
  | .useIterator i => iteratorUse i
  | .destroyIterator i => luaLeveldbIteratorDestroy i
  | .close d => luaLeveldbDestroy d
  | .drop p => fun st => ({ st with held := st.held.erase p }, [])
  | .collect => LevelDb.collect

/-- The program can only name what it can reach. -/
def bindingStep (st : Binding) (op : LevelOp) : Binding × List LevelCall :=
  if ∀ p ∈ op.args, p ∈ st.held then op.run st else (st, [])

/-! ## What leveldb needs -/

/-- The objects of leveldb: options that are not destroyed, open databases, and iterators with their database. -/
structure Leveldb where
  options : Finset ℕ
  dbs : Finset ℕ
  iterators : Finset (ℕ × ℕ)

/-- An iterator's database is still open. -/
def Leveldb.IteratorOpen (lv : Leveldb) (i : ℕ) : Prop := ∀ e ∈ lv.iterators, e.1 = i → e.2 ∈ lv.dbs

instance (lv : Leveldb) (i : ℕ) : Decidable (lv.IteratorOpen i) :=
  inferInstanceAs (Decidable (∀ e ∈ lv.iterators, e.1 = i → e.2 ∈ lv.dbs))

/-- **The property of a call**: `none` where it receives options that are destroyed, or an iterator of a closed
database. -/
def Leveldb.call (lv : Leveldb) : LevelCall → Option Leveldb
  | .createOptions p => some { lv with options := insert p lv.options }
  | .setOptions p => if p ∈ lv.options then some lv else none
  | .destroyOptions p => if p ∈ lv.options then some { lv with options := lv.options.erase p } else none
  | .openDb d => some { lv with dbs := insert d lv.dbs }
  | .closeDb d => some { lv with dbs := lv.dbs.erase d }
  | .useDb _ options => if options.any (· ∈ lv.options) then some lv else none
  | .createIterator i d options =>
    if options.any (· ∈ lv.options) ∧ d ∈ lv.dbs then some { lv with iterators := insert (i, d) lv.iterators } else none
  | .useIterator i => if lv.IteratorOpen i then some lv else none
  | .destroyIterator i =>
    if lv.IteratorOpen i then some { lv with iterators := lv.iterators.filter (·.1 ≠ i) } else none

/-- Calls one after the other. -/
def Leveldb.calls : Leveldb → List LevelCall → Option Leveldb
  | lv, [] => some lv
  | lv, c :: cs => (lv.call c).bind (·.calls cs)

/-- The binding over leveldb. -/
def levelStep (s : Binding × Leveldb) (op : LevelOp) : Option ((Binding × Leveldb) × List LevelCall) :=
  (s.2.calls (bindingStep s.1 op).2).map fun lv => (((bindingStep s.1 op).1, lv), (bindingStep s.1 op).2)

/-- The start: no userdata. -/
def levelStart : Binding × Leveldb := (⟨fun _ => none, 0, ∅⟩, ⟨∅, ∅, ∅⟩)

end Sarah.LevelDb
