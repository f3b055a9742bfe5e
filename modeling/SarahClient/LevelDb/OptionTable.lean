import SarahClient.CInt
import SarahClient.LevelDb.Binding
import SarahClient.Lib.Traversal
import Mathlib.Data.List.Nodup
import Mathlib.Data.List.Count

/-!
# The option tables of the LevelDB binding, `lua_leveldb.c`

The three loops over an option table skip a key that is no string, and leave its value on the Lua stack, where
`lua_next` looks for the key to go on from.

* `OptionTable`: a table in the order of its traversal; `LoopState`: the Lua stack, with a record of the traversal;
* `optionLoop` and the bodies `newOption`, `readOption`, `writeOption` of the loops in `lua_leveldb_new`,
  `lua_leveldb_readoption_new` and `lua_leveldb_writeoption_new`;
* `Traversed`: what the loop should do; `Clean`: no key that is no string comes before an option that is refused;
* **`optionLoop_iff`**: it does so exactly on clean tables.
-/

namespace Sarah.LevelDb

/-- A Lua value; `number` is a float that is no integer, and tables, functions and userdata go by their address. -/
inductive LuaObject
  | nil
  | boolean (b : Bool)
  | integer (n : Int64)
  | number (n : UInt64)
  | string (s : List UInt8)
  | options (kind : OptionsKind) (p : ℕ)
  | other (p : ℕ)
  deriving DecidableEq

/-- An object that is a string. -/
def LuaObject.isString : LuaObject → Bool
  | .string _ => true
  | _ => false

/-- An option table. -/
structure OptionTable where
  entries : List (LuaObject × LuaObject)
  nodup : (entries.map Prod.fst).Nodup
  keys : ∀ e ∈ entries, e.1 ≠ .nil
  values : ∀ e ∈ entries, e.2 ≠ .nil

/-- A call that sets an option, or a pointer that is stored in the object. -/
inductive Setting
  | createIfMissing (b : Bool)
  | errorIfExists (b : Bool)
  | paranoidChecks (b : Bool)
  | writeBufferSize (n : Int64)
  | maxFileSize (n : Int64)
  | compression (n : Int64)
  | readOptions (p : ℕ)
  | writeOptions (p : ℕ)
  | verifyChecksums (b : Bool)
  | fillCache (b : Bool)
  | sync (b : Bool)
  deriving DecidableEq

/-! ## The bodies of the loops -/

/-- A setting for a boolean; another value is passed over. -/
def ifBoolean (set : Bool → Setting) : LuaObject → Option (List Setting)
  | .boolean b => some [set b]
  | _ => some []

/-- A setting that is made of an integer only. -/
def ifInteger (set : Int64 → Setting) : LuaObject → Option (List Setting)
  | .integer n => some [set n]
  | _ => some []

/-- `luaL_checkudata`: `none` for the error that it raises. -/
def checkUdata (kind : OptionsKind) (set : ℕ → Setting) : LuaObject → Option (List Setting)
  | .options k p => if k = kind then some [set p] else none
  | _ => none

/-- The loop body of `lua_leveldb_new`. -/
def newOption (key : List UInt8) (value : LuaObject) : Option (List Setting) :=
  if cstr key = lit "create_if_missing" then ifBoolean .createIfMissing value
  else if cstr key = lit "error_if_exists" then ifBoolean .errorIfExists value
  else if cstr key = lit "paranoid_checks" then ifBoolean .paranoidChecks value
  else if cstr key = lit "write_buffer_size" then ifInteger .writeBufferSize value
  else if cstr key = lit "max_open_files" then ifInteger .maxFileSize value
  else if cstr key = lit "compression" then ifInteger .compression value
  else if cstr key = lit "read_option" then checkUdata .read .readOptions value
  else if cstr key = lit "write_option" then checkUdata .write .writeOptions value
  else some []

/-- The loop body of `lua_leveldb_readoption_new`. -/
def readOption (key : List UInt8) (value : LuaObject) : Option (List Setting) :=
  if cstr key = lit "verify_checksums" then ifBoolean .verifyChecksums value
  else if cstr key = lit "fill_cache" then ifBoolean .fillCache value
  else some []

/-- The loop body of `lua_leveldb_writeoption_new`. -/
def writeOption (key : List UInt8) (value : LuaObject) : Option (List Setting) :=
  if cstr key = lit "fill_cache" then ifBoolean .sync value else some []

/-! ## The loop -/

/-- The Lua stack, its top first; the keys given to `lua_next`, the string keys seen and the settings made so far. -/
structure LoopState where
  stack : List LuaObject
  asked : List LuaObject
  visited : List LuaObject
  settings : List Setting

/-- How a loop ends: `lua_next` returns 0, an option is refused by `luaL_checkudata` (with the stack below its key), or
`lua_next` does not find its key. -/
inductive LoopEnd
  | done (st : LoopState)
  | refused (st : LoopState)
  | invalidKey (st : LoopState)

/-- The state in which the loop ends. -/
def LoopEnd.state : LoopEnd → LoopState
  | .done st | .refused st | .invalidKey st => st

/-- The loop `while ( lua_next(L, idx) != 0 )`: `none` when the fuel is used up, or the stack is empty. -/
def optionLoop (option : List UInt8 → LuaObject → Option (List Setting)) (table : OptionTable) :
    ℕ → LoopState → Option LoopEnd
  | 0, _ => none
  | fuel + 1, st =>
    match st.stack with
    | [] => none
    | top :: stack =>
      let asked := st.asked ++ [top]
      match Traversal.after .nil top table.entries with
      | none => some (.invalidKey { st with stack := stack, asked := asked })
      | some [] => some (.done { st with stack := stack, asked := asked })
      | some ((.string key, value) :: _) =>
        match option key value with
        | none => some (.refused { st with stack := stack, asked := asked })
        | some settings =>
          optionLoop option table fuel
            ⟨.string key :: stack, asked, st.visited ++ [.string key], st.settings ++ settings⟩
      -- `continue`: the value stays on top
      | some ((key, value) :: _) =>
        optionLoop option table fuel { st with stack := value :: key :: stack, asked := asked }

/-- The state before the loop: `lua_pushnil`. -/
def loopStart (stack : List LuaObject) : LoopState := ⟨.nil :: stack, [], [], []⟩

/-- **The property of a loop**, with `stack` below it: it ends by itself or at an option that is refused, asks only for
keys of the table, sees each string key once, and leaves the stack as it was. -/
def Traversed (option : List UInt8 → LuaObject → Option (List Setting)) (table : OptionTable)
    (stack : List LuaObject) : Prop :=
  ∃ fuel e, optionLoop option table fuel (loopStart stack) = some e ∧ e.state.stack = stack ∧
    (∀ key ∈ e.state.asked, key = .nil ∨ key ∈ table.entries.map Prod.fst) ∧
    match e with
    | .done st => ∀ key ∈ table.entries.map Prod.fst, key.isString → st.visited.count key = 1
    | .refused st => st.visited.Nodup
    | .invalidKey _ => False

/-- Every key is a string, up to an option that is refused. -/
def Clean (option : List UInt8 → LuaObject → Option (List Setting)) : List (LuaObject × LuaObject) → Prop
  | [] => True
  | (.string key, value) :: entries => option key value = none ∨ Clean option entries
  | _ :: _ => False

variable {option : List UInt8 → LuaObject → Option (List Setting)} {table : OptionTable}

/-! ## A value left behind -/

theorem buried_loop {n : ℕ} : ∀ (fuel : ℕ) {st : LoopState} {e : LoopEnd}, n < st.stack.length →
    optionLoop option table fuel st = some e → n ≤ e.state.stack.length
  | 0, _, _, _, h => by cases h
  | fuel + 1, st, e, hn, h => by
    unfold optionLoop at h
    split at h
    · cases h
    · rename_i top stack hstack
      rw [hstack, List.length_cons] at hn
      dsimp only at h
      split at h
      · cases h
        exact Nat.le_of_lt_succ hn
      · cases h
        exact Nat.le_of_lt_succ hn
      · split at h
        · cases h
          exact Nat.le_of_lt_succ hn
        · refine buried_loop fuel ?_ h
          rw [List.length_cons]
          exact hn
      · refine buried_loop fuel ?_ h
        rw [List.length_cons, List.length_cons]
        omega

/-! ## One round -/

section Round

variable {key : LuaObject} {stack : List LuaObject} {st : LoopState} (hstack : st.stack = key :: stack) (fuel : ℕ)
include hstack

theorem optionLoop_done (hafter : Traversal.after .nil key table.entries = some []) :
    optionLoop option table (fuel + 1) st = some (.done { st with stack := stack, asked := st.asked ++ [key] }) := by
  rw [optionLoop, hstack]
  dsimp only
  rw [hafter]

theorem optionLoop_string {s : List UInt8} {value : LuaObject} {rest : List (LuaObject × LuaObject)}
    (hafter : Traversal.after .nil key table.entries = some ((.string s, value) :: rest)) :
    optionLoop option table (fuel + 1) st =
      match option s value with
      | none => some (.refused { st with stack := stack, asked := st.asked ++ [key] })
      | some settings => optionLoop option table fuel
          ⟨.string s :: stack, st.asked ++ [key], st.visited ++ [.string s], st.settings ++ settings⟩ := by
  rw [optionLoop, hstack]
  dsimp only
  rw [hafter]

theorem optionLoop_other {k value : LuaObject} {rest : List (LuaObject × LuaObject)} (hk : k.isString = false)
    (hafter : Traversal.after .nil key table.entries = some ((k, value) :: rest)) :
    optionLoop option table (fuel + 1) st =
      optionLoop option table fuel { st with stack := value :: k :: stack, asked := st.asked ++ [key] } := by
  rw [optionLoop, hstack]
  dsimp only
  rw [hafter]
  cases k with
  | string s => cases hk
  | _ => rfl

end Round

/-! ## The traversal -/

theorem clean_cons_other {k value : LuaObject} {rest : List (LuaObject × LuaObject)} (hk : k.isString = false) :
    ¬ Clean option ((k, value) :: rest) := by
  cases k with
  | string s => cases hk
  | _ => exact id

/-- Behind `key`, the loop ends with the stack as it was only if the rest of the table is clean. -/
theorem clean_of_loop : ∀ (rest : List (LuaObject × LuaObject)) {key : LuaObject} {stack : List LuaObject}
    {st : LoopState}, st.stack = key :: stack → Traversal.after .nil key table.entries = some rest →
    ∀ {fuel : ℕ} {e : LoopEnd}, optionLoop option table fuel st = some e → e.state.stack = stack → Clean option rest
  | [], _, _, _, _, _, _, _, _, _ => trivial
  | (k, value) :: rest, key, stack, st, hstack, hafter, fuel, e, h, he => by
    match fuel with
    | 0 => cases h
    | fuel + 1 =>
      cases hk : k.isString with
      | false =>
        rw [optionLoop_other hstack fuel hk hafter] at h
        have hlen := @buried_loop option table (stack.length + 1) fuel _ _ (by simp) h
        rw [he] at hlen
        omega
      | true =>
        obtain ⟨s, rfl⟩ : ∃ s, k = .string s := by
          cases k with
          | string s => exact ⟨s, rfl⟩
          | _ => cases hk
        rw [optionLoop_string hstack fuel hafter] at h
        cases hoption : option s value with
        | none => exact .inl hoption
        | some settings =>
          rw [hoption] at h
          exact .inr (clean_of_loop rest rfl (Traversal.after_next table.nodup table.keys hafter) h he)

theorem loop_of_clean : ∀ (rest : List (LuaObject × LuaObject)) {key : LuaObject} {stack : List LuaObject}
    {st : LoopState}, st.stack = key :: stack → Traversal.after .nil key table.entries = some rest →
    (∀ k ∈ st.asked ++ [key], k = .nil ∨ k ∈ table.entries.map Prod.fst) →
    (∀ e ∈ rest, e ∈ table.entries) → Clean option rest →
    ∃ fuel e, optionLoop option table fuel st = some e ∧ e.state.stack = stack ∧
      (∀ k ∈ e.state.asked, k = .nil ∨ k ∈ table.entries.map Prod.fst) ∧
      ((∃ st', e = .done st' ∧ st'.visited = st.visited ++ rest.map Prod.fst) ∨
        ∃ st' seen, e = .refused st' ∧ st'.visited = st.visited ++ seen ∧ seen.Sublist (rest.map Prod.fst))
  | [], key, stack, st, hstack, hafter, hasked, _, _ =>
    ⟨1, _, optionLoop_done hstack 0 hafter, rfl, hasked, .inl ⟨_, rfl, (List.append_nil _).symm⟩⟩
  | (k, value) :: rest, key, stack, st, hstack, hafter, hasked, hmem, hclean => by
    cases hk : k.isString with
    | false => exact absurd hclean (clean_cons_other hk)
    | true =>
      obtain ⟨s, rfl⟩ : ∃ s, k = .string s := by
        cases k with
        | string s => exact ⟨s, rfl⟩
        | _ => cases hk
      cases hoption : option s value with
      | none =>
        refine ⟨1, .refused { st with stack := stack, asked := st.asked ++ [key] }, ?_, rfl, hasked, ?_⟩
        · rw [optionLoop_string hstack 0 hafter, hoption]
        · exact .inr ⟨_, [], rfl, (List.append_nil _).symm, List.nil_sublist _⟩
      | some settings =>
        have hkey : LuaObject.string s ∈ table.entries.map Prod.fst := List.mem_map_of_mem (hmem _ List.mem_cons_self)
        obtain ⟨fuel, e, hrun, hend, hask, hseen⟩ := @loop_of_clean rest (.string s) stack
          ⟨.string s :: stack, st.asked ++ [key], st.visited ++ [.string s], st.settings ++ settings⟩ rfl
          (Traversal.after_next table.nodup table.keys hafter)
          (fun k' hk' => (List.mem_append.mp hk').elim (hasked k') fun h => .inr (List.mem_singleton.mp h ▸ hkey))
          (fun e he => hmem e (List.mem_cons_of_mem _ he)) (hclean.resolve_left (by rw [hoption]; exact nofun))
        refine ⟨fuel + 1, e, by rw [optionLoop_string hstack fuel hafter, hoption]; exact hrun, hend, hask, ?_⟩
        obtain ⟨st', rfl, hvisited⟩ | ⟨st', seen, rfl, hvisited, hsub⟩ := hseen
        · exact .inl ⟨st', rfl, by rw [hvisited, List.append_assoc, List.singleton_append, List.map_cons]⟩
        · refine .inr ⟨st', .string s :: seen, rfl, ?_, hsub.cons_cons _⟩
          rw [hvisited, List.append_assoc, List.singleton_append]

theorem traversed_iff (option : List UInt8 → LuaObject → Option (List Setting)) (table : OptionTable)
    (stack : List LuaObject) : Traversed option table stack ↔ Clean option table.entries := by
  have hstart := Traversal.after_nil LuaObject.nil table.entries
  constructor
  · rintro ⟨fuel, e, hrun, hend, -⟩
    exact clean_of_loop _ rfl hstart hrun hend
  · intro hclean
    obtain ⟨fuel, e, hrun, hend, hask, hseen⟩ := @loop_of_clean option table table.entries .nil stack
      (loopStart stack) rfl hstart (fun k hk => .inl (List.mem_singleton.mp hk)) (fun e he => he) hclean
    refine ⟨fuel, e, hrun, hend, hask, ?_⟩
    obtain ⟨st', rfl, hvisited⟩ | ⟨st', seen, rfl, hvisited, hsub⟩ := hseen
    · intro key hkey _
      rw [hvisited]
      exact List.count_eq_one_of_mem table.nodup hkey
    · have hnodup := table.nodup.sublist hsub
      show st'.visited.Nodup
      rw [hvisited]
      exact hnodup

/-- Where no option is refused, a clean table has string keys only. -/
theorem clean_iff_of_total (htotal : ∀ key value, option key value ≠ none) :
    ∀ entries : List (LuaObject × LuaObject), Clean option entries ↔ ∀ e ∈ entries, e.1.isString
  | [] => iff_of_true trivial nofun
  | (k, value) :: entries => by
    rw [List.forall_mem_cons, ← clean_iff_of_total htotal entries]
    cases k with
    | string s => exact ⟨fun h => ⟨rfl, h.resolve_left (htotal s value)⟩, fun h => .inr h.2⟩
    | _ => exact ⟨False.elim, fun h => Bool.noConfusion h.1⟩

theorem ifBoolean_ne_none (set : Bool → Setting) (value : LuaObject) : ifBoolean set value ≠ none := by
  cases value <;> nofun

theorem readOption_ne_none (key : List UInt8) (value : LuaObject) : readOption key value ≠ none := by
  unfold readOption
  split_ifs
  · exact ifBoolean_ne_none _ value
  · exact ifBoolean_ne_none _ value
  · nofun

theorem writeOption_ne_none (key : List UInt8) (value : LuaObject) : writeOption key value ≠ none := by
  unfold writeOption
  split_ifs
  · exact ifBoolean_ne_none _ value
  · nofun

/-- **The option tables.** The loop of `new` traverses exactly the tables whose keys are strings up to an option that it
refuses, and the loops of `createReadOption` and `createWriteOption` exactly those whose keys are all strings. -/
theorem optionLoop_iff (table : OptionTable) (stack : List LuaObject) :
    (Traversed newOption table stack ↔ Clean newOption table.entries) ∧
    (Traversed readOption table stack ↔ ∀ e ∈ table.entries, e.1.isString) ∧
    (Traversed writeOption table stack ↔ ∀ e ∈ table.entries, e.1.isString) := by
  refine ⟨traversed_iff _ table stack, ?_, ?_⟩
  · rw [traversed_iff, clean_iff_of_total readOption_ne_none]
  · rw [traversed_iff, clean_iff_of_total writeOption_ne_none]

/-- The table with `true` at index 1. -/
def arrayOption : OptionTable where
  entries := [(.integer 1, .boolean true)]
  nodup := List.nodup_singleton _
  keys := List.forall_mem_singleton.mpr nofun
  values := List.forall_mem_singleton.mpr nofun

/-- The value at index 1 is not found among the keys. -/
theorem not_optionLoop : ¬ ∀ (table : OptionTable) (stack : List LuaObject), Traversed newOption table stack ∧
    Traversed readOption table stack ∧ Traversed writeOption table stack := fun hall =>
  (traversed_iff newOption arrayOption []).mp (hall arrayOption []).1

end Sarah.LevelDb
