import SarahClient.CNum
import SarahClient.Lib.StackBuffer

/-!
# `lua_mysql_batch_add` of `lua_mysql.c`

`escape` stands for `mysql_real_escape_string` and `floatText` for the `%f` of `lua_pushfstring`. A Lua error, and an
access through a pointer that is no box, is `none`. Allocations succeed.

* `LuaVal`, `LuaState`: what lies on the Lua stack; the SQL text grows in a `luaL_Buffer`, which is a `StackBuffer`;
* `luaNext`, `getField`: the calls on tables;
* `keyLoop`, `fieldLoop`, `dataLoop`, `luaMysqlBatchAdd`: the query that is executed;
* `insertSql`: the statement that the data stands for.
-/

namespace Sarah

open StackBuffer

/-- A C string. -/
abbrev CString := { s : List UInt8 // 0 ∉ s }

/-- A value of a field; a float is its 64 bits. -/
inductive Scalar
  | string (s : List UInt8)
  | integer (n : ℤ)
  | number (n : UInt64)
  | boolean (b : Bool)
  deriving DecidableEq

/-- A row table, in the order in which `lua_next` traverses it. -/
abbrev Row := List (List UInt8 × Scalar)

/-- A value on the Lua stack; the table of the rows is given in the order of its traversal. -/
inductive LuaVal
  | nil
  | scalar (v : Scalar)
  | row (row : Row)
  | data (rows : List (ℤ × Row))
  | userdata
  deriving DecidableEq

/-- A Lua stack with the buffer of `luaL_Buffer`. -/
abbrev LuaState := State LuaVal UInt8

/-! ## The Lua stack -/

/-- The value at an absolute index. -/
def stackAt (st : LuaState) (idx : ℕ) : Option (Slot LuaVal) := st.stack.reverse[idx - 1]?

/-- The keys and values of a row table. -/
def rowEntries (row : Row) : List (LuaVal × LuaVal) := row.map fun e => (.scalar (.string e.1), .scalar e.2)

/-- The keys and values of the table of the rows. -/
def dataEntries (data : List (ℤ × Row)) : List (LuaVal × LuaVal) :=
  data.map fun e => (.scalar (.integer e.1), .row e.2)

/-- The entries of a table, in the order of `lua_next`. -/
def LuaVal.entries : LuaVal → Option (List (LuaVal × LuaVal))
  | .row es => some (rowEntries es)
  | .data es => some (dataEntries es)
  | _ => none

/-- What follows a key in the traversal; a key that is not there is an error. -/
def entriesAfter (key : LuaVal) (entries : List (LuaVal × LuaVal)) : Option (List (LuaVal × LuaVal)) :=
  if key = .nil then some entries
  else
    match entries.dropWhile fun e => e.1 ≠ key with
    | [] => none
    | _ :: rest => some rest

/-- What `lua_next` leaves in place of the key. -/
def nextEntry (st : LuaState) (stack : List (Slot LuaVal)) : List (LuaVal × LuaVal) → Bool × LuaState
  | [] => (false, { st with stack := stack })
  | (key, value) :: _ => (true, { st with stack := .val value :: .val key :: stack })

/-- `lua_next` on the table at `idx`, with its result. -/
def luaNext (idx : ℕ) (st : LuaState) : Option (Bool × LuaState) :=
  match stackAt st idx, st.stack with
  | some (.val table), .val key :: stack =>
    table.entries.bind fun entries => (entriesAfter key entries).map (nextEntry st stack)
  | _, _ => none

/-- `lua_getfield` of a value that can stand in a query. -/
def getField (st : LuaState) (idx : ℕ) (field : List UInt8) : Option Scalar :=
  match stackAt st idx with
  | some (.val (.row row)) => row.lookup field
  | _ => none

/-! ## The statement -/

variable (escape : List UInt8 → CString) (floatText : UInt64 → CString)

/-- The text of a value in the query. -/
def scalarText : Scalar → CString
  | .string s => escape s
  | .integer n => ⟨decimalInt n, zero_notMem_decimalInt n⟩
  | .number n => floatText n
  | .boolean b => if b then ⟨lit "1", by decide⟩ else ⟨lit "0", by decide⟩

/-- `LUAL_BUFFERSIZE` on a 64-bit system. -/
def lualBuffersize : ℕ := 0x80 * 8 * 8

/-- What a key adds to the field list. -/
def keyPieces (fieldList : List (List UInt8)) (key : List UInt8) : List (List UInt8) :=
  if fieldList = [] then [cstr key] else [lit ",", cstr key]

/-- The loop over the keys of the first row. -/
def keyLoop (stackTop : ℕ) : ℕ → List (List UInt8) → LuaState → Option (List (List UInt8) × LuaState)
  | 0, _, _ => none
  | fuel + 1, fieldList, st =>
    (luaNext stackTop st).bind fun r =>
      if r.1 = false then some (fieldList, r.2)
      else
        match r.2.stack with
        | _ :: .val (.scalar (.string key)) :: _ =>
          (addAll (keyPieces fieldList key) r.2).bind fun st =>
            keyLoop stackTop fuel (fieldList ++ [cstr key]) (st.pop 1)
        | _ => none

/-- What a value adds to its tuple. -/
def fieldPieces (first : Bool) (value : Scalar) : List (List UInt8) :=
  [if first then lit "'" else lit ",'", (scalarText escape floatText value).1, lit "'"]

/-- The loop over the fields of one row. -/
def fieldLoop (stackTop : ℕ) : List (List UInt8) → Bool → LuaState → Option LuaState
  | [], _, st => some st
  | field :: fields, first, st =>
    (getField st stackTop field).bind fun value =>
      (addAll (fieldPieces escape floatText first value) (st.push (.scalar value))).bind fun st =>
        fieldLoop stackTop fields false (st.pop 1)

/-- The loop over the rows. -/
def dataLoop (fieldList : List (List UInt8)) : ℕ → Bool → LuaState → Option LuaState
  | 0, _, _ => none
  | fuel + 1, first, st =>
    (luaNext 3 st).bind fun r =>
      if r.1 = false then some r.2
      else
        (addAll [if first then lit "(" else lit ",("]
          { r.2 with stack := r.2.stack.take 1 ++ r.2.stack }).bind fun st =>
          (fieldLoop escape floatText st.stack.length fieldList true st).bind fun st =>
            (addAll [lit ")"] st).bind fun st => dataLoop fieldList fuel false (st.pop 2)

/-- The end of the statement. -/
def duplicatePart (onDuplicateKey : Option CString) : List (List UInt8) :=
  match onDuplicateKey with
  | none => []
  | some text => [lit " ON DUPLICATE KEY ", text.1]

/-- The Lua stack when the function is called. -/
def batchArgs (tblName : CString) (data : List (ℤ × Row)) (onDuplicateKey : Option CString) : List (Slot LuaVal) :=
  (match onDuplicateKey with
    | none => []
    | some text => [.val (.scalar (.string text.1))]) ++
  [.val (.data data), .val (.scalar (.string tblName.1)), .val .userdata]

/-- `lua_mysql_batch_add`: the query that it executes. A traversal that has lost its place jumps at most once. -/
def luaMysqlBatchAdd (tblName : CString) (data : List (ℤ × Row)) (onDuplicateKey : Option CString) :
    Option (List UInt8) :=
  (addAll [lit "INSERT INTO ", tblName.1, lit "("]
    ⟨batchArgs tblName data onDuplicateKey, [], lualBuffersize, false⟩).bind fun st =>
  (data.lookup 1).bind fun row =>
  (keyLoop (st.stack.length + 1) (2 * row.length + 2) [] ((st.push (.row row)).push .nil)).bind fun r =>
  (addAll [lit ")", lit " VALUES"] r.2).bind fun st =>
  (dataLoop escape floatText r.1 (2 * data.length + 2) true (st.push .nil)).bind fun st =>
  (addAll (duplicatePart onDuplicateKey) st).bind fun st =>
  (pushResult st).map Prod.fst

/-! ## What the data stands for -/

/-- Texts separated by commas. -/
def commaSep (texts : List (List UInt8)) : List UInt8 := (lit ",").intercalate texts

/-- The literal of a field in a row. -/
def fieldLiteral (row : Row) (field : List UInt8) : List UInt8 :=
  lit "'" ++ ((row.lookup field).elim [] fun value => (scalarText escape floatText value).1) ++ lit "'"

/-- The tuple of a row. -/
def rowTuple (fields : List (List UInt8)) (row : Row) : List UInt8 :=
  lit "(" ++ commaSep (fields.map (fieldLiteral escape floatText row)) ++ lit ")"

/-- The statement up to the field list. -/
def insertFields (tblName : CString) (first : Row) : List UInt8 :=
  lit "INSERT INTO " ++ tblName.1 ++ lit "(" ++ commaSep (first.map Prod.fst)

/-- The statement up to the last tuple. -/
def insertRows (tblName : CString) (data : List (ℤ × Row)) (first : Row) : List UInt8 :=
  insertFields tblName first ++ lit ") VALUES" ++
    commaSep (data.map fun e => rowTuple escape floatText (first.map Prod.fst) e.2)

/-- The statement that inserts the rows. -/
def insertSql (tblName : CString) (data : List (ℤ × Row)) (first : Row)
    (onDuplicateKey : Option CString) : List UInt8 :=
  insertRows escape floatText tblName data first ++ (duplicatePart onDuplicateKey).flatten

end Sarah
