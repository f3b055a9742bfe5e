import SarahClient.April.Value
import SarahClient.Lib.HeapBuffer
import SarahClient.Mysql.BatchAdd

/-!
# `lua_mysql_add` and `lua_mysql_update` of `lua_mysql.c`

Both walk the table of a record while they add to the buffer, and read the texts of its values behind pointers to
strings that they have popped. `gc` says at which allocations the collector runs, and `elsewhere` which strings the
rest of the program holds.

* `valueText`, `recordLoop`: the traversal that both functions share; `valueLoop`: the list of the values;
* `luaMysqlAdd`, `luaMysqlUpdate`: the queries that are executed; `addSql`, `updateSql`: what the record stands for;
* **`recordLoop_of_fits`**, **`recordLoop_of_grows`**: the traversal while the buffer does not grow, and when it does.
-/

namespace Sarah

open StackBuffer StringHeap

/-- The Lua stack with the buffer, and the strings. -/
abbrev LuaCall := HeapWriter LuaVal UInt8

/-- The strings of the table, and those that the rest of the program holds. -/
def heldString (elsewhere : List UInt8 → Bool) (row : Row) (s : List UInt8) : Bool :=
  elsewhere s || row.any fun e => e.1 = s || e.2 = .string s

section Model

variable (gc : ℕ → Bool) (escape : List UInt8 → CString) (floatText : UInt64 → CString) (held : List UInt8 → Bool)

/-- The pointer `val`: a literal, or the string of `lua_pushlstring` or `lua_pushfstring`, which is popped. -/
def valueText (v : Scalar) (heap : Strings UInt8) : TextPtr UInt8 × Strings UInt8 :=
  match v with
  | .boolean b => (.static (if b then lit "1" else lit "0"), heap)
  | v => push gc shortString held (scalarText escape floatText v).1 heap

/-- A text between two marks, or nothing. -/
def quoted (mark : Option (List UInt8)) (val : TextPtr UInt8) : List (TextPtr UInt8) :=
  match mark with
  | none => []
  | some q => [.static q, val, .static q]

/-- The loop over the table, with what it adds for a key, and with the mark around a value that it adds at once. It
collects the pointers to the values. -/
def recordLoop (keyPieces : Bool → List UInt8 → List (List UInt8)) (mark : Scalar → Option (List UInt8)) :
    ℕ → Bool → List (TextPtr UInt8) → LuaCall → Option (List (TextPtr UInt8) × LuaCall)
  | 0, _, _, _ => none
  | fuel + 1, first, vals, w =>
    (luaNext 3 w.buf).bind fun r =>
      if r.1 = false then some (vals, ⟨r.2, w.heap⟩)
      else
        match r.2.stack with
        | _ :: .val (.scalar (.string key)) :: _ =>
          (addTexts gc ((keyPieces first key).map .static) ⟨r.2, w.heap⟩).bind fun w =>
            -- `lua_type(L, -1)`, which is an error for a box
            match w.buf.stack with
            | .val (.scalar v) :: _ =>
              let val := valueText gc escape floatText held v w.heap
              (addTexts gc (quoted (mark v) val.1) ⟨w.buf, val.2⟩).bind fun w =>
                recordLoop keyPieces mark fuel false (vals ++ [val.1]) ⟨w.buf.pop 1, w.heap⟩
            | _ => none
        | _ => none

/-- A key in the field list of `add`. -/
def addKey (first : Bool) (key : List UInt8) : List (List UInt8) := (if first then [] else [lit ","]) ++ [cstr key]

/-- A key in the list of `update`. -/
def updateKey (first : Bool) (key : List UInt8) : List (List UInt8) := addKey first key ++ [lit "="]

/-- The mark around a value in the list of `update`. -/
def updateMark (v : Scalar) : Option (List UInt8) :=
  match v with
  | .string _ => some (lit "'")
  | _ => some []

/-- The loop over `val_list`. -/
def valueLoop : Bool → List (TextPtr UInt8) → LuaCall → Option LuaCall
  | _, [], w => some w
  | first, val :: vals, w =>
    (addTexts gc [.static (if first then lit "'" else lit ",'"), val, .static (lit "'")] w).bind (valueLoop false vals)

/-- The arguments: the table, and the text of the fourth one. -/
def recordArgs (tblName : CString) (row : Row) (text : Option CString) : List (Slot LuaVal) :=
  (match text with
    | none => []
    | some text => [.val (.scalar (.string text.1))]) ++
  [.val (.row row), .val (.scalar (.string tblName.1)), .val .userdata]

/-- The start of a call: the arguments, an empty buffer, and no string that only the call holds. -/
def recordCall (tblName : CString) (row : Row) (text : Option CString) : LuaCall :=
  ⟨⟨recordArgs tblName row text, [], lualBuffersize, false⟩, .empty⟩

/-- `lua_mysql_add`: the query that it executes. -/
def luaMysqlAdd (tblName : CString) (row : Row) (onDuplicateKey : Option CString) : Option (List UInt8) :=
  (addTexts gc ([lit "INSERT INTO ", tblName.1, lit "("].map .static)
    (recordCall tblName row onDuplicateKey)).bind fun w =>
  (recordLoop gc escape floatText held addKey (fun _ => none) (2 * row.length + 2) true []
    ⟨w.buf.push .nil, w.heap⟩).bind fun r =>
  (addTexts gc ([lit ") VALUES("].map .static) r.2).bind fun w =>
  (valueLoop gc true r.1 w).bind fun w =>
  (addTexts gc (([lit ")"] ++ duplicatePart onDuplicateKey).map .static) w).bind fun w =>
  (pushResult w.buf).map Prod.fst

/-- `lua_mysql_update`: the query that it executes. -/
def luaMysqlUpdate (tblName : CString) (row : Row) (updCond : CString) : Option (List UInt8) :=
  (addTexts gc ([lit "UPDATE ", tblName.1, lit " SET "].map .static)
    (recordCall tblName row (some updCond))).bind fun w =>
  (recordLoop gc escape floatText held updateKey updateMark (2 * row.length + 2) true []
    ⟨w.buf.push .nil, w.heap⟩).bind fun r =>
  (addTexts gc ([lit " WHERE ", updCond.1].map .static) r.2).bind fun w =>
  (pushResult w.buf).map Prod.fst

end Model

/-! ## What the record stands for -/

section Statements

variable (escape : List UInt8 → CString) (floatText : UInt64 → CString)

/-- A value in the statement of `add`. -/
def valueLiteral (v : Scalar) : List UInt8 := lit "'" ++ (scalarText escape floatText v).1 ++ lit "'"

/-- A value in the statement of `update`: strings are quoted. -/
def setLiteral (v : Scalar) : List UInt8 :=
  match v with
  | .string _ => valueLiteral escape floatText v
  | _ => (scalarText escape floatText v).1

/-- The statement that inserts the record. -/
def addSql (tblName : CString) (row : Row) (onDuplicateKey : Option CString) : List UInt8 :=
  insertFields tblName row ++ lit ") VALUES(" ++ commaSep (row.map fun e => valueLiteral escape floatText e.2) ++
    lit ")" ++ (duplicatePart onDuplicateKey).flatten

/-- The statement that updates the fields of the record. -/
def updateSql (tblName : CString) (row : Row) (updCond : CString) : List UInt8 :=
  lit "UPDATE " ++ tblName.1 ++ lit " SET " ++
    commaSep (row.map fun e => e.1 ++ lit "=" ++ setLiteral escape floatText e.2) ++
    lit " WHERE " ++ updCond.1

end Statements

/-! ## The traversal -/

section Loop

variable {gc : ℕ → Bool} {escape : List UInt8 → CString} {floatText : UInt64 → CString} {held : List UInt8 → Bool}
  {keyPieces : Bool → List UInt8 → List (List UInt8)} {mark : Scalar → Option (List UInt8)}

/-- Where the text of a value comes from. -/
def valueSource (escape : List UInt8 → CString) (floatText : UInt64 → CString) (v : Scalar) : Source UInt8 :=
  match v with
  | .boolean b => .literal (if b then lit "1" else lit "0")
  | v => .pushed (scalarText escape floatText v).1

theorem valueSource_text (v : Scalar) : (valueSource escape floatText v).text = (scalarText escape floatText v).1 := by
  cases v with
  | boolean b => cases b <;> rfl
  | string s => rfl
  | integer n => rfl
  | number n => rfl

theorem valueText_eq (v : Scalar) (heap : Strings UInt8) :
    valueText gc escape floatText held v heap =
      pushSource gc shortString held (valueSource escape floatText v) heap := by
  cases v <;> rfl

theorem deref_valueText (v : Scalar) (heap : Strings UInt8) :
    (valueText gc escape floatText held v heap).2.deref (valueText gc escape floatText held v heap).1 =
      some (scalarText escape floatText v).1 := by
  rw [valueText_eq, deref_pushSource, valueSource_text]

/-- A value between its marks, or nothing. -/
def quotedText (mark : Option (List UInt8)) (s : List UInt8) : List UInt8 :=
  match mark with
  | none => []
  | some q => q ++ s ++ q

/-- What the loop adds for a record. -/
def recordText (escape : List UInt8 → CString) (floatText : UInt64 → CString)
    (keyPieces : Bool → List UInt8 → List (List UInt8)) (mark : Scalar → Option (List UInt8)) : Bool → Row → List UInt8
  | _, [] => []
  | first, e :: es => (keyPieces first e.1).flatten ++ quotedText (mark e.2) (scalarText escape floatText e.2).1 ++
      recordText escape floatText keyPieces mark false es

theorem forall₂_static (heap : Strings UInt8) (cs : List (List UInt8)) :
    List.Forall₂ (fun ptr c => heap.deref ptr = some c) (cs.map TextPtr.static) cs := by
  induction cs with
  | nil => exact List.Forall₂.nil
  | cons c cs ih => exact List.Forall₂.cons rfl ih

theorem forall₂_quoted {heap : Strings UInt8} {val : TextPtr UInt8} {s : List UInt8} (hval : heap.deref val = some s)
    (mark : Option (List UInt8)) : ∃ cs, List.Forall₂ (fun ptr c => heap.deref ptr = some c) (quoted mark val) cs ∧
      cs.flatten = quotedText mark s := by
  cases mark with
  | none => exact ⟨[], List.Forall₂.nil, rfl⟩
  | some q =>
    refine ⟨[q, s, q], List.Forall₂.cons rfl (List.Forall₂.cons hval (List.Forall₂.cons rfl List.Forall₂.nil)), ?_⟩
    simp only [quotedText, List.flatten_cons, List.flatten_nil, List.append_nil, List.append_assoc]

theorem deref_unique {heap : Strings UInt8} {ptrs : List (TextPtr UInt8)} {cs cs' : List (List UInt8)}
    (h : List.Forall₂ (fun ptr c => heap.deref ptr = some c) ptrs cs)
    (h' : List.Forall₂ (fun ptr c => heap.deref ptr = some c) ptrs cs') : cs = cs' :=
  List.right_unique_forall₂' (fun _ _ _ h h' => Option.some.inj (h.symm.trans h')) h h'

theorem luaNext_record {row : Row} {key : LuaVal} {entries : List (LuaVal × LuaVal)}
    (hafter : entriesAfter key (rowEntries row) = some entries) (pre : List (Slot LuaVal)) {base : List (Slot LuaVal)}
    (hbase : base.length = 2) (text : List UInt8) (size : ℕ) (on : Bool) :
    luaNext 3 ⟨.val key :: (pre ++ .val (.row row) :: base), text, size, on⟩ =
      some (nextEntry ⟨.val key :: (pre ++ .val (.row row) :: base), text, size, on⟩
        (pre ++ .val (.row row) :: base) entries) := by
  have htable := stackAt_append (.val key :: pre) base (.val (.row row)) text size on
  rw [hbase] at htable
  exact luaNext_of htable rfl rfl hafter

variable {row : Row} {pre base : List (Slot LuaVal)} {size : ℕ} {on : Bool} {key : LuaVal} {e : List UInt8 × Scalar}
  {es : Row}

theorem recordLoop_done (hbase : base.length = 2) (hafter : entriesAfter key (rowEntries row) = some []) (fuel : ℕ)
    (first : Bool) (vals : List (TextPtr UInt8)) (text : List UInt8) (heap : Strings UInt8) :
    recordLoop gc escape floatText held keyPieces mark (fuel + 1) first vals
        ⟨⟨.val key :: (pre ++ .val (.row row) :: base), text, size, on⟩, heap⟩ =
      some (vals, ⟨⟨pre ++ .val (.row row) :: base, text, size, on⟩, heap⟩) := by
  rw [recordLoop]
  dsimp only
  rw [luaNext_record hafter pre hbase, Option.bind_some]
  rfl

theorem recordLoop_key (hbase : base.length = 2)
    (hafter : entriesAfter key (rowEntries row) = some (rowEntries (e :: es))) {first : Bool} {text : List UInt8}
    (hfit : text.length + (keyPieces first e.1).flatten.length ≤ size) (fuel : ℕ) (vals : List (TextPtr UInt8))
    (heap : Strings UInt8) :
    recordLoop gc escape floatText held keyPieces mark (fuel + 1) first vals
        ⟨⟨.val key :: (pre ++ .val (.row row) :: base), text, size, on⟩, heap⟩ =
      (addTexts gc (quoted (mark e.2) (valueText gc escape floatText held e.2 heap).1)
        ⟨⟨.val (.scalar e.2) :: .val (.scalar (.string e.1)) :: (pre ++ .val (.row row) :: base),
          text ++ (keyPieces first e.1).flatten, size, on⟩,
            (valueText gc escape floatText held e.2 heap).2⟩).bind fun w =>
        recordLoop gc escape floatText held keyPieces mark fuel false
          (vals ++ [(valueText gc escape floatText held e.2 heap).1]) ⟨w.buf.pop 1, w.heap⟩ := by
  rw [recordLoop]
  dsimp only
  rw [luaNext_record hafter pre hbase, Option.bind_some]
  show (addTexts gc ((keyPieces first e.1).map .static)
    ⟨⟨.val (.scalar e.2) :: .val (.scalar (.string e.1)) :: (pre ++ .val (.row row) :: base), text, size, on⟩,
      heap⟩).bind
      _ = _
  rw [addTexts_of_fits (forall₂_static heap _) hfit]
  rfl

theorem recordLoop_field (hbase : base.length = 2)
    (hafter : entriesAfter key (rowEntries row) = some (rowEntries (e :: es))) {first : Bool} {text : List UInt8}
    (hfit : text.length + ((keyPieces first e.1).flatten ++
      quotedText (mark e.2) (scalarText escape floatText e.2).1).length ≤ size) (fuel : ℕ) (vals : List (TextPtr UInt8))
    (heap : Strings UInt8) :
    recordLoop gc escape floatText held keyPieces mark (fuel + 1) first vals
        ⟨⟨.val key :: (pre ++ .val (.row row) :: base), text, size, on⟩, heap⟩ =
      recordLoop gc escape floatText held keyPieces mark fuel false
        (vals ++ [(valueText gc escape floatText held e.2 heap).1])
        ⟨⟨.val (.scalar (.string e.1)) :: (pre ++ .val (.row row) :: base), text ++ ((keyPieces first e.1).flatten ++
          quotedText (mark e.2) (scalarText escape floatText e.2).1), size, on⟩,
          (valueText gc escape floatText held e.2 heap).2⟩ := by
  rw [List.length_append] at hfit
  obtain ⟨cs, hcs, htext⟩ := forall₂_quoted (@deref_valueText gc escape floatText held e.2 heap) (mark e.2)
  rw [recordLoop_key hbase hafter (by omega), addTexts_of_fits hcs (by
    rw [htext]
    dsimp only
    rw [List.length_append]
    omega), htext, Option.bind_some, ← List.append_assoc]
  rfl

/-- **The traversal** while the buffer does not grow. -/
theorem recordLoop_of_fits (hnodup : (row.map Prod.fst).Nodup) (hbase : base.length = 2) : ∀ (es : Row) {key : LuaVal}
    {fuel : ℕ} {first : Bool} {vals : List (TextPtr UInt8)} {text : List UInt8} {heap : Strings UInt8},
    entriesAfter key (rowEntries row) = some (rowEntries es) → es.length < fuel →
    text.length + (recordText escape floatText keyPieces mark first es).length ≤ size →
      recordLoop gc escape floatText held keyPieces mark fuel first vals
          ⟨⟨.val key :: (pre ++ .val (.row row) :: base), text, size, on⟩, heap⟩ =
        some (vals ++ (pushSources gc shortString held (es.map fun e => valueSource escape floatText e.2) heap).1,
          ⟨⟨pre ++ .val (.row row) :: base, text ++ recordText escape floatText keyPieces mark first es, size, on⟩,
            (pushSources gc shortString held (es.map fun e => valueSource escape floatText e.2) heap).2⟩)
  | _, _, 0, _, _, _, _, _, hfuel, _ => absurd hfuel (Nat.not_lt_zero _)
  | [], _, fuel + 1, first, vals, text, heap, hafter, _, _ => by
    rw [recordLoop_done hbase hafter, recordText, List.append_nil]
    exact congrArg (fun l => some (l, _)) (List.append_nil vals).symm
  | e :: es, _, fuel + 1, first, vals, text, heap, hafter, hfuel, hfit => by
    rw [recordText, List.length_append] at hfit
    rw [recordLoop_field hbase hafter (by omega), recordLoop_of_fits hnodup hbase es (rowEntries_next hnodup hafter)
      (by rw [List.length_cons] at hfuel; omega) (by rw [List.length_append]; omega), List.map_cons, pushSources_cons,
      ← valueText_eq, recordText, List.append_assoc, List.append_assoc]
    rfl

theorem lost_of_addTexts {ptrs : List (TextPtr UInt8)} {w w' : LuaCall} (hlost : Lost w.buf)
    (h : addTexts gc ptrs w = some w') : Lost w'.buf := by
  obtain ⟨⟨cs, -, hall⟩, -⟩ := addTexts_eq_some ptrs h
  exact (kept_lost fun _ => True).addAll cs (fun _ _ => trivial) hlost hall

theorem lost_of_recordLoop : ∀ (fuel : ℕ) (first : Bool) (vals : List (TextPtr UInt8)) {w : LuaCall}
    {r : List (TextPtr UInt8) × LuaCall}, Lost w.buf →
      recordLoop gc escape floatText held keyPieces mark fuel first vals w = some r → Lost r.2.buf
  | 0, _, _, _, _, _, h => by cases h
  | fuel + 1, first, vals, w, r, hlost, h => by
    obtain ⟨q, hnext, h⟩ := Option.bind_eq_some_iff.mp h
    have hq : Lost q.2 := luaNext_kept (kept_lost fun _ => True) hlost hnext
    by_cases hend : q.1 = false
    · rw [if_pos hend] at h
      cases h
      exact hq
    rw [if_neg hend] at h
    split at h
    · obtain ⟨w₁, hkey, h⟩ := Option.bind_eq_some_iff.mp h
      have hlost₁ : Lost w₁.buf := lost_of_addTexts hq hkey
      split at h
      · obtain ⟨w₂, hval, h⟩ := Option.bind_eq_some_iff.mp h
        have hlost₂ : Lost w₂.buf := by
          refine lost_of_addTexts ?_ hval
          exact hlost₁
        exact lost_of_recordLoop fuel false _ ((kept_lost fun _ => True).pop hlost₂ 1) h
      · cases h
    · cases h

/-- A key that does not fit ends the call: the box hides the value, or is hidden itself. -/
theorem recordLoop_of_key_grows (hbase : base.length = 2)
    (hafter : entriesAfter key (rowEntries row) = some (rowEntries (e :: es))) {first : Bool} {text : List UInt8}
    (hle : text.length ≤ size) (hgrow : size < text.length + (keyPieces first e.1).flatten.length) (fuel : ℕ)
    (vals : List (TextPtr UInt8)) (heap : Strings UInt8) :
    recordLoop gc escape floatText held keyPieces mark (fuel + 1) first vals
      ⟨⟨.val key :: (pre ++ .val (.row row) :: base), text, size, on⟩, heap⟩ = none := by
  rw [recordLoop]
  dsimp only
  rw [luaNext_record hafter pre hbase, Option.bind_some]
  show (addTexts gc ((keyPieces first e.1).map .static)
    ⟨⟨.val (.scalar e.2) :: .val (.scalar (.string e.1)) :: (pre ++ .val (.row row) :: base), text, size, on⟩,
      heap⟩).bind
      _ = none
  cases hadd : addTexts gc ((keyPieces first e.1).map .static) _ with
  | none => rfl
  | some w =>
    obtain ⟨⟨cs, hcs, hall⟩, -⟩ := addTexts_eq_some _ hadd
    obtain rfl : cs = keyPieces first e.1 := deref_unique hcs (forall₂_static heap _)
    cases on with
    | true =>
      rw [addAll_stuck _ rfl (by simp) hgrow hle] at hall
      cases hall
    | false =>
      obtain ⟨size', hbox, -⟩ := addAll_grow (keyPieces first e.1)
        (.val (.scalar e.2) :: .val (.scalar (.string e.1)) :: (pre ++ .val (.row row) :: base)) hle hgrow
      rw [hbox] at hall
      rw [Option.bind_some, ← Option.some.inj hall]

/-- **A traversal in which the buffer grows** loses the box. -/
theorem recordLoop_of_grows (hnodup : (row.map Prod.fst).Nodup) (hbase : base.length = 2)
    (hbox : on = false → .box ∉ pre ++ .val (.row row) :: base) : ∀ (es : Row) {key : LuaVal} {fuel : ℕ} {first : Bool}
    {vals : List (TextPtr UInt8)} {text : List UInt8} {heap : Strings UInt8},
    entriesAfter key (rowEntries row) = some (rowEntries es) → text.length ≤ size →
    size < text.length + (recordText escape floatText keyPieces mark first es).length →
      ∀ r, recordLoop gc escape floatText held keyPieces mark fuel first vals
        ⟨⟨.val key :: (pre ++ .val (.row row) :: base), text, size, on⟩, heap⟩ = some r → Lost r.2.buf
  | _, _, 0, _, _, _, _, _, _, _, _, h => by cases h
  | [], _, _ + 1, _, _, _, _, _, hle, hgrow, _, _ => by
    rw [recordText, List.length_nil] at hgrow
    omega
  | e :: es, _, fuel + 1, first, vals, text, heap, hafter, hle, hgrow, r, h => by
    rw [recordText, List.length_append] at hgrow
    by_cases hkey : text.length + (keyPieces first e.1).flatten.length ≤ size
    swap
    · rw [recordLoop_of_key_grows hbase hafter hle (Nat.not_le.mp hkey)] at h
      cases h
    by_cases hfield : text.length + ((keyPieces first e.1).flatten ++
        quotedText (mark e.2) (scalarText escape floatText e.2).1).length ≤ size
    · rw [recordLoop_field hbase hafter hfield] at h
      refine recordLoop_of_grows hnodup hbase hbox es (rowEntries_next hnodup hafter)
        (by rw [List.length_append]; exact hfield) ?_ r h
      simp only [List.length_append] at hgrow ⊢
      omega
    · -- the value does not fit, and the pop of the value pops the box
      rw [recordLoop_key hbase hafter hkey] at h
      obtain ⟨w, hadd, hloop⟩ := Option.bind_eq_some_iff.mp h
      obtain ⟨⟨cs, hcs, hall⟩, -⟩ := addTexts_eq_some _ hadd
      obtain ⟨cs', hcs', htext⟩ := forall₂_quoted (@deref_valueText gc escape floatText held e.2 heap) (mark e.2)
      obtain rfl : cs = cs' := deref_unique hcs hcs'
      rw [List.length_append, ← htext] at hfield
      rw [← List.length_append] at hkey
      cases on with
      | true =>
        rw [addAll_stuck _ rfl (by simp) (by dsimp only; rw [List.length_append]; omega) hkey] at hall
        cases hall
      | false =>
        obtain ⟨size', hgrown, -⟩ := addAll_grow cs
          (.val (.scalar e.2) :: .val (.scalar (.string e.1)) :: (pre ++ .val (.row row) :: base)) hkey
          (by rw [List.length_append]; omega)
        rw [hgrown] at hall
        refine lost_of_recordLoop fuel false _ ?_ hloop
        rw [← Option.some.inj hall]
        exact ⟨rfl, by simpa [State.pop] using hbox rfl⟩

end Loop

end Sarah
