import SarahClient.Mysql.Record

/-!
# When `add` and `update` execute the whole statement

Behind the traversal `add` reads the texts of the values, of which the collector may have freed some.

* `Started`, `exists_started`: the call when its first texts are added; `recordQuery`: what both functions do up to
  the end of the traversal;
* `Traversed`, `recordQuery_of_fits`, `fits_of_recordQuery`: the traversal has to fit;
* `UpdateFits`, **`updateSql_iff`**; `StringsKept`, `AddFits`, **`addSql_iff`**: the two conditions;
* **`addUpdate_iff`**: both statements, whenever the collector runs.
-/

namespace Sarah

open StackBuffer StringHeap

/-! ## From the first text to the end of the traversal -/

section Query

variable {gc : ℕ → Bool} {escape : List UInt8 → CString} {floatText : UInt64 → CString} {held : List UInt8 → Bool}
  {keyPieces : Bool → List UInt8 → List (List UInt8)} {mark : Scalar → Option (List UInt8)}
  {tblName : CString} {row : Row} {text : Option CString} {head : List (List UInt8)}

/-- The call when it has added the first texts: the table is at index 3, and the box on top if it is there. -/
structure Started (row : Row) (head : List (List UInt8)) (w : LuaCall) (pre base : List (Slot LuaVal)) : Prop where
  stack : w.buf.stack = pre ++ .val (.row row) :: base
  base : base.length = 2
  text : w.buf.text = head.flatten
  size : w.buf.size = capacity lualBuffersize 0 head
  room : w.buf.text.length ≤ w.buf.size
  top : BoxOnTop w.buf
  free : w.buf.onStack = false → .box ∉ w.buf.stack ∧ w.buf.size = lualBuffersize
  boxed : w.buf.onStack = true → lualBuffersize < head.flatten.length
  heap : ∀ p, w.heap.objs p = none

theorem recordArgs_eq (tblName : CString) (row : Row) (text : Option CString) : ∃ pre base,
    recordArgs tblName row text = pre ++ .val (.row row) :: base ∧ base.length = 2 ∧
      .box ∉ recordArgs tblName row text := by
  cases text with
  | none => exact ⟨[], _, rfl, rfl, by simp [recordArgs]⟩
  | some text => exact ⟨[_], _, rfl, rfl, by simp [recordArgs]⟩

/-- **The first texts** are added. -/
theorem exists_started (gc : ℕ → Bool) (tblName : CString) (row : Row) (text : Option CString)
    (head : List (List UInt8)) :
    ∃ w pre base, addTexts gc (head.map .static) (recordCall tblName row text) = some w ∧
      Started row head w pre base := by
  obtain ⟨pre, base, hargs, hbase, hnobox⟩ := recordArgs_eq tblName row text
  have htop : BoxOnTop (recordCall tblName row text).buf := nofun
  obtain ⟨w, hw, hall⟩ := @addTexts_of_boxSafe LuaVal UInt8 gc (staticPieces head) (recordCall tblName row text) htop
    (Nat.zero_le _) (deref_staticPieces _) (.inr (boxSafe_of_static staticPieces_static))
  rw [staticPieces_fst] at hw
  rw [staticPieces_snd] at hall
  obtain ⟨buf, hadd, htop', hroom, hstack, hfits⟩ := htop.addAll (Nat.zero_le lualBuffersize) head
  obtain rfl : buf = w.buf := Option.some.inj (hadd.symm.trans hall)
  obtain ⟨htext, hsize⟩ := size_of_addAll head hall
  have hlen : ([] : List UInt8).length + head.flatten.length = head.flatten.length := Nat.zero_add _
  rcases hstack with ⟨hsame, hon⟩ | ⟨-, hbox, hon⟩
  · refine ⟨w, pre, base, hw, hsame.trans hargs, hbase, htext, hsize, hroom, htop', fun hoff => ⟨?_, ?_⟩,
      fun hon' => ?_, objs_of_addTexts hw fun _ => rfl⟩
    · rw [hsame]
      exact hnobox
    · have hsame := addAll_of_fits head (hfits hoff)
      rw [hall] at hsame
      rw [Option.some.inj hsame]
      rfl
    · cases hon.symm.trans hon'
  · refine ⟨w, .box :: pre, base, hw, ?_, hbase, htext, hsize, hroom, htop', fun hoff => ?_, fun _ => ?_,
      objs_of_addTexts hw fun _ => rfl⟩
    · exact hbox.trans (congrArg (Slot.box :: ·) hargs)
    · cases hon.symm.trans hoff
    · by_contra hfit
      have hsame := @addAll_of_fits LuaVal UInt8 head (recordCall tblName row text).buf
        (show ([] : List UInt8).length + head.flatten.length ≤ lualBuffersize by rw [hlen]; exact Nat.not_lt.mp hfit)
      rw [hall] at hsame
      rw [Option.some.inj hsame] at hon
      cases hon

/-- The two functions, up to what they do behind the traversal. -/
def recordQuery (gc : ℕ → Bool) (escape : List UInt8 → CString) (floatText : UInt64 → CString)
    (held : List UInt8 → Bool)
    (keyPieces : Bool → List UInt8 → List (List UInt8)) (mark : Scalar → Option (List UInt8)) (head : List (List UInt8))
    (tblName : CString) (row : Row) (text : Option CString)
    (rest : List (TextPtr UInt8) × LuaCall → Option (List UInt8)) : Option (List UInt8) :=
  (addTexts gc (head.map .static) (recordCall tblName row text)).bind fun w =>
    (recordLoop gc escape floatText held keyPieces mark (2 * row.length + 2) true []
      ⟨w.buf.push .nil, w.heap⟩).bind rest

/-- The traversal fits the buffer as the first texts leave it. -/
def TraversalFits (escape : List UInt8 → CString) (floatText : UInt64 → CString)
    (keyPieces : Bool → List UInt8 → List (List UInt8)) (mark : Scalar → Option (List UInt8)) (head : List (List UInt8))
    (row : Row) : Prop :=
  head.flatten.length + (recordText escape floatText keyPieces mark true row).length ≤ capacity lualBuffersize 0 head

theorem entriesAfter_nil (row : Row) : entriesAfter .nil (rowEntries row) = some (rowEntries row) := if_pos rfl

theorem Started.push {w : LuaCall} {pre base : List (Slot LuaVal)} (h : Started row head w pre base) :
    (⟨w.buf.push .nil, w.heap⟩ : LuaCall) =
      ⟨⟨.val .nil :: (pre ++ .val (.row row) :: base), head.flatten, w.buf.size, w.buf.onStack⟩, w.heap⟩ := by
  rw [State.push, h.stack, ← h.text]

/-- The call behind a traversal that fits. -/
structure Traversed (head : List (List UInt8)) (fields : List UInt8) (w : LuaCall) : Prop where
  text : w.buf.text = head.flatten ++ fields
  room : w.buf.text.length ≤ w.buf.size
  top : BoxOnTop w.buf
  free : w.buf.onStack = false → w.buf.size = lualBuffersize
  boxed : w.buf.onStack = true → lualBuffersize < head.flatten.length

theorem Started.traversed {w : LuaCall} {pre base : List (Slot LuaVal)} (h : Started row head w pre base)
    (hfit : TraversalFits escape floatText keyPieces mark head row) (heap : Strings UInt8) :
    Traversed head (recordText escape floatText keyPieces mark true row)
      ⟨⟨pre ++ .val (.row row) :: base, head.flatten ++ recordText escape floatText keyPieces mark true row, w.buf.size,
        w.buf.onStack⟩, heap⟩ where
  text := rfl
  room := by
    dsimp only
    rw [List.length_append, h.size]
    exact hfit
  top := by
    have htop := h.top
    rw [BoxOnTop, h.stack] at htop
    exact htop
  free hoff := (h.free hoff).2
  boxed := h.boxed

/-- **A query whose traversal fits.** -/
theorem recordQuery_of_fits (hnodup : (row.map Prod.fst).Nodup)
    (hfit : TraversalFits escape floatText keyPieces mark head row)
    (rest : List (TextPtr UInt8) × LuaCall → Option (List UInt8)) : ∃ (w : LuaCall) (heap : Strings UInt8),
    Traversed head (recordText escape floatText keyPieces mark true row) w ∧ (∀ p, heap.objs p = none) ∧
    w.heap = (pushSources gc shortString held (row.map fun e => valueSource escape floatText e.2) heap).2 ∧
    recordQuery gc escape floatText held keyPieces mark head tblName row text rest =
      rest ((pushSources gc shortString held (row.map fun e => valueSource escape floatText e.2) heap).1, w) := by
  obtain ⟨w, pre, base, hw, hs⟩ := exists_started gc tblName row text head
  refine ⟨_, w.heap, hs.traversed hfit _, hs.heap, rfl, ?_⟩
  rw [recordQuery, hw, Option.bind_some, hs.push, recordLoop_of_fits hnodup hs.base row (entriesAfter_nil row)
    (by omega)
    (by rw [hs.size]; exact hfit), Option.bind_some, List.nil_append]

/-- **A query that is executed** has a traversal that fits. -/
theorem fits_of_recordQuery (hnodup : (row.map Prod.fst).Nodup)
    {rest : List (TextPtr UInt8) × LuaCall → Option (List UInt8)}
    (hrest : ∀ r, Lost r.2.buf → rest r = none) {sql : List UInt8}
    (h : recordQuery gc escape floatText held keyPieces mark head tblName row text rest = some sql) :
    TraversalFits escape floatText keyPieces mark head row := by
  obtain ⟨w, pre, base, hw, hs⟩ := exists_started gc tblName row text head
  rw [recordQuery, hw, Option.bind_some, hs.push] at h
  obtain ⟨r, hloop, h⟩ := Option.bind_eq_some_iff.mp h
  by_contra hgrow
  rw [TraversalFits, ← hs.size, Nat.not_le] at hgrow
  have hlost := recordLoop_of_grows hnodup hs.base (fun hoff => hs.stack ▸ (hs.free hoff).1) row (entriesAfter_nil row)
    (by rw [← hs.text]; exact hs.room) hgrow r hloop
  rw [hrest r hlost] at h
  cases h

/-! ## Behind the traversal -/

theorem finishTexts_of_lost {ptrs : List (TextPtr UInt8)} {w : LuaCall} (hlost : Lost w.buf) :
    ((addTexts gc ptrs w).bind fun w => (pushResult w.buf).map Prod.fst) = none := by
  cases hadd : addTexts gc ptrs w with
  | none => rfl
  | some w' => rw [Option.bind_some, (lost_of_addTexts hlost hadd).pushResult, Option.map_none]

/-- The pieces of the value list, each pointer with its text. -/
def valuePieces : Bool → List (TextPtr UInt8 × List UInt8) → List (TextPtr UInt8 × List UInt8)
  | _, [] => []
  | first, q :: qs => staticPieces [if first then
    lit "'" else lit ",'"] ++ q :: staticPieces [lit "'"] ++ valuePieces false qs

theorem valueLoop_eq : ∀ (qs : List (TextPtr UInt8 × List UInt8)) (first : Bool) (w : LuaCall),
    valueLoop gc first (qs.map Prod.fst) w = addTexts gc ((valuePieces first qs).map Prod.fst) w
  | [], _, _ => rfl
  | q :: qs, first, w => by
    have hrest : valueLoop gc false (qs.map Prod.fst) = addTexts gc ((valuePieces false qs).map Prod.fst) := by
      funext w
      exact valueLoop_eq qs false w
    rw [List.map_cons, valueLoop, valuePieces, List.map_append, addTexts_append, hrest]
    rfl

theorem valuePieces_text : ∀ (qs : List (TextPtr UInt8 × List UInt8)) (first : Bool),
    ((valuePieces first qs).map Prod.snd).flatten = commaFrom first (qs.map fun q => lit "'" ++ q.2 ++ lit "'")
  | [], first => (commaFrom_nil first).symm
  | q :: qs, first => by
    rw [valuePieces, List.map_append, List.flatten_append, valuePieces_text qs false, List.map_cons, commaFrom_cons]
    cases first <;> simp [staticPieces, commaBefore, lit]

/-- What `add` adds behind the traversal. -/
def addPieces (onDuplicateKey : Option CString) (qs : List (TextPtr UInt8 × List UInt8)) :
    List (TextPtr UInt8 × List UInt8) :=
  staticPieces [lit ") VALUES("] ++ valuePieces true qs ++ staticPieces ([lit ")"] ++ duplicatePart onDuplicateKey)

/-- `lua_mysql_add` behind the traversal. -/
def addRest (gc : ℕ → Bool) (onDuplicateKey : Option CString) (r : List (TextPtr UInt8) × LuaCall) :
    Option (List UInt8) :=
  (addTexts gc ([lit ") VALUES("].map .static) r.2).bind fun w => (valueLoop gc true r.1 w).bind fun w =>
    (addTexts gc (([lit ")"] ++ duplicatePart onDuplicateKey).map .static) w).bind fun w =>
      (pushResult w.buf).map Prod.fst

/-- `lua_mysql_update` behind the traversal. -/
def updateRest (gc : ℕ → Bool) (updCond : CString) (r : List (TextPtr UInt8) × LuaCall) : Option (List UInt8) :=
  (addTexts gc ([lit " WHERE ", updCond.1].map .static) r.2).bind fun w => (pushResult w.buf).map Prod.fst

theorem addRest_eq (onDuplicateKey : Option CString) (qs : List (TextPtr UInt8 × List UInt8)) (w : LuaCall) :
    addRest gc onDuplicateKey (qs.map Prod.fst, w) =
      (addTexts gc ((addPieces onDuplicateKey qs).map Prod.fst) w).bind fun w => (pushResult w.buf).map Prod.fst := by
  rw [addPieces, List.map_append, List.map_append, addTexts_append, addTexts_append, staticPieces_fst, staticPieces_fst,
    Option.bind_assoc, Option.bind_assoc]
  refine Option.bind_congr fun w' _ => ?_
  dsimp only
  rw [valueLoop_eq]

theorem exists_pieces (ptrs : List (TextPtr UInt8)) : ∃ qs : List (TextPtr UInt8 × List UInt8),
    qs.map Prod.fst = ptrs := by
  refine ⟨ptrs.map fun ptr => (ptr, []), ?_⟩
  rw [List.map_map]
  exact List.map_id ptrs

theorem addRest_of_lost (onDuplicateKey : Option CString) (r : List (TextPtr UInt8) × LuaCall) (hlost : Lost r.2.buf) :
    addRest gc onDuplicateKey r = none := by
  obtain ⟨ptrs, w⟩ := r
  obtain ⟨qs, rfl⟩ := exists_pieces ptrs
  exact (addRest_eq onDuplicateKey qs w).trans (finishTexts_of_lost hlost)

/-! ## The texts of the fields -/

theorem recordText_eq {g : List UInt8 × Scalar → List UInt8} (hg : ∀ first e, (keyPieces first e.1).flatten ++
    quotedText (mark e.2) (scalarText escape floatText e.2).1 = commaBefore first (g e)) : ∀ (first : Bool) (row : Row),
    recordText escape floatText keyPieces mark first row = commaFrom first (row.map g)
  | first, [] => (commaFrom_nil first).symm
  | first, e :: es => by
    rw [recordText, hg, recordText_eq hg false es, List.map_cons, commaFrom_cons]

theorem addKey_flatten (first : Bool) (key : List UInt8) :
    (addKey first key).flatten = commaBefore first (cstr key) := by
  cases first <;> simp [addKey, commaBefore]

theorem recordText_add (first : Bool) (row : Row) :
    recordText escape floatText addKey (fun _ => none) first row = commaFrom first (row.map fun e => cstr e.1) :=
  recordText_eq (fun first e => (List.append_nil _).trans (addKey_flatten first e.1)) first row

theorem quotedText_update (v : Scalar) :
    quotedText (updateMark v) (scalarText escape floatText v).1 = setLiteral escape floatText v := by
  cases v with
  | string s => rfl
  | integer n | number n | boolean n => exact List.append_nil _

theorem recordText_update (first : Bool) (row : Row) :
    recordText escape floatText updateKey updateMark first row =
      commaFrom first (row.map fun e => cstr e.1 ++ (lit "=" ++ setLiteral escape floatText e.2)) := by
  refine recordText_eq (fun first e => ?_) first row
  rw [quotedText_update, updateKey, List.flatten_append, addKey_flatten, List.flatten_singleton]
  cases first <;> simp only [commaBefore, Bool.false_eq_true, if_false, if_true, List.append_assoc]

theorem zero_notMem_commaFrom : ∀ {texts : List (List UInt8)} (first : Bool), (∀ text ∈ texts, 0 ∉ text) →
    0 ∉ commaFrom first texts
  | [], first, _ => by
    rw [commaFrom_nil]
    exact List.not_mem_nil
  | text :: texts, first, hall => by
    have hrest := zero_notMem_commaFrom false fun t ht => hall t (List.mem_cons_of_mem text ht)
    have htext := hall text List.mem_cons_self
    rw [commaFrom_cons, List.mem_append, not_or]
    refine ⟨?_, hrest⟩
    cases first with
    | true => exact htext
    | false =>
      rw [commaBefore, if_neg Bool.false_ne_true, List.mem_append, not_or]
      exact ⟨by decide, htext⟩

theorem cstr_keys_iff {f : List UInt8 × Scalar → List UInt8} (hf : ∀ e, 0 ∉ f e) (row : Row) :
    commaFrom true (row.map fun e => cstr e.1 ++ f e) = commaFrom true (row.map fun e => e.1 ++ f e) ↔
      ∀ e ∈ row, 0 ∉ e.1 := by
  constructor
  · intro heq e he hzero
    have hmem : 0 ∈ commaFrom true (row.map fun e => e.1 ++ f e) :=
      mem_commaFrom true (List.mem_map_of_mem he) (List.mem_append_left _ hzero)
    rw [← heq] at hmem
    refine zero_notMem_commaFrom true (fun text htext => ?_) hmem
    obtain ⟨e', -, rfl⟩ := List.mem_map.mp htext
    rw [List.mem_append, not_or]
    exact ⟨zero_notMem_cstr e'.1, hf e'⟩
  · intro hkeys
    refine congrArg (commaFrom true) (List.map_congr_left fun e he => ?_)
    rw [cstr_of_notMem (hkeys e he)]

theorem zero_notMem_setLiteral (v : Scalar) : 0 ∉ lit "=" ++ setLiteral escape floatText v := by
  have htext := (scalarText escape floatText v).2
  have heq : (0 : UInt8) ∉ lit "=" := by decide
  have hmark : (0 : UInt8) ∉ lit "'" := by decide
  cases v with
  | string s =>
    simp only [setLiteral, valueLiteral, List.mem_append, not_or]
    exact ⟨heq, ⟨hmark, htext⟩, hmark⟩
  | integer n | number n | boolean n =>
    show 0 ∉ lit "=" ++ (scalarText escape floatText _).1
    rw [List.mem_append, not_or]
    exact ⟨heq, htext⟩

end Query

/-! ## `update` -/

section Statements

variable {escape : List UInt8 → CString} {floatText : UInt64 → CString} {elsewhere : List UInt8 → Bool}

/-- A record, in the order of its traversal. -/
structure Record where
  row : Row
  nodup : (row.map Prod.fst).Nodup

variable {tblName updCond : CString} {record : Record} {onDuplicateKey : Option CString}

/-- The pieces up to the fields. -/
def updateHead (tblName : CString) : List (List UInt8) := [lit "UPDATE ", tblName.1, lit " SET "]

/-- The fields fit the buffer as the pieces before them leave it. -/
structure UpdateFits (escape : List UInt8 → CString) (floatText : UInt64 → CString) (tblName : CString) (row : Row) :
    Prop where
  keys : ∀ e ∈ row, 0 ∉ e.1
  fields : (updateHead tblName).flatten.length +
    (commaSep (row.map fun e => e.1 ++ lit "=" ++ setLiteral escape floatText e.2)).length ≤
      capacity lualBuffersize 0 (updateHead tblName)

theorem luaMysqlUpdate_eq (gc : ℕ → Bool) (held : List UInt8 → Bool) (row : Row) :
    luaMysqlUpdate gc escape floatText held tblName row updCond =
      recordQuery gc escape floatText held updateKey updateMark (updateHead tblName) tblName row (some updCond)
        (updateRest gc updCond) := rfl

theorem luaMysqlUpdate_of_fits (gc : ℕ → Bool) (held : List UInt8 → Bool)
    (hfit : TraversalFits escape floatText updateKey updateMark (updateHead tblName) record.row) :
    luaMysqlUpdate gc escape floatText held tblName record.row updCond = some ((updateHead tblName).flatten ++
      commaFrom true (record.row.map fun e => cstr e.1 ++ (lit "=" ++ setLiteral escape floatText e.2)) ++
        (lit " WHERE " ++ updCond.1)) := by
  obtain ⟨w, heap, hw, -, -, hquery⟩ := @recordQuery_of_fits gc escape floatText held updateKey updateMark tblName
    record.row (some updCond) (updateHead tblName) record.nodup hfit (updateRest gc updCond)
  have hfinish := finish_of_boxSafe gc (staticPieces [lit " WHERE ", updCond.1]) hw.top hw.room
    (deref_staticPieces w.heap) (.inr (boxSafe_of_static staticPieces_static))
  rw [staticPieces_fst, staticPieces_snd, hw.text, recordText_update] at hfinish
  rw [luaMysqlUpdate_eq, hquery, updateRest, hfinish]
  simp only [List.flatten_cons, List.flatten_nil, List.append_nil]

/-- **`update` executes the whole statement exactly when the fields fit.** -/
theorem updateSql_iff (held : List UInt8 → Bool) :
    (∀ gc, luaMysqlUpdate gc escape floatText held tblName record.row updCond =
      some (updateSql escape floatText tblName record.row updCond)) ↔
      UpdateFits escape floatText tblName record.row := by
  have hsql : updateSql escape floatText tblName record.row updCond = (updateHead tblName).flatten ++
      commaFrom true (record.row.map fun e => e.1 ++ (lit "=" ++ setLiteral escape floatText e.2)) ++
        (lit " WHERE " ++ updCond.1) := by
    simp only [updateSql, updateHead, commaFrom, if_true, List.flatten_cons, List.flatten_nil, List.append_nil,
      List.append_assoc]
  have hassoc : (record.row.map fun e => e.1 ++ lit "=" ++ setLiteral escape floatText e.2) =
      record.row.map fun e => e.1 ++ (lit "=" ++ setLiteral escape floatText e.2) :=
    List.map_congr_left fun e _ => List.append_assoc _ _ _
  have hkeys := @cstr_keys_iff (fun e => lit "=" ++ setLiteral escape floatText e.2)
    (fun e => zero_notMem_setLiteral e.2) record.row
  rw [hsql]
  constructor
  · intro h
    have hfit := fits_of_recordQuery record.nodup (fun r hlost => finishTexts_of_lost hlost) (h fun _ => true)
    have hquery := h fun _ => true
    rw [luaMysqlUpdate_of_fits _ _ hfit, Option.some.injEq, List.append_left_inj, List.append_right_inj] at hquery
    refine ⟨hkeys.mp hquery, ?_⟩
    rw [TraversalFits, recordText_update, hquery] at hfit
    rw [hassoc]
    exact hfit
  · intro h gc
    have htexts := hkeys.mpr h.keys
    have hfit : TraversalFits escape floatText updateKey updateMark (updateHead tblName) record.row := by
      rw [TraversalFits, recordText_update, htexts]
      have := h.fields
      rw [hassoc] at this
      exact this
    rw [luaMysqlUpdate_of_fits gc held hfit, htexts]

/-! ## `add` -/

/-- The pieces up to the fields. -/
def addHead (tblName : CString) : List (List UInt8) := [lit "INSERT INTO ", tblName.1, lit "("]

/-- What `add` pushes for the values, in order. -/
def valueSources (escape : List UInt8 → CString) (floatText : UInt64 → CString) (row : Row) : List (Source UInt8) :=
  row.map fun e => valueSource escape floatText e.2

/-- The values as far as it matters where the buffer grows: with the strings that may be freed. -/
def placedValues (held : List UInt8 → Bool) (vs : List (Source UInt8)) : List (TextPtr UInt8 × List UInt8) :=
  staticPieces [lit ") VALUES("] ++ valuePieces true (vs.map fun v => (v.place shortString held, v.text))

/-- No string that may be freed is followed by another one, and the buffer has its box before the fields or does not
need it up to the last such string. -/
structure StringsKept (held : List UInt8 → Bool) (head fields : ℕ) (vs : List (Source UInt8)) : Prop where
  survive : NoneFreed shortString held vs
  box : lualBuffersize < head ∨ BoxSafe lualBuffersize (head + fields) (placedValues held vs)

theorem forall₂_valuePieces {R : TextPtr UInt8 × List UInt8 → TextPtr UInt8 × List UInt8 → Prop}
    (hR : ∀ q, R q q) {qs qs' : List (TextPtr UInt8 × List UInt8)} (h : List.Forall₂ R qs qs') :
    ∀ first, List.Forall₂ R (valuePieces first qs) (valuePieces first qs') := by
  induction h with
  | nil => exact fun _ => List.Forall₂.nil
  | cons hq _ ih => exact fun _ => List.Forall₂.cons (hR _) (List.Forall₂.cons hq (List.Forall₂.cons (hR _) (ih false)))

theorem forall₂_refl {A : Type} {R : A → A → Prop} (hR : ∀ a, R a a) : ∀ l : List A, List.Forall₂ R l l
  | [] => List.Forall₂.nil
  | a :: l => List.Forall₂.cons (hR a) (forall₂_refl hR l)

theorem forall₂_place {held : List UInt8 → Bool} :
    ∀ {qs : List (TextPtr UInt8 × List UInt8)} {vs : List (Source UInt8)},
    List.Forall₂ (fun v ptr => ptr.IsObject ↔ v.Collectable shortString held) vs (qs.map Prod.fst) →
    qs.map Prod.snd = vs.map Source.text →
      List.Forall₂ (fun p q => (p.1.IsObject ↔ q.1.IsObject) ∧ p.2 = q.2) qs
        (vs.map fun v => (v.place shortString held, v.text))
  | [], [], _, _ => List.Forall₂.nil
  | q :: qs, v :: vs, .cons hq hqs, htexts => by
    obtain ⟨htext, htexts⟩ := List.cons.inj htexts
    exact List.Forall₂.cons ⟨hq.trans v.place_isObject.symm, htext⟩ (forall₂_place hqs htexts)

/-- The pointers of a run are strings where the condition says so. -/
theorem boxSafe_addPieces {gc : ℕ → Bool} {held : List UInt8 → Bool} {size len : ℕ} {vs : List (Source UInt8)}
    {heap : Strings UInt8} {qs : List (TextPtr UInt8 × List UInt8)}
    (hptrs : qs.map Prod.fst = (pushSources gc shortString held vs heap).1)
    (htexts : qs.map Prod.snd = vs.map Source.text) :
    BoxSafe size len (addPieces onDuplicateKey qs) ↔ BoxSafe size len (placedValues held vs) := by
  have hobj := @pushSources_isObject UInt8 _ gc shortString held vs heap
  rw [← hptrs] at hobj
  rw [addPieces, boxSafe_append_static staticPieces_static, placedValues]
  refine boxSafe_congr (List.rel_append (forall₂_refl (fun _ => ⟨Iff.rfl, rfl⟩) _) ?_)
  exact forall₂_valuePieces (fun _ => ⟨Iff.rfl, rfl⟩) (forall₂_place hobj htexts) true

theorem exists_live {heap : Strings UInt8} {vs : List (Source UInt8)} {ptrs : List (TextPtr UInt8)}
    (hlive : List.Forall₂ (fun v ptr => heap.deref ptr = some v.text) vs ptrs) : ∃ qs :
      List (TextPtr UInt8 × List UInt8),
    qs.map Prod.fst = ptrs ∧ qs.map Prod.snd = vs.map Source.text ∧ ∀ q ∈ qs, heap.deref q.1 = some q.2 := by
  induction hlive with
  | nil => exact ⟨[], rfl, rfl, fun _ hq => absurd hq List.not_mem_nil⟩
  | @cons v ptr vs ptrs hptr _ ih =>
    obtain ⟨qs, hptrs, htexts, hqs⟩ := ih
    refine ⟨(ptr, v.text) :: qs, by rw [List.map_cons, hptrs], by rw [List.map_cons, htexts, List.map_cons], ?_⟩
    intro q hq
    rcases List.mem_cons.mp hq with rfl | hq
    · exact hptr
    · exact hqs q hq

theorem live_valuePieces {heap : Strings UInt8} : ∀ {qs : List (TextPtr UInt8 × List UInt8)} (first : Bool),
    (∀ q ∈ qs, heap.deref q.1 = some q.2) → ∀ q ∈ valuePieces first qs, heap.deref q.1 = some q.2
  | [], _, _, _, hq => absurd hq List.not_mem_nil
  | p :: qs, first, hqs, q, hq => by
    rw [valuePieces, List.mem_append, List.mem_append, List.mem_cons] at hq
    rcases hq with (hq | rfl | hq) | hq
    · exact deref_staticPieces heap q hq
    · exact hqs q List.mem_cons_self
    · exact deref_staticPieces heap q hq
    · exact live_valuePieces false (fun q hq => hqs q (List.mem_cons_of_mem p hq)) q hq

theorem live_addPieces {heap : Strings UInt8} {qs : List (TextPtr UInt8 × List UInt8)}
    (hqs : ∀ q ∈ qs, heap.deref q.1 = some q.2) : ∀ q ∈ addPieces onDuplicateKey qs, heap.deref q.1 = some q.2 := by
  intro q hq
  rw [addPieces, List.mem_append, List.mem_append] at hq
  rcases hq with (hq | hq) | hq
  · exact deref_staticPieces heap q hq
  · exact live_valuePieces true hqs q hq
  · exact deref_staticPieces heap q hq

theorem luaMysqlAdd_eq (gc : ℕ → Bool) (held : List UInt8 → Bool) (row : Row) :
    luaMysqlAdd gc escape floatText held tblName row onDuplicateKey =
      recordQuery gc escape floatText held addKey (fun _ => none) (addHead tblName) tblName row onDuplicateKey
        (addRest gc onDuplicateKey) := rfl

/-- What `add` adds behind the traversal, as a text. -/
def addTail (escape : List UInt8 → CString) (floatText : UInt64 → CString) (row : Row)
    (onDuplicateKey : Option CString) :
    List UInt8 :=
  lit ") VALUES(" ++ commaSep (row.map fun e => valueLiteral escape floatText e.2) ++ lit ")" ++
    (duplicatePart onDuplicateKey).flatten

theorem addPieces_text {qs : List (TextPtr UInt8 × List UInt8)}
    (htexts : qs.map Prod.snd = (valueSources escape floatText record.row).map Source.text) :
    ((addPieces onDuplicateKey qs).map Prod.snd).flatten = addTail escape floatText record.row onDuplicateKey := by
  have hvalues : qs.map (fun q => lit "'" ++ q.2 ++ lit "'") =
      record.row.map fun e => valueLiteral escape floatText e.2 := by
    have hmap := congrArg (List.map fun s => lit "'" ++ s ++ lit "'") htexts
    rw [List.map_map, valueSources, List.map_map, List.map_map] at hmap
    refine hmap.trans (List.map_congr_left fun e _ => ?_)
    show lit "'" ++ (valueSource escape floatText e.2).text ++ lit "'" = _
    rw [valueSource_text, valueLiteral]
  rw [addPieces, List.map_append, List.map_append, List.flatten_append, List.flatten_append, staticPieces_snd,
    staticPieces_snd, valuePieces_text, hvalues, List.flatten_append, addTail, commaFrom, if_pos rfl]
  simp only [List.flatten_cons, List.flatten_nil, List.append_nil, List.append_assoc]

theorem mem_valuePieces : ∀ {qs : List (TextPtr UInt8 × List UInt8)} (first : Bool) {q : TextPtr UInt8 × List UInt8},
    q ∈ qs → q ∈ valuePieces first qs
  | p :: qs, first, q, hq => by
    rw [valuePieces, List.mem_append, List.mem_append, List.mem_cons]
    rcases List.mem_cons.mp hq with rfl | hq
    · exact .inl (.inr (.inl rfl))
    · exact .inr (mem_valuePieces false hq)

theorem live_of_addRest {gc : ℕ → Bool} {ptrs : List (TextPtr UInt8)} {w : LuaCall} {sql : List UInt8}
    (h : addRest gc onDuplicateKey (ptrs, w) = some sql) {ptr : TextPtr UInt8} (hptr : ptr ∈ ptrs) :
    ∃ s, w.heap.deref ptr = some s := by
  obtain ⟨qs, rfl⟩ := exists_pieces ptrs
  obtain ⟨q, hq, rfl⟩ := List.mem_map.mp hptr
  rw [addRest_eq] at h
  obtain ⟨w', hadd, -⟩ := Option.bind_eq_some_iff.mp h
  refine deref_of_addTexts hadd (List.mem_map.mpr ⟨q, ?_, rfl⟩)
  rw [addPieces, List.mem_append, List.mem_append]
  exact .inl (.inr (mem_valuePieces true hq))

theorem luaMysqlAdd_traversed (gc : ℕ → Bool) (held : List UInt8 → Bool)
    (hfit : TraversalFits escape floatText addKey (fun _ => none) (addHead tblName) record.row) :
    ∃ (w : LuaCall) (heap : Strings UInt8),
      Traversed (addHead tblName) (commaFrom true (record.row.map fun e => cstr e.1)) w ∧ (∀ p, heap.objs p = none) ∧
      w.heap = (pushSources gc shortString held (valueSources escape floatText record.row) heap).2 ∧
      luaMysqlAdd gc escape floatText held tblName record.row onDuplicateKey =
        addRest gc onDuplicateKey ((pushSources gc shortString held (valueSources escape floatText record.row) heap).1,
          w) := by
  have hquery := @recordQuery_of_fits gc escape floatText held addKey (fun _ => none) tblName record.row onDuplicateKey
    (addHead tblName) record.nodup hfit (addRest gc onDuplicateKey)
  rw [recordText_add] at hquery
  exact hquery

/-- **The query of `add`** where the traversal fits and the strings are kept. -/
theorem luaMysqlAdd_of_fits (gc : ℕ → Bool) {held : List UInt8 → Bool}
    (hfit : TraversalFits escape floatText addKey (fun _ => none) (addHead tblName) record.row)
    (hkept : StringsKept held (addHead tblName).flatten.length
      (commaFrom true (record.row.map fun e => cstr e.1)).length
      (valueSources escape floatText record.row)) :
    luaMysqlAdd gc escape floatText held tblName record.row onDuplicateKey =
      some ((addHead tblName).flatten ++ commaFrom true (record.row.map fun e => cstr e.1) ++
        addTail escape floatText record.row onDuplicateKey) := by
  obtain ⟨w, heap, hw, hobjs, hheap, hquery⟩ :=
    @luaMysqlAdd_traversed escape floatText tblName record onDuplicateKey gc held hfit
  obtain ⟨qs, hptrs, htexts, hlive⟩ :=
    exists_live (@pushSources_live UInt8 _ gc shortString held _ _ hobjs hkept.survive)
  rw [← hheap] at hlive
  rw [hquery, ← hptrs, addRest_eq, finish_of_boxSafe gc _ hw.top hw.room (live_addPieces hlive), addPieces_text htexts,
    hw.text]
  cases hstack : w.buf.onStack with
  | true => exact .inl rfl
  | false =>
    right
    have hroom := hw.room
    rw [hw.text, List.length_append, hw.free hstack] at hroom
    rw [boxSafe_addPieces hptrs htexts, hw.free hstack, hw.text, List.length_append]
    exact hkept.box.resolve_left (by omega)

/-- **Conversely** the strings are kept where the collector runs at every allocation. -/
theorem kept_of_luaMysqlAdd {held : List UInt8 → Bool} {sql : List UInt8}
    (hfit : TraversalFits escape floatText addKey (fun _ => none) (addHead tblName) record.row)
    (h : luaMysqlAdd (fun _ => true) escape floatText held tblName record.row onDuplicateKey = some sql) :
    StringsKept held (addHead tblName).flatten.length (commaFrom true (record.row.map fun e => cstr e.1)).length
      (valueSources escape floatText record.row) := by
  obtain ⟨w, heap, hw, hobjs, hheap, hquery⟩ :=
    @luaMysqlAdd_traversed escape floatText tblName record onDuplicateKey (fun _ => true) held hfit
  rw [hquery] at h
  -- every pointer is read, so it is live behind the traversal
  have hsurvive : NoneFreed shortString held (valueSources escape floatText record.row) := by
    refine noneFreed_of_live (h := heap) fun ptr hptr => ?_
    rw [← hheap]
    exact live_of_addRest h hptr
  obtain ⟨qs, hptrs, htexts, hlive⟩ :=
    exists_live (@pushSources_live UInt8 _ (fun _ => true) shortString held _ _ hobjs hsurvive)
  rw [← hheap] at hlive
  rw [← hptrs, addRest_eq] at h
  obtain ⟨w', hadd, -⟩ := Option.bind_eq_some_iff.mp h
  refine ⟨hsurvive, ?_⟩
  cases hstack : w.buf.onStack with
  | true => exact .inl (hw.boxed hstack)
  | false =>
    have hsafe := boxSafe_of_addTexts _ hw.top hw.room hstack (live_addPieces hlive) hadd
    rw [boxSafe_addPieces hptrs htexts, hw.free hstack, hw.text, List.length_append] at hsafe
    exact .inr hsafe

/-- When `add` executes the whole statement: the keys have no NUL, the field list fits the buffer as the pieces before
it leave it, and the strings are kept. -/
structure AddFits (escape : List UInt8 → CString) (floatText : UInt64 → CString) (elsewhere : List UInt8 → Bool)
    (tblName : CString) (row : Row) : Prop where
  keys : ∀ e ∈ row, 0 ∉ e.1
  fields : (addHead tblName).flatten.length + (commaSep (row.map Prod.fst)).length ≤
    capacity lualBuffersize 0 (addHead tblName)
  strings : StringsKept (heldString elsewhere row) (addHead tblName).flatten.length (commaSep (row.map Prod.fst)).length
    (valueSources escape floatText row)

theorem addSql_eq (row : Row) : addSql escape floatText tblName row onDuplicateKey = (addHead tblName).flatten ++
    commaFrom true (row.map Prod.fst) ++ addTail escape floatText row onDuplicateKey := by
  simp only [addSql, addTail, addHead, insertFields, commaFrom, if_true, List.flatten_cons, List.flatten_nil,
    List.append_nil, List.append_assoc]

/-- **`add` executes the whole statement, whenever the collector runs, exactly under this condition.** -/
theorem addSql_iff : (∀ gc, luaMysqlAdd gc escape floatText (heldString elsewhere record.row) tblName record.row
    onDuplicateKey = some (addSql escape floatText tblName record.row onDuplicateKey)) ↔
      AddFits escape floatText elsewhere tblName record.row := by
  have hkeys := @cstr_keys_iff (fun _ => []) (fun _ => List.not_mem_nil) record.row
  simp only [List.append_nil] at hkeys
  rw [addSql_eq]
  constructor
  · intro h
    have hquery := h fun _ => true
    have hfit := fits_of_recordQuery record.nodup (fun r hlost => addRest_of_lost onDuplicateKey r hlost) hquery
    have hkept := kept_of_luaMysqlAdd hfit hquery
    rw [luaMysqlAdd_of_fits _ hfit hkept, Option.some.injEq, List.append_left_inj, List.append_right_inj] at hquery
    rw [TraversalFits, recordText_add, hquery] at hfit
    rw [hquery] at hkept
    exact ⟨hkeys.mp hquery, hfit, hkept⟩
  · intro h gc
    have htexts := hkeys.mpr h.keys
    have hfit : TraversalFits escape floatText addKey (fun _ => none) (addHead tblName) record.row := by
      rw [TraversalFits, recordText_add, htexts]
      exact h.fields
    have hkept := h.strings
    rw [show commaSep (record.row.map Prod.fst) = commaFrom true (record.row.map Prod.fst) from rfl, ← htexts] at hkept
    rw [luaMysqlAdd_of_fits gc hfit hkept, htexts]

end Statements

/-- **Both statements**: when they are executed whole, whenever the collector runs. -/
theorem addUpdate_iff (escape : List UInt8 → CString) (floatText : UInt64 → CString) (elsewhere : List UInt8 → Bool)
    (tblName : CString) (record : Record) (onDuplicateKey : Option CString) (updCond : CString) :
    ((∀ gc, luaMysqlAdd gc escape floatText (heldString elsewhere record.row) tblName record.row onDuplicateKey =
        some (addSql escape floatText tblName record.row onDuplicateKey)) ↔
      AddFits escape floatText elsewhere tblName record.row) ∧
    ((∀ gc, luaMysqlUpdate gc escape floatText (heldString elsewhere record.row) tblName record.row updCond =
        some (updateSql escape floatText tblName record.row updCond)) ↔
      UpdateFits escape floatText tblName record.row) :=
  ⟨addSql_iff, updateSql_iff _⟩

/-- A byte in `mysql_real_escape_string`. -/
def escapeByte (c : UInt8) : List UInt8 :=
  if c = 0 then lit "\\0"
  else if c = 10 then lit "\\n"
  else if c = 13 then lit "\\r"
  else if c = 26 then lit "\\Z"
  else if c = 34 ∨ c = 39 ∨ c = 92 then [92, c]
  else [c]

theorem zero_notMem_escapeByte (c : UInt8) : 0 ∉ escapeByte c := by
  unfold escapeByte
  split_ifs with h₁ h₂ h₃ h₄ h₅
  · decide
  · decide
  · decide
  · decide
  · rw [List.mem_cons, not_or]
    exact ⟨by decide, fun h => h₁ (List.mem_singleton.mp h).symm⟩
  · exact fun h => h₁ (List.mem_singleton.mp h).symm

/-- `mysql_real_escape_string`, in a character set of single bytes. -/
def realEscape (s : List UInt8) : CString := ⟨s.flatMap escapeByte, by
  rw [List.mem_flatMap]
  rintro ⟨c, -, hc⟩
  exact zero_notMem_escapeByte c hc⟩

/-- Two strings with a quote. -/
def quotedRecord : Record where
  row := [(lit "a", .string (lit "x'")), (lit "b", .string (lit "y'"))]
  nodup := by decide

/-- The escaped text of the first string is freed when that of the second is pushed. -/
theorem not_addUpdate : ¬ ∀ (escape : List UInt8 → CString) (floatText : UInt64 → CString)
    (elsewhere : List UInt8 → Bool)
    (tblName : CString) (record : Record) (onDuplicateKey : Option CString) (updCond : CString),
    (∀ gc, luaMysqlAdd gc escape floatText (heldString elsewhere record.row) tblName record.row onDuplicateKey =
      some (addSql escape floatText tblName record.row onDuplicateKey)) ∧
    (∀ gc, luaMysqlUpdate gc escape floatText (heldString elsewhere record.row) tblName record.row updCond =
      some (updateSql escape floatText tblName record.row updCond)) := by
  intro hall
  have hfits := addSql_iff.mp (hall realEscape (fun _ => ⟨lit "0.0", by decide⟩) (fun _ => false) ⟨lit "t", by decide⟩
    quotedRecord none ⟨lit "id=1", by decide⟩).1
  have hfirst := (List.pairwise_cons.mp hfits.strings.survive).1 (.pushed (lit "y\\'")) (List.mem_singleton_self _)
    (show ¬ _ by decide) (lit "y\\'") rfl
  exact absurd hfirst.2 (by decide)

end Sarah
