import SarahClient.Array.Model
import SarahClient.Link.Model

/-!
# The Lua list modules `arraylist` and `linklist`

Both modules wrap one C list under the same Lua functions.

* `TValue`, `MVal`, `pack`, `pushMval`: a Lua value and its packed copy;
* `idxCheck`: the macro `lua_idxcheck`;
* `ListModule`, `arraylist`, `linklist`: the C functions behind the Lua functions;
* `luaListCall`: one Lua call; `luaListStep`: the same call on a plain list.
-/

namespace Sarah

/-- A Lua `TValue`; a float is its 64 bits, an object is its address and its type tag. -/
inductive TValue
  | nil
  | integer (i : Int64)
  | number (n : UInt64)
  | boolean (b : Bool)
  | lightuserdata (p : ℕ)
  | gcobject (tt p : ℕ)
  deriving DecidableEq

/-- `mval`: the union `Value_t`, read as its tag `tt_` says. -/
inductive MVal
  | numint (i : Int64)
  | number (n : UInt64)
  | boolean (b : Bool)
  | lightuserdata (p : ℕ)
  | gcobject (tt p : ℕ)
  deriving DecidableEq

/-- A pointer to an `mval`; `NULL` is `none`. -/
instance : Zero (Option MVal) := ⟨none⟩

/-- `pack`; of an object's tag only `ttnov` is kept. -/
def pack : TValue → Option MVal
  | .nil => none
  | .integer i => some (.numint i)
  | .number n => some (.number n)
  | .boolean b => some (.boolean b)
  | .lightuserdata p => some (.lightuserdata p)
  | .gcobject tt p => some (.gcobject (tt % 16) p)

/-- `push_mval`. -/
def pushMval : MVal → TValue
  | .numint i => .integer i
  | .number n => .number n
  | .boolean b => .boolean b
  | .lightuserdata p => .lightuserdata p
  | .gcobject tt p => .gcobject tt p

/-- `nil` for `NULL`, else the packed value. -/
def pushOrNil (val : Option MVal) : TValue := (val.map pushMval).getD .nil

/-- `lua_idxcheck` on the `int` that `luaL_checkinteger` is converted to; `none` is the argument error. -/
def idxCheck (size : ℕ) (idx : ℤ) : Option ℕ :=
  let idx := i32 idx
  let idx := if idx < 0 then i32 (size + idx + 1) else idx
  if idx < 1 then none else some (idx - 1).toNat

/-- The C functions that the Lua functions of a list module call, and a full iteration. -/
structure ListModule (S : Type) where
  size : S → ℕ
  insert : S → ℕ → Option MVal → Option S
  addFirst : S → Option MVal → Option S
  addLast : S → Option MVal → Option S
  remove : S → ℕ → Option (Option MVal × S)
  removeFirst : S → Option (Option MVal × S)
  removeLast : S → Option (Option MVal × S)
  get : S → ℕ → Option (Option MVal)
  set : S → ℕ → Option MVal → Option (Option MVal × S)
  iterate : S → Option (List TValue)

/-- A call of a Lua function with its arguments. -/
inductive ListCall
  | insert (idx : ℤ) (value : TValue)
  | addFirst (value : TValue)
  | addLast (value : TValue)
  | remove (idx : ℤ)
  | removeFirst
  | removeLast
  | get (idx : ℤ)
  | set (idx : ℤ) (value : TValue)
  | size
  | iterate
  deriving DecidableEq

/-- What a call gives to Lua. -/
inductive ListOut
  | void
  | value (v : TValue)
  | argError
  | size (n : ℕ)
  | values (vs : List TValue)
  deriving DecidableEq

/-- The Lua functions of both modules. -/
def luaListCall {S : Type} (M : ListModule S) (self : S) : ListCall → Option (S × ListOut)
  | .insert idx value =>
    match idxCheck (M.size self) idx with
    | none => some (self, .argError)
    | some idx => (M.insert self idx (pack value)).map fun self => (self, .void)
  | .addFirst value => (M.addFirst self (pack value)).map fun self => (self, .void)
  | .addLast value => (M.addLast self (pack value)).map fun self => (self, .void)
  | .remove idx =>
    match idxCheck (M.size self) idx with
    | none => some (self, .argError)
    | some idx => (M.remove self idx).map fun r => (r.2, .value (pushOrNil r.1))
  | .removeFirst => (M.removeFirst self).map fun r => (r.2, .value (pushOrNil r.1))
  | .removeLast => (M.removeLast self).map fun r => (r.2, .value (pushOrNil r.1))
  | .get idx =>
    match idxCheck (M.size self) idx with
    | none => some (self, .argError)
    | some idx => (M.get self idx).map fun val => (self, .value (pushOrNil val))
  | .set idx value =>
    match idxCheck (M.size self) idx with
    | none => some (self, .argError)
    | some idx => (M.set self idx (pack value)).map fun r => (r.2, .value (pushOrNil r.1))
  | .size => some (self, .size (M.size self))
  | .iterate => (M.iterate self).map fun vs => (self, .values vs)

/-! ## `arraylist` -/

/-- `while it:hasNext() do it:next() end` from `it->idx`. -/
def arrayIterate (list : CelArray (Option MVal)) : ℕ → ℕ → Option (List TValue)
  | 0, _ => none
  | fuel + 1, idx =>
    if list.size ≤ idx then some []
    else
      -- `push_mval` dereferences the pointer
      (celArrayGet list idx).join.bind fun val => (arrayIterate list fuel (u32 (idx + 1))).map (pushMval val :: ·)

/-- The functions of `lua_arraylist.c`. -/
def arraylist : ListModule (CelArray (Option MVal)) where
  size self := self.size
  insert := celArrayInsert
  addFirst self value := celArrayInsert self 0 value
  addLast := celArrayAdd
  remove := celArrayDel
  removeFirst self := celArrayDel self 0
  removeLast self := celArrayDel self (u32 (self.size + (2 ^ 32 - 1)))
  get := celArrayGet
  set := celArraySet
  iterate self := arrayIterate self (self.size + 1) 0

/-- `lua_arraylist_new`. -/
def luaArraylistNew : CelArray (Option MVal) := celArrayInit 16

/-! ## `linklist` -/

open DNode in
/-- `while it:hasNext() do it:next() end` from `it->cur`. -/
def linkIterate (link : Link (Option MVal)) : ℕ → ℕ → Option (List TValue)
  | 0, _ => none
  | fuel + 1, cur =>
    (nextOf link.heap cur).bind fun next =>
      if next = 0 ∨ next = link.tail then some []
      else (valOf link.heap next).join.bind fun val => (linkIterate link fuel next).map (pushMval val :: ·)

/-- The functions of `lua_linklist.c`. -/
def linklist (malloc : Heap.Malloc (DNode (Option MVal))) : ListModule (Link (Option MVal)) where
  size self := self.size
  insert := celLinkInsert malloc
  addFirst := celLinkAddFirst malloc
  addLast := celLinkAddLast malloc
  remove := celLinkRemove
  removeFirst := celLinkRemoveFirst
  removeLast := celLinkRemoveLast
  get := celLinkGet
  set := celLinkSet
  iterate self := linkIterate self (self.heap.keys.card + 1) self.head

/-- `lua_linklist_new`; `none` is the error it raises. -/
def luaLinklistNew (malloc : Heap.Malloc (DNode (Option MVal))) : Option (Link (Option MVal)) :=
  (celLinkInit malloc ⟨∅, 0, 0, 0⟩).bind fun r => if r.1 ≠ 1 then none else some r.2

/-! ## The list -/

/-- The calls on a list of Lua values. -/
def luaListStep (vs : List TValue) : ListCall → List TValue × ListOut
  | .insert idx value =>
    match idxCheck vs.length idx with
    | none => (vs, .argError)
    | some idx => (if idx < vs.length then vs.take idx ++ value :: vs.drop idx else vs, .void)
  | .addFirst value => (value :: vs, .void)
  | .addLast value => (vs ++ [value], .void)
  | .remove idx =>
    match idxCheck vs.length idx with
    | none => (vs, .argError)
    | some idx => (vs.eraseIdx idx, .value (vs[idx]?.getD .nil))
  | .removeFirst => (vs.tail, .value (vs.head?.getD .nil))
  | .removeLast => (vs.dropLast, .value (vs.getLast?.getD .nil))
  | .get idx =>
    match idxCheck vs.length idx with
    | none => (vs, .argError)
    | some idx => (vs, .value (vs[idx]?.getD .nil))
  | .set idx value =>
    match idxCheck vs.length idx with
    | none => (vs, .argError)
    | some idx => (vs.set idx value, .value (vs[idx]?.getD .nil))
  | .size => (vs, .size vs.length)
  | .iterate => (vs, .values vs)

/-- Numbers and booleans. -/
def TValue.Scalar : TValue → Prop
  | .integer _ | .number _ | .boolean _ => True
  | _ => False

/-- The call's value, where it has one, is a number or a boolean. -/
def ListCall.Scalar : ListCall → Prop
  | .insert _ value | .addFirst value | .addLast value | .set _ value => value.Scalar
  | _ => True

instance (v : TValue) : Decidable v.Scalar :=
  match v with
  | .integer _ | .number _ | .boolean _ => isTrue trivial
  | .nil | .lightuserdata _ | .gcobject _ _ => isFalse id

instance (o : ListCall) : Decidable o.Scalar :=
  match o with
  | .insert _ value | .addFirst value | .addLast value | .set _ value => inferInstanceAs (Decidable value.Scalar)
  | .remove _ | .removeFirst | .removeLast | .get _ | .size | .iterate => isTrue trivial

/-- What a call needs on a list of `size` elements: `adds` to add an element, and `first` too where it goes to
the front; `dels` to remove one. -/
def ListCall.Needs (size : ℕ) (adds dels first : Prop) : ListCall → Prop
  | .insert idx _ => ∀ i, idxCheck size idx = some i → i < size → adds
  | .addFirst _ => first ∧ adds
  | .addLast _ => adds
  | .remove idx => ∀ i, idxCheck size idx = some i → i < size → dels
  | .removeFirst | .removeLast => 0 < size → dels
  | _ => True

/-- The call stays clear of the array's defects: no `addFirst` on the empty list, no removal of an element from
a full block, no growth past 32 bits. -/
def ListCall.Fits (array : CelArray (Option MVal)) (call : ListCall) : Prop :=
  call.Needs array.size array.Grows (array.size < array.length) (0 < array.size)

end Sarah
