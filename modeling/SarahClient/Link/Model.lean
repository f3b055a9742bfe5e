import SarahClient.CInt
import SarahClient.Lib.DList
import SarahClient.Lib.Machine

/-!
# The doubly linked list of `cel_link.c`

The nodes live in a heap with the allocator `malloc`; pointers are addresses, and `0 : V` is the
`NULL` value. A read or write through a pointer to no live node is `none`.

* `createLinkNode`, `celLinkInit`, `insertBefore`, `getNode`, `celRemoveNode`;
* the list functions `celLinkAdd` to `celLinkSetObj`;
* `LinkOp`, `linkStep`: one call on a list.
-/

namespace Sarah

open Heap DNode

/-- `cel_link_t` and the heap of its nodes. -/
structure Link (V : Type) where
  heap : Heap (DNode V)
  size : ℕ
  head : ℕ
  tail : ℕ

variable {V : Type} [Zero V] [DecidableEq V] (malloc : Malloc (DNode V))

/-- `create_link_node`; `none` is a failed allocation. -/
def createLinkNode (h : Heap (DNode V)) (value : V) (prev next : ℕ) : Option (ℕ × Heap (DNode V)) :=
  alloc malloc h ⟨value, prev, next⟩

/-- `cel_link_init`: two sentinels. -/
def celLinkInit (link : Link V) : Option (ℤ × Link V) :=
  match createLinkNode malloc link.heap 0 0 0 with
  | none => some (0, { link with size := 0, tail := 0 })
  | some (tail, h) =>
    match createLinkNode malloc h 0 0 tail with
    | none => (h.free tail).map fun h => (0, { heap := h, size := 0, head := 0, tail := tail })
    | some (head, h) => (setPrev h tail head).map fun h => (1, ⟨h, 0, head, tail⟩)

/-- `insert_before`: a failed allocation is swallowed. -/
def insertBefore (h : Heap (DNode V)) (old : ℕ) (value : V) : Option (Heap (DNode V)) :=
  (prevOf h old).bind fun p =>
    match createLinkNode malloc h value p old with
    | none => some h
    | some (o, h) =>
      (prevOf h o).bind fun p => (setNext h p o).bind fun h => (nextOf h o).bind fun n => setPrev h n o

/-- `insert_before`, then `link->size++`. -/
def addBefore (link : Link V) (old : ℕ) (value : V) : Option (Link V) :=
  (insertBefore malloc link.heap old value).map fun h => { link with heap := h, size := u32 (link.size + 1) }

/-- `cel_link_add`. -/
def celLinkAdd (link : Link V) (value : V) : Option (Link V) := addBefore malloc link link.tail value

/-- `cel_link_add_first`. -/
def celLinkAddFirst (link : Link V) (value : V) : Option (Link V) :=
  (nextOf link.heap link.head).bind fun n => addBefore malloc link n value

/-- `cel_link_add_last`. -/
def celLinkAddLast (link : Link V) (value : V) : Option (Link V) := addBefore malloc link link.tail value

/-- `get_node`: walk from the nearer end; `0` is `NULL`. -/
def getNode (link : Link V) (idx : ℕ) : Option ℕ :=
  if link.size ≤ idx then some 0
  else if link.size / 2 < idx then walk (prevOf link.heap) (link.size - idx) link.tail
  else walk (nextOf link.heap) (idx + 1) link.head

/-- `cel_link_insert`. -/
def celLinkInsert (link : Link V) (idx : ℕ) (value : V) : Option (Link V) :=
  (getNode link idx).bind fun o => if o ≠ 0 then addBefore malloc link o value else some link

/-- `cel_remove_node`: the neighbours of the node are linked. -/
def celRemoveNode (h : Heap (DNode V)) (node : ℕ) : Option (Heap (DNode V)) :=
  (h.read node).bind fun c => (setNext h c.prev c.next).bind fun h =>
    (h.read node).bind fun c => setPrev h c.next c.prev

/-- The removals' common tail: read the value, unlink the node, free it, `link->size--`. -/
def removeNode (link : Link V) (o : ℕ) : Option (V × Link V) :=
  (valOf link.heap o).bind fun v => (celRemoveNode link.heap o).bind fun h => (h.free o).map fun h =>
    (v, { link with heap := h, size := u32 (link.size + (2 ^ 32 - 1)) })

/-- `cel_link_remove`. -/
def celLinkRemove (link : Link V) (idx : ℕ) : Option (V × Link V) :=
  (getNode link idx).bind fun o => if o = 0 then some (0, link) else removeNode link o

/-- `cel_link_remove_first`. -/
def celLinkRemoveFirst (link : Link V) : Option (V × Link V) :=
  if link.size = 0 then some (0, link) else (nextOf link.heap link.head).bind (removeNode link)

/-- `cel_link_remove_last`. -/
def celLinkRemoveLast (link : Link V) : Option (V × Link V) :=
  if link.size = 0 then some (0, link) else (prevOf link.heap link.tail).bind (removeNode link)

/-- `value == o->value || comp( value, o->value ) == 0` -/
def isObj (value : V) (comp : V → V → ℤ) (v : V) : Bool := value = v || comp value v = 0

/-- The search loop of `cel_link_remove_obj` and `cel_link_set_obj`, from the node `o`: the first
match, or the tail. -/
def findObj (h : Heap (DNode V)) (tail : ℕ) (value : V) (comp : V → V → ℤ) : ℕ → ℕ → Option ℕ
  | 0, _ => none
  | fuel + 1, o =>
    if o = tail then some tail
    else (h.read o).bind fun c => if isObj value comp c.value then some o else
      findObj h tail value comp fuel c.next

/-- The loop from `link->head->_next`; the live cells bound its length. -/
def searchObj (link : Link V) (value : V) (comp : V → V → ℤ) : Option ℕ :=
  (nextOf link.heap link.head).bind (findObj link.heap link.tail value comp (link.heap.keys.card + 1))

/-- `cel_link_remove_obj`. -/
def celLinkRemoveObj (link : Link V) (value : V) (comp : V → V → ℤ) : Option (V × Link V) :=
  (searchObj link value comp).bind fun o => if o = link.tail then some (0, link) else removeNode link o

/-- `cel_link_get`. -/
def celLinkGet (link : Link V) (idx : ℕ) : Option V :=
  (getNode link idx).bind fun o => if o = 0 then some 0 else valOf link.heap o

/-- `v = o->value; o->value = value; return v;` -/
def replaceValue (link : Link V) (o : ℕ) (value : V) : Option (V × Link V) :=
  (valOf link.heap o).bind fun v => (setVal link.heap o value).map fun h => (v, { link with heap := h })

/-- `cel_link_set`. -/
def celLinkSet (link : Link V) (idx : ℕ) (value : V) : Option (V × Link V) :=
  (getNode link idx).bind fun o => if o = 0 then some (0, link) else replaceValue link o value

/-- `cel_link_set_obj`. -/
def celLinkSetObj (link : Link V) (search value : V) (comp : V → V → ℤ) : Option (V × Link V) :=
  (searchObj link search comp).bind fun o => if o = link.tail then some (0, link) else replaceValue link o value

/-- A call on a list. -/
inductive LinkOp (V : Type)
  | init
  | add (value : V)
  | addFirst (value : V)
  | addLast (value : V)
  | insert (idx : ℕ) (value : V)
  | remove (idx : ℕ)
  | removeFirst
  | removeLast
  | removeObj (value : V) (comp : V → V → ℤ)
  | get (idx : ℕ)
  | set (idx : ℕ) (value : V)
  | setObj (search value : V) (comp : V → V → ℤ)

/-- What a call returns. -/
inductive LinkOut (V : Type)
  | void
  | int (n : ℤ)
  | ptr (v : V)
  deriving DecidableEq, Repr

/-- One call. -/
def linkStep (link : Link V) : LinkOp V → Option (Link V × LinkOut V)
  | .init => (celLinkInit malloc link).map fun r => (r.2, .int r.1)
  | .add v => (celLinkAdd malloc link v).map fun l => (l, .void)
  | .addFirst v => (celLinkAddFirst malloc link v).map fun l => (l, .void)
  | .addLast v => (celLinkAddLast malloc link v).map fun l => (l, .void)
  | .insert idx v => (celLinkInsert malloc link idx v).map fun l => (l, .void)
  | .remove idx => (celLinkRemove link idx).map fun r => (r.2, .ptr r.1)
  | .removeFirst => (celLinkRemoveFirst link).map fun r => (r.2, .ptr r.1)
  | .removeLast => (celLinkRemoveLast link).map fun r => (r.2, .ptr r.1)
  | .removeObj v comp => (celLinkRemoveObj link v comp).map fun r => (r.2, .ptr r.1)
  | .get idx => (celLinkGet link idx).map fun v => (link, .ptr v)
  | .set idx v => (celLinkSet link idx v).map fun r => (r.2, .ptr r.1)
  | .setObj s v comp => (celLinkSetObj link s v comp).map fun r => (r.2, .ptr r.1)

end Sarah
