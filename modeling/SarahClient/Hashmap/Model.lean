import SarahClient.Hashmap.Hash
import SarahClient.Lib.Chain
import SarahClient.Lib.Machine

/-!
# The chained hash map of `cel_hashmap.c`

Keys are pointers; `str key` is the C string behind one (its bytes before the NUL). The nodes live in
a heap with the allocator `malloc`, and `mem n` says whether `calloc` finds `n` bytes. A wild access is
`none`. `0 : V` is `NULL` (`cel_hashmap`) or the number 0 (`cel_ihashmap`).

* `HashNode`, `Factor`, `HashMap`, `celHashmapInit`, `createHashmapNode`;
* `relinkChain`, `rebuildLoop`, `rebuildHash`: growing the table;
* `celHashmapPut` to `celHashmapClear`, and the `cel_ihashmap` functions;
* `HashOp`, `hashStep`, `IHashOp`, `ihashStep`: one call on a map.
-/

namespace Sarah

open Heap

/-- `cel_hashmap_node_t` with `CEL_HASHMAP_STORE_HCODE`. -/
structure HashNode (V : Type) where
  key : ℕ
  value : V
  next : ℕ
  hash : ℕ
  deriving DecidableEq, Repr

/-- `n ↦ (uint_t) ( factor * n )`, as any function whose values a nonnegative `float` factor can give. The largest
`float` below `2 ^ 32` is `2 ^ 32 - 256`, and a larger product, of which the low bits are kept, gives no more than
that. -/
structure Factor where
  scale : ℕ → ℕ
  scale_le : ∀ n, scale n ≤ 2 ^ 32 - 256

/-- `cel_hashmap_t` and the heap of its nodes. -/
structure HashMap (V : Type) where
  heap : Heap (HashNode V)
  table : List ℕ
  length : ℕ
  size : ℕ
  threshold : ℕ
  factor : Factor

variable {V : Type} [Zero V] (mem : ℕ → Bool) (malloc : Malloc (HashNode V)) (str : ℕ → List UInt8)

/-- `create_node_blocks`. -/
def createNodeBlocks (blocks : ℕ) : Option (List ℕ) :=
  if mem (8 * blocks) then some (List.replicate blocks 0) else none

/-- `cel_hashmap_init`; a negative `opacity` asks for more blocks than any allocator has. -/
def celHashmapInit (map : HashMap V) (opacity : ℤ) (factor : Factor) : ℤ × HashMap V :=
  match if 0 ≤ opacity then createNodeBlocks mem opacity.toNat else none with
  | none => (0, { map with table := [] })
  | some table =>
    (1, { map with table := table, length := opacity.toNat, size := 0, factor := factor,
                   threshold := factor.scale opacity.toNat })

/-- `create_hashmap_node` and `create_ihashmap_node`. -/
def createHashmapNode (h : Heap (HashNode V)) (key : ℕ) (value : V) (next : ℕ) :
    Option (ℕ × Heap (HashNode V)) := alloc malloc h ⟨key, value, next, 0⟩

/-- The inner loop of `rebuild_hash`: push the nodes from `e` on into the buckets of the new table. -/
def relinkChain (length : ℕ) : ℕ → ℕ → Heap (HashNode V) → List ℕ → Option (Heap (HashNode V) × List ℕ)
  | 0, _, _, _ => none
  | fuel + 1, e, h, table =>
    if e = 0 then some (h, table)
    else
      (h.read e).bind fun c => table[c.hash % length]?.bind fun t =>
        (h.modify e fun c => { c with next := t }).bind fun h =>
          relinkChain length fuel c.next h (table.set (c.hash % length) e)

/-- The outer loop of `rebuild_hash`, with `k` buckets left from bucket `i` on. -/
def rebuildLoop (old : List ℕ) (length : ℕ) : ℕ → ℕ → Heap (HashNode V) → List ℕ →
    Option (Heap (HashNode V) × List ℕ)
  | 0, _, h, table => some (h, table)
  | k + 1, i, h, table =>
    old[i]?.bind fun e => (relinkChain length (h.keys.card + 1) e h table).bind fun r =>
      rebuildLoop old length k (i + 1) r.1 r.2

/-- `rebuild_hash`: a table of the next prime, or the old one when there is no memory. -/
def rebuildHash (map : HashMap V) : Option (HashMap V) :=
  (celNextPrime (u32 (map.length * 2 + 1))).bind fun length =>
    match createNodeBlocks mem length with
    | none => some map
    | some table =>
      (rebuildLoop map.table length map.length 0 map.heap table).map fun r =>
        { map with heap := r.1, table := r.2, length := length, threshold := map.factor.scale length }

/-- `key == e->key || strcmp( key, e->key ) == 0` -/
def sameKey (key : ℕ) (e : HashNode V) : Bool := key = e.key || str key = str e.key

/-- The search loop of every function: the node of the key, with the one before it in its bucket. -/
def findNode (map : HashMap V) (key : ℕ) : Option (ℕ × ℕ) :=
  map.table[celBkdrHash (str key) % map.length]?.bind fun p =>
    searchPrev HashNode.next map.heap (sameKey str key) (map.heap.keys.card + 1) 0 p

/-- Read the value of `e` and replace it. -/
def updateNode (map : HashMap V) (e : ℕ) (f : V → V) : Option (V × HashMap V) :=
  (map.heap.read e).bind fun c =>
    (map.heap.modify e fun c => { c with value := f c.value }).map fun h => (c.value, { map with heap := h })

/-- The second half of the two `put` functions: a new first node, and a larger table if need be. -/
def addNode (map : HashMap V) (key : ℕ) (value : V) : Option (HashMap V) :=
  let hcode := celBkdrHash (str key)
  let idx := hcode % map.length
  map.table[idx]?.bind fun p =>
    (createHashmapNode malloc map.heap key value p).bind fun r =>
      (r.2.modify r.1 fun c => { c with hash := hcode }).bind fun h =>
        let map := { map with heap := h, table := map.table.set idx r.1, size := u32 (map.size + 1) }
        if map.threshold < map.size then rebuildHash mem map else some map

/-- The body of the two `remove` functions at the node `e`, with `prev` before it. -/
def removeNodeAt (map : HashMap V) (idx prev e : ℕ) : Option (V × HashMap V) :=
  (map.heap.read e).bind fun c =>
    (if prev = 0 then some { map with table := map.table.set idx c.next }
      else (map.heap.modify prev fun p => { p with next := c.next }).map fun h => { map with heap := h }).bind
      fun map => (map.heap.free e).map fun h =>
        (c.value, { map with heap := h, size := u32 (map.size + (2 ^ 32 - 1)) })

/-- Free the nodes from `e` on. -/
def freeChain : ℕ → ℕ → Heap (HashNode V) → Option (List V × Heap (HashNode V))
  | 0, _, _ => none
  | fuel + 1, e, h =>
    if e = 0 then some ([], h)
    else
      (h.read e).bind fun c => (h.free e).bind fun h =>
        (freeChain fuel c.next h).map fun r => (c.value :: r.1, r.2)

/-- The loop over the buckets of `cel_hashmap_clear`, with `k` buckets left from bucket `i` on. -/
def clearLoop : ℕ → ℕ → HashMap V → Option (List V × HashMap V)
  | 0, _, map => some ([], map)
  | k + 1, i, map =>
    map.table[i]?.bind fun e => (freeChain (map.heap.keys.card + 1) e map.heap).bind fun r =>
      (clearLoop k (i + 1) { map with heap := r.2, table := map.table.set i 0 }).map fun q => (r.1 ++ q.1, q.2)

/-- `cel_hashmap_put`, with the old value. -/
def celHashmapPut (map : HashMap V) (key : ℕ) (value : V) : Option (V × HashMap V) :=
  (findNode str map key).bind fun r =>
    if r.2 ≠ 0 then updateNode map r.2 fun _ => value
    else (addNode mem malloc str map key value).map fun map => (0, map)

/-- `cel_hashmap_remove`, with the values passed to the release callback. -/
def celHashmapRemove [DecidableEq V] (map : HashMap V) (key : ℕ) (rfunc : Bool) :
    Option (V × List V × HashMap V) :=
  (findNode str map key).bind fun r =>
    if r.2 = 0 then some (0, [], map)
    else (removeNodeAt map (celBkdrHash (str key) % map.length) r.1 r.2).map fun q =>
      (q.1, if rfunc ∧ q.1 ≠ 0 then [q.1] else [], q.2)

/-- `cel_hashmap_get`. -/
def celHashmapGet (map : HashMap V) (key : ℕ) : Option V :=
  (findNode str map key).bind fun r => if r.2 = 0 then some 0 else (map.heap.read r.2).map HashNode.value

/-- `cel_hashmap_exists`. -/
def celHashmapExists (map : HashMap V) (key : ℕ) : Option ℤ :=
  (findNode str map key).map fun r => if r.2 = 0 then 0 else 1

/-- `cel_hashmap_set`, with the old value. -/
def celHashmapSet (map : HashMap V) (key : ℕ) (value : V) : Option (V × HashMap V) :=
  (findNode str map key).bind fun r => if r.2 = 0 then some (0, map) else updateNode map r.2 fun _ => value

/-- `cel_hashmap_clear`, with the values passed to the release callback. -/
def celHashmapClear [DecidableEq V] (map : HashMap V) (rfunc : Bool) : Option (List V × HashMap V) :=
  (clearLoop map.length 0 map).map fun r => (if rfunc then r.1.filter (· ≠ 0) else [], { r.2 with size := 0 })

/-! ## The integer map -/

/-- `cel_ihashmap_put`. -/
def celIhashmapPut (malloc : Malloc (HashNode ℤ)) (map : HashMap ℤ) (key : ℕ) (value : ℤ) : Option (ℤ × HashMap ℤ) :=
  (findNode str map key).bind fun r =>
    if r.2 ≠ 0 then (updateNode map r.2 fun _ => value).map fun q => (1, q.2)
    else (addNode mem malloc str map key value).map fun map => (1, map)

/-- `cel_ihashmap_remove` with no release callback: the values are numbers. -/
def celIhashmapRemove (map : HashMap ℤ) (key : ℕ) : Option (ℤ × HashMap ℤ) :=
  (findNode str map key).bind fun r =>
    if r.2 = 0 then some (0, map)
    else (removeNodeAt map (celBkdrHash (str key) % map.length) r.1 r.2).map fun q => (1, q.2)

/-- `cel_ihashmap_get`. -/
def celIhashmapGet (map : HashMap ℤ) (key : ℕ) : Option ℤ := celHashmapGet str map key

/-- `cel_ihashmap_set`, `cel_ihashmap_inc` and `cel_ihashmap_dec`: replace a number that is there. -/
def replaceNum (map : HashMap ℤ) (key : ℕ) (f : ℤ → ℤ) : Option (ℤ × HashMap ℤ) :=
  (findNode str map key).bind fun r =>
    if r.2 = 0 then some (0, map) else (updateNode map r.2 f).map fun q => (1, q.2)

/-- `cel_ihashmap_set`. -/
def celIhashmapSet (map : HashMap ℤ) (key : ℕ) (value : ℤ) : Option (ℤ × HashMap ℤ) :=
  replaceNum str map key fun _ => value

/-- `cel_ihashmap_inc`. -/
def celIhashmapInc (map : HashMap ℤ) (key : ℕ) (inc : ℤ) : Option (ℤ × HashMap ℤ) :=
  replaceNum str map key fun num => i32 (num + inc)

/-- `cel_ihashmap_dec`. -/
def celIhashmapDec (map : HashMap ℤ) (key : ℕ) (dec : ℤ) : Option (ℤ × HashMap ℤ) :=
  replaceNum str map key fun num => i32 (num - dec)

/-- `cel_ihashmap_exists`. -/
def celIhashmapExists (map : HashMap ℤ) (key : ℕ) : Option ℤ := celHashmapExists str map key

/-- `cel_ihashmap_clear`. -/
def celIhashmapClear (map : HashMap ℤ) : Option (List ℤ × HashMap ℤ) := celHashmapClear map false

/-! ## Calls -/

/-- A call on a `cel_hashmap_t`. -/
inductive HashOp (V : Type)
  | put (key : ℕ) (value : V)
  | get (key : ℕ)
  | set (key : ℕ) (value : V)
  | remove (key : ℕ) (rfunc : Bool)
  | exist (key : ℕ)
  | clear (rfunc : Bool)

/-- A call on a `cel_ihashmap_t`. -/
inductive IHashOp
  | put (key : ℕ) (value : ℤ)
  | get (key : ℕ)
  | set (key : ℕ) (value : ℤ)
  | inc (key : ℕ) (n : ℤ)
  | dec (key : ℕ) (n : ℤ)
  | remove (key : ℕ)
  | exist (key : ℕ)
  | clear

/-- What a call returns. -/
inductive HashOut (V : Type)
  | void
  | int (n : ℤ)
  | ptr (v : V)
  deriving DecidableEq, Repr

/-- A call on the pointer map. -/
def hashStep [DecidableEq V] (map : HashMap V) : HashOp V → Option (HashMap V × HashOut V)
  | .put key v => (celHashmapPut mem malloc str map key v).map fun r => (r.2, .ptr r.1)
  | .get key => (celHashmapGet str map key).map fun v => (map, .ptr v)
  | .set key v => (celHashmapSet str map key v).map fun r => (r.2, .ptr r.1)
  | .remove key rfunc => (celHashmapRemove str map key rfunc).map fun r => (r.2.2, .ptr r.1)
  | .exist key => (celHashmapExists str map key).map fun n => (map, .int n)
  | .clear rfunc => (celHashmapClear map rfunc).map fun r => (r.2, .void)

/-- A call on the integer map. -/
def ihashStep (malloc : Malloc (HashNode ℤ)) (map : HashMap ℤ) : IHashOp → Option (HashMap ℤ × HashOut ℤ)
  | .put key v => (celIhashmapPut mem str malloc map key v).map fun r => (r.2, .int r.1)
  | .get key => (celIhashmapGet str map key).map fun n => (map, .int n)
  | .set key v => (celIhashmapSet str map key v).map fun r => (r.2, .int r.1)
  | .inc key n => (celIhashmapInc str map key n).map fun r => (r.2, .int r.1)
  | .dec key n => (celIhashmapDec str map key n).map fun r => (r.2, .int r.1)
  | .remove key => (celIhashmapRemove str map key).map fun r => (r.2, .int r.1)
  | .exist key => (celIhashmapExists str map key).map fun n => (map, .int n)
  | .clear => (celIhashmapClear map).map fun r => (r.2, .void)

end Sarah
