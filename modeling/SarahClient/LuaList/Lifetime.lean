import SarahClient.Link.Memory
import SarahClient.LuaList.Agree

/-!
# The lists and the garbage collector

A list keeps the addresses of objects where the collector does not see them.

* `LuaHeap`: the objects of Lua, and which of them a program can reach; `LuaObj.finalizes`: their `__gc`;
* `progStep`: a step of a program over lists of both modules and their iterators, or a collection;
* `Survives`: the property of a step: every object in a list is alive, and what is pushed is what was stored;
* `Careful`: only values that are no objects are stored, iterators are used on their list, and what is collected can be
  destroyed;
* **`values_survive`**: careful runs;
* **`not_values_survive`**: an object that only a list keeps.
-/

namespace Sarah

open Heap DNode Machine

/-- An object of Lua; `plain` is one that is neither a list nor an iterator, with its type tag. -/
inductive LuaObj
  | plain (tt : ℕ)
  | array (list : CelArray (Option MVal))
  | link (link : Link (Option MVal))
  | arrayIterator (list idx : ℕ)
  | linkIterator (link cur : ℕ)

/-- The type tag with its collectable bit; lists and iterators are full userdata. -/
def LuaObj.tag : LuaObj → ℕ
  | .plain tt => tt
  | _ => 7 + 64

/-- An object that has a list. -/
def LuaObj.isList : LuaObj → Bool
  | .array _ | .link _ => true
  | _ => false

/-- `cel_array_destroy`, whose index is an `int`: the items that the callback receives. -/
def celArrayDestroy {V : Type} (array : CelArray V) : Option (List V) :=
  if array.size < 2 ^ 31 ∧ array.size ≤ array.items.length then some (array.items.take array.size) else none

/-- `__gc`: every access of `cel_array_destroy` or `cel_link_destroy` is one to live memory. -/
def LuaObj.finalizes : LuaObj → Bool
  | .array list => (celArrayDestroy list).isSome
  | .link l => (celLinkDestroy true l).isSome
  | _ => true

/-- The objects by address, the next address, and what the program can reach. -/
structure LuaHeap where
  objs : ℕ → Option LuaObj
  fresh : ℕ
  held : Finset ℕ

/-- The tag of a light C function, which is no object. -/
def lightFunction : ℕ := 6 + 16

namespace LuaHeap

/-- One object is replaced. -/
def set (h : LuaHeap) (p : ℕ) (u : LuaObj) : LuaHeap := { h with objs := Function.update h.objs p (some u) }

/-- A new object, which the program gets. -/
def alloc (h : LuaHeap) (u : LuaObj) : LuaHeap :=
  { h.set h.fresh u with fresh := h.fresh + 1, held := insert h.fresh h.held }

/-- The program has the value. -/
def has (h : LuaHeap) : TValue → Bool
  | .gcobject tt p => tt = lightFunction || (p ∈ h.held && (h.objs p).map LuaObj.tag = some tt)
  | _ => true

/-- The object at an address that the program names. -/
def arg (h : LuaHeap) (p : ℕ) : Option LuaObj := if p ∈ h.held then h.objs p else none

/-- `it->list` of `lua_arraylist.c`, `none` when it is freed. -/
def array (h : LuaHeap) (l : ℕ) : Option (CelArray (Option MVal)) :=
  match h.objs l with
  | some (.array list) => some list
  | _ => none

/-- `it->link` of `lua_linklist.c`, `none` when it is freed. -/
def link (h : LuaHeap) (l : ℕ) : Option (Link (Option MVal)) :=
  match h.objs l with
  | some (.link link) => some link
  | _ => none

end LuaHeap

/-- The objects among what a call gives to Lua. -/
def ListOut.objects : ListOut → List ℕ
  | .value v => objectsOf v
  | .values vs => vs.flatMap objectsOf
  | _ => []
where
  objectsOf : TValue → List ℕ
    | .gcobject _ p => [p]
    | _ => []

/-- What is pushed can be reached. -/
def LuaHeap.gets (h : LuaHeap) (out : ListOut) : LuaHeap := { h with held := h.held ∪ out.objects.toFinset }

/-! ## Iterators -/

/-- `endOfArray`. -/
def endOfArray (list : CelArray (Option MVal)) (idx : ℕ) : Bool := list.size ≤ idx

/-- `iterator_next` of `lua_arraylist.c`; `push_mval` dereferences the value. -/
def arrayNext (list : CelArray (Option MVal)) (idx : ℕ) : Option (TValue × ℕ) :=
  if endOfArray list idx then some (.nil, idx)
  else (celArrayGet list idx).join.map fun val => (pushMval val, u32 (idx + 1))

/-- `endOfLink`. -/
def endOfLink (link : Link (Option MVal)) (cur : ℕ) : Option Bool :=
  (nextOf link.heap cur).map fun next => next = 0 || next = link.tail

/-- `iterator_next` of `lua_linklist.c`. -/
def linkNext (link : Link (Option MVal)) (cur : ℕ) : Option (TValue × ℕ) :=
  (endOfLink link cur).bind fun ends =>
    if ends then some (.nil, cur)
    else (nextOf link.heap cur).bind fun next => (valOf link.heap next).join.map fun val => (pushMval val, next)

/-! ## Programs -/

/-- A step of a program; `create` makes an object of another type. -/
inductive ProgOp
  | create (tt : ℕ)
  | newArray
  | newLink
  | call (l : ℕ) (call : ListCall)
  | iterator (l : ℕ)
  | hasNext (i : ℕ)
  | next (i : ℕ)
  | rewind (i : ℕ)
  | drop (p : ℕ)
  | collect

variable (malloc : Malloc (DNode (Option MVal)))

/-- The program can make the call; it iterates with an iterator. -/
def LuaHeap.calls (h : LuaHeap) (l : ℕ) (call : ListCall) : Bool :=
  (h.arg l).any LuaObj.isList && call.value.all h.has && call ≠ .iterate

/-- The step; `none` is an access through a pointer to nothing. -/
def heapStep (h : LuaHeap) : ProgOp → Option (LuaHeap × ListOut)
  | .create tt => some (h.alloc (.plain tt), .void)
  | .newArray => some (h.alloc (.array luaArraylistNew), .void)
  | .newLink => (luaLinklistNew malloc).map fun link => (h.alloc (.link link), .void)
  | .call l call =>
    if h.calls l call then
      match h.objs l with
      | some (.array list) => (luaListCall arraylist list call).map fun r => ((h.set l (.array r.1)).gets r.2, r.2)
      | some (.link link) =>
        (luaListCall (linklist malloc) link call).map fun r => ((h.set l (.link r.1)).gets r.2, r.2)
      | _ => some (h, .argError)
    else some (h, .argError)
  | .iterator l =>
    match h.arg l with
    | some (.array _) => some (h.alloc (.arrayIterator l 0), .void)
    | some (.link link) => some (h.alloc (.linkIterator l link.head), .void)
    | _ => some (h, .argError)
  | .hasNext i =>
    match h.arg i with
    | some (.arrayIterator l idx) => (h.array l).map fun list => (h, .value (.boolean (!endOfArray list idx)))
    | some (.linkIterator l cur) =>
      (h.link l).bind fun link => (endOfLink link cur).map fun ends => (h, .value (.boolean (!ends)))
    | _ => some (h, .argError)
  | .next i =>
    match h.arg i with
    | some (.arrayIterator l idx) => (h.array l).bind fun list => (arrayNext list idx).map fun r =>
      ((h.set i (.arrayIterator l r.2)).gets (.value r.1), .value r.1)
    | some (.linkIterator l cur) => (h.link l).bind fun link => (linkNext link cur).map fun r =>
      ((h.set i (.linkIterator l r.2)).gets (.value r.1), .value r.1)
    | _ => some (h, .argError)
  | .rewind i =>
    match h.arg i with
    | some (.arrayIterator l _) => some (h.set i (.arrayIterator l 0), .void)
    | some (.linkIterator l _) => (h.link l).map fun link => (h.set i (.linkIterator l link.head), .void)
    | _ => some (h, .argError)
  | .drop p => some ({ h with held := h.held.erase p }, .void)
  | .collect =>
    if (List.range h.fresh).all fun p => p ∈ h.held || (h.objs p).all LuaObj.finalizes then
      some ({ h with objs := fun p => if p ∈ h.held then h.objs p else none }, .void)
    else none

/-- The heap with the values that were stored in each list. -/
abbrev Prog := LuaHeap × (ℕ → List TValue)

/-- The lists as lists of Lua values. -/
def storedStep (s : Prog) : ProgOp → (ℕ → List TValue)
  | .newArray | .newLink => Function.update s.2 s.1.fresh []
  | .call l call => if s.1.calls l call then Function.update s.2 l (luaListStep (s.2 l) call).1 else s.2
  | _ => s.2

/-- A step of the program, with what it stores. -/
def progStep (s : Prog) (op : ProgOp) : Option (Prog × ListOut) :=
  (heapStep malloc s.1 op).map fun r => ((r.1, storedStep s op), r.2)

/-- No object, nothing stored. -/
def progStart : Prog := (⟨fun _ => none, 0, ∅⟩, fun _ => [])

/-- The position of an iterator of a link: its node is the `k`-th, `0` for the head. -/
def Link.At (link : Link (Option MVal)) (cur k : ℕ) : Prop :=
  k ≤ link.size ∧ walk (nextOf link.heap) k link.head = some cur

/-- What an iterator pushes is the value stored at its position. -/
def PushesNext (s : Prog) (out : ListOut) : Option LuaObj → Prop
  | some (.arrayIterator l idx) => out = .value ((s.2 l)[idx]?.getD .nil)
  | some (.linkIterator l cur) =>
    ∃ link k, s.1.link l = some link ∧ link.At cur k ∧ out = .value ((s.2 l)[k]?.getD .nil)
  | _ => True

/-- What a step pushes is what was stored. -/
def Pushes (s : Prog) : ProgOp → ListOut → Prop
  | .call l call, out => s.1.calls l call = true → out = (luaListStep (s.2 l) call).2
  | .next i, out => PushesNext s out (s.1.arg i)
  | _, _ => True

/-- Every object that a list holds is alive. -/
def AllAlive (s : Prog) : Prop :=
  ∀ l, (s.1.objs l).any LuaObj.isList = true → ∀ tt p, .gcobject tt p ∈ s.2 l → tt ≠ lightFunction → s.1.objs p ≠ none

/-- **The property of a step**. -/
def Survives (s : Prog) (op : ProgOp) : Prop :=
  ∃ r, progStep malloc s op = some r ∧ Pushes s op r.2 ∧ AllAlive r.1

/-- The list of an iterator is alive, and its node is in the list. -/
def OnList (s : Prog) : Option LuaObj → Prop
  | some (.arrayIterator l _) => ∃ list, s.1.array l = some list
  | some (.linkIterator l cur) => ∃ link k, s.1.link l = some link ∧ link.At cur k
  | _ => True

/-- What is more, the next value is not `nil`. -/
def NextReady (s : Prog) : Option LuaObj → Prop
  | some (.arrayIterator l idx) => (∃ list, s.1.array l = some list) ∧ (s.2 l)[idx]? ≠ some .nil
  | some (.linkIterator l cur) => ∃ link k, s.1.link l = some link ∧ link.At cur k ∧ (s.2 l)[k]? ≠ some .nil
  | _ => True

/-- A link that is iterated is alive. -/
def LinkAlive (s : Prog) : Option LuaObj → Prop
  | some (.linkIterator l _) => ∃ link, s.1.link l = some link
  | _ => True

/-- What a program must take care of: it stores no objects, stays clear of the defects of the lists, uses an iterator
only while its list is alive and its node in the list, and not on a `nil`, and empties a linklist before it is
collected. -/
def Careful (s : Prog) : ProgOp → Prop
  | .call l call => s.1.calls l call = true → (∀ v ∈ call.value, v.Plain) ∧ (∀ list ∈ s.1.array l, call.Fits list) ∧
      ∀ link ∈ s.1.link l, call.Needs link.size (link.size + 1 < 2 ^ 32) True True
  | .hasNext i => OnList s (s.1.arg i)
  | .next i => NextReady s (s.1.arg i)
  | .rewind i => LinkAlive s (s.1.arg i)
  | .collect => ∀ p, p ∉ s.1.held → (∀ link ∈ s.1.link p, link.size = 0) ∧ ∀ list ∈ s.1.array p, list.size < 2 ^ 31
  | _ => True

/-! ## The invariant -/

/-- A list holds the packed values that were stored in it, and none is an object. -/
def HoldsAt : Option LuaObj → List TValue → Prop
  | some (.array list), vs => list.Holds (vs.map pack) ∧ ∀ v ∈ vs, v.Plain
  | some (.link link), vs => link.Holds (vs.map pack) ∧ ∀ v ∈ vs, v.Plain
  | _, _ => True

/-- **The invariant**. -/
structure Holding (s : Prog) : Prop where
  fresh : ∀ p, s.1.fresh ≤ p → s.1.objs p = none
  lists : ∀ p, HoldsAt (s.1.objs p) (s.2 p)

variable {malloc} {s : Prog}

theorem Holding.allAlive (h : Holding s) : AllAlive s := by
  intro l hl tt p hmem
  have hlist := h.lists l
  cases hobj : s.1.objs l with
  | none =>
    rw [hobj] at hl
    cases hl
  | some u =>
    rw [hobj] at hl hlist
    cases u with
    | array list => exact (hlist.2 _ hmem).elim
    | link link => exact (hlist.2 _ hmem).elim
    | _ => cases hl

theorem Holding.update (h : Holding s) {p fresh : ℕ} {u : LuaObj} {vs : ℕ → List TValue} (held : Finset ℕ)
    (hfresh : s.1.fresh ≤ fresh) (hp : p < fresh) (hu : HoldsAt (some u) (vs p)) (hvs : ∀ q, q ≠ p → vs q = s.2 q) :
    Holding (⟨Function.update s.1.objs p (some u), fresh, held⟩, vs) where
  fresh := fun q hq => by
    dsimp only at hq ⊢
    rw [Function.update_of_ne (by omega)]
    exact h.fresh q (by omega)
  lists := fun q => by
    dsimp only
    by_cases hq : q = p
    · rw [hq, Function.update_self]
      exact hu
    · rw [Function.update_of_ne hq, hvs q hq]
      exact h.lists q

theorem Holding.lt_fresh (h : Holding s) {p : ℕ} {u : LuaObj} (hp : s.1.objs p = some u) : p < s.1.fresh := by
  by_contra hle
  rw [h.fresh p (not_lt.mp hle)] at hp
  cases hp

theorem objs_of_arg {h : LuaHeap} {p : ℕ} {u : LuaObj} (hp : h.arg p = some u) : h.objs p = some u := by
  unfold LuaHeap.arg at hp
  split_ifs at hp
  exact hp

theorem array_eq_some {h : LuaHeap} {l : ℕ} {list : CelArray (Option MVal)} (hl : h.array l = some list) :
    h.objs l = some (.array list) := by
  unfold LuaHeap.array at hl
  split at hl
  · cases hl
    assumption
  · cases hl

theorem link_eq_some {h : LuaHeap} {l : ℕ} {link : Link (Option MVal)} (hl : h.link l = some link) :
    h.objs l = some (.link link) := by
  unfold LuaHeap.link at hl
  split at hl
  · cases hl
    assumption
  · cases hl

/-! ## Iterators -/

theorem arrayNext_of_holds {list : CelArray (Option MVal)} {vs : List TValue} (h : list.Holds (vs.map pack))
    (hvs : ∀ v ∈ vs, v.Plain) {idx : ℕ} (hnil : vs[idx]? ≠ some .nil) :
    ∃ idx', arrayNext list idx = some (vs[idx]?.getD .nil, idx') := by
  have hsize : list.size = vs.length := by rw [h.size, List.length_map]
  unfold arrayNext endOfArray
  by_cases hend : vs.length ≤ idx
  · rw [hsize, if_pos (decide_eq_true hend), List.getElem?_eq_none hend]
    exact ⟨idx, rfl⟩
  · have hlt : idx < vs.length := not_le.mp hend
    rw [hsize, if_neg (by rw [decide_eq_true_eq]; exact hend), celArrayGet_holds h, List.getElem?_map]
    rw [List.getElem?_eq_getElem hlt] at hnil ⊢
    obtain ⟨val, hpack, hpush⟩ := pack_eq_some (hvs _ (List.getElem_mem hlt)) fun heq => hnil (congrArg some heq)
    rw [Option.map_some, Option.getD_some, hpack, Option.join_some, Option.map_some, hpush]
    exact ⟨_, rfl⟩

theorem Link.At.next {link : Link (Option MVal)} {vs : List TValue} (h : link.Holds (vs.map pack)) {cur k : ℕ}
    (hat : link.At cur k) : ∃ next, nextOf link.heap cur = some next ∧ (next = 0 ∨ next = link.tail ↔ vs.length ≤ k) ∧
      ∀ v, vs[k]? = some v → valOf link.heap next = some (pack v) := by
  obtain ⟨as, hval, hnodup, hsize, hnext, -, -⟩ := h.spec
  have hlen : as.length = vs.length := by
    have := congrArg List.length hval
    simpa using this
  obtain ⟨hk, hwalk⟩ := hat
  have hbehind := hnext (k + 1) (by omega)
  rw [walk_succ, hwalk, Option.bind_some, List.getElem?_cons_succ] at hbehind
  have hnodup' := (List.nodup_cons.mp hnodup).2
  have hvalue : ∀ (v : TValue) (hi : k < as.length), vs[k]? = some v → valOf link.heap as[k] = some (pack v) := by
    intro v hi hv
    have := congrArg (·[k]?) hval
    simpa [List.getElem?_map, List.getElem?_eq_getElem hi, hv] using this
  by_cases hend : vs.length ≤ k
  · have hlast : k = as.length := by omega
    rw [hlast, List.getElem?_append_right (le_refl _), Nat.sub_self] at hbehind
    refine ⟨link.tail, hbehind, iff_of_true (.inr rfl) hend, fun v hv => ?_⟩
    rw [List.getElem?_eq_none hend] at hv
    cases hv
  · have hlt : k < as.length := by omega
    rw [List.getElem?_append_left hlt, List.getElem?_eq_getElem hlt] at hbehind
    refine ⟨as[k], hbehind, iff_of_false ?_ hend, fun v hv => ?_⟩
    · rintro (hzero | htail)
      · obtain ⟨v, hv⟩ : ∃ v, vs[k]? = some v := ⟨_, List.getElem?_eq_getElem (not_le.mp hend)⟩
        obtain ⟨c, hc, -⟩ := read_of_valOf (hvalue v hlt hv)
        exact ne_zero_of_read hc hzero
      · rw [List.nodup_append] at hnodup'
        exact hnodup'.2.2 _ (List.getElem_mem hlt) link.tail (List.mem_singleton_self _) htail
    · exact hvalue v hlt hv

theorem endOfLink_of_at {link : Link (Option MVal)} {vs : List TValue} (h : link.Holds (vs.map pack)) {cur k : ℕ}
    (hat : link.At cur k) : ∃ ends, endOfLink link cur = some ends := by
  obtain ⟨next, hnext, -⟩ := hat.next h
  exact ⟨_, by rw [endOfLink, hnext]; rfl⟩

theorem linkNext_of_holds {link : Link (Option MVal)} {vs : List TValue} (h : link.Holds (vs.map pack))
    (hvs : ∀ v ∈ vs, v.Plain) {cur k : ℕ} (hat : link.At cur k) (hnil : vs[k]? ≠ some .nil) :
    ∃ cur', linkNext link cur = some (vs[k]?.getD .nil, cur') := by
  obtain ⟨next, hnext, hend, hval⟩ := hat.next h
  rw [linkNext, endOfLink, hnext, Option.map_some, Option.bind_some, Option.bind_some]
  by_cases hlen : vs.length ≤ k
  · rw [if_pos (by simpa using hend.mpr hlen), List.getElem?_eq_none hlen]
    exact ⟨cur, rfl⟩
  · have hlt : k < vs.length := not_le.mp hlen
    rw [if_neg (by simpa using fun hor => hlen (hend.mp hor))]
    rw [List.getElem?_eq_getElem hlt] at hnil ⊢
    obtain ⟨val, hpack, hpush⟩ := pack_eq_some (hvs _ (List.getElem_mem hlt)) fun heq => hnil (congrArg some heq)
    rw [hval _ (List.getElem?_eq_getElem hlt), hpack, Option.join_some, Option.map_some, hpush]
    exact ⟨next, rfl⟩

/-! ## Steps -/

theorem progStep_of {op : ProgOp} {h : LuaHeap} {out : ListOut} (hstep : heapStep malloc s.1 op = some (h, out)) :
    progStep malloc s op = some ((h, storedStep s op), out) := by
  rw [progStep, hstep]
  rfl

theorem Holding.alloc (h : Holding s) {u : LuaObj} {vs : ℕ → List TValue} (hu : HoldsAt (some u) (vs s.1.fresh))
    (hvs : ∀ q, q ≠ s.1.fresh → vs q = s.2 q) : Holding (s.1.alloc u, vs) :=
  h.update _ (Nat.le_succ _) (Nat.lt_succ_self _) hu hvs

theorem Holding.setIterator (h : Holding s) {i : ℕ} {u : LuaObj} (hi : s.1.objs i = some u) (u' : LuaObj)
    (hu : HoldsAt (some u') (s.2 i)) (held : Finset ℕ) : Holding ({ s.1.set i u' with held := held }, s.2) :=
  h.update _ le_rfl (h.lt_fresh hi) hu fun _ _ => rfl

theorem call_step (hmalloc : malloc.Total) (h : Holding s) {l : ℕ} {call : ListCall}
    (hcare : Careful s (.call l call)) :
    ∃ r, progStep malloc s (.call l call) = some r ∧ Pushes s (.call l call) r.2 ∧ Holding r.1 := by
  by_cases hcalls : s.1.calls l call = true
  swap
  · refine ⟨((s.1, s.2), .argError), ?_, fun hc => absurd hc hcalls, h⟩
    rw [progStep, heapStep, if_neg hcalls, storedStep, if_neg hcalls]
    rfl
  obtain ⟨hplain, harray, hlink⟩ := hcare hcalls
  obtain ⟨hlistCall, hne⟩ := (Bool.and_eq_true _ _).mp hcalls
  have hiterate : call = .iterate → ∀ v ∈ s.2 l, v.Scalar := fun heq => absurd heq (of_decide_eq_true hne)
  have hstored : storedStep s (.call l call) = Function.update s.2 l (luaListStep (s.2 l) call).1 := if_pos hcalls
  have hlist := h.lists l
  have hsome : ∃ u, s.1.objs l = some u ∧ u.isList = true := by
    obtain ⟨u, hu, hisList⟩ := (Option.any_eq_true _ _).mp ((Bool.and_eq_true _ _).mp hlistCall).1
    exact ⟨u, objs_of_arg hu, hisList⟩
  obtain ⟨u, hobj, hisList⟩ := hsome
  rw [hobj] at hlist
  cases u with
  | array list =>
    obtain ⟨hholds, hvs⟩ := hlist
    have hsize : list.size = (s.2 l).length := by rw [hholds.size, List.length_map]
    have hfits := harray list (by rw [LuaHeap.array, hobj]; rfl)
    unfold ListCall.Fits at hfits
    rw [hsize] at hfits
    obtain ⟨list', hcall, hholds'⟩ :=
      luaListCall_refines arraylist_refines hholds hvs hiterate (by rw [hsize]; exact hfits)
    refine ⟨_, progStep_of (by rw [heapStep, if_pos hcalls, hobj]; dsimp only; rw [hcall]; rfl), fun _ => rfl, ?_⟩
    rw [hstored]
    refine h.update _ le_rfl (h.lt_fresh hobj) ?_ fun q hq => Function.update_of_ne hq _ _
    rw [Function.update_self]
    exact ⟨hholds', luaListStep_forall hvs hplain⟩
  | link link =>
    obtain ⟨hholds, hvs⟩ := hlist
    have hsize : link.size = (s.2 l).length := by rw [hholds.size, List.length_map]
    have hneeds := hlink link (by rw [LuaHeap.link, hobj]; rfl)
    rw [hsize] at hneeds
    obtain ⟨link', hcall, hholds'⟩ := luaListCall_refines (linklist_refines hmalloc) hholds hvs hiterate
      (by rw [hsize]; exact hneeds)
    refine ⟨_, progStep_of (by rw [heapStep, if_pos hcalls, hobj]; dsimp only; rw [hcall]; rfl), fun _ => rfl, ?_⟩
    rw [hstored]
    refine h.update _ le_rfl (h.lt_fresh hobj) ?_ fun q hq => Function.update_of_ne hq _ _
    rw [Function.update_self]
    exact ⟨hholds', luaListStep_forall hvs hplain⟩
  | plain tt | arrayIterator l idx | linkIterator l cur => cases hisList

theorem Holding.array (h : Holding s) {l : ℕ} {list : CelArray (Option MVal)} (hl : s.1.array l = some list) :
    list.Holds ((s.2 l).map pack) ∧ ∀ v ∈ s.2 l, v.Plain := by
  have hlist := h.lists l
  rw [array_eq_some hl] at hlist
  exact hlist

theorem Holding.link (h : Holding s) {l : ℕ} {link : Link (Option MVal)} (hl : s.1.link l = some link) :
    link.Holds ((s.2 l).map pack) ∧ ∀ v ∈ s.2 l, v.Plain := by
  have hlist := h.lists l
  rw [link_eq_some hl] at hlist
  exact hlist

theorem next_step (h : Holding s) {i : ℕ} (hcare : Careful s (.next i)) :
    ∃ r, progStep malloc s (.next i) = some r ∧ Pushes s (.next i) r.2 ∧ Holding r.1 := by
  change NextReady s (s.1.arg i) at hcare
  show ∃ r, progStep malloc s (.next i) = some r ∧ PushesNext s r.2 (s.1.arg i) ∧ Holding r.1
  cases harg : s.1.arg i with
  | none => exact ⟨_, progStep_of (by rw [heapStep, harg]), trivial, h⟩
  | some u =>
    rw [harg] at hcare
    have hobj := objs_of_arg harg
    cases u with
    | arrayIterator l idx =>
      obtain ⟨⟨list, hl⟩, hnil⟩ := hcare
      obtain ⟨hholds, hvs⟩ := h.array hl
      obtain ⟨idx', hnext⟩ := arrayNext_of_holds hholds hvs hnil
      exact ⟨_, progStep_of (by rw [heapStep, harg]; dsimp only; rw [hl, Option.bind_some, hnext]; rfl), rfl,
        h.setIterator hobj (.arrayIterator l idx') trivial _⟩
    | linkIterator l cur =>
      obtain ⟨link, k, hl, hat, hnil⟩ := hcare
      obtain ⟨hholds, hvs⟩ := h.link hl
      obtain ⟨cur', hnext⟩ := linkNext_of_holds hholds hvs hat hnil
      exact ⟨_, progStep_of (by rw [heapStep, harg]; dsimp only; rw [hl, Option.bind_some, hnext]; rfl),
        ⟨link, k, hl, hat, rfl⟩, h.setIterator hobj (.linkIterator l cur') trivial _⟩
    | plain tt | array list | link link => exact ⟨_, progStep_of (by rw [heapStep, harg]), trivial, h⟩

theorem Holding.finalizes (h : Holding s) (hcare : Careful s .collect) {p : ℕ} (hp : p ∉ s.1.held) {u : LuaObj}
    (hu : s.1.objs p = some u) : u.finalizes = true := by
  obtain ⟨hlink, harray⟩ := hcare p hp
  cases u with
  | link link =>
    have hl : s.1.link p = some link := by rw [LuaHeap.link, hu]
    have hholds := (h.link hl).1
    have hnil : (s.2 p).map pack = [] := by
      rw [← List.length_eq_zero_iff, ← hholds.size]
      exact hlink link hl
    rw [hnil] at hholds
    obtain ⟨ns, hns, hvals, -⟩ := hholds
    obtain rfl := List.map_eq_nil_iff.mp hvals.symm
    obtain ⟨l, hrun, -⟩ := celLinkDestroy_nil hns.1 true
    rw [LuaObj.finalizes, hrun]
    rfl
  | array list =>
    have hl : s.1.array p = some list := by rw [LuaHeap.array, hu]
    have hholds := (h.array hl).1
    rw [LuaObj.finalizes, celArrayDestroy, if_pos ⟨harray list hl, hholds.block ▸ hholds.fits⟩]
    rfl
  | plain tt | arrayIterator l idx | linkIterator l cur => rfl

/-- **A careful step.** -/
theorem holding_step (hmalloc : malloc.Total) (h : Holding s) {op : ProgOp} (hcare : Careful s op) :
    ∃ r, progStep malloc s op = some r ∧ Pushes s op r.2 ∧ Holding r.1 := by
  cases op with
  | create tt => exact ⟨_, progStep_of rfl, trivial, h.alloc trivial fun _ _ => rfl⟩
  | newArray =>
    refine ⟨_, progStep_of rfl, trivial, h.alloc ?_ fun q hq => Function.update_of_ne hq _ _⟩
    rw [storedStep, Function.update_self]
    exact ⟨celArrayInit_holds (by decide), fun v hv => absurd hv List.not_mem_nil⟩
  | newLink =>
    obtain ⟨link, hnew, hlink⟩ := luaLinklistNew_holds hmalloc
    refine ⟨_, progStep_of (by rw [heapStep, hnew]; rfl), trivial, h.alloc ?_ fun q hq => Function.update_of_ne hq _ _⟩
    rw [storedStep, Function.update_self]
    exact ⟨hlink, fun v hv => absurd hv List.not_mem_nil⟩
  | call l call => exact call_step hmalloc h hcare
  | iterator l =>
    cases harg : s.1.arg l with
    | none => exact ⟨_, progStep_of (by rw [heapStep, harg]), trivial, h⟩
    | some u =>
      cases u with
      | array list => exact ⟨_, progStep_of (by rw [heapStep, harg]), trivial,
          h.alloc (u := .arrayIterator l 0) trivial fun _ _ => rfl⟩
      | link link => exact ⟨_, progStep_of (by rw [heapStep, harg]), trivial,
          h.alloc (u := .linkIterator l link.head) trivial fun _ _ => rfl⟩
      | plain tt | arrayIterator l idx | linkIterator l cur =>
        exact ⟨_, progStep_of (by rw [heapStep, harg]), trivial, h⟩
  | hasNext i =>
    change OnList s (s.1.arg i) at hcare
    cases harg : s.1.arg i with
    | none => exact ⟨_, progStep_of (by rw [heapStep, harg]), trivial, h⟩
    | some u =>
      rw [harg] at hcare
      cases u with
      | arrayIterator l idx =>
        obtain ⟨list, hl⟩ := hcare
        exact ⟨_, progStep_of (by rw [heapStep, harg]; dsimp only; rw [hl, Option.map_some]), trivial, h⟩
      | linkIterator l cur =>
        obtain ⟨link, k, hl, hat⟩ := hcare
        obtain ⟨ends, hends⟩ := endOfLink_of_at (h.link hl).1 hat
        exact ⟨_, progStep_of (by rw [heapStep, harg]; dsimp only; rw [hl, Option.bind_some, hends, Option.map_some]),
          trivial, h⟩
      | plain tt | array list | link link => exact ⟨_, progStep_of (by rw [heapStep, harg]), trivial, h⟩
  | next i => exact next_step h hcare
  | rewind i =>
    change LinkAlive s (s.1.arg i) at hcare
    cases harg : s.1.arg i with
    | none => exact ⟨_, progStep_of (by rw [heapStep, harg]), trivial, h⟩
    | some u =>
      rw [harg] at hcare
      have hobj := objs_of_arg harg
      cases u with
      | arrayIterator l idx =>
        exact ⟨_, progStep_of (by rw [heapStep, harg]), trivial, h.setIterator hobj (.arrayIterator l 0) trivial _⟩
      | linkIterator l cur =>
        obtain ⟨link, hl⟩ := hcare
        exact ⟨_, progStep_of (by rw [heapStep, harg]; dsimp only; rw [hl, Option.map_some]), trivial,
          h.setIterator hobj (.linkIterator l link.head) trivial _⟩
      | plain tt | array list | link link => exact ⟨_, progStep_of (by rw [heapStep, harg]), trivial, h⟩
  | drop p => exact ⟨_, progStep_of rfl, trivial, h.fresh, h.lists⟩
  | collect =>
    have hall : ((List.range s.1.fresh).all fun p => p ∈ s.1.held || (s.1.objs p).all LuaObj.finalizes) = true := by
      rw [List.all_eq_true]
      intro p _
      rw [Bool.or_eq_true, decide_eq_true_eq, or_iff_not_imp_left]
      intro hp
      cases hu : s.1.objs p with
      | none => rfl
      | some u => exact h.finalizes hcare hp hu
    refine ⟨_, progStep_of (if_pos hall), trivial, fun p hp => ?_, fun p => ?_⟩
    · show (if p ∈ s.1.held then s.1.objs p else none) = none
      rw [h.fresh p hp, ite_self]
    · show HoldsAt (if p ∈ s.1.held then s.1.objs p else none) (s.2 p)
      split_ifs
      · exact h.lists p
      · trivial

theorem holding_start : Holding progStart := ⟨fun _ _ => rfl, fun _ => trivial⟩

/-- **Stored values survive** in every run of a careful program. -/
theorem values_survive (hmalloc : malloc.Total) (ops : List ProgOp)
    (h : Guarded (progStep malloc) Careful progStart ops) :
    Guarded (progStep malloc) (Survives malloc) progStart ops := by
  refine guarded_of_guarded_invariant Holding (fun s op r hs hcare hr => ?_) (fun s op hs hcare => ?_) ops progStart
    holding_start h
  · obtain ⟨r', hstep, -, hr'⟩ := holding_step hmalloc hs hcare
    rw [hr] at hstep
    cases hstep
    exact hr'
  · obtain ⟨r, hstep, hpushes, hr⟩ := holding_step hmalloc hs hcare
    exact ⟨r, hstep, hpushes, hr.allAlive⟩

/-- A number through a collection, which takes an empty linklist, and an iteration. -/
def numberProg : List ProgOp :=
  [.newArray, .call 0 (.addLast (.integer 5)), .newLink, .drop 1, .collect, .call 0 (.get 1), .iterator 0, .next 2]

theorem values_survive_number : Guarded (progStep Malloc.bump) (Survives Malloc.bump) progStart numberProg := by
  refine values_survive Malloc.bump_total numberProg (guarded_cons trivial rfl ?_)
  refine guarded_cons ?_ rfl ?_
  · refine fun _ => ⟨fun v hv => ?_, fun list hlist => ?_, fun link hlink => by cases hlink⟩
    · cases hv
      trivial
    · cases hlist
      exact fun h => absurd h (by decide)
  refine guarded_cons trivial rfl (guarded_cons trivial rfl (guarded_cons ?_ rfl ?_))
  · -- only the linklist is let go
    intro p hp
    have hzero : p ≠ 0 := fun h => hp (by rw [h]; decide)
    rcases eq_or_ne p 1 with rfl | hone
    · refine ⟨fun link hlink => ?_, fun list hlist => by cases hlist⟩
      cases hlink
      rfl
    · have hnone : ∀ u v w : LuaObj,
        Function.update (Function.update (Function.update (fun _ => none) 0 (some u)) 0 (some v)) 1
          (some w) p = none := fun u v w => by
        rw [Function.update_of_ne hone, Function.update_of_ne hzero, Function.update_of_ne hzero]
      exact ⟨fun link hlink => absurd ((hnone _ _ _).symm.trans (link_eq_some hlink)) nofun,
        fun list hlist => absurd ((hnone _ _ _).symm.trans (array_eq_some hlist)) nofun⟩
  refine guarded_cons ?_ rfl ?_
  · exact fun _ => ⟨fun v hv => (by cases hv), fun _ _ => trivial, fun _ _ => trivial⟩
  · exact guarded_cons trivial rfl (guarded_cons ⟨⟨_, rfl⟩, by decide⟩ rfl (guarded_nil _))

/-- A string that only a list holds is collected. -/
theorem not_values_survive : ¬ ∀ ops : List ProgOp,
    Guarded (progStep Malloc.bump) (Survives Malloc.bump) progStart ops := by
  intro hall
  have h := hall [.newArray, .create (4 + 64), .call 0 (.addLast (.gcobject (4 + 64) 1)), .drop 1, .collect]
  obtain ⟨r, hr, -, halive⟩ := ((((h.2 _ rfl).2 _ rfl).2 _ rfl).2 _ rfl).1
  cases hr
  exact halive 0 rfl (4 + 64) 1 List.mem_cons_self (by decide) rfl

end Sarah
