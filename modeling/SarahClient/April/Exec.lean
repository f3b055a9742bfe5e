import SarahClient.April.Value
import SarahClient.Lib.Block
import SarahClient.Mysql.Record

/-!
# The vector of `lua_exec`

The slots are counted by the border `n` of the table, and filled in the order of `lua_next`. A converted number is a
string that is popped before `execv` reads it. `gc` says at which allocations the collector runs, `mem` whether
`calloc` finds the bytes, `elsewhere` which strings the rest of the program holds, and `floatText` stands for the `%f`
of `lua_pushfstring`. A table as a value is one of the kind `other`.

* `leafSource`, `execLoop`, `luaExec`: the call up to `execv`; `vectorTexts`: the texts that `execv` gets;
* `elementTexts`: the elements `1..n` in index order;
* `execLoop_eq`: what the loop stores; `luaExec_served`: the vector;
* **`execVector_iff`**: when the vector is the path and the elements, whenever the collector runs.
-/

namespace Sarah

open StringHeap

/-- A slot of the vector: NULL or a pointer. -/
abbrev ArgSlot := Option (TextPtr UInt8)

/-- What `lua_exec` comes to: it has no memory, or it gives `execv` the vector. -/
inductive ExecCall
  | refused
  | execv (argv : List ArgSlot) (heap : Strings UInt8)

/-- The strings of a call with a text and a table, and those that the rest of the program holds. -/
def callHeld (elsewhere : List UInt8 → Bool) (arg : CString) (es : List (LuaKey × LuaLeaf)) (s : List UInt8) : Bool :=
  elsewhere s || s = arg.1 || es.any fun e => e.1 = .string s || e.2 = .string s

section Model

variable (gc : ℕ → Bool) (mem : ℕ → Bool) (floatText : Option Double → CString) (held : List UInt8 → Bool)

/-- `sarah_calloc(blocks, sizeof(char *))`; a negative number of blocks is more than there are bytes. -/
def callocSlots (blocks : ℤ) : Option (List ArgSlot) :=
  if 0 ≤ blocks ∧ mem (8 * blocks.toNat) then some (List.replicate blocks.toNat none) else none

/-- The switch on the type of a value: `val` is a text of the program or of the table, or a string that is converted and
popped, or NULL. -/
def leafSource (v : LuaLeaf) : Option (Source UInt8) :=
  match v with
  | .boolean b => some (.literal (if b then lit "true" else lit "false"))
  | .integer i => some (.pushed (decimalInt i.toInt))
  | .number d => some (.pushed (floatText d).1)
  | .string s => some (.literal s)
  | .other => none

/-- The loop over the table, from slot `i` on. -/
def execLoop : List LuaLeaf → ℕ → List ArgSlot → Strings UInt8 → Option (List ArgSlot × Strings UInt8)
  | [], _, argv, heap => some (argv, heap)
  | v :: vs, i, argv, heap =>
    match leafSource floatText v with
    | none => execLoop vs i argv heap
    | some src =>
      let val := pushSource gc shortString held src heap
      (Block.store argv i (some val.1)).bind fun argv => execLoop vs (i + 1) argv val.2

/-- `lua_exec` up to `execv`; `none` where `args + 2` overflows or a write is outside of the slots. -/
def luaExec (path : CString) (n : ℕ) (es : List (LuaKey × LuaLeaf)) : Option ExecCall :=
  let args := i32 n
  if args + 2 < 2 ^ 31 then
    match callocSlots mem (args + 2) with
    | none => some .refused
    | some argv =>
      (Block.store argv 0 (some (.static path.1))).bind fun argv =>
        (execLoop gc floatText held (es.map Prod.snd) 1 argv .empty).bind fun r =>
          -- there is a slot 0, so `args + 1` is not negative
          (Block.store r.1 (args + 1).toNat none).map fun argv => .execv argv r.2
  else none

/-- The texts in front of the first NULL, as `execv` reads them: each up to its first NUL byte. `none` where a pointer
is to a freed string, or no NULL comes. -/
def vectorTexts (heap : Strings UInt8) : List ArgSlot → Option (List (List UInt8))
  | [] => none
  | none :: _ => some []
  | some ptr :: argv => (heap.deref ptr).bind fun s => (vectorTexts heap argv).map (cstr s :: ·)

/-- The text of a value of a supported type. -/
def leafText (v : LuaLeaf) : Option (List UInt8) :=
  match v with
  | .boolean b => some (if b then lit "true" else lit "false")
  | .integer i => some (decimalInt i.toInt)
  | .number d => some (floatText d).1
  | .string s => some s
  | .other => none

/-- The element with index `k`. -/
def elementAt (es : List (LuaKey × LuaLeaf)) (k : ℕ) : Option LuaLeaf :=
  (es.find? fun e => match e.1 with
    | .integer i => i.toInt = k
    | _ => false).map Prod.snd

/-- The texts of the elements `1..n` as C strings, those of other types left out. -/
def elementTexts (n : ℕ) (es : List (LuaKey × LuaLeaf)) : List (List UInt8) :=
  (List.range' 1 n).filterMap fun k => ((elementAt es k).bind (leafText floatText)).map cstr

/-- No vector is made for lack of memory, or all writes are inside of it and `execv` gets the path and the elements. -/
def ExecVector (path : CString) (n : ℕ) (es : List (LuaKey × LuaLeaf)) (call : Option ExecCall) : Prop :=
  call = some .refused ∨
    ∃ argv heap, call = some (.execv argv heap) ∧ vectorTexts heap argv = some (path.1 :: elementTexts floatText n es)

/-- The texts of the whole table in the order of `lua_next`. -/
def visitedSources (es : List (LuaKey × LuaLeaf)) : List (Source UInt8) :=
  es.filterMap fun e => leafSource floatText e.2

/-- The first `args` texts that the loop visits are the elements, at most one comes after them, and the collector frees
none of them. -/
structure VectorFits (args : ℤ) (n : ℕ) (es : List (LuaKey × LuaLeaf)) : Prop where
  nonneg : 0 ≤ args
  room : ((visitedSources floatText es).length : ℤ) ≤ args + 1
  order : ((visitedSources floatText es).map fun src => cstr src.text).take args.toNat = elementTexts floatText n es
  kept : NoneFreed shortString held (visitedSources floatText es)

end Model

variable {gc mem : ℕ → Bool} {floatText : Option Double → CString} {held : List UInt8 → Bool}

/-! ## The loop -/

/-- **The loop** fills the slots behind those that are in use, as far as there are enough. -/
theorem execLoop_eq : ∀ (vs : List LuaLeaf) (front back : List ArgSlot) (heap : Strings UInt8),
    execLoop gc floatText held vs front.length (front ++ back) heap =
      if (vs.filterMap (leafSource floatText)).length ≤ back.length then
        some (front ++ (pushSources gc shortString held (vs.filterMap (leafSource floatText)) heap).1.map some ++
            back.drop (vs.filterMap (leafSource floatText)).length,
          (pushSources gc shortString held (vs.filterMap (leafSource floatText)) heap).2)
      else none
  | [], front, back, heap => by
    rw [execLoop, List.filterMap_nil, pushSources, List.map_nil, List.append_nil, List.length_nil,
      if_pos (Nat.zero_le _)]
    rfl
  | v :: vs, front, back, heap => by
    rw [execLoop]
    cases hsrc : leafSource floatText v with
    | none =>
      rw [List.filterMap_cons_none hsrc]
      exact execLoop_eq vs front back heap
    | some src =>
      rw [List.filterMap_cons_some hsrc, pushSources_cons]
      dsimp only
      cases back with
      | nil =>
        rw [Block.store, if_neg (by simp), Option.bind_none, if_neg (by simp)]
      | cons slot back =>
        have hset : ∀ val, (front ++ slot :: back).set front.length val = (front ++ [val]) ++ back := by
          intro val
          rw [List.set_append_right _ _ le_rfl, Nat.sub_self, List.set_cons_zero, List.append_assoc,
            List.singleton_append]
        have hlen : ∀ val, front.length + 1 = (front ++ [val]).length := by
          intro val
          rw [List.length_append, List.length_singleton]
        rw [Block.store_of_lt (by simp), Option.bind_some, hset, hlen, execLoop_eq vs _ back]
        simp only [List.length_cons, Nat.add_le_add_iff_right, List.map_cons, List.drop_succ_cons, List.append_assoc,
          List.cons_append, List.nil_append]

/-! ## The vector -/

theorem vectorTexts_eq_some_iff {heap : Strings UInt8} {rest : List ArgSlot} (hrest : vectorTexts heap rest = some []) :
    ∀ {ptrs : List (TextPtr UInt8)} {texts : List (List UInt8)}, vectorTexts heap (ptrs.map some ++ rest) = some texts ↔
      List.Forall₂ (fun ptr s => (heap.deref ptr).map cstr = some s) ptrs texts
  | [], texts => by
    rw [List.map_nil, List.nil_append, hrest, List.forall₂_nil_left_iff, Option.some.injEq, eq_comm]
  | ptr :: ptrs, texts => by
    rw [List.map_cons, List.cons_append, vectorTexts, Option.bind_eq_some_iff, List.forall₂_cons_left_iff]
    constructor
    · rintro ⟨s, hs, hmap⟩
      obtain ⟨tail, htail, rfl⟩ := Option.map_eq_some_iff.mp hmap
      exact ⟨cstr s, tail, by rw [hs, Option.map_some], (vectorTexts_eq_some_iff hrest).mp htail, rfl⟩
    · rintro ⟨_, tail, hptr, htail, rfl⟩
      obtain ⟨s, hs, rfl⟩ := Option.map_eq_some_iff.mp hptr
      exact ⟨s, hs, Option.map_eq_some_iff.mpr ⟨tail, (vectorTexts_eq_some_iff hrest).mpr htail, rfl⟩⟩

theorem vectorTexts_null (heap : Strings UInt8) (k : ℕ) (rest : List ArgSlot) :
    vectorTexts heap (List.replicate k none ++ none :: rest) = some [] := by
  cases k with
  | zero => rfl
  | succ k => rfl

theorem set_last (ptrs : List (TextPtr UInt8)) (args : ℕ) (hroom : ptrs.length ≤ args + 1) :
    ∃ k rest, (ptrs.map some ++ List.replicate (args + 1 - ptrs.length) none).set args none =
      (ptrs.take args).map some ++ (List.replicate k none ++ none :: rest) := by
  refine ⟨args - ptrs.length, [], ?_⟩
  rw [List.set_eq_take_append_cons_drop, if_pos (by simp; omega), List.take_append, List.length_map, ← List.map_take,
    List.take_replicate, List.append_assoc, List.drop_of_length_le (by simp; omega), min_eq_left (by omega)]

section Call

variable {path : CString} {n args : ℕ} {es : List (LuaKey × LuaLeaf)}

theorem not_execVector_none : ¬ ExecVector floatText path n es none := by
  rintro (h | ⟨argv, heap, h, -⟩)
  · cases h
  · cases h

/-- The pointers to the texts of the table, and the strings at the end. -/
def tablePointers (gc : ℕ → Bool) (floatText : Option Double → CString) (held : List UInt8 → Bool)
    (es : List (LuaKey × LuaLeaf)) : List (TextPtr UInt8) × Strings UInt8 :=
  pushSources gc shortString held (visitedSources floatText es) .empty

theorem tablePointers_length :
    (tablePointers gc floatText held es).1.length = (visitedSources floatText es).length := pushSources_length ..

theorem luaExec_refused (hint : i32 n + 2 < 2 ^ 31) (hno : ¬ (0 ≤ i32 n + 2 ∧ mem (8 * (i32 n + 2).toNat) = true)) :
    luaExec gc mem floatText held path n es = some .refused := by
  have hcalloc : callocSlots mem (i32 n + 2) = none := if_neg hno
  rw [luaExec, if_pos hint, hcalloc]

theorem callocSlots_nat (hmem : mem (8 * (args + 2)) = true) :
    callocSlots mem ((args : ℤ) + 2) = some (List.replicate (args + 2) none) := by
  rw [callocSlots, show ((args : ℤ) + 2).toNat = args + 2 by omega, if_pos ⟨by omega, hmem⟩]

theorem luaExec_served (hargs : i32 n = args) (hint : (args : ℤ) + 2 < 2 ^ 31) (hmem : mem (8 * (args + 2)) = true) :
    luaExec gc mem floatText held path n es =
      if (visitedSources floatText es).length ≤ args + 1 then
        some (.execv (some (.static path.1) :: ((tablePointers gc floatText held es).1.map some ++
            List.replicate (args + 1 - (visitedSources floatText es).length) none).set args none)
          (tablePointers gc floatText held es).2)
      else none := by
  have hloop := @execLoop_eq gc floatText held (es.map Prod.snd) [some (.static path.1)]
    (List.replicate (args + 1) none) .empty
  have hsources : (es.map Prod.snd).filterMap (leafSource floatText) = visitedSources floatText es :=
    List.filterMap_map ..
  rw [hsources, List.length_replicate, List.drop_replicate, List.length_singleton, List.singleton_append] at hloop
  rw [luaExec, hargs, if_pos hint, callocSlots_nat hmem]
  dsimp only
  rw [Block.store_of_lt (by simp), Option.bind_some, List.replicate_succ, List.set_cons_zero, hloop]
  by_cases hroom : (visitedSources floatText es).length ≤ args + 1
  · have hlast : (args + 1 : ℕ) < (some (TextPtr.static path.1) :: ((tablePointers gc floatText held es).1.map some ++
        List.replicate (args + 1 - (visitedSources floatText es).length) none)).length := by
      rw [List.length_cons, List.length_append, List.length_map, List.length_replicate, tablePointers_length]
      omega
    rw [if_pos hroom, if_pos hroom, Option.bind_some, show ((args : ℤ) + 1).toNat = args + 1 by omega]
    exact congrArg (Option.map _) (Block.store_of_lt hlast none)
  · rw [if_neg hroom, if_neg hroom, Option.bind_none]

/-- With `args + 2` slots, the texts of the vector are those behind the first `args` pointers. -/
theorem execVector_served (hargs : i32 n = args) (hint : (args : ℤ) + 2 < 2 ^ 31) (hmem : mem (8 * (args + 2)) = true) :
    ExecVector floatText path n es (luaExec gc mem floatText held path n es) ↔
      (visitedSources floatText es).length ≤ args + 1 ∧
        List.Forall₂ (fun ptr s => ((tablePointers gc floatText held es).2.deref ptr).map cstr = some s)
          ((tablePointers gc floatText held es).1.take args) (elementTexts floatText n es) := by
  rw [luaExec_served hargs hint hmem]
  by_cases hroom : (visitedSources floatText es).length ≤ args + 1
  · obtain ⟨k, rest, hset⟩ := set_last (tablePointers gc floatText held es).1 args (by rwa [tablePointers_length])
    rw [tablePointers_length] at hset
    have htexts : ∀ texts, vectorTexts (tablePointers gc floatText held es).2
        (some (.static path.1) :: ((tablePointers gc floatText held es).1.take args).map some ++
          (List.replicate k none ++ none :: rest)) = some (path.1 :: texts) ↔ _ := fun texts =>
      (@vectorTexts_eq_some_iff _ _ (vectorTexts_null _ k rest) (.static path.1 :: _) _).trans List.forall₂_cons
    rw [if_pos hroom, hset]
    constructor
    · rintro (h | ⟨argv, heap, hcall, h⟩)
      · cases h
      · cases hcall
        exact ⟨hroom, ((htexts _).mp h).2⟩
    · rintro ⟨-, h⟩
      exact .inr ⟨_, _, rfl, (htexts _).mpr ⟨congrArg some (cstr_of_notMem path.2), h⟩⟩
  · rw [if_neg hroom]
    exact iff_of_false not_execVector_none fun h => hroom h.1

theorem execLoop_full (vs : List LuaLeaf) (front : List ArgSlot) (heap : Strings UInt8) :
    execLoop gc floatText held vs front.length front heap = none ∨
      ∃ heap', execLoop gc floatText held vs front.length front heap = some (front, heap') := by
  have hloop := @execLoop_eq gc floatText held vs front [] heap
  rw [List.append_nil] at hloop
  rw [hloop]
  split_ifs with hnone
  · rw [List.length_eq_zero_iff.mp (Nat.le_zero.mp hnone)]
    refine .inr ⟨heap, ?_⟩
    rw [pushSources, List.map_nil, List.append_nil, List.drop_nil, List.append_nil]
  · exact .inl rfl

theorem not_execVector_of_one (hargs : i32 n = -1) (hmem : mem 8 = true) :
    ¬ ExecVector floatText path n es (luaExec gc mem floatText held path n es) := by
  have hcalloc : callocSlots mem (-1 + 2) = some [none] := by
    rw [callocSlots, if_pos ⟨by decide, hmem⟩]
    rfl
  have hcall : luaExec gc mem floatText held path n es =
      (execLoop gc floatText held (es.map Prod.snd) 1 [some (.static path.1)] .empty).bind fun r =>
        (Block.store r.1 0 none).map fun argv => .execv argv r.2 := by
    rw [luaExec, hargs, if_pos (by decide), hcalloc]
    rfl
  rw [hcall]
  rcases @execLoop_full gc floatText held (es.map Prod.snd) [some (.static path.1)] .empty with hloop | ⟨heap, hloop⟩
  · rw [List.length_singleton] at hloop
    rw [hloop]
    exact not_execVector_none
  · rw [List.length_singleton] at hloop
    rw [hloop]
    rintro (h | ⟨argv, heap, h, htexts⟩)
    · cases h
    · cases h
      cases htexts

theorem not_execVector_of_empty (hargs : i32 n = -2) (hmem : mem 0 = true) :
    ¬ ExecVector floatText path n es (luaExec gc mem floatText held path n es) := by
  have hcalloc : callocSlots mem (-2 + 2) = some [] := by
    rw [callocSlots, if_pos ⟨by decide, hmem⟩]
    rfl
  have hcall : luaExec gc mem floatText held path n es = none := by
    rw [luaExec, hargs, if_pos (by decide), hcalloc]
    rfl
  rw [hcall]
  exact not_execVector_none

theorem not_execVector_of_neg (hneg : i32 n < 0) (hserved : 0 ≤ i32 n + 2 ∧ mem (8 * (i32 n + 2).toNat) = true) :
    ¬ ExecVector floatText path n es (luaExec gc mem floatText held path n es) := by
  obtain ⟨hle, hmem⟩ := hserved
  have hargs : i32 n = -1 ∨ i32 n = -2 := by omega
  rcases hargs with hargs | hargs
  · rw [hargs] at hmem
    exact not_execVector_of_one hargs hmem
  · rw [hargs] at hmem
    exact not_execVector_of_empty hargs hmem

/-! ## The elements of the table -/

theorem forall_gc_iff (hroom : (visitedSources floatText es).length ≤ args + 1) (texts : List (List UInt8)) :
    (∀ gc, List.Forall₂ (fun ptr s => ((tablePointers gc floatText held es).2.deref ptr).map cstr = some s)
        ((tablePointers gc floatText held es).1.take args) texts) ↔
      ((visitedSources floatText es).map fun src => cstr src.text).take args = texts ∧
        NoneFreed shortString held (visitedSources floatText es) := by
  have hlive : NoneFreed shortString held (visitedSources floatText es) → ∀ gc,
      List.Forall₂ (fun ptr s => ((tablePointers gc floatText held es).2.deref ptr).map cstr = some s)
        ((tablePointers gc floatText held es).1.take args)
        (((visitedSources floatText es).map fun src => cstr src.text).take args) := by
    intro hkept gc
    have hall := @pushSources_live UInt8 _ gc shortString held _ .empty (fun _ => rfl) hkept
    refine List.forall₂_take args (List.forall₂_map_right_iff.mpr (hall.flip.imp fun ptr src hsrc => ?_))
    rw [tablePointers, hsrc, Option.map_some]
  constructor
  · intro h
    have hkept : NoneFreed shortString held (visitedSources floatText es) := by
      refine @noneFreed_of_live_dropLast UInt8 _ _ _ _ .empty fun ptr hptr => ?_
      have hlen : (tablePointers (fun _ => true) floatText held es).1.length - 1 ≤ args := by
        rw [tablePointers_length]
        omega
      rw [List.dropLast_eq_take] at hptr
      obtain ⟨t, -, ht⟩ := exists_of_forall₂ (h fun _ => true) ((List.take_subset_take_left _ hlen) hptr)
      obtain ⟨s, hs, -⟩ := Option.map_eq_some_iff.mp ht
      exact ⟨s, hs⟩
    refine ⟨List.right_unique_forall₂' (fun _ _ _ hs hs' => ?_) (hlive hkept fun _ => true) (h fun _ => true), hkept⟩
    exact Option.some.inj (hs.symm.trans hs')
  · rintro ⟨rfl, hkept⟩
    exact hlive hkept

/-- The call with `args + 2` slots, for all runs of the collector at once. -/
theorem forall_execVector_iff (hargs : i32 n = args) (hint : (args : ℤ) + 2 < 2 ^ 31)
    (hmem : mem (8 * (args + 2)) = true) :
    (∀ gc, ExecVector floatText path n es (luaExec gc mem floatText held path n es)) ↔
      VectorFits floatText held args n es := by
  constructor
  · intro h
    have hserved := fun gc => (execVector_served hargs hint hmem).mp (h gc)
    have hroom := (hserved fun _ => true).1
    obtain ⟨horder, hkept⟩ := (forall_gc_iff hroom _).mp fun gc => (hserved gc).2
    exact ⟨Int.natCast_nonneg args, mod_cast hroom, horder, hkept⟩
  · intro h gc
    have hroom : (visitedSources floatText es).length ≤ args + 1 := mod_cast h.room
    exact (execVector_served hargs hint hmem).mpr ⟨hroom, (forall_gc_iff hroom _).mpr ⟨h.order, h.kept⟩ gc⟩

end Call

/-- **The vector.** Whenever the collector runs, `execv` gets the path and the elements exactly where `calloc` refuses
the slots, or where `lua_next` visits the supported elements `1..n` first and in index order, at most one supported
value comes after them, and no converted number is followed by another one that may free it. -/
theorem execVector_iff (mem : ℕ → Bool) (floatText : Option Double → CString) (elsewhere : List UInt8 → Bool)
    (path : CString) (n : ℕ) (es : List (LuaKey × LuaLeaf)) :
    (∀ gc, ExecVector floatText path n es (luaExec gc mem floatText (callHeld elsewhere path es) path n es)) ↔
      i32 n + 2 < 2 ^ 31 ∧ (i32 n + 2 < 0 ∨ mem (8 * (i32 n + 2).toNat) = false ∨
        VectorFits floatText (callHeld elsewhere path es) (i32 n) n es) := by
  generalize callHeld elsewhere path es = held
  by_cases hint : i32 n + 2 < 2 ^ 31
  · by_cases hserved : 0 ≤ i32 n + 2 ∧ mem (8 * (i32 n + 2).toNat) = true
    · rcases lt_or_ge (i32 n) 0 with hneg | hpos
      · refine iff_of_false (fun h => not_execVector_of_neg hneg hserved (h fun _ => true)) ?_
        rintro ⟨-, h | h | h⟩
        · omega
        · rw [hserved.2] at h
          cases h
        · exact absurd h.nonneg (not_le.mpr hneg)
      · obtain ⟨args, hargs⟩ := Int.eq_ofNat_of_zero_le hpos
        have hmem : mem (8 * (args + 2)) = true := by
          have := hserved.2
          rwa [hargs, show ((args : ℤ) + 2).toNat = args + 2 by omega] at this
        rw [forall_execVector_iff hargs (by omega) hmem, hargs]
        refine ⟨fun h => ⟨by omega, .inr (.inr h)⟩, ?_⟩
        rintro ⟨-, h | h | h⟩
        · omega
        · rw [show ((args : ℤ) + 2).toNat = args + 2 by omega, hmem] at h
          cases h
        · exact h
    · refine iff_of_true (fun gc => .inl (luaExec_refused hint hserved)) ⟨hint, ?_⟩
      rw [not_and_or, not_le, Bool.not_eq_true] at hserved
      exact hserved.imp_right .inl
  · have hcall : luaExec (fun _ => true) mem floatText held path n es = none := by
      rw [luaExec, if_neg hint]
    refine iff_of_false (fun h => ?_) fun h => hint h.1
    have hvector := h fun _ => true
    rw [hcall] at hvector
    exact not_execVector_none hvector

/-- Two values under other keys: the border is 0, and there are two slots. -/
theorem not_execVector : ¬ ∀ (gc mem : ℕ → Bool) (floatText : Option Double → CString) (elsewhere : List UInt8 → Bool)
    (path : CString) (n : ℕ) (es : List (LuaKey × LuaLeaf)),
    ExecVector floatText path n es (luaExec gc mem floatText (callHeld elsewhere path es) path n es) := by
  intro h
  have hcall : luaExec (fun _ => true) (fun _ => true) (fun _ => ⟨[], by decide⟩)
      (callHeld (fun _ => false) ⟨lit "/bin/sh", by decide⟩
        [(.string (lit "x"), .string (lit "a")), (.string (lit "y"), .string (lit "b"))])
      ⟨lit "/bin/sh", by decide⟩ 0 [(.string (lit "x"), .string (lit "a")), (.string (lit "y"), .string (lit "b"))] =
        none := by rfl
  have hvector := h (fun _ => true) (fun _ => true) (fun _ => ⟨[], by decide⟩)
    (fun _ => false) ⟨lit "/bin/sh", by decide⟩ 0
    [(.string (lit "x"), .string (lit "a")), (.string (lit "y"), .string (lit "b"))]
  rw [hcall] at hvector
  exact not_execVector_none hvector

end Sarah
