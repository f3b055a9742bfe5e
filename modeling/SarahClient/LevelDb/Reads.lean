import SarahClient.LevelDb.Codec
import SarahClient.Lib.Machine
import Mathlib.Algebra.BigOperators.Group.List.Basic
import Mathlib.Order.Basic

/-!
# Reads of the LevelDB binding, `lua_leveldb.c`

`leveldb_get` returns a copy, and `leveldb_iter_value` points into the database's own storage, where the iterator then
drops the type mark.

* `LevelStore`, `LevelEnv.OwnsStorage`: the storage of the database, and a library over it;
* `ReadOp`, `readStep`: the two reads, with what they leave in the storage; `ReadsKeep`: what they should do;
* `Convertible`, `ReadsHarmless`: the condition;
* `nullTerminatedAdjust_eq_some`, `weight_readStep_le`: a byte falls out of the storage, and none comes back;
* `put_marked_iff`: the values that the binding marks are the numbers and the tables;
* **`readsKeep_iff`**: which reads leave the database alone; **`not_readsKeep`**: an integer, read twice.
-/

namespace Sarah

open Block Machine

/-- The values by key, in storage of the database. -/
abbrev LevelStore := List UInt8 → Option (List UInt8)

/-- The library stores the bytes it is given, copies them for `leveldb_get`, and shows them to an iterator. -/
structure LevelEnv.OwnsStorage (env : LevelEnv LevelStore) : Prop where
  put : ∀ d key val, env.put d key val = Function.update d key (some val)
  get : ∀ d key, env.get d key = d key
  iterValue : ∀ d key, env.iterValue d key = d key

/-- A read through the binding: `lua_leveldb_get`, or `lua_leveldb_iterator_value` with the iterator on the key. -/
inductive ReadOp
  | get (key : List UInt8)
  | iteratorValue (key : List UInt8)
  deriving DecidableEq

/-- The key that is read. -/
def ReadOp.key : ReadOp → List UInt8
  | .get key | .iteratorValue key => key

/-- The type marks of integers, floats and tables. -/
def Marked (val : List UInt8) : Prop := val[0]? = some 105 ∨ val[0]? = some 100 ∨ val[0]? = some 116

instance (val : List UInt8) : Decidable (Marked val) :=
  inferInstanceAs (Decidable (val[0]? = some 105 ∨ val[0]? = some 100 ∨ val[0]? = some 116))

/-- What `lua_leveldb_iterator_value` leaves in the storage that it reads; `none` where it leaves the storage. -/
def iteratorStorage (val : List UInt8) : Option (List UInt8) :=
  if val = [] then none else if Marked val then nullTerminatedAdjust val else some val

variable (env : LevelEnv LevelStore)

/-- What a read pushes; `none` where the conversion of the value is undefined. -/
def readAnswer (d : LevelStore) : ReadOp → Option GotOut
  | .get key => luaLeveldbGet env d key
  | .iteratorValue key => luaLeveldbIteratorValue env d key

/-- A read, which leaves the storage changed. -/
def readStep (d : LevelStore) (op : ReadOp) : Option (LevelStore × GotOut) :=
  (readAnswer env d op).bind fun out =>
    match op with
    | .get _ => some (d, out)
    | .iteratorValue key =>
      match env.iterValue d key with
      | none => some (d, out)
      | some val => (iteratorStorage val).map fun val' => (Function.update d key (some val'), out)

/-- **The property**: every read is defined, the database ends as it was, and two reads of a key push the same value. -/
def ReadsKeep (d : LevelStore) (ops : List ReadOp) : Prop :=
  ∃ outs, exec (readStep env) d ops = some (d, outs) ∧
    ∀ p ∈ ops.zip outs, ∀ q ∈ ops.zip outs, p.1.key = q.1.key → p.2 = q.2

/-- What can be converted: an `int` counts the text of a number or a table, and the stack has room for the document of
a table. -/
structure Convertible (val : List UInt8) : Prop where
  counted : Marked val → 0 ≤ i32 ((val.length : ℤ) - 1)
  fits : val[0]? = some 116 → ∀ text json, nullTerminatedAdjust val = some text → env.parse (cstr text) = some json →
    (luaJsonDecode env.room json).isSome

/-- No iterator reads a value with one of the marks, one without a mark or the mark of a boolean alone, and no iterator
shares with `get` a value of one byte, the empty string; what `get` reads can be converted. -/
structure ReadsHarmless (d : LevelStore) (ops : List ReadOp) : Prop where
  unmarked : ∀ key, .iteratorValue key ∈ ops → ∀ val, d key = some val → val ≠ [] ∧ val ≠ lit "b" ∧ ¬ Marked val
  shared : ∀ key, .iteratorValue key ∈ ops → .get key ∈ ops → ∀ val, d key = some val → 2 ≤ val.length
  convertible : ∀ key, .get key ∈ ops → ∀ val, d key = some val → 2 ≤ val.length → Convertible env val

/-! ## The bytes in the storage -/

theorem nullTerminatedAdjust_eq_some {val val' : List UInt8} (h : nullTerminatedAdjust val = some val') :
    ∃ c s t, val = c :: (s ++ t) ∧ val' = s ++ 0 :: t := by
  rw [nullTerminatedAdjust] at h
  split_ifs at h with he
  obtain ⟨n, hn⟩ : ∃ n : ℕ, i32 ((val.length : ℤ) - 1) = n := ⟨_, (Int.toNat_of_nonneg (not_lt.mp he)).symm⟩
  rw [hn, Int.toNat_natCast] at h
  have hlen : n + 1 ≤ val.length := by
    rw [i32] at hn
    omega
  obtain ⟨c, rest, rfl⟩ := List.exists_cons_of_length_pos (Nat.lt_of_lt_of_le n.succ_pos hlen)
  rw [List.length_cons] at hlen
  obtain ⟨b, hmove, hb, hget⟩ := moveDown_spec 1 n 1 (c :: rest) le_rfl (by rw [List.length_cons]; omega)
  rw [hmove, Option.bind_some, store_of_lt (by rw [hb, List.length_cons]; omega), Option.some.injEq] at h
  refine ⟨c, rest.take n, rest.drop n, by rw [List.take_append_drop], ?_⟩
  rw [← h]
  apply List.ext_getElem?
  intro j
  have htake : (rest.take n).length = n := by
    rw [List.length_take]
    omega
  rw [List.getElem?_set, hget, hb, List.length_cons]
  rcases Nat.lt_trichotomy j n with hlt | rfl | hgt
  · rw [if_neg (by omega), if_pos (by omega), List.getElem?_cons_succ, List.getElem?_append_left (by omega),
      List.getElem?_take_of_lt hlt]
  · rw [if_pos rfl, if_pos (by omega), List.getElem?_append_right (by omega), htake, Nat.sub_self]
    rfl
  · obtain ⟨k, rfl⟩ := Nat.exists_eq_add_of_lt hgt
    rw [if_neg (by omega), if_neg (by omega), List.getElem?_append_right (by omega), htake,
      show n + k + 1 - n = k + 1 by omega, List.getElem?_cons_succ, List.getElem?_cons_succ, List.getElem?_drop]

theorem nullTerminatedAdjust_isSome_iff (val : List UInt8) :
    (nullTerminatedAdjust val).isSome ↔ 0 ≤ i32 ((val.length : ℤ) - 1) := by
  rw [nullTerminatedAdjust]
  split_ifs with he
  · exact iff_of_false (fun h => by cases h) (not_le.mpr he)
  · refine iff_of_true ?_ (not_lt.mp he)
    obtain ⟨n, hn⟩ : ∃ n : ℕ, i32 ((val.length : ℤ) - 1) = n := ⟨_, (Int.toNat_of_nonneg (not_lt.mp he)).symm⟩
    have hlen : n + 1 ≤ val.length := by
      rw [i32] at hn
      omega
    obtain ⟨b, hmove, hb, -⟩ := moveDown_spec 1 n 1 val le_rfl (by omega)
    rw [hn, Int.toNat_natCast, hmove, Option.bind_some, store_of_lt (by omega)]
    rfl

/-- The sum of the bytes. -/
def bytesWeight (val : List UInt8) : ℕ := (val.map UInt8.toNat).sum

theorem bytesWeight_nullTerminatedAdjust {val val' : List UInt8} (hmark : Marked val)
    (h : nullTerminatedAdjust val = some val') : bytesWeight val' < bytesWeight val := by
  obtain ⟨c, s, t, rfl, rfl⟩ := nullTerminatedAdjust_eq_some h
  have hc : 0 < c.toNat := by
    rw [Marked, List.getElem?_cons_zero, Option.some.injEq, Option.some.injEq, Option.some.injEq] at hmark
    rcases hmark with rfl | rfl | rfl <;> decide
  simp only [bytesWeight, List.map_append, List.map_cons, List.sum_append, List.sum_cons, UInt8.toNat_zero, zero_add]
  omega

theorem bytesWeight_iteratorStorage {val val' : List UInt8} (h : iteratorStorage val = some val') :
    bytesWeight val' ≤ bytesWeight val ∧
      (bytesWeight val' = bytesWeight val → val' = val ∧ val ≠ [] ∧ ¬ Marked val) := by
  rw [iteratorStorage] at h
  split_ifs at h with hempty hmark
  · have hlt := bytesWeight_nullTerminatedAdjust hmark h
    exact ⟨hlt.le, fun heq => absurd heq hlt.ne⟩
  · cases h
    exact ⟨le_rfl, fun _ => ⟨rfl, hempty, hmark⟩⟩

/-- The sum of the bytes of each key. -/
def LevelStore.weight (d : LevelStore) : List UInt8 → ℕ := fun key => ((d key).map bytesWeight).getD 0

variable {env}

/-- What a read leaves: the storage of other keys, and the bytes of its own, or fewer. -/
theorem readStep_eq_some (henv : env.OwnsStorage) {d : LevelStore} {op : ReadOp} {r : LevelStore × GotOut}
    (h : readStep env d op = some r) : readAnswer env d op = some r.2 ∧
      (r.1 = d ∨ ∃ val val', op = .iteratorValue op.key ∧ d op.key = some val ∧ iteratorStorage val = some val' ∧
        r.1 = Function.update d op.key (some val')) := by
  obtain ⟨out, hout, h⟩ := Option.bind_eq_some_iff.mp h
  rw [hout]
  cases op with
  | get key =>
    cases h
    exact ⟨rfl, .inl rfl⟩
  | iteratorValue key =>
    simp only [henv.iterValue] at h
    split at h
    · cases h
      exact ⟨rfl, .inl rfl⟩
    · rename_i val hval
      obtain ⟨val', hstorage, hr⟩ := Option.map_eq_some_iff.mp h
      cases hr
      exact ⟨rfl, .inr ⟨val, val', rfl, hval, hstorage, rfl⟩⟩

theorem weight_readStep_le (henv : env.OwnsStorage) (d : LevelStore) (op : ReadOp) (r : LevelStore × GotOut)
    (h : readStep env d op = some r) : r.1.weight ≤ d.weight := by
  rcases (readStep_eq_some henv h).2 with heq | ⟨val, val', -, hval, hstorage, heq⟩
  · rw [heq]
  · intro key
    rw [heq, LevelStore.weight, LevelStore.weight]
    by_cases hkey : key = op.key
    · rw [hkey, Function.update_self, hval]
      exact (bytesWeight_iteratorStorage hstorage).1
    · rw [Function.update_of_ne hkey]

theorem readStep_eq_of_weight (henv : env.OwnsStorage) (d : LevelStore) (op : ReadOp) (r : LevelStore × GotOut)
    (h : readStep env d op = some r) (hweight : r.1.weight = d.weight) : r.1 = d := by
  rcases (readStep_eq_some henv h).2 with heq | ⟨val, val', -, hval, hstorage, heq⟩
  · exact heq
  · have hkey := congrFun hweight op.key
    rw [heq, LevelStore.weight, LevelStore.weight, Function.update_self, hval] at hkey
    rw [heq, ((bytesWeight_iteratorStorage hstorage).2 hkey).1, ← hval, Function.update_eq_self]

theorem readStep_stays_iff (henv : env.OwnsStorage) (d : LevelStore) (op : ReadOp) :
    (∃ out, readStep env d op = some (d, out)) ↔ (readAnswer env d op).isSome ∧
      (op = .iteratorValue op.key → ∀ val, d op.key = some val → val ≠ [] ∧ ¬ Marked val) := by
  cases hout : readAnswer env d op with
  | none =>
    rw [readStep, hout]
    exact iff_of_false (fun ⟨out, h⟩ => by cases h) (fun h => by cases h.1)
  | some out =>
    rw [readStep, hout, Option.bind_some, Option.isSome_some, and_iff_right rfl]
    cases op with
    | get key => exact ⟨fun _ h => (by cases h), fun _ => ⟨_, rfl⟩⟩
    | iteratorValue key =>
      simp only [henv.iterValue]
      cases hval : d key with
      | none => exact ⟨fun _ _ val h => absurd (hval.symm.trans h) nofun, fun _ => ⟨_, rfl⟩⟩
      | some val =>
        dsimp only
        constructor
        · rintro ⟨out', hout'⟩ - v hv
          rw [ReadOp.key, hval, Option.some.injEq] at hv
          subst hv
          obtain ⟨val', hstorage, heq⟩ := Option.map_eq_some_iff.mp hout'
          have hsame : val' = val := by
            have h := congrFun (Prod.mk.inj heq).1 key
            rw [Function.update_self, hval, Option.some.injEq] at h
            exact h
          exact ((bytesWeight_iteratorStorage hstorage).2 (by rw [hsame])).2
        · intro h
          obtain ⟨hne, hmark⟩ := h rfl val hval
          refine ⟨out, ?_⟩
          rw [iteratorStorage, if_neg hne, if_neg hmark, Option.map_some, ← hval, Function.update_eq_self]

/-! ## Which reads are defined -/

theorem pushValue_isSome_iff {val : List UInt8} (hlen : 2 ≤ val.length) :
    (pushValue env val).isSome ↔ Convertible env val := by
  match val, hlen with
  | mark :: c :: rest, _ =>
    have hadjust := nullTerminatedAdjust_isSome_iff (mark :: c :: rest)
    have hget : (mark :: c :: rest)[0]? = some mark := rfl
    have hmarked : Marked (mark :: c :: rest) ↔ mark = 105 ∨ mark = 100 ∨ mark = 116 := by
      rw [Marked, hget, Option.some.injEq, Option.some.injEq, Option.some.injEq]
    have hunmarked : ¬ Marked (mark :: c :: rest) → Convertible env (mark :: c :: rest) := fun h =>
      ⟨fun hm => absurd hm h, fun hm => absurd (.inr (.inr hm)) h⟩
    have hnumber : mark ≠ 116 → Marked (mark :: c :: rest) →
        (Convertible env (mark :: c :: rest) ↔ (nullTerminatedAdjust (mark :: c :: rest)).isSome) := fun hne hm =>
      ⟨fun h => hadjust.mpr (h.counted hm), fun h => ⟨fun _ => hadjust.mp h, fun ht => absurd (Option.some.inj ht) hne⟩⟩
    rw [pushValue, hget, Option.bind_some]
    split_ifs with hs hi hd hb ht
    · exact iff_of_true rfl (hunmarked (by rw [hmarked, hs]; decide))
    · rw [Option.isSome_map, hnumber (by rw [hi]; decide) (hmarked.mpr (.inl hi))]
    · rw [Option.isSome_map, hnumber (by rw [hd]; decide) (hmarked.mpr (.inr (.inl hd)))]
    · exact iff_of_true rfl (hunmarked (by rw [hmarked, hb]; decide))
    · have hm := hmarked.mpr (.inr (.inr ht))
      cases htext : nullTerminatedAdjust (mark :: c :: rest) with
      | none =>
        rw [htext] at hadjust
        exact iff_of_false (fun h => by cases h) fun h => absurd (hadjust.mpr (h.counted hm)) nofun
      | some text =>
        rw [Option.bind_some]
        cases hjson : env.parse (cstr text) with
        | none =>
          refine iff_of_true rfl ⟨fun _ => hadjust.mp (by rw [htext]; rfl), fun _ text' json htext' hjson' => ?_⟩
          rw [htext, Option.some.injEq] at htext'
          rw [← htext', hjson] at hjson'
          cases hjson'
        | some json =>
          dsimp only
          rw [Option.isSome_map]
          refine ⟨fun h => ⟨fun _ => hadjust.mp (by rw [htext]; rfl), fun _ text' json' htext' hjson' => ?_⟩, fun h =>
            h.fits (by rw [hget, ht]) text json htext hjson⟩
          rw [htext, Option.some.injEq] at htext'
          rw [← htext', hjson, Option.some.injEq] at hjson'
          rw [← hjson']
          exact h
    · exact iff_of_true rfl (hunmarked (by rw [hmarked]; tauto))

theorem get_isSome_iff (henv : env.OwnsStorage) (d : LevelStore) (key : List UInt8) :
    (readAnswer env d (.get key)).isSome ↔ ∀ val, d key = some val → 2 ≤ val.length → Convertible env val := by
  rw [readAnswer, luaLeveldbGet, henv.get]
  cases hval : d key with
  | none => exact iff_of_true rfl fun val h => by cases h
  | some val =>
    dsimp only
    split_ifs with hlen
    · refine iff_of_true rfl fun val' h hlen' => ?_
      rw [← Option.some.inj h] at hlen'
      omega
    · rw [pushValue_isSome_iff (not_lt.mp hlen)]
      refine ⟨fun h val' hval' _ => ?_, fun h => h val rfl (not_lt.mp hlen)⟩
      rw [← Option.some.inj hval']
      exact h

/-- An iterator reads a value without these marks, unless a boolean has no second byte. -/
theorem iteratorValue_isSome_iff (henv : env.OwnsStorage) {d : LevelStore} {key val : List UInt8}
    (hval : d key = some val)
    (hne : val ≠ []) (hmark : ¬ Marked val) : (readAnswer env d (.iteratorValue key)).isSome ↔ val ≠ lit "b" := by
  rw [readAnswer, luaLeveldbIteratorValue, henv.iterValue, hval]
  dsimp only
  obtain ⟨mark, rest, rfl⟩ := List.exists_cons_of_ne_nil hne
  rw [Marked, List.getElem?_cons_zero, Option.some.injEq, Option.some.injEq, Option.some.injEq, not_or, not_or] at hmark
  rw [pushValue, List.getElem?_cons_zero, Option.bind_some, if_neg hmark.1, if_neg hmark.2.1, if_neg hmark.2.2]
  have hb : mark :: rest = lit "b" ↔ mark = 98 ∧ rest = [] := List.cons_eq_cons
  split_ifs with hs hm
  · exact iff_of_true rfl fun h => absurd (hs.symm.trans (hb.mp h).1) (by decide)
  · rw [Option.isSome_map, List.getElem?_cons_succ, ne_eq, hb, and_iff_right hm]
    cases rest with
    | nil => exact iff_of_false (fun h => by cases h) fun h => h rfl
    | cons c rest => exact iff_of_true rfl (List.cons_ne_nil c rest)
  · exact iff_of_true rfl fun h => hm (hb.mp h).1

/-! ## Which reads leave the database alone -/

/-- A value of one byte is nil to `get`, and never to an iterator. -/
theorem readAnswer_ne_of_length (henv : env.OwnsStorage) {d : LevelStore} {key val : List UInt8}
    (hval : d key = some val) (hne : val ≠ []) (hmark : ¬ Marked val) (hlen : val.length < 2) :
    readAnswer env d (.get key) ≠ readAnswer env d (.iteratorValue key) := by
  obtain ⟨c, rfl⟩ : ∃ c, val = [c] := List.length_eq_one_iff.mp (by have := List.length_pos_iff.mpr hne; omega)
  rw [Marked, List.getElem?_cons_zero, Option.some.injEq, Option.some.injEq, Option.some.injEq, not_or, not_or] at hmark
  have hget : readAnswer env d (.get key) = some .nil := by
    rw [readAnswer, luaLeveldbGet, henv.get, hval]
    exact if_pos hlen
  have hiter : readAnswer env d (.iteratorValue key) = pushValue env [c] := by
    rw [readAnswer, luaLeveldbIteratorValue, henv.iterValue, hval]
  rw [hget, hiter, pushValue, List.getElem?_cons_zero, Option.bind_some, if_neg hmark.1, if_neg hmark.2.1,
    if_neg hmark.2.2]
  split_ifs <;> rintro ⟨⟩

theorem readAnswer_eq_of_length (henv : env.OwnsStorage) {d : LevelStore} {key : List UInt8}
    (hlen : ∀ val, d key = some val → 2 ≤ val.length) :
    readAnswer env d (.get key) = readAnswer env d (.iteratorValue key) := by
  rw [readAnswer, readAnswer, luaLeveldbGet, luaLeveldbIteratorValue, henv.get, henv.iterValue]
  cases hval : d key with
  | none => rfl
  | some val => exact if_neg (Nat.not_lt.mpr (hlen val hval))

theorem mem_zip_map {α β : Type} (f : α → β) (l : List α) {p : α × β} : p ∈ l.zip (l.map f) ↔
    ∃ a ∈ l, p = (a, f a) := by
  rw [← List.map_prod_left_eq_zip, List.mem_map]
  exact ⟨fun ⟨a, ha, h⟩ => ⟨a, ha, h.symm⟩, fun ⟨a, ha, h⟩ => ⟨a, ha, h.symm⟩⟩

theorem readsKeep_iff_stays (henv : env.OwnsStorage) (d : LevelStore) (ops : List ReadOp) :
    ReadsKeep env d ops ↔ (∀ op ∈ ops, ∃ out, readStep env d op = some (d, out)) ∧
      ∀ o₁ ∈ ops, ∀ o₂ ∈ ops, o₁.key = o₂.key → readAnswer env d o₁ = readAnswer env d o₂ := by
  have hexec : (∀ op ∈ ops, ∃ out, readStep env d op = some (d, out)) → ∃ f : ReadOp → GotOut,
      (∀ op ∈ ops, readAnswer env d op = some (f op)) ∧ exec (readStep env) d ops = some (d, ops.map f) := by
    intro hstay
    have hanswer : ∀ op ∈ ops, readAnswer env d op = some ((readAnswer env d op).getD .nil) := by
      intro op hop
      obtain ⟨out, hout⟩ := hstay op hop
      rw [(readStep_eq_some henv hout).1]
      rfl
    refine ⟨fun op => (readAnswer env d op).getD .nil, hanswer, exec_of_stays fun op hop => ?_⟩
    obtain ⟨out, hout⟩ := hstay op hop
    rw [hout, (readStep_eq_some henv hout).1]
    rfl
  constructor
  · rintro ⟨outs, hrun, hsame⟩
    have hstay := stays_of_exec LevelStore.weight (weight_readStep_le henv) (readStep_eq_of_weight henv) hrun
    obtain ⟨f, hanswer, hexec⟩ := hexec hstay
    refine ⟨hstay, fun o₁ h₁ o₂ h₂ hkey => ?_⟩
    rw [hexec, Option.some.injEq, Prod.mk.injEq] at hrun
    rw [← hrun.2] at hsame
    rw [hanswer o₁ h₁, hanswer o₂ h₂]
    exact congrArg some (hsame _ ((mem_zip_map _ ops).mpr ⟨o₁, h₁, rfl⟩) _ ((mem_zip_map _ ops).mpr ⟨o₂, h₂, rfl⟩) hkey)
  · rintro ⟨hstay, hsame⟩
    obtain ⟨f, hanswer, hexec⟩ := hexec hstay
    refine ⟨ops.map f, hexec, fun p hp q hq hkey => ?_⟩
    obtain ⟨o₁, h₁, rfl⟩ := (mem_zip_map _ ops).mp hp
    obtain ⟨o₂, h₂, rfl⟩ := (mem_zip_map _ ops).mp hq
    have heq := hsame o₁ h₁ o₂ h₂ hkey
    rw [hanswer o₁ h₁, hanswer o₂ h₂] at heq
    exact Option.some.inj heq

/-- **Which reads leave the database alone**, and push the same value every time. -/
theorem readsKeep_iff (henv : env.OwnsStorage) (d : LevelStore) (ops : List ReadOp) :
    ReadsKeep env d ops ↔ ReadsHarmless env d ops := by
  rw [readsKeep_iff_stays henv]
  constructor
  · rintro ⟨hstay, hsame⟩
    have hdefined : ∀ op ∈ ops, (readAnswer env d op).isSome := fun op hop =>
      ((readStep_stays_iff henv d op).mp (hstay op hop)).1
    have hunmarked : ∀ key, .iteratorValue key ∈ ops → ∀ val, d key = some val → val ≠ [] ∧ ¬ Marked val :=
      fun key hkey => ((readStep_stays_iff henv d _).mp (hstay _ hkey)).2 rfl
    refine ⟨fun key hiter val hval => ?_, fun key hiter hget val hval => ?_, fun key hget =>
      (get_isSome_iff henv d key).mp (hdefined _ hget)⟩
    · obtain ⟨hne, hmark⟩ := hunmarked key hiter val hval
      exact ⟨hne, (iteratorValue_isSome_iff henv hval hne hmark).mp (hdefined _ hiter), hmark⟩
    · by_contra hlen
      obtain ⟨hne, hmark⟩ := hunmarked key hiter val hval
      exact readAnswer_ne_of_length henv hval hne hmark (Nat.not_le.mp hlen) (hsame _ hget _ hiter rfl)
  · rintro ⟨hunmarked, hshared, hconvertible⟩
    have hstay : ∀ op ∈ ops, ∃ out, readStep env d op = some (d, out) := by
      intro op hop
      rw [readStep_stays_iff henv]
      cases op with
      | get key => exact ⟨(get_isSome_iff henv d key).mpr (hconvertible key hop), nofun⟩
      | iteratorValue key =>
        refine ⟨?_, fun _ val hval => ⟨(hunmarked key hop val hval).1, (hunmarked key hop val hval).2.2⟩⟩
        cases hval : d key with
        | none =>
          rw [readAnswer, luaLeveldbIteratorValue, henv.iterValue, hval]
          rfl
        | some val =>
          obtain ⟨hne, hb, hmark⟩ := hunmarked key hop val hval
          exact (iteratorValue_isSome_iff henv hval hne hmark).mpr hb
    refine ⟨hstay, fun o₁ h₁ o₂ h₂ hkey => ?_⟩
    have hmixed : ∀ key, .iteratorValue key ∈ ops → .get key ∈ ops →
        readAnswer env d (.get key) = readAnswer env d (.iteratorValue key) := fun key hiter hget =>
      readAnswer_eq_of_length henv (hshared key hiter hget)
    cases o₁ with
    | get key₁ =>
      cases o₂ with
      | get key₂ => rw [show key₁ = key₂ from hkey]
      | iteratorValue key₂ =>
        obtain rfl : key₁ = key₂ := hkey
        exact hmixed key₁ h₂ h₁
    | iteratorValue key₁ =>
      cases o₂ with
      | get key₂ =>
        obtain rfl : key₁ = key₂ := hkey
        exact (hmixed key₁ h₁ h₂).symm
      | iteratorValue key₂ => rw [show key₁ = key₂ from hkey]

/-! ## Values that the binding writes -/

/-- The type mark. -/
def typeMark : LuaValue → UInt8
  | .inl (.string _) => 115
  | .inl (.integer _) => 105
  | .inl (.number _) => 100
  | .inl (.boolean _) => 98
  | .inl .other => 0
  | .inr _ => 116

theorem putText_eq_some {v : LuaValue} {val : List UInt8} {vallen : ℕ} (h : putText env v = some (some (val, vallen))) :
    ∃ text n, val = typeMark v :: text ∧ vallen = n + 1 := by
  match v, h with
  | .inl (.string s), h =>
    cases h
    exact ⟨cstr s ++ [0], s.length, rfl, rfl⟩
  | .inl (.integer i), h =>
    cases h
    exact ⟨decimalInt i.toInt ++ [0], (decimalInt i.toInt).length, rfl, rfl⟩
  | .inl (.number x), h =>
    cases h
    exact ⟨env.formatFloat x ++ [0], (env.formatFloat x).length, rfl, rfl⟩
  | .inl (.boolean b), h =>
    cases b <;> cases h
    · exact ⟨[48, 0], 1, rfl, rfl⟩
    · exact ⟨[49, 0], 1, rfl, rfl⟩
  | .inr t, h =>
    obtain ⟨r, -, hread⟩ := Option.bind_eq_some_iff.mp h
    obtain ⟨json, -, hprint⟩ := Option.map_eq_some_iff.mp hread
    obtain ⟨text, -, htext⟩ := Option.map_eq_some_iff.mp hprint
    cases htext
    exact ⟨text ++ [0], text.length, rfl, rfl⟩

/-- **What the binding has written**: the marks of an integer, a float or a table, or none of them. -/
theorem put_marked_iff (henv : env.OwnsStorage) {d d' : LevelStore} {key : List UInt8} {v : LuaValue}
    (h : luaLeveldbPut env d key v = some (.stored d')) : ∃ val, d' = Function.update d key (some val) ∧ val ≠ [] ∧
      (Marked val ↔ typeMark v = 105 ∨ typeMark v = 100 ∨ typeMark v = 116) := by
  obtain ⟨out, hout, hstore⟩ := Option.bind_eq_some_iff.mp h
  match out, hout, hstore with
  | some (val, vallen), hout, hstore =>
    obtain ⟨text, n, rfl, rfl⟩ := putText_eq_some hout
    dsimp only at hstore
    split_ifs at hstore
    cases hstore
    refine ⟨typeMark v :: text.take n, ?_, List.cons_ne_nil _ _, ?_⟩
    · rw [henv.put, List.take_succ_cons]
    · rw [Marked, List.getElem?_cons_zero, Option.some.injEq, Option.some.injEq, Option.some.injEq]

/-! ## An integer, read twice -/

theorem functionEnv_ownsStorage : functionEnv.OwnsStorage where
  put d key val := by
    funext k
    rw [Function.update_apply]
    rfl
  get _ _ := rfl
  iterValue _ _ := rfl

/-- A database with the string `"v"` under `"k"`. -/
def stringStore : LevelStore := Function.update (fun _ => none) (lit "k") (some (lit "sv"))

theorem readsKeep_iff_string :
    ReadsKeep functionEnv stringStore [.iteratorValue (lit "k"), .get (lit "k"), .iteratorValue (lit "k")] := by
  have hval : ∀ {key val}, ReadOp.iteratorValue key ∈
      [ReadOp.iteratorValue (lit "k"), .get (lit "k"), .iteratorValue (lit "k")] →
      stringStore key = some val → val = lit "sv" := by
    intro key val hkey h
    obtain rfl : key = lit "k" := by simpa using hkey
    rw [stringStore, Function.update_self, Option.some.injEq] at h
    exact h.symm
  have hgot : ∀ {key val}, ReadOp.get key ∈
      [ReadOp.iteratorValue (lit "k"), .get (lit "k"), .iteratorValue (lit "k")] →
      stringStore key = some val → val = lit "sv" := by
    intro key val hkey h
    obtain rfl : key = lit "k" := by simpa using hkey
    exact hval (by simp) h
  refine (readsKeep_iff functionEnv_ownsStorage _ _).mpr
    ⟨fun key hkey val h => ?_, fun key hkey _ val h => ?_, fun key hkey val h _ => ?_⟩
  · rw [hval hkey h]
    exact ⟨by decide, by decide, by decide⟩
  · rw [hval hkey h]
    decide
  · rw [hgot hkey h]
    exact ⟨fun hmark => absurd hmark (by decide), fun hmark => absurd hmark (by decide)⟩

/-- The first read takes the mark `i` from the storage, and the second one finds `7` and a NUL. -/
theorem not_readsKeep : ∃ d, luaLeveldbPut functionEnv (fun _ => none) (lit "k")
    (.inl (.integer 7)) = some (.stored d) ∧
    ¬ ReadsKeep functionEnv d [.iteratorValue (lit "k"), .iteratorValue (lit "k")] := by
  refine ⟨functionEnv.put (fun _ => none) (lit "k") (lit "i7"), putInteger 7 _ _, fun h => ?_⟩
  have hstay := ((readsKeep_iff_stays functionEnv_ownsStorage _ _).mp h).1 _ List.mem_cons_self
  have hmark := ((readStep_stays_iff functionEnv_ownsStorage _ _).mp hstay).2 rfl (lit "i7") rfl
  exact hmark.2 (by decide)

end Sarah
