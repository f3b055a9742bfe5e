import SarahClient.LevelDb.Binding
import SarahClient.Lib.Machine

/-!
# The lifetimes of options and iterators

A database does not keep its options userdata reachable, and an iterator not its database.

* `AgreesAt`: leveldb's objects are those of the userdata; `Sound`: the invariant;
* `Careful`: no options object that an open database uses dies, and no database dies before its iterators;
* `careful_step`: a careful step makes only calls that leveldb allows;
* `careless_step`: a step that is not careful can be followed by one that makes a forbidden call;
* **`leveldb_lifetimes`**: the same for whole runs.
-/

namespace Sarah.LevelDb

open Machine

/-! ## Userdata -/

/-- An options object that is not destroyed. -/
def Userdata.liveOptions : Option Userdata → Bool
  | some (.options _ true) => true
  | _ => false

/-- An open database. -/
def Userdata.isOpen : Option Userdata → Bool
  | some (.leveldb self) => self.db
  | _ => false

/-- A userdata of a database. -/
def Userdata.isLeveldb : Option Userdata → Bool
  | some (.leveldb _) => true
  | _ => false

/-- The options userdata that an open database uses. -/
def Userdata.uses : Option Userdata → List ℕ
  | some (.leveldb self) => if self.db then [self.readOptions, self.writeOptions] else []
  | _ => []

/-- The database of an iterator that is not destroyed. -/
def Userdata.liveIterator : Option Userdata → Option ℕ
  | some (.iterator d true) => some d
  | _ => none

open Userdata

/-- What the program must take care of before a step. -/
def Careful (st : Binding) : LevelOp → Prop
  | .destroyOptions p => p ∈ st.held → ∀ d ∈ st.held, p ∉ uses (st.objs d)
  | .new opens readOption writeOption =>
    opens = true → (∀ p ∈ readOption.toList ++ writeOption.toList, p ∈ st.held) →
      readOption.all (checkOptions st .read) → writeOption.all (checkOptions st .write) →
        ∀ p ∈ readOption.toList ++ writeOption.toList, liveOptions (st.objs p)
  | .setReadOption d p =>
    d ∈ st.held → p ∈ st.held → isOpen (st.objs d) → checkOptions st .read p → liveOptions (st.objs p)
  | .setWriteOption d p =>
    d ∈ st.held → p ∈ st.held → isOpen (st.objs d) → checkOptions st .write p → liveOptions (st.objs p)
  | .iterator d => d ∈ st.held → isLeveldb (st.objs d) → isOpen (st.objs d)
  | .close d => d ∈ st.held → ∀ i < st.fresh, liveIterator (st.objs i) ≠ some d
  | .collect => (∀ d ∈ st.held, ∀ p ∈ uses (st.objs d), p ∈ st.held) ∧
      ∀ i ∈ st.held, ∀ d ∈ liveIterator (st.objs i), d ∈ st.held
  | _ => True

instance (st : Binding) : ∀ op, Decidable (Careful st op)
  | .destroyOptions p => inferInstanceAs (Decidable (p ∈ st.held → ∀ d ∈ st.held, p ∉ uses (st.objs d)))
  | .new opens readOption writeOption => inferInstanceAs (Decidable (opens = true →
      (∀ p ∈ readOption.toList ++ writeOption.toList, p ∈ st.held) →
        readOption.all (checkOptions st .read) → writeOption.all (checkOptions st .write) →
          ∀ p ∈ readOption.toList ++ writeOption.toList, liveOptions (st.objs p)))
  | .setReadOption d p => inferInstanceAs (Decidable (d ∈ st.held → p ∈ st.held → isOpen (st.objs d) →
      checkOptions st .read p → liveOptions (st.objs p)))
  | .setWriteOption d p => inferInstanceAs (Decidable (d ∈ st.held → p ∈ st.held → isOpen (st.objs d) →
      checkOptions st .write p → liveOptions (st.objs p)))
  | .iterator d => inferInstanceAs (Decidable (d ∈ st.held → isLeveldb (st.objs d) → isOpen (st.objs d)))
  | .close d => inferInstanceAs (Decidable (d ∈ st.held → ∀ i < st.fresh, liveIterator (st.objs i) ≠ some d))
  | .collect => inferInstanceAs (Decidable ((∀ d ∈ st.held, ∀ p ∈ uses (st.objs d), p ∈ st.held) ∧
      ∀ i ∈ st.held, ∀ d ∈ liveIterator (st.objs i), d ∈ st.held))
  | .createReadOption | .createWriteOption | .setOptions _ | .put _ | .write _ | .get _ | .delete _ | .useIterator _
  | .destroyIterator _ | .drop _ => isTrue trivial

/-- leveldb's object and the userdata of a number. -/
structure AgreesAt (lv : Leveldb) (p : ℕ) (u : Option Userdata) : Prop where
  options : p ∈ lv.options ↔ liveOptions u = true
  dbs : p ∈ lv.dbs ↔ isOpen u = true
  iterators : ∀ d, (p, d) ∈ lv.iterators ↔ liveIterator u = some d

/-- The invariant of the userdata. -/
structure Safe (st : Binding) : Prop where
  fresh : ∀ p, st.fresh ≤ p → st.objs p = none
  held : ∀ p ∈ st.held, st.objs p ≠ none
  uses : ∀ d ∈ st.held, ∀ p ∈ uses (st.objs d), liveOptions (st.objs p) = true
  iterators : ∀ i d, liveIterator (st.objs i) = some d → d < i ∧ isOpen (st.objs d) = true

/-- **The invariant**. -/
structure Sound (st : Binding) (lv : Leveldb) : Prop where
  agrees : ∀ p, AgreesAt lv p (st.objs p)
  safe : Safe st

@[simp] theorem Binding.set_self (st : Binding) (p : ℕ) (u : Option Userdata) : (st.set p u).objs p = u := by
  simp [Binding.set]

theorem Binding.set_of_ne (st : Binding) {p q : ℕ} (u : Option Userdata) (h : q ≠ p) :
    (st.set p u).objs q = st.objs q := by
  simp [Binding.set, h]

/-! ## Calls -/

/-- The userdata whose leveldb object a call changes. -/
def LevelCall.subject : LevelCall → ℕ
  | .createOptions p | .setOptions p | .destroyOptions p | .openDb p | .closeDb p | .useDb p _
  | .createIterator p _ _ | .useIterator p | .destroyIterator p => p

theorem call_frame {lv lv' : Leveldb} {c : LevelCall} (h : lv.call c = some lv') {q : ℕ} (hq : q ≠ c.subject)
    {u : Option Userdata} (hu : AgreesAt lv q u) : AgreesAt lv' q u := by
  cases c with
  | createOptions p =>
    cases h
    exact ⟨by rw [← hu.options]; simp [Finset.mem_insert, show q ≠ p from hq], hu.dbs, hu.iterators⟩
  | setOptions p =>
    obtain ⟨-, rfl⟩ := Option.ite_none_right_eq_some.mp h |>.imp_right Option.some.inj
    exact hu
  | destroyOptions p =>
    obtain ⟨-, rfl⟩ := Option.ite_none_right_eq_some.mp h |>.imp_right Option.some.inj
    exact ⟨by rw [← hu.options]; simp [show q ≠ p from hq], hu.dbs, hu.iterators⟩
  | openDb d =>
    cases h
    exact ⟨hu.options, by rw [← hu.dbs]; simp [show q ≠ d from hq], hu.iterators⟩
  | closeDb d =>
    cases h
    exact ⟨hu.options, by rw [← hu.dbs]; simp [show q ≠ d from hq], hu.iterators⟩
  | useDb d options =>
    obtain ⟨-, rfl⟩ := Option.ite_none_right_eq_some.mp h |>.imp_right Option.some.inj
    exact hu
  | createIterator i d options =>
    obtain ⟨-, rfl⟩ := Option.ite_none_right_eq_some.mp h |>.imp_right Option.some.inj
    exact ⟨hu.options, hu.dbs, fun e => by rw [← hu.iterators e]; simp [show q ≠ i from hq]⟩
  | useIterator i =>
    obtain ⟨-, rfl⟩ := Option.ite_none_right_eq_some.mp h |>.imp_right Option.some.inj
    exact hu
  | destroyIterator i =>
    obtain ⟨-, rfl⟩ := Option.ite_none_right_eq_some.mp h |>.imp_right Option.some.inj
    exact ⟨hu.options, hu.dbs, fun e => by rw [← hu.iterators e]; simp [show q ≠ i from hq]⟩

theorem calls_append (cs cs' : List LevelCall) : ∀ lv : Leveldb,
    lv.calls (cs ++ cs') = (lv.calls cs).bind (·.calls cs') := by
  induction cs with
  | nil => exact fun lv => rfl
  | cons c cs ih =>
    intro lv
    rw [List.cons_append, Leveldb.calls, Leveldb.calls, Option.bind_assoc]
    exact congrArg _ (funext ih)

theorem calls_singleton (lv : Leveldb) (c : LevelCall) : lv.calls [c] = lv.call c := by
  rw [Leveldb.calls]
  cases lv.call c <;> rfl

/-- A call that changes the object of one userdata, which changes with it. -/
theorem agrees_update {objs : ℕ → Option Userdata} {lv lv' : Leveldb} (h : ∀ p, AgreesAt lv p (objs p)) {c : LevelCall}
    (hc : lv.call c = some lv') {u : Option Userdata} (hu : AgreesAt lv' c.subject u) :
    ∀ p, AgreesAt lv' p (Function.update objs c.subject u p) := by
  intro p
  by_cases hp : p = c.subject
  · rw [hp, Function.update_self]
    exact hu
  · rw [Function.update_of_ne hp]
    exact call_frame hc hp (h p)

/-! ## Updates -/

theorem Safe.update {st : Binding} (h : Safe st) {p fresh : ℕ} {u : Option Userdata} {held : Finset ℕ}
    (hfresh : st.fresh ≤ fresh) (hp : p < fresh) (hheld : ∀ q ∈ held, q = p ∧ u ≠ none ∨ q ≠ p ∧ q ∈ st.held)
    (hoptions : liveOptions u = false → ∀ d ∈ st.held, p ∉ Userdata.uses (st.objs d))
    (huses : p ∈ held → ∀ q ∈ Userdata.uses u, q ≠ p ∧ liveOptions (st.objs q) = true)
    (hiterator : ∀ d, liveIterator u = some d → d < p ∧ isOpen (st.objs d) = true)
    (hopen : isOpen u = false → ∀ i, liveIterator (st.objs i) ≠ some p) :
    Safe ⟨Function.update st.objs p u, fresh, held⟩ where
  fresh := fun q hq => by
    dsimp only at hq ⊢
    rw [Function.update_of_ne (by omega)]
    exact h.fresh q (by omega)
  held := fun q hq => by
    dsimp only
    rcases hheld q hq with ⟨rfl, hu⟩ | ⟨hne, hq⟩
    · rw [Function.update_self]
      exact hu
    · rw [Function.update_of_ne hne]
      exact h.held q hq
  uses := fun d hd q hq => by
    dsimp only at hd hq ⊢
    rcases hheld d hd with ⟨rfl, -⟩ | ⟨hne, hd'⟩
    · rw [Function.update_self] at hq
      rw [Function.update_of_ne (huses hd q hq).1]
      exact (huses hd q hq).2
    · rw [Function.update_of_ne hne] at hq
      by_cases hqp : q = p
      · rw [hqp, Function.update_self]
        by_contra hlive
        exact hoptions (Bool.eq_false_iff.mpr hlive) d hd' (hqp ▸ hq)
      · rw [Function.update_of_ne hqp]
        exact h.uses d hd' q hq
  iterators := fun i d hi => by
    dsimp only at hi ⊢
    by_cases hip : i = p
    · rw [hip, Function.update_self] at hi
      obtain ⟨hlt, hd⟩ := hiterator d hi
      rw [Function.update_of_ne (by omega), hip]
      exact ⟨hlt, hd⟩
    · rw [Function.update_of_ne hip] at hi
      refine ⟨(h.iterators i d hi).1, ?_⟩
      by_cases hdp : d = p
      · rw [hdp, Function.update_self]
        by_contra hclosed
        exact hopen (Bool.eq_false_iff.mpr hclosed) i (hdp ▸ hi)
      · rw [Function.update_of_ne hdp]
        exact (h.iterators i d hi).2

theorem Safe.lt_fresh {st : Binding} (h : Safe st) {p : ℕ} (hp : st.objs p ≠ none) : p < st.fresh := by
  by_contra hle
  exact hp (h.fresh p (not_lt.mp hle))

theorem Safe.no_iterator {st : Binding} (h : Safe st) {p : ℕ} (hp : isOpen (st.objs p) = false) (i : ℕ) :
    liveIterator (st.objs i) ≠ some p := fun hi =>
  absurd ((h.iterators i p hi).2.symm.trans hp) (by decide)

theorem Safe.not_used {st : Binding} (h : Safe st) {p : ℕ} (hp : liveOptions (st.objs p) = false) {d : ℕ}
    (hd : d ∈ st.held) : p ∉ Userdata.uses (st.objs d) := fun hmem =>
  absurd ((h.uses d hd p hmem).symm.trans hp) (by decide)

theorem Sound.change {st st' : Binding} {lv lv' : Leveldb} (h : Sound st lv) {c : LevelCall}
    (hc : lv.call c = some lv') {u : Option Userdata} (hobjs : st'.objs = Function.update st.objs c.subject u)
    (hu : AgreesAt lv' c.subject u) (hsafe : Safe st') : ∃ lv', lv.calls [c] = some lv' ∧ Sound st' lv' :=
  ⟨lv', by rw [calls_singleton, hc], ⟨fun p => hobjs ▸ agrees_update h.agrees hc hu p, hsafe⟩⟩

theorem Sound.keep {st st' : Binding} {lv : Leveldb} (h : Sound st lv) {p : ℕ} {u : Option Userdata}
    (hobjs : st'.objs = Function.update st.objs p u) (hoptions : liveOptions u = liveOptions (st.objs p))
    (hdbs : isOpen u = isOpen (st.objs p)) (hiterators : liveIterator u = liveIterator (st.objs p)) (hsafe : Safe st') :
    Sound st' lv where
  agrees := fun q => by
    rw [hobjs]
    by_cases hq : q = p
    · have hold := h.agrees p
      rw [hq, Function.update_self]
      exact ⟨by rw [hoptions]; exact hold.options, by rw [hdbs]; exact hold.dbs, by
        rw [hiterators]; exact hold.iterators⟩
    · rw [Function.update_of_ne hq]
      exact h.agrees q
  safe := hsafe

/-! ## One function at a time -/

section Steps

variable {st : Binding} {lv : Leveldb}

theorem Sound.newOptions (h : Sound st lv) (kind : OptionsKind) {held : Finset ℕ}
    (hheld : ∀ q ∈ held, q = st.fresh ∨ q ∈ st.held) : ∃ lv', lv.calls [.createOptions st.fresh] = some lv' ∧
      Sound { st.alloc (.options kind true) with held := held } lv' := by
  have hnone := h.safe.fresh st.fresh le_rfl
  have hold := h.agrees st.fresh
  rw [hnone] at hold
  refine h.change rfl rfl ⟨?_, hold.dbs, hold.iterators⟩ (h.safe.update (Nat.le_succ _) (Nat.lt_succ_self _)
    (fun q hq => ?_) nofun (fun _ => List.forall_mem_nil _) nofun fun _ => h.safe.no_iterator (by rw [hnone]; rfl))
  · simp [LevelCall.subject, liveOptions]
  · by_cases hqf : q = st.fresh
    · exact .inl ⟨hqf, nofun⟩
    · exact .inr ⟨hqf, (hheld q hq).resolve_left hqf⟩

theorem optionNew_sound (h : Sound st lv) (kind : OptionsKind) :
    ∃ lv', lv.calls (optionNew kind st).2 = some lv' ∧ Sound (optionNew kind st).1 lv' :=
  h.newOptions kind fun _ hq => Finset.mem_insert.mp hq

theorem optionsSet_sound (h : Sound st lv) (p : ℕ) :
    ∃ lv', lv.calls (optionsSet p st).2 = some lv' ∧ Sound (optionsSet p st).1 lv' := by
  unfold optionsSet
  split
  · rename_i hobj
    have hmem := (h.agrees p).options.mpr (by rw [hobj]; rfl)
    exact ⟨lv, by rw [calls_singleton, Leveldb.call, if_pos hmem], h⟩
  · exact ⟨lv, rfl, h⟩

theorem held_replace (st : Binding) (p : ℕ) {u : Option Userdata} (hu : u ≠ none) :
    ∀ q ∈ st.held, q = p ∧ u ≠ none ∨ q ≠ p ∧ q ∈ st.held := fun q hq => by
  by_cases hqp : q = p
  · exact .inl ⟨hqp, hu⟩
  · exact .inr ⟨hqp, hq⟩

theorem optionsDestroy_sound (h : Sound st lv) {p : ℕ} (hunused : ∀ d ∈ st.held, p ∉ uses (st.objs d)) :
    ∃ lv', lv.calls (optionsDestroy p st).2 = some lv' ∧ Sound (optionsDestroy p st).1 lv' := by
  unfold optionsDestroy
  split
  · rename_i kind hobj
    have hold := h.agrees p
    rw [hobj] at hold
    have hmem := hold.options.mpr rfl
    refine h.change (if_pos hmem) rfl ⟨?_, hold.dbs, hold.iterators⟩ (h.safe.update le_rfl
      (h.safe.lt_fresh (by rw [hobj]; exact nofun)) (held_replace st p nofun) (fun _ => hunused)
      (fun _ => List.forall_mem_nil _) nofun fun _ => h.safe.no_iterator (by rw [hobj]; rfl))
    simp [LevelCall.subject, liveOptions]
  · exact ⟨lv, rfl, h⟩

theorem luaLeveldbDestroy_sound (h : Sound st lv) {d : ℕ} (hno : ∀ i, liveIterator (st.objs i) ≠ some d) :
    ∃ lv', lv.calls (luaLeveldbDestroy d st).2 = some lv' ∧ Sound (luaLeveldbDestroy d st).1 lv' := by
  unfold luaLeveldbDestroy
  split
  · rename_i self hobj
    split_ifs with hdb
    · have hold := h.agrees d
      rw [hobj] at hold
      refine h.change rfl rfl ⟨hold.options, ?_, hold.iterators⟩ (h.safe.update le_rfl
        (h.safe.lt_fresh (by rw [hobj]; exact nofun)) (held_replace st d nofun)
        (fun _ _ hd => h.safe.not_used (by rw [hobj]; rfl) hd) (fun _ => List.forall_mem_nil _) nofun fun _ => hno)
      simp [LevelCall.subject, isOpen]
    · exact ⟨lv, rfl, h⟩
  · exact ⟨lv, rfl, h⟩

theorem Sound.iteratorOpen (h : Sound st lv) (i : ℕ) : lv.IteratorOpen i := by
  rintro ⟨j, d⟩ he rfl
  exact (h.agrees d).dbs.mpr (h.safe.iterators _ d ((h.agrees _).iterators d |>.mp he)).2

theorem luaLeveldbIteratorDestroy_sound (h : Sound st lv) (i : ℕ) :
    ∃ lv', lv.calls (luaLeveldbIteratorDestroy i st).2 = some lv' ∧ Sound (luaLeveldbIteratorDestroy i st).1 lv' := by
  unfold luaLeveldbIteratorDestroy
  split
  · rename_i d hobj
    have hold := h.agrees i
    rw [hobj] at hold
    refine h.change (if_pos (h.iteratorOpen i)) rfl ⟨hold.options, hold.dbs, fun e => ?_⟩ (h.safe.update le_rfl
      (h.safe.lt_fresh (by rw [hobj]; exact nofun)) (held_replace st i nofun)
      (fun _ _ hd => h.safe.not_used (by rw [hobj]; rfl) hd) (fun _ => List.forall_mem_nil _) nofun
      fun _ => h.safe.no_iterator (by rw [hobj]; rfl))
    simp [LevelCall.subject, liveIterator]
  · exact ⟨lv, rfl, h⟩

theorem iteratorUse_sound (h : Sound st lv) (i : ℕ) :
    ∃ lv', lv.calls (iteratorUse i st).2 = some lv' ∧ Sound (iteratorUse i st).1 lv' := by
  unfold iteratorUse
  split
  · exact ⟨lv, by rw [calls_singleton, Leveldb.call, if_pos (h.iteratorOpen i)], h⟩
  · exact ⟨lv, rfl, h⟩

theorem mem_uses {self : LuaLeveldb} (hdb : self.db = true) (kind : OptionsKind) :
    self.pointer kind ∈ uses (some (.leveldb self)) := by
  rw [uses, if_pos hdb]
  cases kind with
  | read => exact List.mem_cons_self
  | write => exact List.mem_cons_of_mem _ List.mem_cons_self

theorem liveOptions_iff {u : Option Userdata} : liveOptions u = true ↔ ∃ kind, u = some (.options kind true) := by
  constructor
  · intro hlive
    unfold liveOptions at hlive
    split at hlive
    · exact ⟨_, rfl⟩
    · cases hlive
  · rintro ⟨kind, rfl⟩
    rfl

theorem optionsOf_of_live {self : LuaLeveldb} {kind : OptionsKind}
    (hlive : liveOptions (st.objs (self.pointer kind)) = true) : st.optionsOf self kind = some (self.pointer kind) := by
  obtain ⟨k, hobj⟩ := liveOptions_iff.mp hlive
  unfold Binding.optionsOf
  rw [hobj]

/-- An open database that the program holds has options that are not destroyed. -/
theorem Sound.optionsOf (h : Sound st lv) {d : ℕ} (hd : d ∈ st.held) {self : LuaLeveldb}
    (hobj : st.objs d = some (.leveldb self)) (hdb : self.db = true) (kind : OptionsKind) :
    (st.optionsOf self kind).any (· ∈ lv.options) = true := by
  have hlive := h.safe.uses d hd (self.pointer kind) (hobj ▸ mem_uses hdb kind)
  rw [optionsOf_of_live hlive, Option.any_some, decide_eq_true_iff]
  exact (h.agrees _).options.mpr hlive

theorem useDb_sound (h : Sound st lv) (kind : OptionsKind) {d : ℕ} (hd : d ∈ st.held) :
    ∃ lv', lv.calls (useDb kind d st).2 = some lv' ∧ Sound (useDb kind d st).1 lv' := by
  unfold useDb
  split
  · rename_i self hobj
    split_ifs with hdb
    · exact ⟨lv, by rw [calls_singleton, Leveldb.call, if_pos (h.optionsOf hd hobj hdb kind)], h⟩
    · exact ⟨lv, rfl, h⟩
  · exact ⟨lv, rfl, h⟩

theorem luaLeveldbIteratorNew_sound (h : Sound st lv) {d : ℕ} (hd : d ∈ st.held)
    (hopen : isLeveldb (st.objs d) = true → isOpen (st.objs d) = true) :
    ∃ lv', lv.calls (luaLeveldbIteratorNew d st).2 = some lv' ∧ Sound (luaLeveldbIteratorNew d st).1 lv' := by
  unfold luaLeveldbIteratorNew
  split
  · rename_i self hobj
    rw [hobj] at hopen
    have hdb : self.db = true := hopen rfl
    have hmem : d ∈ lv.dbs := (h.agrees d).dbs.mpr (by rw [hobj]; exact hdb)
    have hnone := h.safe.fresh st.fresh le_rfl
    have hold := h.agrees st.fresh
    rw [hnone] at hold
    have hsafe : Safe ((st.alloc (.iterator d true)).hold st.fresh) :=
      h.safe.update (Nat.le_succ _) (Nat.lt_succ_self _)
        (fun q hq => by
          rcases Finset.mem_insert.mp hq with rfl | hq
          · exact .inl ⟨rfl, nofun⟩
          · exact .inr ⟨fun heq => h.safe.held q hq (heq ▸ hnone), hq⟩)
        (fun _ _ hd => h.safe.not_used (by rw [hnone]; rfl) hd) (fun _ => List.forall_mem_nil _)
        (fun e he => by
          cases he
          exact ⟨h.safe.lt_fresh (by rw [hobj]; exact nofun), by rw [hobj]; exact hdb⟩)
        fun _ => h.safe.no_iterator (by rw [hnone]; rfl)
    have hcall : lv.call (.createIterator st.fresh d (st.optionsOf self .read)) =
        some { lv with iterators := insert (st.fresh, d) lv.iterators } := if_pos ⟨h.optionsOf hd hobj hdb .read, hmem⟩
    have hagrees : AgreesAt { lv with iterators := insert (st.fresh, d) lv.iterators } st.fresh
        (some (.iterator d true)) := by
      refine ⟨hold.options, hold.dbs, fun e => ?_⟩
      have hno : (st.fresh, e) ∉ lv.iterators := fun he => absurd ((hold.iterators e).mp he) nofun
      simp [liveIterator, hno, eq_comm]
    obtain ⟨lv', hcalls, h'⟩ := h.change hcall rfl hagrees hsafe
    refine ⟨lv', ?_, h'⟩
    have hall := calls_append [.createIterator st.fresh d (st.optionsOf self .read)] [.useIterator st.fresh] lv
    rw [hcalls, Option.bind_some, calls_singleton, Leveldb.call, if_pos (h'.iteratorOpen _)] at hall
    exact hall
  · exact ⟨lv, rfl, h⟩

theorem checkOptions_eq_true {kind : OptionsKind} {p : ℕ} (hcheck : checkOptions st kind p = true) :
    ∃ options, st.objs p = some (.options kind options) := by
  unfold checkOptions at hcheck
  split at hcheck
  · rename_i k options hobj
    exact ⟨options, by rw [hobj, of_decide_eq_true hcheck]⟩
  · cases hcheck

theorem setOption_sound (h : Sound st lv) (kind : OptionsKind) {d p : ℕ} (hd : d ∈ st.held)
    (hlive : isOpen (st.objs d) = true → checkOptions st kind p = true → liveOptions (st.objs p) = true) :
    ∃ lv', lv.calls (setOption kind d p st).2 = some lv' ∧ Sound (setOption kind d p st).1 lv' := by
  unfold setOption
  split
  · rename_i self hobj
    split_ifs with hset
    · obtain ⟨hdb, hcheck⟩ := hset
      have hdb' : (self.setPointer kind p).db = true := by cases kind <;> exact hdb
      have hp := hlive (by rw [hobj]; exact hdb) hcheck
      refine ⟨lv, rfl, h.keep rfl (by rw [hobj]; rfl) (by rw [hobj]; exact hdb'.trans hdb.symm) (by rw [hobj]; rfl)
        (h.safe.update le_rfl (h.safe.lt_fresh (by rw [hobj]; exact nofun)) (held_replace st d nofun)
          (fun _ _ hd => h.safe.not_used (by rw [hobj]; rfl) hd) (fun _ q hq => ?_) nofun
          fun hclosed => absurd (hdb'.symm.trans hclosed) (by decide))⟩
      have hq' : liveOptions (st.objs q) = true := by
        rw [uses, if_pos hdb'] at hq
        simp only [List.mem_cons, List.not_mem_nil, or_false] at hq
        have hused := fun k => h.safe.uses d hd (self.pointer k) (hobj ▸ mem_uses hdb k)
        cases kind with
        | read =>
          rcases hq with rfl | rfl
          · exact hp
          · exact hused .write
        | write =>
          rcases hq with rfl | rfl
          · exact hused .read
          · exact hp
      refine ⟨fun heq => ?_, hq'⟩
      rw [heq, hobj] at hq'
      cases hq'
    · exact ⟨lv, rfl, h⟩
  · exact ⟨lv, rfl, h⟩

/-- What `luaLeveldbNew` gets as options. -/
structure Given (st : Binding) (lv : Leveldb) (given : Option ℕ) (r : ℕ × Binding × List LevelCall) : Prop where
  sound : ∃ lv', lv.calls r.2.2 = some lv' ∧ Sound r.2.1 lv'
  held : r.2.1.held = st.held
  frame : ∀ q < st.fresh, r.2.1.objs q = st.objs q
  fresh : st.fresh ≤ r.2.1.fresh
  live : (∀ p ∈ given, liveOptions (st.objs p) = true) → liveOptions (r.2.1.objs r.1) = true

theorem givenOptions_given (h : Sound st lv) (kind : OptionsKind) (given : Option ℕ) :
    Given st lv given (givenOptions kind given st) := by
  cases given with
  | some p => exact ⟨⟨lv, rfl, h⟩, rfl, fun _ _ => rfl, le_rfl, fun hlive => hlive p rfl⟩
  | none =>
    refine ⟨h.newOptions kind fun q hq => .inr hq, rfl, fun q hq => ?_, Nat.le_succ _, fun _ => ?_⟩
    · exact Function.update_of_ne (Nat.ne_of_lt hq) _ _
    · show liveOptions (Function.update st.objs st.fresh (some (.options kind true)) st.fresh) = true
      rw [Function.update_self]
      rfl

theorem Sound.newLeveldb (h : Sound st lv) : Sound (st.alloc (.leveldb ⟨false, 0, 0⟩)) lv := by
  have hnone := h.safe.fresh st.fresh le_rfl
  refine h.keep rfl (by rw [hnone]; rfl) (by rw [hnone]; rfl) (by rw [hnone]; rfl)
    (h.safe.update (Nat.le_succ _) (Nat.lt_succ_self _) (fun q hq => .inr ⟨?_, hq⟩)
      (fun _ _ hd => h.safe.not_used (by rw [hnone]; rfl) hd) (fun _ => List.forall_mem_nil _) nofun
      fun _ => h.safe.no_iterator (by rw [hnone]; rfl))
  rintro rfl
  exact h.safe.held _ hq hnone

theorem Sound.openLeveldb (h : Sound st lv) {d w r : ℕ} (hobj : st.objs d = some (.leveldb ⟨false, 0, 0⟩))
    (opens : Bool) (hlive : opens = true → liveOptions (st.objs w) = true ∧ liveOptions (st.objs r) = true) :
    ∃ lv', lv.calls (if opens then [.openDb d] else []) = some lv' ∧
      Sound (if opens then (st.set d (some (.leveldb ⟨opens, w, r⟩))).hold d
        else st.set d (some (.leveldb ⟨opens, w, r⟩))) lv' := by
  have hlt := h.safe.lt_fresh (show st.objs d ≠ none by rw [hobj]; exact nofun)
  have hnot : ∀ e ∈ st.held, d ∉ uses (st.objs e) := fun _ he => h.safe.not_used (by rw [hobj]; rfl) he
  cases opens with
  | false =>
    refine ⟨lv, rfl, h.keep rfl (by rw [hobj]; rfl) (by rw [hobj]; rfl) (by rw [hobj]; rfl)
      (h.safe.update le_rfl hlt (held_replace st d nofun) (fun _ => hnot) (fun _ => List.forall_mem_nil _) nofun
        fun _ => h.safe.no_iterator (by rw [hobj]; rfl))⟩
  | true =>
    have hold := h.agrees d
    rw [hobj] at hold
    refine h.change rfl rfl ⟨hold.options, ?_, hold.iterators⟩ (h.safe.update le_rfl hlt (fun q hq => ?_)
      (fun _ => hnot)
      (fun _ q hq => ?_) nofun nofun)
    · simp [LevelCall.subject, isOpen]
    · rcases Finset.mem_insert.mp hq with rfl | hq
      · exact .inl ⟨rfl, nofun⟩
      · exact held_replace (u := some _) st d nofun q hq
    · have hq' : liveOptions (st.objs q) = true := by
        simp only [uses, if_true, List.mem_cons, List.not_mem_nil, or_false] at hq
        rcases hq with rfl | rfl
        · exact (hlive rfl).2
        · exact (hlive rfl).1
      refine ⟨?_, hq'⟩
      rintro rfl
      rw [hobj] at hq'
      cases hq'

theorem luaLeveldbNew_sound (h : Sound st lv) (opens : Bool) (readOption writeOption : Option ℕ)
    (hlive : opens = true → readOption.all (checkOptions st .read) → writeOption.all (checkOptions st .write) →
      ∀ p ∈ readOption.toList ++ writeOption.toList, liveOptions (st.objs p) = true) :
    ∃ lv', lv.calls (luaLeveldbNew opens readOption writeOption st).2 = some lv' ∧
      Sound (luaLeveldbNew opens readOption writeOption st).1 lv' := by
  unfold luaLeveldbNew
  by_cases hcheck : readOption.all (checkOptions st .read) ∧ writeOption.all (checkOptions st .write)
  swap
  · rw [if_neg hcheck]
    exact ⟨lv, rfl, h⟩
  rw [if_pos hcheck]
  have hw := givenOptions_given h.newLeveldb .write writeOption
  obtain ⟨lv₂, hcalls₂, h₂⟩ := hw.sound
  have hr := givenOptions_given h₂ .read readOption
  obtain ⟨lv₃, hcalls₃, h₃⟩ := hr.sound
  have hself : st.fresh < (givenOptions .write writeOption (st.alloc (.leveldb ⟨false, 0, 0⟩))).2.1.fresh := hw.fresh
  have hkept : ∀ p, liveOptions (st.objs p) = true → liveOptions ((st.alloc (.leveldb ⟨false, 0, 0⟩)).objs p) = true ∧
      liveOptions ((givenOptions .write writeOption (st.alloc (.leveldb ⟨false, 0, 0⟩))).2.1.objs p) = true := by
    intro p hp
    have hlt : p < st.fresh := h.safe.lt_fresh fun hnone => by rw [hnone] at hp; cases hp
    have hobj : (st.alloc (.leveldb ⟨false, 0, 0⟩)).objs p = st.objs p := Function.update_of_ne (Nat.ne_of_lt hlt) _ _
    rw [hw.frame p (Nat.lt_succ_of_lt hlt), hobj]
    exact ⟨hp, hp⟩
  have hobj : (givenOptions .read readOption
      (givenOptions .write writeOption (st.alloc (.leveldb ⟨false, 0, 0⟩))).2.1).2.1.objs st.fresh =
        some (.leveldb ⟨false, 0, 0⟩) := by
    rw [hr.frame _ hself, hw.frame _ (Nat.lt_succ_self _)]
    exact Function.update_self st.fresh _ st.objs
  obtain ⟨lv₄, hcalls₄, h₄⟩ := h₃.openLeveldb hobj opens fun hopens => by
    have hgiven := hlive hopens hcheck.1 hcheck.2
    have hlivew := hw.live fun p hp => (hkept p (hgiven p (List.mem_append_right _ (Option.mem_toList.mpr hp)))).1
    have hlt := h₂.safe.lt_fresh fun hnone => by rw [hnone] at hlivew; cases hlivew
    refine ⟨?_, hr.live fun p hp => (hkept p (hgiven p (List.mem_append_left _ (Option.mem_toList.mpr hp)))).2⟩
    rw [hr.frame _ hlt]
    exact hlivew
  refine ⟨lv₄, ?_, h₄⟩
  dsimp only
  rw [calls_append, calls_append, hcalls₂, Option.bind_some, hcalls₃, Option.bind_some, hcalls₄]

end Steps

/-! ## Collection -/

theorem finalizer_spec (p : ℕ) (st : Binding) : ∃ u, (finalizer p st).1 = st.set p u ∧ liveOptions u = false ∧
    isOpen u = false ∧ liveIterator u = none := by
  have hself : ∀ u, st.objs p = u → st = st.set p u := by
    rintro u rfl
    show st = { st with objs := Function.update st.objs p (st.objs p) }
    rw [Function.update_eq_self]
  unfold finalizer
  cases hobj : st.objs p with
  | none => exact ⟨none, hself none hobj, rfl, rfl, rfl⟩
  | some u =>
    cases u with
    | options kind options =>
      simp only [optionsDestroy, hobj]
      cases options with
      | false => exact ⟨_, hself _ hobj, rfl, rfl, rfl⟩
      | true => exact ⟨_, rfl, rfl, rfl, rfl⟩
    | leveldb self =>
      simp only [luaLeveldbDestroy, hobj]
      split_ifs with hdb
      · exact ⟨_, rfl, rfl, rfl, rfl⟩
      · exact ⟨_, hself _ hobj, rfl, Bool.eq_false_iff.mpr hdb, rfl⟩
    | iterator d it =>
      simp only [luaLeveldbIteratorDestroy, hobj]
      cases it with
      | false => exact ⟨_, hself _ hobj, rfl, rfl, rfl⟩
      | true => exact ⟨_, rfl, rfl, rfl, rfl⟩

theorem finalizer_set_none (p : ℕ) (st : Binding) : (finalizer p st).1.set p none = st.set p none := by
  obtain ⟨u, hu, -⟩ := finalizer_spec p st
  rw [hu]
  show { st with objs := Function.update (Function.update st.objs p u) p none } = st.set p none
  rw [Function.update_idem]
  rfl

theorem finalizer_sound {st : Binding} {lv : Leveldb} (h : Sound st lv) {p : ℕ} (hlt : p < st.fresh) (hp : p ∉ st.held)
    (hunused : ∀ d ∈ st.held, p ∉ uses (st.objs d)) (hno : ∀ i, liveIterator (st.objs i) ≠ some p) :
    ∃ lv', lv.calls (finalizer p st).2 = some lv' ∧ Sound (st.set p none) lv' := by
  have hdestroy : ∃ lv', lv.calls (finalizer p st).2 = some lv' ∧ Sound (finalizer p st).1 lv' := by
    unfold finalizer
    split
    · exact optionsDestroy_sound h hunused
    · exact luaLeveldbDestroy_sound h hno
    · exact luaLeveldbIteratorDestroy_sound h p
    · exact ⟨lv, rfl, h⟩
  obtain ⟨lv', hcalls, h'⟩ := hdestroy
  obtain ⟨u, hu, hoptions, hdbs, hiterators⟩ := finalizer_spec p st
  refine ⟨lv', hcalls, ?_⟩
  have hfree := finalizer_set_none p st
  rw [hu] at h' hfree
  have hobj := st.set_self p u
  rw [← hfree]
  refine h'.keep rfl (by rw [hobj, hoptions]; rfl) (by rw [hobj, hdbs]; rfl) (by rw [hobj, hiterators]; rfl)
    (h'.safe.update le_rfl hlt (fun q hq => .inr ⟨?_, hq⟩)
      (fun _ _ hd => h'.safe.not_used (by rw [hobj]; exact hoptions) hd) (fun hheld => absurd hheld hp) nofun
      fun _ => h'.safe.no_iterator (by rw [hobj]; exact hdbs))
  rintro rfl
  exact hp hq

/-- The sweep of the userdata below `n`, when those from `n` on are swept. -/
theorem sweeps_sound {lv₀ : Leveldb} : ∀ (n : ℕ) {st : Binding} {cs : List LevelCall} {lv : Leveldb}, n ≤ st.fresh →
    Sound st lv → lv₀.calls cs = some lv → (∀ i, n ≤ i → i ∉ st.held → st.objs i = none) → Careful st .collect →
      ∃ lv', lv₀.calls ((List.range n).foldr sweep (st, cs)).2 = some lv' ∧
        Sound ((List.range n).foldr sweep (st, cs)).1 lv'
  | 0, _, _, lv, _, h, hcs, _, _ => ⟨lv, hcs, h⟩
  | n + 1, st, cs, lv, hn, h, hcs, hswept, hcare => by
    rw [List.range_succ, List.foldr_append, List.foldr_cons, List.foldr_nil]
    by_cases hheld : n ∈ st.held
    · rw [sweep, if_pos hheld]
      refine sweeps_sound n (Nat.le_of_succ_le hn) h hcs (fun i hi hnot => hswept i ?_ hnot) hcare
      exact Nat.lt_of_le_of_ne hi fun heq => hnot (heq ▸ hheld)
    · rw [sweep, if_neg hheld, finalizer_set_none]
      obtain ⟨lv', hcalls, h'⟩ :=
        finalizer_sound h hn hheld (fun d hd hmem => hheld (hcare.1 d hd n hmem)) fun i hi => by
        by_cases hi' : i ∈ st.held
        · exact hheld (hcare.2 i hi' n hi)
        · rw [hswept i (h.safe.iterators i n hi).1 hi'] at hi
          cases hi
      have hne : ∀ d ∈ st.held, (st.set n none).objs d = st.objs d := fun d hd =>
        st.set_of_ne none (ne_of_mem_of_not_mem hd hheld)
      refine sweeps_sound n (Nat.le_of_succ_le hn) h' (by rw [calls_append, hcs]; exact hcalls) (fun i hi hnot => ?_)
        ⟨fun d hd p hp => hcare.1 d hd p (hne d hd ▸ hp), fun i hi d hd => hcare.2 i hi d (hne i hi ▸ hd)⟩
      by_cases hin : i = n
      · rw [hin, Binding.set_self]
      · exact (st.set_of_ne none hin).trans (hswept i (by omega) hnot)

theorem collect_sound {st : Binding} {lv : Leveldb} (h : Sound st lv) (hcare : Careful st .collect) :
    ∃ lv', lv.calls (collect st).2 = some lv' ∧ Sound (collect st).1 lv' :=
  sweeps_sound st.fresh le_rfl h rfl (fun i hi _ => h.safe.fresh i hi) hcare

/-! ## One step -/

/-- **A careful step.** It makes only calls that leveldb allows. -/
theorem careful_step {st : Binding} {lv : Leveldb} (h : Sound st lv) {op : LevelOp} (hcare : Careful st op) :
    ∃ lv', lv.calls (bindingStep st op).2 = some lv' ∧ Sound (bindingStep st op).1 lv' := by
  unfold bindingStep
  by_cases hargs : ∀ p ∈ op.args, p ∈ st.held
  swap
  · rw [if_neg hargs]
    exact ⟨lv, rfl, h⟩
  rw [if_pos hargs]
  cases op with
  | createReadOption => exact optionNew_sound h .read
  | createWriteOption => exact optionNew_sound h .write
  | setOptions p => exact optionsSet_sound h p
  | destroyOptions p => exact optionsDestroy_sound h (hcare (hargs p List.mem_cons_self))
  | new opens readOption writeOption =>
    exact luaLeveldbNew_sound h opens readOption writeOption fun hopens => hcare hopens hargs
  | setReadOption d p =>
    exact setOption_sound h .read (hargs d List.mem_cons_self)
      (hcare (hargs d List.mem_cons_self) (hargs p (List.mem_cons_of_mem d List.mem_cons_self)))
  | setWriteOption d p =>
    exact setOption_sound h .write (hargs d List.mem_cons_self)
      (hcare (hargs d List.mem_cons_self) (hargs p (List.mem_cons_of_mem d List.mem_cons_self)))
  | put d => exact useDb_sound h .write (hargs d List.mem_cons_self)
  | write d => exact useDb_sound h .write (hargs d List.mem_cons_self)
  | get d => exact useDb_sound h .read (hargs d List.mem_cons_self)
  | delete d => exact useDb_sound h .write (hargs d List.mem_cons_self)
  | iterator d =>
    have hd := hargs d List.mem_cons_self
    exact luaLeveldbIteratorNew_sound h hd (hcare hd)
  | useIterator i => exact iteratorUse_sound h i
  | destroyIterator i => exact luaLeveldbIteratorDestroy_sound h i
  | close d =>
    refine luaLeveldbDestroy_sound h fun i hi =>
      hcare (hargs d List.mem_cons_self) i (h.safe.lt_fresh fun hnone => ?_) hi
    rw [hnone] at hi
    cases hi
  | drop p =>
    exact ⟨lv, rfl, h.agrees, h.safe.fresh, fun q hq => h.safe.held q (Finset.mem_of_mem_erase hq),
      fun d hd => h.safe.uses d (Finset.mem_of_mem_erase hd), h.safe.iterators⟩
  | collect => exact collect_sound h hcare

/-! ## Careless steps -/

theorem call_iterators {lv lv' : Leveldb} {c : LevelCall} (h : lv.call c = some lv') {i d : ℕ}
    (hmem : (i, d) ∈ lv.iterators) (hc : c ≠ .destroyIterator i) : (i, d) ∈ lv'.iterators := by
  cases c with
  | createOptions p | openDb d | closeDb d =>
    cases h
    exact hmem
  | setOptions p | destroyOptions p | useDb d options | useIterator i =>
    obtain ⟨-, rfl⟩ := Option.ite_none_right_eq_some.mp h |>.imp_right Option.some.inj
    exact hmem
  | createIterator j e options =>
    obtain ⟨-, rfl⟩ := Option.ite_none_right_eq_some.mp h |>.imp_right Option.some.inj
    exact Finset.mem_insert_of_mem hmem
  | destroyIterator j =>
    obtain ⟨-, rfl⟩ := Option.ite_none_right_eq_some.mp h |>.imp_right Option.some.inj
    exact Finset.mem_filter.mpr ⟨hmem, fun heq : i = j => hc (heq ▸ rfl)⟩

theorem call_dbs {lv lv' : Leveldb} {c : LevelCall} (h : lv.call c = some lv') {d : ℕ} (hopen : c ≠ .openDb d)
    (hclosed : c = .closeDb d ∨ d ∉ lv.dbs) : d ∉ lv'.dbs := by
  cases c with
  | createOptions p =>
    cases h
    exact hclosed.resolve_left nofun
  | setOptions p | destroyOptions p | useDb e options | useIterator i | createIterator i e options
  | destroyIterator i =>
    obtain ⟨-, rfl⟩ := Option.ite_none_right_eq_some.mp h |>.imp_right Option.some.inj
    exact hclosed.resolve_left nofun
  | openDb e =>
    cases h
    rw [Finset.mem_insert, not_or]
    exact ⟨fun heq => hopen (heq ▸ rfl), hclosed.resolve_left nofun⟩
  | closeDb e =>
    cases h
    rw [Finset.mem_erase, not_and_or]
    rcases hclosed with heq | hclosed
    · cases heq
      exact .inl fun hne => hne rfl
    · exact .inr hclosed

theorem calls_iterators {i d : ℕ} : ∀ (cs : List LevelCall) {lv lv' : Leveldb}, lv.calls cs = some lv' →
    (i, d) ∈ lv.iterators → .destroyIterator i ∉ cs → (i, d) ∈ lv'.iterators
  | [], _, _, h, hmem, _ => by cases h; exact hmem
  | c :: cs, lv, lv', h, hmem, hnot => by
    obtain ⟨lv₁, hc, h⟩ := Option.bind_eq_some_iff.mp h
    rw [List.mem_cons, not_or] at hnot
    exact calls_iterators cs h (call_iterators hc hmem (Ne.symm hnot.1)) hnot.2

theorem calls_dbs {d : ℕ} : ∀ (cs : List LevelCall) {lv lv' : Leveldb}, lv.calls cs = some lv' → .openDb d ∉ cs →
    .closeDb d ∈ cs ∨ d ∉ lv.dbs → d ∉ lv'.dbs
  | [], _, _, h, _, hclosed => by cases h; exact hclosed.resolve_left List.not_mem_nil
  | c :: cs, lv, lv', h, hopen, hclosed => by
    obtain ⟨lv₁, hc, h⟩ := Option.bind_eq_some_iff.mp h
    rw [List.mem_cons, not_or] at hopen
    refine calls_dbs cs h hopen.2 ?_
    rw [List.mem_cons, or_assoc] at hclosed
    rcases hclosed with heq | hmem | hnot
    · exact .inr (call_dbs hc (Ne.symm hopen.1) (.inl heq.symm))
    · exact .inl hmem
    · exact .inr (call_dbs hc (Ne.symm hopen.1) (.inr hnot))

theorem not_iteratorOpen {lv : Leveldb} {i d : ℕ} (hmem : (i, d) ∈ lv.iterators) (hclosed : d ∉ lv.dbs) :
    ¬ lv.IteratorOpen i := fun h => hclosed (h (i, d) hmem rfl)

theorem calls_stuck {i d : ℕ} : ∀ (cs : List LevelCall) {lv : Leveldb}, (i, d) ∈ lv.iterators → d ∉ lv.dbs →
    .openDb d ∉ cs → .destroyIterator i ∈ cs → lv.calls cs = none
  | c :: cs, lv, hmem, hclosed, hopen, hdestroy => by
    rw [List.mem_cons, not_or] at hopen
    rw [Leveldb.calls]
    cases hc : lv.call c with
    | none => rfl
    | some lv' =>
      rw [Option.bind_some]
      have hne : c ≠ .destroyIterator i := by
        rintro rfl
        rw [Leveldb.call, if_neg (not_iteratorOpen hmem hclosed)] at hc
        cases hc
      exact calls_stuck cs (call_iterators hc hmem hne) (call_dbs hc (Ne.symm hopen.1) (.inr hclosed)) hopen.2
        ((List.mem_cons.mp hdestroy).resolve_left (Ne.symm hne))

/-! ## What a collection does -/

theorem finalizer_congr {p : ℕ} {st st' : Binding} (h : st'.objs p = st.objs p) :
    (finalizer p st').2 = (finalizer p st).2 := by
  unfold finalizer
  rw [h]
  cases hobj : st.objs p with
  | none => rfl
  | some u =>
    rw [hobj] at h
    cases u with
    | options kind options =>
      simp only [optionsDestroy, hobj, h]
      cases options <;> rfl
    | leveldb self =>
      simp only [luaLeveldbDestroy, hobj, h]
      split_ifs <;> rfl
    | iterator d it =>
      simp only [luaLeveldbIteratorDestroy, hobj, h]
      cases it <;> rfl

theorem subject_of_mem_finalizer {p : ℕ} {st : Binding} {c : LevelCall} (h : c ∈ (finalizer p st).2) :
    c.subject = p ∧ ∀ d, c ≠ .openDb d := by
  unfold finalizer at h
  split at h
  · unfold optionsDestroy at h
    split at h
    · cases List.mem_singleton.mp h
      exact ⟨rfl, nofun⟩
    · cases h
  · unfold luaLeveldbDestroy at h
    split at h
    · split_ifs at h
      · cases List.mem_singleton.mp h
        exact ⟨rfl, nofun⟩
      · cases h
    · cases h
  · unfold luaLeveldbIteratorDestroy at h
    split at h
    · cases List.mem_singleton.mp h
      exact ⟨rfl, nofun⟩
    · cases h
  · cases h

theorem sweeps_spec : ∀ (n : ℕ) (st : Binding) (cs : List LevelCall),
    ((List.range n).foldr sweep (st, cs)).1.held = st.held ∧
    (∀ q, ((List.range n).foldr sweep (st, cs)).1.objs q = if q < n ∧ q ∉ st.held then none else st.objs q) ∧
    ∀ c, c ∈ ((List.range n).foldr sweep (st, cs)).2 ↔ c ∈ cs ∨ ∃ p < n, p ∉ st.held ∧ c ∈ (finalizer p st).2
  | 0, st, cs => ⟨rfl, fun q => by rw [if_neg (by omega)]; rfl, fun c => by
      simp only [Nat.not_lt_zero, false_and, exists_false, or_false]
      exact Iff.rfl⟩
  | n + 1, st, cs => by
    rw [List.range_succ, List.foldr_append, List.foldr_cons, List.foldr_nil]
    by_cases hheld : n ∈ st.held
    · rw [sweep, if_pos hheld]
      obtain ⟨h₁, h₂, h₃⟩ := sweeps_spec n st cs
      refine ⟨h₁, fun q => ?_, fun c => ?_⟩
      · rw [h₂]
        refine if_congr ⟨fun hq => ⟨by omega, hq.2⟩, fun hq => ⟨?_, hq.2⟩⟩ rfl rfl
        exact Nat.lt_of_le_of_ne (Nat.le_of_lt_succ hq.1) fun heq => hq.2 (heq ▸ hheld)
      · rw [h₃]
        refine or_congr_right ⟨?_, ?_⟩
        · rintro ⟨p, hp, hrest⟩
          exact ⟨p, by omega, hrest⟩
        · rintro ⟨p, hp, hnot, hmem⟩
          exact ⟨p, Nat.lt_of_le_of_ne (Nat.le_of_lt_succ hp) fun heq => hnot (heq ▸ hheld), hnot, hmem⟩
    · rw [sweep, if_neg hheld, finalizer_set_none]
      obtain ⟨h₁, h₂, h₃⟩ := sweeps_spec n (st.set n none) (cs ++ (finalizer n st).2)
      refine ⟨h₁, fun q => ?_, fun c => ?_⟩
      · rw [h₂]
        by_cases hq : q = n
        · rw [hq, if_neg (fun h => absurd h.1 (Nat.lt_irrefl n)), Binding.set_self,
            if_pos ⟨Nat.lt_succ_self n, hheld⟩]
        · rw [Binding.set_of_ne _ _ hq]
          exact if_congr ⟨fun h => ⟨by omega, h.2⟩, fun h => ⟨by omega, h.2⟩⟩ rfl rfl
      · rw [h₃, List.mem_append, or_assoc]
        refine or_congr_right ⟨?_, ?_⟩
        · rintro (hmem | ⟨p, hp, hnot, hmem⟩)
          · exact ⟨n, Nat.lt_succ_self n, hheld, hmem⟩
          · rw [finalizer_congr (st.set_of_ne none (Nat.ne_of_lt hp))] at hmem
            exact ⟨p, by omega, hnot, hmem⟩
        · rintro ⟨p, hp, hnot, hmem⟩
          by_cases hpn : p = n
          · exact .inl (hpn ▸ hmem)
          · refine .inr ⟨p, by omega, hnot, ?_⟩
            rw [finalizer_congr (st.set_of_ne none hpn)]
            exact hmem

theorem closeDb_mem_finalizer {d : ℕ} {st : Binding} (h : isOpen (st.objs d) = true) :
    .closeDb d ∈ (finalizer d st).2 := by
  unfold isOpen at h
  split at h
  · rename_i self hobj
    simp only [finalizer, luaLeveldbDestroy, hobj, if_pos h, List.mem_cons, true_or]
  · cases h

theorem destroyIterator_mem_finalizer {i d : ℕ} {st : Binding} (h : liveIterator (st.objs i) = some d) :
    .destroyIterator i ∈ (finalizer i st).2 := by
  unfold liveIterator at h
  split at h
  · rename_i hobj
    simp only [finalizer, luaLeveldbIteratorDestroy, hobj, List.mem_cons, true_or]
  · cases h

theorem collect_objs_of_held {st : Binding} {q : ℕ} (hq : q ∈ st.held) : (collect st).1.objs q = st.objs q := by
  rw [collect, (sweeps_spec st.fresh st []).2.1, if_neg fun h => h.2 hq]

theorem collect_objs_of_not_held {st : Binding} {q : ℕ} (hlt : q < st.fresh) (hq : q ∉ st.held) :
    (collect st).1.objs q = none := by
  rw [collect, (sweeps_spec st.fresh st []).2.1, if_pos ⟨hlt, hq⟩]

theorem collect_held (st : Binding) : (collect st).1.held = st.held := (sweeps_spec st.fresh st []).1

theorem mem_collect {st : Binding} {c : LevelCall} :
    c ∈ (collect st).2 ↔ ∃ p < st.fresh, p ∉ st.held ∧ c ∈ (finalizer p st).2 := by
  rw [collect, (sweeps_spec st.fresh st []).2.2]
  exact or_iff_right List.not_mem_nil

theorem openDb_notMem_collect (st : Binding) (d : ℕ) : .openDb d ∉ (collect st).2 := fun h => by
  obtain ⟨p, -, -, hmem⟩ := mem_collect.mp h
  exact (subject_of_mem_finalizer hmem).2 d rfl

section Careless

variable {st : Binding} {lv : Leveldb}

theorem exec_pair {op next : LevelOp} (h : ∀ lv', lv.calls (bindingStep st op).2 = some lv' →
    lv'.calls (bindingStep (bindingStep st op).1 next).2 = none) : exec levelStep (st, lv) [op, next] = none := by
  rw [exec_cons, levelStep]
  dsimp only
  cases hcalls : lv.calls (bindingStep st op).2 with
  | none => rfl
  | some lv' =>
    rw [Option.map_some, Option.bind_some, exec_cons, levelStep]
    dsimp only
    rw [h lv' hcalls]
    rfl

/-- The call that uses the options of a kind. -/
def useOf (d : ℕ) : OptionsKind → LevelOp
  | .read => .get d
  | .write => .put d

/-- An open database with dead options. -/
structure Dangling (st : Binding) (d : ℕ) (kind : OptionsKind) : Prop where
  held : d ∈ st.held
  dead : ∃ self, st.objs d = some (.leveldb self) ∧ self.db = true ∧ liveOptions (st.objs (self.pointer kind)) = false

theorem Dangling.stuck {d : ℕ} {kind : OptionsKind} (h : Dangling st d kind) (lv : Leveldb) :
    lv.calls (bindingStep st (useOf d kind)).2 = none := by
  obtain ⟨self, hobj, hdb, hdead⟩ := h.dead
  have hnone : st.optionsOf self kind = none := by
    unfold Binding.optionsOf
    split
    · rename_i hlive
      rw [hlive] at hdead
      cases hdead
    · rfl
  have hstep : bindingStep st (useOf d kind) = useDb kind d st := by
    cases kind <;> exact if_pos fun p hp => (List.mem_singleton.mp hp) ▸ h.held
  rw [hstep, useDb, hobj]
  dsimp only
  rw [if_pos hdb, calls_singleton, hnone]
  rfl

theorem bindingStep_of_held {op : LevelOp} (h : ∀ p ∈ op.args, p ∈ st.held) : bindingStep st op = op.run st := if_pos h

theorem iteratorUse_stuck {i d : ℕ} {st : Binding} {lv : Leveldb} (hi : liveIterator (st.objs i) = some d)
    (hmem : (i, d) ∈ lv.iterators) (hclosed : d ∉ lv.dbs) : lv.calls (iteratorUse i st).2 = none := by
  unfold liveIterator at hi
  split at hi
  · rename_i hobj
    rw [iteratorUse, hobj]
    dsimp only
    rw [calls_singleton, Leveldb.call, if_neg (not_iteratorOpen hmem hclosed)]
  · cases hi

theorem exists_of_mem_uses {d p : ℕ} (h : p ∈ uses (st.objs d)) :
    ∃ self kind, st.objs d = some (.leveldb self) ∧ self.db = true ∧ p = self.pointer kind := by
  unfold uses at h
  split at h
  · rename_i self hobj
    split_ifs at h with hdb
    · simp only [List.mem_cons, List.not_mem_nil, or_false] at h
      rcases h with rfl | rfl
      · exact ⟨self, .read, hobj, hdb, rfl⟩
      · exact ⟨self, .write, hobj, hdb, rfl⟩
    · cases h
  · cases h

theorem pointer_setPointer (self : LuaLeveldb) (kind : OptionsKind) (p : ℕ) :
    (self.setPointer kind p).pointer kind = p := by
  cases kind <;> rfl

theorem setOption_dangling {kind : OptionsKind} {d p : ℕ} (hd : d ∈ st.held) (hopen : isOpen (st.objs d) = true)
    (hcheck : checkOptions st kind p = true) (hdead : liveOptions (st.objs p) = false) :
    Dangling (setOption kind d p st).1 d kind := by
  unfold isOpen at hopen
  split at hopen
  · rename_i self hobj
    obtain ⟨options, hp⟩ := checkOptions_eq_true hcheck
    have hne : p ≠ d := fun heq => by
      rw [heq, hobj] at hp
      cases hp
    have hset : (setOption kind d p st).1 = st.set d (some (.leveldb (self.setPointer kind p))) := by
      rw [setOption, hobj]
      dsimp only
      rw [if_pos ⟨hopen, hcheck⟩]
    rw [hset]
    refine ⟨hd, self.setPointer kind p, st.set_self _ _, ?_, ?_⟩
    · cases kind <;> exact hopen
    · rw [pointer_setPointer, st.set_of_ne _ hne, hdead]
  · cases hopen

theorem exec_dangling (op : LevelOp) (hargs : ∀ p ∈ op.args, p ∈ st.held) {d : ℕ} {kind : OptionsKind}
    (h : Dangling (op.run st).1 d kind) : exec levelStep (st, lv) [op, useOf d kind] = none := by
  refine exec_pair fun lv' _ => ?_
  rw [bindingStep_of_held hargs]
  exact h.stuck lv'

theorem optionsDestroy_dangling (h : Safe st) {d : ℕ} (hd : d ∈ st.held) {self : LuaLeveldb} {kind : OptionsKind}
    (hobj : st.objs d = some (.leveldb self)) (hdb : self.db = true) :
    Dangling (optionsDestroy (self.pointer kind) st).1 d kind := by
  have hlive := h.uses d hd (self.pointer kind) (hobj ▸ mem_uses hdb kind)
  unfold liveOptions at hlive
  split at hlive
  · rename_i k hp
    have hne : d ≠ self.pointer kind := fun heq => by
      rw [← heq, hobj] at hp
      cases hp
    have hset : (optionsDestroy (self.pointer kind) st).1 = st.set (self.pointer kind) (some (.options k false)) := by
      rw [optionsDestroy, hp]
    rw [hset]
    exact ⟨hd, self, by rw [st.set_of_ne _ hne, hobj], hdb, by rw [Binding.set_self]; rfl⟩
  · cases hlive

theorem luaLeveldbNew_dangling (h : Sound st lv) {readOption writeOption : Option ℕ}
    (hread : readOption.all (checkOptions st .read) = true) (hwrite : writeOption.all (checkOptions st .write) = true)
    {p : ℕ} (hp : p ∈ readOption.toList ++ writeOption.toList) (hdead : liveOptions (st.objs p) = false) :
    ∃ d kind, Dangling (luaLeveldbNew true readOption writeOption st).1 d kind := by
  have hw := givenOptions_given h.newLeveldb .write writeOption
  obtain ⟨lv₂, -, h₂⟩ := hw.sound
  have hr := givenOptions_given h₂ .read readOption
  have hexists : st.objs p ≠ none := by
    rcases List.mem_append.mp hp with hp | hp
    · rw [Option.mem_toList.mp hp, Option.all_some] at hread
      obtain ⟨options, hobj⟩ := checkOptions_eq_true hread
      rw [hobj]
      exact nofun
    · rw [Option.mem_toList.mp hp, Option.all_some] at hwrite
      obtain ⟨options, hobj⟩ := checkOptions_eq_true hwrite
      rw [hobj]
      exact nofun
  have hlt := h.safe.lt_fresh hexists
  have hfresh : st.fresh < (givenOptions .write writeOption (st.alloc (.leveldb ⟨false, 0, 0⟩))).2.1.fresh := hw.fresh
  -- the options are the ones that were given, and they stay dead
  have hkept : ∀ u, liveOptions (((givenOptions .read readOption
      (givenOptions .write writeOption (st.alloc (.leveldb ⟨false, 0, 0⟩))).2.1).2.1.set st.fresh u).objs p) =
        false := by
    intro u
    have hobj : (st.alloc (.leveldb ⟨false, 0, 0⟩)).objs p = st.objs p :=
      st.set_of_ne (some (.leveldb ⟨false, 0, 0⟩)) (Nat.ne_of_lt hlt)
    rw [Binding.set_of_ne _ _ (Nat.ne_of_lt hlt), hr.frame p (by omega), hw.frame p (Nat.lt_succ_of_lt hlt), hobj]
    exact hdead
  unfold luaLeveldbNew
  rw [if_pos ⟨hread, hwrite⟩]
  rcases List.mem_append.mp hp with hp | hp
  · rw [Option.mem_toList.mp hp] at hkept ⊢
    exact ⟨st.fresh, .read, Finset.mem_insert_self _ _, _, Binding.set_self _ _ _, rfl, hkept _⟩
  · rw [Option.mem_toList.mp hp] at hkept ⊢
    exact ⟨st.fresh, .write, Finset.mem_insert_self _ _, _, Binding.set_self _ _ _, rfl, hkept _⟩

theorem close_stuck (h : Sound st lv) {d i : ℕ} (hd : d ∈ st.held) (hi : liveIterator (st.objs i) = some d) :
    ∃ next, exec levelStep (st, lv) [.close d, next] = none := by
  obtain ⟨hlt, hopen⟩ := h.safe.iterators i d hi
  have hstep : bindingStep st (.close d) = luaLeveldbDestroy d st :=
    bindingStep_of_held fun p hp => (List.mem_singleton.mp hp) ▸ hd
  unfold isOpen at hopen
  split at hopen
  swap
  · cases hopen
  rename_i self hobj
  have hclose : luaLeveldbDestroy d st = (st.set d (some (.leveldb { self with db := false })), [.closeDb d]) := by
    rw [luaLeveldbDestroy, hobj]
    dsimp only
    rw [if_pos hopen]
  rw [hclose] at hstep
  have hafter : ∀ lv', lv.calls (bindingStep st (.close d)).2 = some lv' → (i, d) ∈ lv'.iterators ∧ d ∉ lv'.dbs := by
    intro lv' hcalls
    rw [hstep] at hcalls
    exact ⟨calls_iterators _ hcalls ((h.agrees i).iterators d |>.mpr hi) (by simp),
      calls_dbs _ hcalls (by simp) (.inl List.mem_cons_self)⟩
  have hi' : (bindingStep st (.close d)).1.objs i = st.objs i := by
    rw [hstep]
    exact st.set_of_ne _ (Nat.ne_of_gt hlt)
  have hheld' : (bindingStep st (.close d)).1.held = st.held := by rw [hstep]; rfl
  have hfresh' : (bindingStep st (.close d)).1.fresh = st.fresh := by rw [hstep]; rfl
  by_cases hheld : i ∈ st.held
  · refine ⟨.useIterator i, exec_pair fun lv' hcalls => ?_⟩
    obtain ⟨hmem, hclosed⟩ := hafter lv' hcalls
    rw [bindingStep_of_held fun q hq => (List.mem_singleton.mp hq) ▸ hheld'.symm ▸ hheld]
    exact iteratorUse_stuck (hi'.symm ▸ hi) hmem hclosed
  · refine ⟨.collect, exec_pair fun lv' hcalls => ?_⟩
    obtain ⟨hmem, hclosed⟩ := hafter lv' hcalls
    rw [bindingStep_of_held (List.forall_mem_nil _)]
    refine calls_stuck _ hmem hclosed (openDb_notMem_collect _ d) (mem_collect.mpr ⟨i, ?_, hheld'.symm ▸ hheld, ?_⟩)
    · rw [hfresh']
      exact h.safe.lt_fresh fun hnone => by rw [hnone] at hi; cases hi
    · exact destroyIterator_mem_finalizer (hi'.symm ▸ hi)

/-- **A careless step.** After it there is a step that makes a forbidden call, if it makes none itself. -/
theorem careless_step (h : Sound st lv) {op : LevelOp} (hcare : ¬ Careful st op) :
    ∃ next, exec levelStep (st, lv) [op, next] = none := by
  cases op with
  | createReadOption | createWriteOption | setOptions _ | put _ | write _ | get _ | delete _ | useIterator _
  | destroyIterator _ | drop _ => exact absurd trivial hcare
  | destroyOptions p =>
    simp only [Careful, not_forall, not_not] at hcare
    obtain ⟨hp, d, hd, hmem⟩ := hcare
    obtain ⟨self, kind, hobj, hdb, rfl⟩ := exists_of_mem_uses hmem
    exact ⟨_, exec_dangling (.destroyOptions _) (fun q hq => (List.mem_singleton.mp hq) ▸ hp)
      (optionsDestroy_dangling h.safe hd hobj hdb)⟩
  | new opens readOption writeOption =>
    simp only [Careful, not_forall] at hcare
    obtain ⟨rfl, hargs, hread, hwrite, p, hp, hdead⟩ := hcare
    obtain ⟨d, kind, hdangling⟩ := luaLeveldbNew_dangling h hread hwrite hp (Bool.eq_false_iff.mpr hdead)
    exact ⟨_, exec_dangling (.new true readOption writeOption) hargs hdangling⟩
  | setReadOption d p =>
    simp only [Careful, not_forall] at hcare
    obtain ⟨hd, hp, hopen, hcheck, hdead⟩ := hcare
    exact ⟨_, exec_dangling (.setReadOption d p) (List.forall_mem_cons.mpr ⟨hd, List.forall_mem_singleton.mpr hp⟩)
      (setOption_dangling hd hopen hcheck (Bool.eq_false_iff.mpr hdead))⟩
  | setWriteOption d p =>
    simp only [Careful, not_forall] at hcare
    obtain ⟨hd, hp, hopen, hcheck, hdead⟩ := hcare
    exact ⟨_, exec_dangling (.setWriteOption d p) (List.forall_mem_cons.mpr ⟨hd, List.forall_mem_singleton.mpr hp⟩)
      (setOption_dangling hd hopen hcheck (Bool.eq_false_iff.mpr hdead))⟩
  | iterator d =>
    simp only [Careful, not_forall] at hcare
    obtain ⟨hd, hleveldb, hdb⟩ := hcare
    have hclosed : d ∉ lv.dbs := fun hmem => hdb ((h.agrees d).dbs.mp hmem)
    refine ⟨.collect, exec_pair fun lv' hcalls => ?_⟩
    rw [bindingStep_of_held fun q hq => (List.mem_singleton.mp hq) ▸ hd, LevelOp.run, luaLeveldbIteratorNew] at hcalls
    unfold isLeveldb at hleveldb
    split at hleveldb
    · rename_i self hobj
      rw [hobj] at hcalls
      dsimp only at hcalls
      rw [Leveldb.calls, Leveldb.call, if_neg fun hopen => hclosed hopen.2] at hcalls
      cases hcalls
    · cases hleveldb
  | close d =>
    simp only [Careful, not_forall, not_not] at hcare
    obtain ⟨hd, i, -, hi⟩ := hcare
    exact close_stuck h hd hi
  | collect =>
    rcases not_and_or.mp hcare with hcare | hcare
    · simp only [not_forall] at hcare
      obtain ⟨d, hd, p, hmem, hp⟩ := hcare
      obtain ⟨self, kind, hobj, hdb, rfl⟩ := exists_of_mem_uses hmem
      have hlt := h.safe.lt_fresh fun hnone => by
        have hlive := h.safe.uses d hd _ hmem
        rw [hnone] at hlive
        cases hlive
      have hdangling : Dangling (collect st).1 d kind :=
        ⟨(collect_held st).symm ▸ hd, self, (collect_objs_of_held hd).trans hobj, hdb,
          congrArg liveOptions (collect_objs_of_not_held hlt hp)⟩
      exact ⟨_, exec_dangling .collect (List.forall_mem_nil _) hdangling⟩
    · simp only [not_forall] at hcare
      obtain ⟨i, hi, d, hmem, hd⟩ := hcare
      -- the finaliser of the database closes it
      have hopen := (h.safe.iterators i d hmem).2
      have hclose : .closeDb d ∈ (collect st).2 := mem_collect.mpr
        ⟨d, h.safe.lt_fresh (fun hnone => by rw [hnone] at hopen; cases hopen), hd, closeDb_mem_finalizer hopen⟩
      have hkeep : .destroyIterator i ∉ (collect st).2 := fun hdestroy => by
        obtain ⟨p, -, hp, hfin⟩ := mem_collect.mp hdestroy
        exact hp ((subject_of_mem_finalizer hfin).1 ▸ hi)
      refine ⟨.useIterator i, exec_pair fun lv' hcalls => ?_⟩
      have hstep : bindingStep st .collect = collect st := bindingStep_of_held (List.forall_mem_nil _)
      rw [hstep] at hcalls ⊢
      have hheld : i ∈ (collect st).1.held := (collect_held st).symm ▸ hi
      rw [bindingStep_of_held fun q hq => (List.mem_singleton.mp hq) ▸ hheld]
      exact iteratorUse_stuck ((collect_objs_of_held hi).symm ▸ hmem)
        (calls_iterators _ hcalls ((h.agrees i).iterators d |>.mpr hmem) hkeep)
        (calls_dbs _ hcalls (openDb_notMem_collect st d) (.inl hclose))

end Careless

/-! ## Whole runs -/

theorem sound_start : Sound levelStart.1 levelStart.2 where
  agrees := fun p => ⟨by simp [levelStart, liveOptions], by simp [levelStart, isOpen],
    fun d => by simp [levelStart, liveIterator]⟩
  safe := ⟨fun _ _ => rfl, fun _ hp => absurd hp (Finset.notMem_empty _), fun _ hd => absurd hd (Finset.notMem_empty _),
    fun _ _ h => by cases h⟩

/-- **Lifetimes.** A careful run makes only calls that leveldb allows, and where the next step is not careful, a
forbidden call is at most one step away. -/
theorem leveldb_lifetimes (ops : List LevelOp) (h : Guarded levelStep (fun s op => Careful s.1 op) levelStart ops) :
    ∃ q, exec levelStep levelStart ops = some q ∧
      ∀ op, ¬ Careful q.1.1 op → ∃ next, exec levelStep levelStart (ops ++ [op, next]) = none := by
  obtain ⟨q, hq, hsound⟩ := exec_of_guarded (fun s : Binding × Leveldb => Sound s.1 s.2)
    (fun s op hs hcare => by
      obtain ⟨lv', hcalls, hsound⟩ := careful_step hs hcare
      exact ⟨_, by rw [levelStep, hcalls]; rfl, hsound⟩) ops levelStart sound_start h
  refine ⟨q, hq, fun op hcare => ?_⟩
  obtain ⟨next, hnext⟩ := careless_step hsound hcare
  exact ⟨next, by rw [exec_append hq, hnext]; rfl⟩

/-- A database with options that the program keeps. -/
def keptOptions : List LevelOp :=
  [.createReadOption, .createWriteOption, .new true (some 0) (some 1), .collect, .put 2, .iterator 2, .collect,
    .useIterator 3, .destroyIterator 3, .close 2]

theorem leveldb_lifetimes_kept : ∃ q, exec levelStep levelStart keptOptions = some q ∧
    ∀ op, ¬ Careful q.1.1 op → ∃ next, exec levelStep levelStart (keptOptions ++ [op, next]) = none :=
  leveldb_lifetimes keptOptions (by decide)

/-- The default options of a database are collected while it is open. -/
theorem not_leveldb_lifetimes : ¬ ∀ ops : List LevelOp, (exec levelStep levelStart ops).isSome = true := fun h =>
  absurd (h [.new true none none, .collect, .put 0]) (by decide)

end Sarah.LevelDb
