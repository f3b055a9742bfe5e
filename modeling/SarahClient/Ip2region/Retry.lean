import SarahClient.Ip2region.Memory

/-!
# Failed loads of the database file

`ip2region_memory_search` stores the block for the file in the object before the file is read, and takes this pointer
for the sign that the file is loaded.

* `LoadEnv`: whether memory can be had, and how much of the file `fread` delivers;
* `loadBinStrFrom`, `memorySearchFrom`: the search in memory under a failing load; **`memorySearchFrom_eq`**: with a
  file that can be read it is `memorySearch`;
* `FullyLoaded`: the whole file is in memory, with the pointers of its super block;
* `Retryable`: whatever is called later, a search in memory that gets past the load has the whole file;
* **`failedLoad_retryable_iff`**: a failed load leaves the object so exactly when no memory could be had.
-/

namespace Sarah

open Bisect Machine

variable {db : List UInt8}

/-- What a call meets: `read` is the number of bytes that `fread` delivers. -/
structure LoadEnv where
  malloc : ℕ → Bool
  read : ℕ

/-! ## The search in memory -/

/-- The file, read at the first call; a block that is read in part holds what was read. `false` where the search returns
0 right away. -/
def loadBinStrFrom (env : LoadEnv) (db : List UInt8) (o : Ip2region) : Option (Bool × Ip2region) :=
  if o.dbBinStr.isSome then some (true, o)
  else if env.malloc db.length = false then some (false, { o with dbHandler := 0 })
  else if db.length = 0 ∨ env.read < db.length then
    some (false, { o with dbBinStr := some (db.take env.read), dbHandler := min env.read db.length })
  else if db.length < 8 then none
  else some (true, { o with dbBinStr := some db, dbHandler := db.length }.loadIndex db)

/-- The search in the block that is loaded. -/
def searchBinStr (ip : ℕ) (block : Datablock) (o : Ip2region) : Option ((ℕ × Datablock) × Ip2region) :=
  (bisect (memoryProbe (o.dbBinStr.getD []) o.firstIndexPtr ip) 0 0 o.totalBlocks ()).bind fun r =>
    if r.1 = 0 then some ((0, block), o)
    else if (o.dbBinStr.getD []).length < dataPtr r.1 + dataLen r.1 then none
    else (fillDatablock ((o.dbBinStr.getD []).drop (dataPtr r.1)) (dataLen r.1) block).map fun b => ((1, b), o)

/-- `ip2region_memory_search`. -/
def memorySearchFrom (env : LoadEnv) (db : List UInt8) (ip : ℕ) (block : Datablock) (o : Ip2region) :
    Option ((ℕ × Datablock) × Ip2region) :=
  (loadBinStrFrom env db o).bind fun
    | (false, o) => some ((0, block), o)
    | (true, o) => searchBinStr ip block o

theorem loadBinStrFrom_eq (malloc : ℕ → Bool) (db : List UInt8) (o : Ip2region) :
    loadBinStrFrom ⟨malloc, db.length⟩ db o = loadBinStr malloc db o := by
  unfold loadBinStrFrom loadBinStr
  by_cases hempty : db.length = 0
  · rw [if_pos (c := db.length = 0) hempty, if_pos (c := _ ∨ _) (.inl hempty), List.take_length, Nat.min_self, hempty]
  · rw [if_neg (c := db.length = 0) hempty, if_neg (c := _ ∨ _) (not_or.mpr ⟨hempty, lt_irrefl _⟩)]

theorem memorySearchFrom_eq (malloc : ℕ → Bool) (db : List UInt8) (ip : ℕ) (block : Datablock) (o : Ip2region) :
    memorySearchFrom ⟨malloc, db.length⟩ db ip block o = memorySearch malloc db ip block o := by
  unfold memorySearchFrom memorySearch
  rw [loadBinStrFrom_eq]
  congr 1

/-! ## Later calls -/

/-- One lookup, with what it meets if it is a search in memory. -/
def retryStep (db : List UInt8) (o : Ip2region) (call : LoadEnv × Lookup) : Option (Ip2region × ℕ × Datablock) :=
  match call.2 with
  | .memory ip block => (memorySearchFrom call.1 db ip block o).map fun r => (r.2, r.1)
  | .binary ip block => (binarySearch db ip block o).map fun r => (r.2, r.1)
  | .btree ip block => (btreeSearch db ip block o).map fun r => (r.2, r.1)

/-- The file is in memory, with the pointers of its super block. -/
structure FullyLoaded (db : List UInt8) (o : Ip2region) : Prop where
  length : 8 ≤ db.length
  bin : o.dbBinStr = some db
  first : o.firstIndexPtr = getUnsignedInt db 0
  last : o.lastIndexPtr = getUnsignedInt db 4
  blocks : o.totalBlocks = blockCount db

/-- A search in memory that is not ended by the load has the whole file. -/
def SearchesComplete (env : LoadEnv) (db : List UInt8) (o : Ip2region) : Prop :=
  ∀ r, loadBinStrFrom env db o = some r → r.1 = true → FullyLoaded db r.2

/-- **The property of an object** after a call: the next search in memory loads the file completely before it searches,
or reports a failure. -/
def Retryable (db : List UInt8) (o : Ip2region) : Prop := ∀ env, SearchesComplete env db o

/-- A search in memory that gets a block for the file reads the whole file. -/
def LoadsAll (db : List UInt8) (o : Ip2region) (call : LoadEnv × Lookup) : Prop :=
  match call.2 with
  | .memory _ _ => o.dbBinStr = none → call.1.malloc db.length = true → db.length ≠ 0 ∧ db.length ≤ call.1.read
  | _ => True

/-- However the call ends, the object can be used again. -/
def LeavesRetryable (db : List UInt8) (o : Ip2region) (call : LoadEnv × Lookup) : Prop :=
  ∀ r, retryStep db o call = some r → Retryable db r.1

/-- Nothing is loaded, or all of it. -/
def NoneOrAll (db : List UInt8) (o : Ip2region) : Prop := o.dbBinStr = none ∨ FullyLoaded db o

theorem FullyLoaded.seek {o : Ip2region} (h : FullyLoaded db o) (pos : ℕ) :
    FullyLoaded db { o with dbHandler := pos } :=
  ⟨h.length, h.bin, h.first, h.last, h.blocks⟩

theorem NoneOrAll.seek {o : Ip2region} (h : NoneOrAll db o) (pos : ℕ) : NoneOrAll db { o with dbHandler := pos } :=
  h.imp id fun h => h.seek pos

theorem NoneOrAll.retryable {o : Ip2region} (h : NoneOrAll db o) : Retryable db o := by
  rintro env r hload htrue
  unfold loadBinStrFrom at hload
  split_ifs at hload with hbin hmalloc hshort hlen
  all_goals cases hload
  · obtain hnone | hall := h
    · rw [hnone] at hbin
      cases hbin
    · exact hall
  · cases htrue
  · cases htrue
  · exact ⟨not_lt.mp hlen, rfl, rfl, rfl, rfl⟩

theorem not_retryable_of_part {o : Ip2region} {n : ℕ} (hbin : o.dbBinStr = some (db.take n))
    (hpart : db.length = 0 ∨ n < db.length) : ¬ Retryable db o := by
  intro h
  have hload : loadBinStrFrom ⟨fun _ => true, 0⟩ db o = some (true, o) := by
    rw [loadBinStrFrom, hbin, Option.isSome_some, if_pos rfl]
  have hall := h _ _ hload rfl
  have htake : db.take n = db := Option.some.inj (hbin.symm.trans hall.bin)
  have hlen := congrArg List.length htake
  rw [List.length_take] at hlen
  have := hall.length
  omega

theorem loadBinStrFrom_failed {env : LoadEnv} {o o' : Ip2region} (h : loadBinStrFrom env db o = some (false, o')) :
    o'.dbBinStr = none ∧ env.malloc db.length = false ∨
      o'.dbBinStr = some (db.take env.read) ∧ env.malloc db.length = true ∧ (db.length = 0 ∨ env.read < db.length) := by
  unfold loadBinStrFrom at h
  split_ifs at h with hbin hmalloc hshort
  all_goals cases h
  · exact .inl ⟨Option.not_isSome_iff_eq_none.mp hbin, hmalloc⟩
  · exact .inr ⟨rfl, Bool.eq_true_of_not_eq_false hmalloc, hshort⟩

theorem loadBinStrFrom_part {env : LoadEnv} {o : Ip2region} (hnone : o.dbBinStr = none)
    (hmalloc : env.malloc db.length = true) (hpart : db.length = 0 ∨ env.read < db.length) :
    ∃ o', loadBinStrFrom env db o = some (false, o') ∧ o'.dbBinStr = some (db.take env.read) := by
  have hbin : ¬ o.dbBinStr.isSome = true := by
    rw [hnone]
    exact Bool.noConfusion
  have hgranted : ¬ env.malloc db.length = false := fun hfalse => Bool.noConfusion (hfalse.symm.trans hmalloc)
  exact ⟨_, by rw [loadBinStrFrom, if_neg hbin, if_neg hgranted, if_pos hpart], rfl⟩

theorem memorySearchFrom_failed {env : LoadEnv} {o o' : Ip2region} (h : loadBinStrFrom env db o = some (false, o'))
    (ip : ℕ) (block : Datablock) : memorySearchFrom env db ip block o = some ((0, block), o') := by
  rw [memorySearchFrom, h]
  rfl

theorem failedLoad_retryable {env : LoadEnv} {o o' : Ip2region} (h : loadBinStrFrom env db o = some (false, o')) :
    Retryable db o' ↔ env.malloc db.length = false := by
  obtain ⟨hnone, hmalloc⟩ | ⟨hbin, hmalloc, hpart⟩ := loadBinStrFrom_failed h
  · have hobject : NoneOrAll db o' := .inl hnone
    exact iff_of_true hobject.retryable hmalloc
  · refine iff_of_false (not_retryable_of_part hbin hpart) ?_
    rw [hmalloc]
    exact Bool.noConfusion

/-! ## One call -/

theorem loadSuper_noneOrAll {o : Ip2region} (h : NoneOrAll db o) : NoneOrAll db (loadSuper db o).2 := by
  obtain hnone | hall := h
  · left
    unfold loadSuper
    split_ifs
    · split <;> exact hnone
    · exact hnone
  · have hblocks := hall.blocks.trans_ne (blockCount_ne_zero db)
    rw [loadSuper, if_neg hblocks]
    exact .inr hall

theorem loadHeader_noneOrAll {o : Ip2region} (h : NoneOrAll db o) : NoneOrAll db (loadHeader db o).2 := by
  have hkeep : ∀ sip ptr len pos,
      NoneOrAll db { o with headerSip := sip, headerPtr := ptr, headerLen := len, dbHandler := pos } :=
    fun _ _ _ _ => h.imp id fun h => ⟨h.length, h.bin, h.first, h.last, h.blocks⟩
  unfold loadHeader
  split_ifs
  · split <;> exact hkeep _ _ _ _
  · exact h

theorem binarySearch_noneOrAll {o o' : Ip2region} (h : NoneOrAll db o) {ip : ℕ} {block : Datablock} {r : ℕ × Datablock}
    (hrun : binarySearch db ip block o = some (r, o')) : NoneOrAll db o' := by
  have hload := loadSuper_noneOrAll h
  unfold binarySearch at hrun
  generalize loadSuper db o = super at *
  match super with
  | (false, o₁) =>
    cases hrun
    exact hload
  | (true, o₁) =>
    obtain ⟨⟨found, pos⟩, -, hrest⟩ := Option.bind_eq_some_iff.mp hrun
    cases found with
    | none =>
      cases hrest
      exact hload.seek _
    | some dptr =>
      obtain ⟨q, -, hrest⟩ := Option.map_eq_some_iff.mp hrest
      cases hrest
      exact hload.seek _

theorem btreeSearch_noneOrAll {o o' : Ip2region} (h : NoneOrAll db o) {ip : ℕ} {block : Datablock} {r : ℕ × Datablock}
    (hrun : btreeSearch db ip block o = some (r, o')) : NoneOrAll db o' := by
  have hload := loadHeader_noneOrAll h
  unfold btreeSearch at hrun
  generalize loadHeader db o = header at *
  match header with
  | (false, o₁) =>
    cases hrun
    exact hload
  | (true, o₁) =>
    obtain ⟨found, -, hrest⟩ := Option.bind_eq_some_iff.mp hrun
    split_ifs at hrest with hzero
    · cases hrest
      exact hload
    · obtain ⟨q, -, hrest⟩ := Option.map_eq_some_iff.mp hrest
      cases hrest
      exact hload.seek _

theorem searchBinStr_object {o o' : Ip2region} {ip : ℕ} {block : Datablock} {r : ℕ × Datablock}
    (h : searchBinStr ip block o = some (r, o')) : o' = o := by
  obtain ⟨found, -, h⟩ := Option.bind_eq_some_iff.mp h
  split_ifs at h
  · cases h
    rfl
  · obtain ⟨b, -, h⟩ := Option.map_eq_some_iff.mp h
    cases h
    rfl

theorem memorySearchFrom_noneOrAll {env : LoadEnv} {o o' : Ip2region} {ip : ℕ} {block : Datablock}
    (hall : LoadsAll db o (env, .memory ip block)) (h : NoneOrAll db o) {r : ℕ × Datablock}
    (hrun : memorySearchFrom env db ip block o = some (r, o')) : NoneOrAll db o' := by
  obtain ⟨⟨b, o₁⟩, hload, hrest⟩ := Option.bind_eq_some_iff.mp hrun
  cases b with
  | false =>
    cases hrest
    obtain ⟨hnone, -⟩ | ⟨-, hmalloc, hpart⟩ := loadBinStrFrom_failed hload
    · exact .inl hnone
    · have hbin : o.dbBinStr = none := by
        by_contra hsome
        rw [loadBinStrFrom, if_pos (Option.isSome_iff_ne_none.mpr hsome)] at hload
        cases hload
      have hread := hall hbin hmalloc
      dsimp only at hread
      omega
  | true =>
    rw [searchBinStr_object hrest]
    exact .inr (h.retryable env _ hload rfl)

theorem retryStep_noneOrAll {o : Ip2region} {call : LoadEnv × Lookup} (hall : LoadsAll db o call) (h : NoneOrAll db o)
    {r : Ip2region × ℕ × Datablock} (hrun : retryStep db o call = some r) : NoneOrAll db r.1 := by
  obtain ⟨env, lookup⟩ := call
  cases lookup with
  | memory ip block =>
    obtain ⟨q, hq, rfl⟩ := Option.map_eq_some_iff.mp hrun
    exact memorySearchFrom_noneOrAll hall h hq
  | binary ip block =>
    obtain ⟨q, hq, rfl⟩ := Option.map_eq_some_iff.mp hrun
    exact binarySearch_noneOrAll h hq
  | btree ip block =>
    obtain ⟨q, hq, rfl⟩ := Option.map_eq_some_iff.mp hrun
    exact btreeSearch_noneOrAll h hq

/-- A call leaves a retryable object exactly when it meets no short read. -/
theorem leavesRetryable_iff {o : Ip2region} (h : NoneOrAll db o) (call : LoadEnv × Lookup) :
    LoadsAll db o call ↔ LeavesRetryable db o call := by
  constructor
  · exact fun hall r hrun => (retryStep_noneOrAll hall h hrun).retryable
  · obtain ⟨env, lookup⟩ := call
    cases lookup with
    | memory ip block =>
      intro hleaves hnone hmalloc
      by_contra hread
      have hpart : db.length = 0 ∨ env.read < db.length := by
        dsimp only at hread
        omega
      obtain ⟨o', hload, hbin⟩ := loadBinStrFrom_part hnone hmalloc hpart
      have hstep : retryStep db o (env, .memory ip block) = some (o', 0, block) :=
        Option.map_eq_some_iff.mpr ⟨_, memorySearchFrom_failed hload ip block, rfl⟩
      exact not_retryable_of_part hbin hpart (hleaves _ hstep)
    | binary ip block => exact fun _ => trivial
    | btree ip block => exact fun _ => trivial

/-- **Failed loads.** A load that fails ends the call with a failure, and leaves a retryable object exactly when no
memory could be had for the file. Along any run of lookups, from an object with nothing or all of the file, every call
leaves a retryable object exactly when no search meets a short read. -/
theorem failedLoad_retryable_iff (db : List UInt8) :
    (∀ env o o', loadBinStrFrom env db o = some (false, o') →
      (∀ ip block, memorySearchFrom env db ip block o = some ((0, block), o')) ∧
        (Retryable db o' ↔ env.malloc db.length = false)) ∧
    ∀ calls o, NoneOrAll db o →
      (Guarded (retryStep db) (LoadsAll db) o calls ↔ Guarded (retryStep db) (LeavesRetryable db) o calls) := by
  constructor
  · exact fun env o o' h => ⟨memorySearchFrom_failed h, failedLoad_retryable h⟩
  · intro calls o ho
    exact guarded_iff_of_guarded_invariant (NoneOrAll db) (fun _ => True)
      (fun o call r h _ hall hrun => retryStep_noneOrAll hall h hrun) (fun o call h _ => leavesRetryable_iff h call)
      calls o ho fun _ _ => trivial

/-- No memory for the file, at the first call. -/
theorem failedLoad_retryable_iff_create : Retryable oneRange { ip2regionCreate with dbHandler := 0 } :=
  (((failedLoad_retryable_iff oneRange).1 ⟨fun _ => false, 0⟩ ip2regionCreate _ rfl).2).mpr rfl

/-- A short read at the first call: the next search takes the part that was read. -/
theorem not_failedLoad_retryable : ¬ ∀ (db : List UInt8) (env : LoadEnv) (o o' : Ip2region),
    loadBinStrFrom env db o = some (false, o') → Retryable db o' := fun hall =>
  not_retryable_of_part rfl (.inr (by decide)) (hall oneRange ⟨fun _ => true, 10⟩ ip2regionCreate _ rfl)

end Sarah
