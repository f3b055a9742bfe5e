import SarahClient.Ip2region.Database

/-!
# The search in memory

Its loop starts with the number of blocks as upper end, one past the last block. The search in the file meets a short
read there and answers 0; the search in memory reads past the loaded file.

* `MemoryMeets`: the blocks it reads are in the file, and it answers what the binary search answers;
* `InReach`: a block on the way to the end of the index, at an offset that is an `int`, does not end before the address;
* **`memory_meets_iff`**: the first holds exactly where the second does; `inReach_iff`: for an index below 2 GiB, up to
  the end of the last range.
-/

namespace Sarah

open Bisect Machine

variable {db : List UInt8}

/-- The search in memory answers as the one in the file does. -/
def MemoryMeets (malloc : ℕ → Bool) (db : List UInt8) (o : Ip2region) (ip : ℕ) (block : Datablock) : Prop :=
  ∃ r o₁ o₂, memorySearch malloc db ip block o = some (r, o₁) ∧ binarySearch db ip block o = some (r, o₂)

/-- `spine (blockCount db)` are the blocks that a search to the end of the index probes. -/
def InReach (db : List UInt8) (ip : ℕ) : Prop :=
  ∃ i, (spine (blockCount db) i < blockCount db ∧
      firstIndex db + spine (blockCount db) i * indexBlockLength < 2 ^ 31) ∧
    ip ≤ (indexBlock db (spine (blockCount db) i).toNat).eip

/-- With offsets that are all `int`s, only the last range matters. -/
theorem WellFormed.inReach_iff (hdb : WellFormed db) (hint : lastIndex db < 2 ^ 31) (ip : ℕ) :
    InReach db ip ↔ ip ≤ (indexBlock db (blockCount db - 1)).eip := by
  have hcount := hdb.count
  have hlast := hdb.lastIndex_eq
  constructor
  · rintro ⟨i, ⟨hi, -⟩, hle⟩
    have hmem := (spine_mem (Int.natCast_nonneg (blockCount db)) i).1
    generalize spine (blockCount db) i = m at *
    obtain ⟨m, rfl⟩ : ∃ k : ℕ, m = k := ⟨m.toNat, by omega⟩
    rw [Int.toNat_natCast] at hle
    by_cases heq : m = blockCount db - 1
    · rw [← heq]
      exact hle
    · have h₁ := hdb.sorted m (blockCount db - 1) (by omega) (by omega)
      have h₂ := hdb.range (blockCount db - 1) (by omega)
      omega
  · intro hle
    obtain ⟨i, hi⟩ := exists_spine (show (0 : ℤ) < blockCount db by omega)
    have hend : ((blockCount db : ℤ) - 1).toNat = blockCount db - 1 := by omega
    refine ⟨i, ⟨by omega, ?_⟩, ?_⟩
    · rw [hi]
      unfold indexBlockLength at *
      omega
    · rw [hi, hend]
      exact hle

/-! ## Probes in memory -/

theorem WellFormed.whole_block (hdb : WellFormed db) {m : ℤ} (hpos : 0 ≤ m) (hm : m ≤ blockCount db)
    (hin : i32 (firstIndex db + m * indexBlockLength) + 4 ≤ db.length) :
    i32 (firstIndex db + m * indexBlockLength) + indexBlockLength ≤ db.length := by
  have hcount := hdb.count
  have hlast := hdb.lastIndex_eq
  have hlength := hdb.length
  have hlt : lastIndex db < 2 ^ 32 := getUnsignedInt_lt db 4
  unfold indexBlockLength i32 at *
  -- the offset wraps around at most once
  have hwraps : ((firstIndex db : ℤ) + m * (12 : ℕ) + 2 ^ 31) / 2 ^ 32 = 0 ∨
      ((firstIndex db : ℤ) + m * (12 : ℕ) + 2 ^ 31) / 2 ^ 32 = 1 := by omega
  rcases hwraps with hnone | honce
  · omega
  · omega

/-- A block that the memory search reads, the binary search reads as well. -/
theorem WellFormed.binaryProbe_of_memoryProbe (hdb : WellFormed db) {ip : ℕ} {m : ℤ} (hpos : 0 ≤ m)
    (hm : m ≤ blockCount db) {r : Move ℕ} (h : memoryProbe db (firstIndex db) ip m () = some (r, ())) (pos : ℕ) :
    ∃ pos', binaryProbe db (firstIndex db) ip m pos = some (r.map some, pos') := by
  have hwhole := hdb.whole_block hpos hm
  unfold memoryProbe at h
  unfold binaryProbe
  generalize i32 (firstIndex db + m * indexBlockLength) = p at *
  by_cases hin : p < 0 ∨ db.length < p + 4
  · rw [bufferProbe, if_pos hin] at h
    cases h
  · obtain ⟨p, rfl⟩ : ∃ k : ℕ, p = k := ⟨p.toNat, by omega⟩
    have hle := hwhole (by omega)
    rw [bufferProbe_of_le (by omega)] at h
    cases h
    refine ⟨p + indexBlockLength, ?_⟩
    rw [fseek_of_nonneg (Int.natCast_nonneg p), Int.toNat_natCast, fread_of_le (by decide) (by omega)]
    dsimp only
    rw [readBlock_take_drop (by omega), Nat.add_zero]

theorem WellFormed.memoryProbe_block (hdb : WellFormed db) (ip : ℕ) {m : ℕ} (hm : m < blockCount db)
    (hint : firstIndex db + m * indexBlockLength < 2 ^ 31) :
    memoryProbe db (firstIndex db) ip m () = some ((indexBlock db m).compare ip, ()) := by
  have hend := hdb.block_end hm
  rw [memoryProbe, i32_blockOffset hint, bufferProbe_of_le hend, indexBlock]

/-- Past the offsets that are `int`s, or past the index, nothing can be read. -/
theorem WellFormed.memoryProbe_none (hdb : WellFormed db) (ip : ℕ) {m : ℕ} (hm : m ≤ blockCount db)
    (hout : m < blockCount db → 2 ^ 31 ≤ firstIndex db + m * indexBlockLength)
    (hlast : m = blockCount db → lastIndex db < 2 ^ 31) : memoryProbe db (firstIndex db) ip m () = none := by
  have hcount := hdb.count
  have hlength := hdb.length
  have hlt : lastIndex db < 2 ^ 32 := getUnsignedInt_lt db 4
  rw [memoryProbe, bufferProbe, if_pos]
  unfold indexBlockLength i32 at *
  omega

/-! ## The search -/

/-- The loop over the blocks stays in the file exactly when the address is in reach; a pointer it finds is that of a
block. -/
theorem WellFormed.bisect_memoryProbe (hdb : WellFormed db) (ip : ℕ) :
    ((∃ r, bisect (memoryProbe db (firstIndex db) ip) 0 0 (blockCount db) () = some r) ↔ InReach db ip) ∧
    ∀ r, bisect (memoryProbe db (firstIndex db) ip) 0 0 (blockCount db) () = some r →
      r.1 = 0 ∨ ∃ i < blockCount db, r.1 = (indexBlock db i).dptr := by
  have hcount := hdb.count
  have hlast := hdb.lastIndex_eq
  let ok : ℤ → Prop := fun m => m < blockCount db ∧ firstIndex db + m * indexBlockLength < 2 ^ 31
  let goesRight : ℤ → Prop := fun m => (indexBlock db m.toNat).eip < ip
  have hpos : (0 : ℤ) < blockCount db := by omega
  have hdown : ∀ a b, a ≤ b → ok b → ok a := by
    rintro a b hab ⟨h₁, h₂⟩
    unfold indexBlockLength at h₂
    exact ⟨by omega, by unfold indexBlockLength; omega⟩
  have hend : ¬ ok (blockCount db) := fun h => lt_irrefl _ h.1
  have hprobe : ∀ m, 0 ≤ m → ok m →
      memoryProbe db (firstIndex db) ip m () = some ((indexBlock db m.toNat).compare ip, ()) := by
    rintro m hm ⟨h₁, h₂⟩
    obtain ⟨m, rfl⟩ : ∃ k : ℕ, m = k := ⟨m.toNat, by omega⟩
    exact hdb.memoryProbe_block ip (by omega) (by exact_mod_cast h₂)
  have hright : ∀ m s, 0 ≤ m → ok m → goesRight m →
      ∃ s', memoryProbe db (firstIndex db) ip m s = some (.right, s') := by
    intro m s hm hok hgo
    have hrange := hdb.range m.toNat (by omega)
    have hgo' : (indexBlock db m.toNat).eip < ip := hgo
    exact ⟨(), by rw [hprobe m hm hok, IndexBlock.compare, if_neg (by omega), if_pos hgo']⟩
  have hturn : ∀ m s, 0 ≤ m → ok m → ¬ goesRight m →
      ∃ r s', memoryProbe db (firstIndex db) ip m s = some (r, s') ∧ r ≠ .right := by
    intro m s hm hok hgo
    refine ⟨_, (), hprobe m hm hok, ?_⟩
    have hgo' : ¬ (indexBlock db m.toNat).eip < ip := hgo
    rw [IndexBlock.compare, if_neg hgo']
    split_ifs <;> rintro ⟨⟩
  have hfault : ∀ (m : ℤ) s, 0 ≤ m → m ≤ blockCount db → ¬ ok m → (m = blockCount db → ok (blockCount db - 1)) →
      memoryProbe db (firstIndex db) ip m s = none := by
    intro m s hm hle hok hprev
    obtain ⟨m, rfl⟩ : ∃ k : ℕ, m = k := ⟨m.toNat, by omega⟩
    refine hdb.memoryProbe_none ip (by omega) (fun hlt => ?_) (fun heq => ?_)
    · by_contra hbelow
      exact hok ⟨by omega, by exact_mod_cast not_le.mp hbelow⟩
    · have hint := (hprev (by rw [heq])).2
      unfold indexBlockLength at *
      omega
  have hiff := bisect_spine (d := 0) hpos hdown hend hfault hright hturn ()
  constructor
  · rw [hiff]
    exact exists_congr fun i => and_congr_right fun _ => not_lt
  · intro r hr
    obtain ⟨i, hok, hi⟩ := hiff.mp ⟨r, hr⟩
    obtain ⟨r', hr', hcase⟩ := bisect_of_turn (d := 0) hpos.le hdown hend hright hturn hok hi ()
    rw [hr, Option.some.injEq] at hr'
    subst hr'
    obtain hzero | ⟨m, s, hm, hokm, hstop⟩ := hcase
    · exact .inl hzero
    · refine .inr ⟨m.toNat, by have := hokm.1; omega, ?_⟩
      have hcompare : (indexBlock db m.toNat).compare ip = .stop r.1 := by
        rw [hprobe m hm hokm, Option.some.injEq, Prod.mk.injEq] at hstop
        exact hstop.1
      unfold IndexBlock.compare at hcompare
      split_ifs at hcompare
      exact (Move.stop.inj hcompare).symm

theorem WellFormed.loadBinStr_spec (hdb : WellFormed db) {malloc : ℕ → Bool} (hmalloc : malloc db.length = true)
    {o : Ip2region} (h : Loaded db o) :
    ∃ o', loadBinStr malloc db o = some (true, o') ∧ o'.dbBinStr = some db ∧ Indexed db o' := by
  have hlength := hdb.length
  have hne : 12 ≤ db.length := by
    unfold indexBlockLength at hlength
    omega
  unfold loadBinStr
  obtain hnone | ⟨hsome, hblocks⟩ := h.bin
  · rw [hnone, Option.isSome_none, if_neg Bool.false_ne_true, if_neg (by rw [hmalloc]; exact Bool.noConfusion),
      if_neg (by omega), if_neg (by omega)]
    have hindexed := (h.seek db.length).loadIndex
    refine ⟨_, rfl, rfl, ⟨⟨.inr ⟨rfl, ?_⟩, hindexed.index, hindexed.header⟩, hindexed.blocks, hindexed.first⟩⟩
    exact blockCount_ne_zero db
  · rw [hsome, Option.isSome_some, if_pos rfl]
    exact ⟨o, rfl, hsome, h.indexed hblocks⟩

/-- **The search in memory is in bounds, and agrees with the binary search, exactly for the addresses in reach.** -/
theorem WellFormed.memoryMeets_iff (hdb : WellFormed db) {malloc : ℕ → Bool} (hmalloc : malloc db.length = true)
    {o : Ip2region} (h : Loaded db o) (ip : ℕ) (block : Datablock) :
    MemoryMeets malloc db o ip block ↔ InReach db ip := by
  obtain ⟨hreach, hpointer⟩ := hdb.bisect_memoryProbe ip
  obtain ⟨o₁, hload₁, hbin, hindexed₁⟩ := hdb.loadBinStr_spec hmalloc h
  obtain ⟨o₂, hload₂, hindexed₂⟩ := hdb.loadSuper_spec h
  rw [← hreach]
  unfold MemoryMeets memorySearch binarySearch
  rw [hload₁, hload₂, Option.bind_some]
  dsimp only
  rw [hindexed₁.blocks, hindexed₁.first, hindexed₂.blocks, hindexed₂.first, hbin, Option.getD_some]
  constructor
  · rintro ⟨r, o₁', -, hrun, -⟩
    obtain ⟨found, hfound, -⟩ := Option.bind_eq_some_iff.mp hrun
    exact ⟨found, hfound⟩
  · rintro ⟨⟨dptr, u⟩, hfound⟩
    have hsame : ∀ m, 0 ≤ m → m ≤ (blockCount db : ℤ) → ∀ s r s', memoryProbe db (firstIndex db) ip m s = some (r, s') →
        ∀ t, ∃ t', binaryProbe db (firstIndex db) ip m t = some (r.map some, t') :=
      fun m hpos hm s r s' hprobe t => hdb.binaryProbe_of_memoryProbe hpos hm hprobe t
    obtain ⟨pos, hfile⟩ := bisect_map hsame hfound o₂.dbHandler
    rw [hfound, hfile, Option.bind_some, Option.bind_some]
    dsimp only
    obtain hzero | ⟨i, hi, hdptr⟩ := hpointer _ hfound
    · rw [if_pos hzero, show dptr = 0 from hzero, fetchData, if_pos rfl, Option.map_some]
      exact ⟨_, _, _, rfl, rfl⟩
    · obtain ⟨pos', hfetch⟩ := hdb.fetchData_block hi block pos
      obtain ⟨hlen, hroom⟩ := hdb.data i hi
      rw [show dptr = (indexBlock db i).dptr from hdptr, hfetch, Option.map_some, if_neg (hdb.pointer i hi),
        if_neg (not_lt.mpr hroom), fillDatablock_drop hlen, Option.map_some]
      exact ⟨_, _, _, rfl, rfl⟩

theorem memory_meets_iff (malloc : ℕ → Bool) (hmalloc : malloc db.length = true) (hdb : WellFormed db)
    (lookups : List Lookup) (o : Ip2region) (outs : List (ℕ × Datablock))
    (hrun : exec (searchStep malloc db) ip2regionCreate lookups = some (o, outs)) (ip : ℕ) (block : Datablock) :
    MemoryMeets malloc db o ip block ↔ InReach db ip :=
  hdb.memoryMeets_iff hmalloc (loaded_of_run hdb.ne_nil hrun) ip block

/-! ## A database of one range -/

/-- The range 10.0.0.0 to 10.0.0.9, with the city 7. -/
def oneRange : List UInt8 :=
  [12, 0, 0, 0, 12, 0, 0, 0, 7, 0, 0, 0, 0, 0, 0, 10, 9, 0, 0, 10, 8, 0, 0, 4]

theorem oneRange_wellFormed : WellFormed oneRange := by
  have hcount : blockCount oneRange = 1 := by decide
  have hzero : ∀ i < blockCount oneRange, i = 0 := by
    intro i hi
    omega
  refine ⟨⟨0, by decide⟩, by decide, fun i hi => ?_, fun i j hij hj => ?_, fun i hi => ?_, fun i hi => ?_⟩
  · rw [hzero i hi]
    decide
  · omega
  · rw [hzero i hi]
    decide
  · rw [hzero i hi]
    decide

theorem memory_meets_iff_oneRange : MemoryMeets (fun _ => true) oneRange ip2regionCreate 0x0a000003 ⟨0, []⟩ := by
  refine (memory_meets_iff (fun _ => true) rfl oneRange_wellFormed [] _ [] rfl _ _).mpr ⟨0, ?_⟩
  decide

/-- The address after the range. -/
theorem not_memory_meets : ¬ ∀ (malloc : ℕ → Bool) (db : List UInt8), malloc db.length = true → WellFormed db →
    ∀ ip < 2 ^ 32, ∀ block, MemoryMeets malloc db ip2regionCreate ip block := by
  intro hall
  obtain ⟨r, o₁, o₂, hrun, -⟩ := hall (fun _ => true) oneRange rfl oneRange_wellFormed 0x0a00000a (by decide) ⟨0, []⟩
  have hnone : memorySearch (fun _ => true) oneRange 0x0a00000a ⟨0, []⟩ ip2regionCreate = none := by decide
  rw [hnone] at hrun
  cases hrun

end Sarah
