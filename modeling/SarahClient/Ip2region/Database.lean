import SarahClient.Ip2region.Model
import SarahClient.Lib.Machine

/-!
# Well-formed databases

* `WellFormed`: the index is a row of blocks at the end of the file, their ranges sorted and disjoint, their data inside
  the file; `WellHeaded`: the header samples the index, the ends included, in partitions that fit the buffer;
* `Answers`: the result of a lookup is the data of the range with the address, or 0;
* `Loaded`: what an object knows of the database; **`loaded_of_run`**: every run of lookups keeps it;
* `fetchData_answers`, **`binarySearch_answers`**: the binary search answers.
-/

namespace Sarah

open Bisect Machine

variable {db : List UInt8}

/-! ## The format -/

/-- Where the index begins. -/
def firstIndex (db : List UInt8) : ℕ := getUnsignedInt db 0

/-- Where its last block begins. -/
def lastIndex (db : List UInt8) : ℕ := getUnsignedInt db 4

/-- The block number `i` of the index. -/
def indexBlock (db : List UInt8) (i : ℕ) : IndexBlock := readBlock db (firstIndex db + i * indexBlockLength)

/-- The samples of the header of a database. -/
def samples (db : List UInt8) : List (ℕ × ℕ) := readHeader ((db.drop 8).take totalHeaderLength)

/-- The address lies in the range of the block. -/
def IndexBlock.Contains (b : IndexBlock) (ip : ℕ) : Prop := b.sip ≤ ip ∧ ip ≤ b.eip

/-- The index ends the file, its ranges are apart and in order, and all its data are inside. -/
structure WellFormed (db : List UInt8) : Prop where
  index : ∃ k, lastIndex db = firstIndex db + k * indexBlockLength
  length : db.length = lastIndex db + indexBlockLength
  range : ∀ i < blockCount db, (indexBlock db i).sip ≤ (indexBlock db i).eip
  sorted : ∀ i j, i < j → j < blockCount db → (indexBlock db i).eip < (indexBlock db j).sip
  pointer : ∀ i < blockCount db, (indexBlock db i).dptr ≠ 0
  data : ∀ i < blockCount db, 4 ≤ dataLen (indexBlock db i).dptr ∧
    dataPtr (indexBlock db i).dptr + dataLen (indexBlock db i).dptr ≤ db.length

/-- The sample of the index block `i`. -/
def sampleOf (db : List UInt8) (i : ℕ) : ℕ × ℕ := ((indexBlock db i).sip, firstIndex db + i * indexBlockLength)

/-- The header block is in the file, and samples the blocks `ks`. -/
structure HeadedBy (db : List UInt8) (ks : List ℕ) : Prop where
  room : 8 + totalHeaderLength ≤ db.length
  header : samples db = ks.map (sampleOf db)
  two : 2 ≤ ks.length
  sorted : ks.Pairwise (· < ·)
  first : ks.head? = some 0
  last : ks.getLast? = some (blockCount db - 1)
  fits : ks.IsChain fun i j => (j - i) * indexBlockLength + indexBlockLength ≤ totalHeaderLength

/-- The header holds samples of the index. -/
def WellHeaded (db : List UInt8) : Prop := ∃ ks, HeadedBy db ks

/-- The data of a block, in the caller's `block`. -/
def blockData (db : List UInt8) (b : IndexBlock) (block : Datablock) : Datablock :=
  ⟨getUnsignedInt db (dataPtr b.dptr), (db.drop (dataPtr b.dptr + 4)).take (dataLen b.dptr - 4) ++
    0 :: block.region.drop (dataLen b.dptr - 3)⟩

/-- The lookup of `ip` found the range that contains it, or there is none. -/
def Answers (db : List UInt8) (ip : ℕ) (block : Datablock) (r : ℕ × Datablock) : Prop :=
  (∀ i < blockCount db, (indexBlock db i).Contains ip → r = (1, blockData db (indexBlock db i) block)) ∧
  ((∀ i < blockCount db, ¬ (indexBlock db i).Contains ip) → r = (0, block))

/-! ## Reading -/

theorem getD_take_drop (b : List UInt8) (p n k : ℕ) (h : k < n) : ((b.drop p).take n).getD k 0 = b.getD (p + k) 0 := by
  rw [List.getD_eq_getElem?_getD, List.getD_eq_getElem?_getD, List.getElem?_take, if_pos h, List.getElem?_drop]

theorem getUnsignedInt_take_drop {p n k : ℕ} (h : k + 4 ≤ n) :
    getUnsignedInt ((db.drop p).take n) k = getUnsignedInt db (p + k) := by
  unfold getUnsignedInt
  rw [getD_take_drop _ _ _ _ (by omega), getD_take_drop _ _ _ _ (by omega), getD_take_drop _ _ _ _ (by omega),
    getD_take_drop _ _ _ _ (by omega)]
  rfl

theorem getUnsignedInt_lt (b : List UInt8) (p : ℕ) : getUnsignedInt b p < 2 ^ 32 := by
  have h₀ := (b.getD p 0).toNat_lt
  have h₁ := (b.getD (p + 1) 0).toNat_lt
  have h₂ := (b.getD (p + 2) 0).toNat_lt
  have h₃ := (b.getD (p + 3) 0).toNat_lt
  unfold getUnsignedInt
  omega

theorem readBlock_take_drop {p n k : ℕ} (h : k + indexBlockLength ≤ n) :
    readBlock ((db.drop p).take n) k = readBlock db (p + k) := by
  unfold indexBlockLength at h
  unfold readBlock
  rw [getUnsignedInt_take_drop (by omega), getUnsignedInt_take_drop (by omega), getUnsignedInt_take_drop (by omega)]
  rfl

theorem fseek_of_nonneg {pos : ℕ} {offset : ℤ} (h : 0 ≤ offset) : fseek pos offset = offset.toNat := if_pos h

theorem fseek_self {n : ℕ} (h : n < 2 ^ 32) : fseek n (i32 n) = n := by
  by_cases hint : n < 2 ^ 31
  · rw [i32_of_range (by omega) (by omega), fseek_of_nonneg (Int.natCast_nonneg n), Int.toNat_natCast]
  · have hneg : ¬ 0 ≤ i32 n := by
      unfold i32
      omega
    rw [fseek, if_neg hneg]

theorem fread_of_le {size pos : ℕ} (hsize : 0 < size) (h : pos + size ≤ db.length) :
    fread db size pos = (some ((db.drop pos).take size), pos + size) := by
  rw [fread, if_neg (by omega), if_pos h]

theorem fread_of_lt {size pos : ℕ} (hsize : 0 < size) (h : db.length < pos + size) :
    fread db size pos = (none, max pos db.length) := by
  rw [fread, if_neg (by omega), if_neg (by omega)]

/-! ## The blocks of a well-formed database -/

namespace WellFormed

variable (hdb : WellFormed db)
include hdb

theorem count : 0 < blockCount db ∧ firstIndex db + blockCount db * indexBlockLength = db.length := by
  obtain ⟨k, hk⟩ := hdb.index
  have hfirst := getUnsignedInt_lt db 0
  have hlast := getUnsignedInt_lt db 4
  have hlength := hdb.length
  unfold firstIndex lastIndex indexBlockLength at *
  unfold blockCount u32 indexBlockLength
  omega

theorem lastIndex_eq : lastIndex db = firstIndex db + (blockCount db - 1) * indexBlockLength := by
  have hcount := hdb.count
  have hlength := hdb.length
  unfold indexBlockLength at *
  omega

theorem ne_nil : db ≠ [] := by
  rintro rfl
  have hlength := hdb.length
  unfold indexBlockLength at hlength
  rw [List.length_nil] at hlength
  omega

theorem block_end {i : ℕ} (hi : i < blockCount db) :
    firstIndex db + i * indexBlockLength + indexBlockLength ≤ db.length := by
  have hcount := hdb.count
  unfold indexBlockLength at hcount ⊢
  omega

theorem contains_unique {ip i j : ℕ} (hi : i < blockCount db) (hj : j < blockCount db)
    (hci : (indexBlock db i).Contains ip) (hcj : (indexBlock db j).Contains ip) : i = j := by
  obtain hlt | rfl | hlt := lt_trichotomy i j
  · have := hdb.sorted i j hlt hj
    exact absurd (hci.2.trans_lt (this.trans_le hcj.1)) (lt_irrefl ip)
  · rfl
  · have := hdb.sorted j i hlt hi
    exact absurd (hcj.2.trans_lt (this.trans_le hci.1)) (lt_irrefl ip)

theorem lt_of_contains_of_eip_lt {ip i m : ℕ} (hm : m < blockCount db)
    (hc : (indexBlock db i).Contains ip) (hlt : (indexBlock db m).eip < ip) : m < i := by
  by_contra hle
  obtain rfl | hlt' := (not_lt.mp hle).eq_or_lt
  · exact absurd hc.2 (not_le.mpr hlt)
  · have h₁ := hdb.sorted i m hlt' hm
    have h₂ := hdb.range m hm
    have h₃ := hc.2
    omega

theorem lt_of_contains_of_lt_sip {ip i m : ℕ} (hi : i < blockCount db) (hm : m < blockCount db)
    (hc : (indexBlock db i).Contains ip) (hlt : ip < (indexBlock db m).sip) : i < m := by
  by_contra hle
  obtain rfl | hlt' := (not_lt.mp hle).eq_or_lt
  · exact absurd hc.1 (not_le.mpr hlt)
  · have h₁ := hdb.sorted m i hlt' hi
    have h₂ := hdb.range m hm
    have h₃ := hc.1
    omega

end WellFormed

/-- The data pointer of the range with `ip`, or 0. -/
def Finds (db : List UInt8) (ip dptr : ℕ) : Prop :=
  (∀ i < blockCount db, (indexBlock db i).Contains ip → dptr = (indexBlock db i).dptr) ∧
  ((∀ i < blockCount db, ¬ (indexBlock db i).Contains ip) → dptr = 0)

/-- What the comparison with a block says of the range with `ip`. -/
def Steers (db : List UInt8) (ip m : ℕ) : Move ℕ → Prop
  | .left => ∀ i < blockCount db, (indexBlock db i).Contains ip → i < m
  | .right => ∀ i < blockCount db, (indexBlock db i).Contains ip → m < i
  | .stop dptr => Finds db ip dptr

theorem WellFormed.compare_steers (hdb : WellFormed db) (ip : ℕ) {m : ℕ} (hm : m < blockCount db) :
    Steers db ip m ((indexBlock db m).compare ip) := by
  unfold IndexBlock.compare
  split_ifs with hsip heip
  · exact fun i hi hc => hdb.lt_of_contains_of_lt_sip hi hm hc hsip
  · exact fun i _ hc => hdb.lt_of_contains_of_eip_lt hm hc heip
  · have hcm : (indexBlock db m).Contains ip := ⟨not_lt.mp hsip, not_lt.mp heip⟩
    refine ⟨fun i hi hc => ?_, fun hnone => absurd hcm (hnone m hm)⟩
    rw [hdb.contains_unique hi hm hc hcm]

/-! ## What an object knows -/

/-- What is in the object was read from the database. -/
structure Loaded (db : List UInt8) (o : Ip2region) : Prop where
  bin : o.dbBinStr = none ∨ o.dbBinStr = some db ∧ o.totalBlocks ≠ 0
  index : o.totalBlocks = 0 ∨ o.totalBlocks = blockCount db ∧ o.firstIndexPtr = firstIndex db
  header : o.headerLen = 0 ∨ o.headerLen = (samples db).length ∧ o.headerSip = (samples db).map Prod.fst ∧
    o.headerPtr = (samples db).map Prod.snd

theorem loaded_create (db : List UInt8) : Loaded db ip2regionCreate := ⟨.inl rfl, .inl rfl, .inl rfl⟩

theorem Loaded.seek {o : Ip2region} (h : Loaded db o) (pos : ℕ) : Loaded db { o with dbHandler := pos } :=
  ⟨h.bin, h.index, h.header⟩

theorem loadIndex_take {n : ℕ} (h : 8 ≤ n) (o : Ip2region) : o.loadIndex (db.take n) = o.loadIndex db := by
  have h₀ : getUnsignedInt (db.take n) 0 = getUnsignedInt db 0 := getUnsignedInt_take_drop (p := 0) (by omega)
  have h₄ : getUnsignedInt (db.take n) 4 = getUnsignedInt db 4 := by
    have := @getUnsignedInt_take_drop db 0 n 4 h
    rwa [List.drop_zero, Nat.zero_add] at this
  unfold Ip2region.loadIndex blockCount
  rw [h₀, h₄]

/-- The super block in memory is that of the database. -/
structure Indexed (db : List UInt8) (o : Ip2region) : Prop extends Loaded db o where
  blocks : o.totalBlocks = blockCount db
  first : o.firstIndexPtr = firstIndex db

theorem blockCount_ne_zero (db : List UInt8) : blockCount db ≠ 0 := Nat.succ_ne_zero _

theorem Loaded.loadIndex {o : Ip2region} (h : Loaded db o) : Indexed db (o.loadIndex db) :=
  ⟨⟨h.bin.imp_right fun hbin => ⟨hbin.1, blockCount_ne_zero db⟩, .inr ⟨rfl, rfl⟩, h.header⟩, rfl, rfl⟩

theorem Loaded.indexed {o : Ip2region} (h : Loaded db o) (hne : o.totalBlocks ≠ 0) : Indexed db o :=
  ⟨h, (h.index.resolve_left hne).1, (h.index.resolve_left hne).2⟩

theorem loadSuper_loaded {o o' : Ip2region} {r : Bool} (h : Loaded db o) (hload : loadSuper db o = (r, o')) :
    Loaded db o' := by
  unfold loadSuper at hload
  by_cases hzero : o.totalBlocks = 0
  · rw [if_pos hzero] at hload
    by_cases hroom : 8 ≤ db.length
    · rw [fread_of_le (by decide) (by omega)] at hload
      dsimp only at hload
      rw [List.drop_zero, loadIndex_take le_rfl] at hload
      cases hload
      exact (h.seek _).loadIndex.toLoaded
    · rw [fread_of_lt (by decide) (by omega)] at hload
      cases hload
      exact h.seek _
  · rw [if_neg hzero] at hload
    cases hload
    exact h

theorem loadBinStr_loaded {malloc : ℕ → Bool} (hne : db ≠ []) {o o' : Ip2region} {r : Bool} (h : Loaded db o)
    (hload : loadBinStr malloc db o = some (r, o')) : Loaded db o' := by
  unfold loadBinStr at hload
  split_ifs at hload with hbin hmalloc hempty
  all_goals cases hload
  · exact h
  · exact h.seek 0
  · exact absurd (List.length_eq_zero_iff.mp hempty) hne
  · have hindexed := (h.seek db.length).loadIndex
    refine ⟨.inr ⟨rfl, ?_⟩, hindexed.index, hindexed.header⟩
    exact hindexed.blocks.trans_ne (blockCount_ne_zero db)

theorem totalHeaderLength_pos : 0 < totalHeaderLength := Nat.succ_pos _

theorem loadHeader_loaded {o o' : Ip2region} {r : Bool} (h : Loaded db o) (hload : loadHeader db o = (r, o')) :
    Loaded db o' := by
  unfold loadHeader at hload
  by_cases hzero : o.headerLen = 0
  · rw [if_pos hzero] at hload
    by_cases hroom : 8 + totalHeaderLength ≤ db.length
    · rw [fread_of_le totalHeaderLength_pos hroom] at hload
      dsimp only at hload
      rw [show readHeader ((db.drop 8).take totalHeaderLength) = samples db from rfl] at hload
      generalize hsamples : samples db = header at hload
      cases hload
      refine ⟨h.bin, h.index, .inr ?_⟩
      rw [hsamples]
      exact ⟨rfl, rfl, rfl⟩
    · rw [fread_of_lt totalHeaderLength_pos (not_le.mp hroom)] at hload
      cases hload
      exact h.seek _
  · rw [if_neg hzero] at hload
    cases hload
    exact h

theorem memorySearch_loaded {malloc : ℕ → Bool} (hne : db ≠ []) {o o' : Ip2region} (h : Loaded db o) {ip : ℕ}
    {block : Datablock} {r : ℕ × Datablock} (hrun : memorySearch malloc db ip block o = some (r, o')) :
    Loaded db o' := by
  obtain ⟨⟨b, o₁⟩, hload, hrest⟩ := Option.bind_eq_some_iff.mp hrun
  have hloaded := loadBinStr_loaded hne h hload
  cases b with
  | false =>
    cases hrest
    exact hloaded
  | true =>
    obtain ⟨found, -, hrest⟩ := Option.bind_eq_some_iff.mp hrest
    split_ifs at hrest with hzero hroom
    · cases hrest
      exact hloaded
    · obtain ⟨b, -, hrest⟩ := Option.map_eq_some_iff.mp hrest
      cases hrest
      exact hloaded

theorem binarySearch_loaded {o o' : Ip2region} (h : Loaded db o) {ip : ℕ} {block : Datablock} {r : ℕ × Datablock}
    (hrun : binarySearch db ip block o = some (r, o')) : Loaded db o' := by
  unfold binarySearch at hrun
  match hload : loadSuper db o with
  | (false, o₁) =>
    rw [hload] at hrun
    cases hrun
    exact loadSuper_loaded h hload
  | (true, o₁) =>
    have hloaded := loadSuper_loaded h hload
    rw [hload] at hrun
    obtain ⟨⟨found, pos⟩, -, hrest⟩ := Option.bind_eq_some_iff.mp hrun
    cases found with
    | none =>
      cases hrest
      exact hloaded.seek _
    | some dptr =>
      obtain ⟨q, -, hrest⟩ := Option.map_eq_some_iff.mp hrest
      cases hrest
      exact hloaded.seek _

theorem btreeSearch_loaded {o o' : Ip2region} (h : Loaded db o) {ip : ℕ} {block : Datablock} {r : ℕ × Datablock}
    (hrun : btreeSearch db ip block o = some (r, o')) : Loaded db o' := by
  unfold btreeSearch at hrun
  match hload : loadHeader db o with
  | (false, o₁) =>
    rw [hload] at hrun
    cases hrun
    exact loadHeader_loaded h hload
  | (true, o₁) =>
    have hloaded := loadHeader_loaded h hload
    rw [hload] at hrun
    obtain ⟨found, -, hrest⟩ := Option.bind_eq_some_iff.mp hrun
    split_ifs at hrest with hzero
    · cases hrest
      exact hloaded
    · obtain ⟨q, -, hrest⟩ := Option.map_eq_some_iff.mp hrest
      cases hrest
      exact hloaded.seek _

/-- **After any lookups.** -/
theorem loaded_of_run {malloc : ℕ → Bool} (hne : db ≠ []) {lookups : List Lookup} {o : Ip2region}
    {outs : List (ℕ × Datablock)} (hrun : exec (searchStep malloc db) ip2regionCreate lookups = some (o, outs)) :
    Loaded db o := by
  refine exec_invariant (Loaded db) (fun o lookup r h hstep => ?_) lookups _ _ (loaded_create db) hrun
  cases lookup with
  | memory ip block =>
    obtain ⟨q, hq, rfl⟩ := Option.map_eq_some_iff.mp hstep
    exact memorySearch_loaded hne h hq
  | binary ip block =>
    obtain ⟨q, hq, rfl⟩ := Option.map_eq_some_iff.mp hstep
    exact binarySearch_loaded h hq
  | btree ip block =>
    obtain ⟨q, hq, rfl⟩ := Option.map_eq_some_iff.mp hstep
    exact btreeSearch_loaded h hq

/-! ## The binary search -/

theorem fillDatablock_take (b : List UInt8) (len : ℕ) (block : Datablock) :
    fillDatablock (b.take len) len block = fillDatablock b len block := by
  unfold fillDatablock
  by_cases hlen : len < 4
  · rw [if_pos hlen, if_pos hlen]
  · have hcity := @getUnsignedInt_take_drop b 0 len 0 (by omega)
    rw [List.drop_zero, Nat.add_zero] at hcity
    rw [if_neg hlen, if_neg hlen, hcity, List.drop_take, List.take_take, min_self]

theorem fillDatablock_drop {b : IndexBlock} (hlen : 4 ≤ dataLen b.dptr) (block : Datablock) :
    fillDatablock (db.drop (dataPtr b.dptr)) (dataLen b.dptr) block = some (blockData db b block) := by
  have hcity : getUnsignedInt (db.drop (dataPtr b.dptr)) 0 = getUnsignedInt db (dataPtr b.dptr) := by
    have hcity := @getUnsignedInt_take_drop db (dataPtr b.dptr) (db.length + 4) 0 (by omega)
    rwa [List.take_of_length_le (by rw [List.length_drop]; omega), Nat.add_zero] at hcity
  rw [fillDatablock, if_neg (not_lt.mpr hlen), hcity, List.drop_drop]
  rfl

theorem WellFormed.fetchData_block (hdb : WellFormed db) {i : ℕ} (hi : i < blockCount db) (block : Datablock)
    (pos : ℕ) :
    ∃ pos', fetchData db (indexBlock db i).dptr block pos = some ((1, blockData db (indexBlock db i) block), pos') := by
  obtain ⟨hlen, hroom⟩ := hdb.data i hi
  refine ⟨dataPtr (indexBlock db i).dptr + dataLen (indexBlock db i).dptr, ?_⟩
  rw [fetchData, if_neg (hdb.pointer i hi), fseek_of_nonneg (Int.natCast_nonneg _), Int.toNat_natCast,
    fread_of_le (by omega) hroom]
  dsimp only
  rw [fillDatablock_take, fillDatablock_drop hlen, Option.map_some]

theorem WellFormed.fetchData_answers (hdb : WellFormed db) {ip dptr : ℕ} (hfinds : Finds db ip dptr) (block : Datablock)
    (pos : ℕ) : ∃ r pos', fetchData db dptr block pos = some (r, pos') ∧ Answers db ip block r := by
  by_cases hex : ∃ i, i < blockCount db ∧ (indexBlock db i).Contains ip
  · obtain ⟨i, hi, hc⟩ := hex
    obtain ⟨pos', hfetch⟩ := hdb.fetchData_block hi block pos
    rw [hfinds.1 i hi hc]
    refine ⟨_, pos', hfetch, fun j hj hcj => ?_, fun hnone => absurd hc (hnone i hi)⟩
    rw [hdb.contains_unique hj hi hcj hc]
  · have hnone : ∀ i < blockCount db, ¬ (indexBlock db i).Contains ip := fun i hi hc => hex ⟨i, hi, hc⟩
    rw [hfinds.2 hnone, fetchData, if_pos rfl]
    exact ⟨_, pos, rfl, fun i hi hc => absurd hc (hnone i hi), fun _ => rfl⟩

theorem WellFormed.answers_of_finds_zero (hdb : WellFormed db) {ip : ℕ} (hfinds : Finds db ip 0) (block : Datablock) :
    Answers db ip block (0, block) := by
  obtain ⟨r, pos', hfetch, hanswers⟩ := hdb.fetchData_answers hfinds block 0
  rw [fetchData, if_pos rfl] at hfetch
  cases hfetch
  exact hanswers

theorem i32_blockOffset {first m : ℕ} (hint : first + m * indexBlockLength < 2 ^ 31) :
    i32 ((first : ℤ) + (m : ℤ) * (indexBlockLength : ℤ)) = ((first + m * indexBlockLength : ℕ) : ℤ) := by
  have hcast : (first : ℤ) + (m : ℤ) * (indexBlockLength : ℤ) = ((first + m * indexBlockLength : ℕ) : ℤ) := by
    push_cast
    rfl
  rw [hcast, i32_of_range (by omega) (by exact_mod_cast hint)]

theorem WellFormed.binaryProbe_block (hdb : WellFormed db) (ip : ℕ) {m : ℕ} (hm : m < blockCount db)
    (hint : firstIndex db + m * indexBlockLength < 2 ^ 31) (pos : ℕ) :
    binaryProbe db (firstIndex db) ip m pos = some (((indexBlock db m).compare ip).map some,
      firstIndex db + m * indexBlockLength + indexBlockLength) := by
  rw [binaryProbe, i32_blockOffset hint, fseek_of_nonneg (Int.natCast_nonneg _), Int.toNat_natCast,
    fread_of_le (by decide) (hdb.block_end hm)]
  dsimp only
  rw [readBlock_take_drop (by omega)]
  rfl

theorem WellFormed.bisect_binaryProbe (hdb : WellFormed db) (hint : lastIndex db < 2 ^ 31) (ip pos : ℕ) :
    ∃ found pos', bisect (binaryProbe db (firstIndex db) ip) (some 0) 0 (blockCount db) pos = some (found, pos') ∧
      Finds db ip (found.getD 0) := by
  obtain ⟨hpos, hend⟩ := hdb.count
  have hlast := hdb.lastIndex_eq
  refine bisect_rule (I := fun l h pos => 0 ≤ l ∧ h ≤ blockCount db ∧ (l = blockCount db → pos = db.length) ∧
      ∀ i < blockCount db, (indexBlock db i).Contains ip → l ≤ i ∧ i ≤ h)
    (Q := fun r => ∃ (found : Option ℕ) (pos' : ℕ), r = some (found, pos') ∧ Finds db ip (found.getD 0)) ?_ ?_ ?_
  · rintro l h pos hlh ⟨hl, hh, heof, hin⟩
    obtain ⟨m, hm⟩ : ∃ m : ℕ, (l + h) / 2 = m := ⟨((l + h) / 2).toNat, by omega⟩
    rw [hm]
    by_cases hmn : m < blockCount db
    · have hsteers := hdb.compare_steers ip hmn
      rw [hdb.binaryProbe_block ip hmn (by unfold indexBlockLength at *; omega)]
      cases hmove : (indexBlock db m).compare ip with
      | left =>
        rw [hmove] at hsteers
        refine ⟨hl, by omega, fun hln => by omega, fun i hi hc => ⟨(hin i hi hc).1, ?_⟩⟩
        have := hsteers i hi hc
        omega
      | right =>
        rw [hmove] at hsteers
        refine ⟨by omega, hh, fun hln => ?_, fun i hi hc => ⟨?_, (hin i hi hc).2⟩⟩
        · unfold indexBlockLength at *
          omega
        · have := hsteers i hi hc
          omega
      | stop dptr =>
        rw [hmove] at hsteers
        exact ⟨_, _, rfl, hsteers⟩
    · -- the block past the index: the file ends there
      have hln : l = blockCount db := by omega
      have hseek : fseek pos (i32 (firstIndex db + m * indexBlockLength)) = db.length := by
        have hmn' : m = blockCount db := by omega
        have hp : (firstIndex db : ℤ) + (m : ℤ) * (indexBlockLength : ℤ) = (db.length : ℕ) := by
          rw [hmn', ← hend]
          push_cast
          rfl
        rw [hp, heof hln, fseek_self (by unfold indexBlockLength at *; omega)]
      have hshort : binaryProbe db (firstIndex db) ip m pos = some (.stop none, db.length) := by
        rw [binaryProbe, hseek, fread_of_lt (by decide) (by unfold indexBlockLength; omega), max_self]
      rw [hshort]
      refine ⟨none, _, rfl, fun i hi hc => ?_, fun _ => rfl⟩
      have := (hin i hi hc).1
      omega
  · rintro l h pos hlh ⟨hl, hh, heof, hin⟩
    refine ⟨some 0, pos, rfl, fun i hi hc => ?_, fun _ => rfl⟩
    have := hin i hi hc
    omega
  · exact ⟨le_rfl, le_rfl, fun h => by omega, fun i hi _ => by omega⟩

theorem WellFormed.loadSuper_spec (hdb : WellFormed db) {o : Ip2region} (h : Loaded db o) :
    ∃ o', loadSuper db o = (true, o') ∧ Indexed db o' := by
  have hlength := hdb.length
  unfold loadSuper
  by_cases hzero : o.totalBlocks = 0
  · rw [if_pos hzero, fread_of_le (by decide) (by unfold indexBlockLength at hlength; omega)]
    dsimp only
    rw [List.drop_zero, loadIndex_take le_rfl]
    exact ⟨_, rfl, (h.seek _).loadIndex⟩
  · rw [if_neg hzero]
    exact ⟨o, rfl, h.indexed hzero⟩

/-- **The binary search answers**, when the offsets of the index are `int`s. -/
theorem WellFormed.binarySearch_answers (hdb : WellFormed db) (hint : lastIndex db < 2 ^ 31) {o : Ip2region}
    (h : Loaded db o) (ip : ℕ) (block : Datablock) :
    ∃ r o', binarySearch db ip block o = some (r, o') ∧ Answers db ip block r := by
  obtain ⟨o₁, hload, hindexed⟩ := hdb.loadSuper_spec h
  obtain ⟨found, pos, hfound, hfinds⟩ := hdb.bisect_binaryProbe hint ip o₁.dbHandler
  rw [binarySearch, hload]
  dsimp only
  rw [hindexed.blocks, hindexed.first, hfound, Option.bind_some]
  cases found with
  | none => exact ⟨_, _, rfl, hdb.answers_of_finds_zero hfinds block⟩
  | some dptr =>
    have hfinds' : Finds db ip dptr := hfinds
    obtain ⟨r, pos', hfetch, hanswers⟩ := hdb.fetchData_answers hfinds' block pos
    dsimp only
    rw [hfetch, Option.map_some]
    exact ⟨r, _, rfl, hanswers⟩

end Sarah
