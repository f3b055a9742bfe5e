import SarahClient.Disk.Model
import SarahClient.Hashmap.Refine

/-!
# The disk statistics of the smartdisk application

* `countDisks`: the counting pass of a round; `selectDisk`: the test for automatic partitioning;
* `RoundMap`: the maps that a round can start with;
* `tally`: what the pass makes of the entries of one WWN;
* **`countsInAnyOrder_iff`**: when the counts are the numbers of partitions, in every order of the list.
-/

namespace Sarah

open Heap List

/-! ## The counting pass -/

section Pass

variable (mem : ℕ → Bool) (malloc : Malloc (HashNode ℤ)) (disks : ℕ → SarahDisk)

/-- The WWN of the disk at an address; the address stands for the pointer to it. -/
def wwnAt (disk : ℕ) : List UInt8 := (disks disk).wwn

/-- The body of the statistics loop. -/
def countDisk (map : HashMap ℤ) (disk : ℕ) : Option (HashMap ℤ) :=
  (celIhashmapExists (wwnAt disks) map disk).bind fun e =>
    if e = 1 then
      if -1 < (disks disk).partNo then (celIhashmapInc (wwnAt disks) map disk 1).map Prod.snd else some map
    else
      (celIhashmapPut mem (wwnAt disks) malloc map disk (if (disks disk).partNo = -1 then 0 else 1)).map Prod.snd

/-- The disk statistics of a round over the nodes of `disk_list`. -/
def countDisks (map : HashMap ℤ) (list : List ℕ) : Option (HashMap ℤ) :=
  (celIhashmapClear map).bind fun r => list.foldlM (countDisk mem malloc disks) r.2

/-- The disk is to be partitioned, with `auto_partition` on. -/
def selectDisk (map : HashMap ℤ) (disk : ℕ) : Option Bool :=
  if (disks disk).partNo = -1 ∧ (disks disk).format.length = 0 then
    (celIhashmapExists (wwnAt disks) map disk).bind fun e =>
      if e = 1 then (celIhashmapGet (wwnAt disks) map disk).map fun n => decide (n = 0) else some false
  else some false

end Pass

/-- The map of a round: a new one, or the one that the round before leaves, with the disks freed. -/
inductive RoundMap (malloc : Malloc (HashNode ℤ)) : HashMap ℤ → Prop
  | init {mem : ℕ → Bool} {m₀ m : HashMap ℤ} {factor : Factor} (h : celHashmapInit mem m₀ 16 factor = (1, m)) :
    RoundMap malloc m
  | round {mem : ℕ → Bool} {disks : ℕ → SarahDisk} {list : List ℕ} {m m' : HashMap ℤ} (h : RoundMap malloc m)
    (hrun : countDisks mem malloc disks m list = some m') : RoundMap malloc m'

/-- The entries of the WWN with a `part_no` other than -1. -/
def partitionCount (wwn : List UInt8) (list : List SarahDisk) : ℕ :=
  list.countP fun disk => disk.wwn = wwn ∧ disk.partNo ≠ -1

/-- **The counts in any order**: in every order of the list the map has the number of partitions of each WWN, and
the same disks are selected. -/
def CountsInAnyOrder (malloc : Malloc (HashNode ℤ)) (disks : ℕ → SarahDisk) (list : List ℕ) : Prop :=
  ∃ selected : Set ℕ, ∀ (mem : ℕ → Bool) (m : HashMap ℤ), RoundMap malloc m → ∀ order : List ℕ, order.Perm list →
    ∃ m', countDisks mem malloc disks m order = some m' ∧
      (∀ disk, celIhashmapGet (wwnAt disks) m' disk = some (partitionCount (wwnAt disks disk) (list.map disks) : ℤ)) ∧
      ∀ disk, disk ∈ selected ↔ disk ∈ order ∧ selectDisk disks m' disk = some true

/-- An entry with a `part_no` below -1 is alone with its WWN, and an `int` holds the numbers of partitions. -/
structure PlainPartNumbers (list : List SarahDisk) : Prop where
  alone : ∀ disk ∈ list, disk.partNo < -1 → list.countP (fun d => d.wwn = disk.wwn) = 1
  few : ∀ wwn, partitionCount wwn list < 2 ^ 31

/-! ## One WWN -/

/-- What an entry does to the value of a WWN; `none` is a WWN that is not in the map. -/
def tallyStep (wwn : List UInt8) (value : Option ℤ) (disk : SarahDisk) : Option ℤ :=
  if disk.wwn = wwn then
    match value with
    | none => some (if disk.partNo = -1 then 0 else 1)
    | some n => some (if -1 < disk.partNo then i32 (n + 1) else n)
  else value

/-- The value after all entries of the list. -/
def tally (wwn : List UInt8) (list : List SarahDisk) : Option ℤ := list.foldl (tallyStep wwn) none

section Tally

variable {wwn : List UInt8} {disk : SarahDisk} {list : List SarahDisk}

theorem i32_i32_add (n k : ℤ) : i32 (i32 n + k) = i32 (n + k) := by
  unfold i32
  omega

theorem tally_some (wwn : List UInt8) (list : List SarahDisk) (n : ℤ) :
    list.foldl (tallyStep wwn) (some (i32 n)) =
      some (i32 (n + (list.countP fun d => d.wwn = wwn ∧ -1 < d.partNo : ℕ))) := by
  induction list generalizing n with
  | nil => rw [foldl_nil, countP_nil, Nat.cast_zero, add_zero]
  | cons d list ih =>
    rw [foldl_cons, tallyStep, countP_cons]
    by_cases hcounts : d.wwn = wwn ∧ -1 < d.partNo
    · rw [if_pos hcounts.1]
      simp only [hcounts, and_self, decide_true, if_true]
      rw [i32_i32_add, ih]
      push_cast
      rw [add_assoc, add_comm 1]
    · have hkeep : (if d.wwn = wwn then some (if -1 < d.partNo then i32 (i32 n + 1) else i32 n) else some (i32 n)) =
          some (i32 n) := by
        split_ifs with hwwn hpart
        · exact absurd ⟨hwwn, hpart⟩ hcounts
        · rfl
        · rfl
      simp only [hkeep, ih, hcounts, decide_false, Bool.false_eq_true, if_false, add_zero]

theorem tally_cons_of_ne (h : disk.wwn ≠ wwn) : tally wwn (disk :: list) = tally wwn list := by
  rw [tally, foldl_cons, tallyStep, if_neg h]
  rfl

/-- The partitions that the pass misses behind the first entry. -/
def missed (wwn : List UInt8) (list : List SarahDisk) : ℕ := list.countP fun d => d.wwn = wwn ∧ d.partNo < -1

theorem countP_partitions (wwn : List UInt8) (list : List SarahDisk) :
    partitionCount wwn list = (list.countP fun d => d.wwn = wwn ∧ -1 < d.partNo) + missed wwn list := by
  unfold partitionCount missed
  induction list with
  | nil => rfl
  | cons d list ih =>
    simp only [countP_cons, ih, decide_eq_true_eq]
    have hsplit : (if d.wwn = wwn ∧ d.partNo ≠ -1 then 1 else 0) =
        (if d.wwn = wwn ∧ -1 < d.partNo then 1 else 0) + (if d.wwn = wwn ∧ d.partNo < -1 then 1 else 0) := by
      by_cases hwwn : d.wwn = wwn
      · simp only [hwwn, true_and]
        split_ifs <;> omega
      · simp only [hwwn, false_and, if_false]
    omega

/-- **The value of a WWN**, from its first entry on. -/
theorem tally_cons (h : disk.wwn = wwn) :
    tally wwn (disk :: list) = some (i32 (partitionCount wwn (disk :: list) - missed wwn list)) := by
  have hfirst : partitionCount wwn (disk :: list) = partitionCount wwn list + if disk.partNo = -1 then 0 else 1 := by
    unfold partitionCount
    rw [countP_cons]
    simp only [h, true_and, decide_eq_true_eq, ite_not]
  have hvalue : (if disk.partNo = -1 then (0 : ℤ) else 1) = i32 (if disk.partNo = -1 then 0 else 1) := by
    split_ifs <;> decide
  rw [tally, foldl_cons, tallyStep, if_pos h]
  rw [hvalue, tally_some, hfirst, countP_partitions wwn list]
  congr 2
  push_cast
  omega

theorem missed_eq_zero (h : ∀ d ∈ list, d.partNo < -1 → d.wwn ≠ wwn) : missed wwn list = 0 := by
  refine countP_eq_zero.mpr fun d hd hmissed => ?_
  rw [decide_eq_true_eq] at hmissed
  exact h d hd hmissed.2 hmissed.1

theorem tally_lt (wwn : List UInt8) (list : List SarahDisk) : (tally wwn list).getD 0 < 2 ^ 31 := by
  induction list with
  | nil => exact (by decide : (0 : ℤ) < 2 ^ 31)
  | cons d list ih =>
    by_cases hwwn : d.wwn = wwn
    · rw [tally_cons hwwn]
      exact (i32_range _).2
    · rwa [tally_cons_of_ne hwwn]

theorem tally_ne_count (h : disk.wwn = wwn) (hfew : partitionCount wwn (disk :: list) < 2 ^ 31)
    (hmissed : 0 < missed wwn list) : (tally wwn (disk :: list)).getD 0 ≠ partitionCount wwn (disk :: list) := by
  have hle : missed wwn list ≤ partitionCount wwn (disk :: list) := by
    have hcons : partitionCount wwn list ≤ partitionCount wwn (disk :: list) :=
      (sublist_cons_self disk list).countP_le
    have := countP_partitions wwn list
    omega
  have hvalue : i32 (partitionCount wwn (disk :: list) - missed wwn list) =
      partitionCount wwn (disk :: list) - missed wwn list := i32_of_range (by omega) (by omega)
  rw [tally_cons h, Option.getD_some, hvalue]
  omega

theorem tally_eq_count (hfew : partitionCount wwn list < 2 ^ 31)
    (halone : ∀ d ∈ list, d.partNo < -1 → d.wwn = wwn → list.countP (fun d => d.wwn = wwn) = 1) :
    (tally wwn list).getD 0 = partitionCount wwn list := by
  induction list with
  | nil => rfl
  | cons d list ih =>
    by_cases hwwn : d.wwn = wwn
    · have hnone : missed wwn list = 0 := missed_eq_zero fun e he hpart hsame => by
        have hone := halone e (mem_cons_of_mem d he) hpart hsame
        have hpos : 0 < list.countP fun d => d.wwn = wwn := countP_pos_iff.mpr ⟨e, he, decide_eq_true hsame⟩
        rw [countP_cons, if_pos (decide_eq_true hwwn)] at hone
        omega
      rw [tally_cons hwwn, hnone, Nat.cast_zero, sub_zero, Option.getD_some]
      exact i32_of_range (by omega) (by omega)
    · have hcount : partitionCount wwn (d :: list) = partitionCount wwn list :=
        countP_cons_of_neg (by simp [hwwn])
      rw [tally_cons_of_ne hwwn, hcount]
      refine ih (hcount ▸ hfew) fun e he hpart hsame => ?_
      have hone := halone e (mem_cons_of_mem d he) hpart hsame
      rwa [countP_cons_of_neg (by simp [hwwn])] at hone

end Tally

/-! ## The pass on the map -/

section Calls

variable {malloc : Malloc (HashNode ℤ)} {str : ℕ → List UInt8} {m : HashMap ℤ} {M : StrMap ℤ}

theorem celIhashmapExists_eq (hmalloc : malloc.Total) (hM : m.Keeps str M) (key : ℕ) :
    celIhashmapExists str m key = some (if (M.lookup (str key)).isSome then 1 else 0) := by
  rw [celIhashmapExists, celHashmapExists]
  rcases hM.cases (fun _ => true) hmalloc key with ⟨hnone, ⟨q, hq⟩, -⟩ | ⟨v, prev, e, hsome, hfind, hne, -⟩
  · rw [hq, hnone]
    rfl
  · rw [hfind, hsome, Option.map_some, if_neg hne]
    rfl

theorem celIhashmapGet_eq (hmalloc : malloc.Total) (hM : m.Keeps str M) (key : ℕ) :
    celIhashmapGet str m key = some ((M.lookup (str key)).getD 0) := by
  rw [celIhashmapGet, celHashmapGet]
  rcases hM.cases (fun _ => true) hmalloc key with ⟨hnone, ⟨q, hq⟩, -⟩ | ⟨v, prev, e, hsome, hfind, hne, hread, -⟩
  · rw [hq, hnone]
    rfl
  · rw [hfind, hsome, Option.bind_some, if_neg hne, hread]
    rfl

variable {disks : ℕ → SarahDisk}

theorem countDisk_keeps (mem : ℕ → Bool) (hmalloc : malloc.Total) (hM : m.Keeps (wwnAt disks) M) (disk : ℕ) :
    ∃ m' M', countDisk mem malloc disks m disk = some m' ∧ m'.Keeps (wwnAt disks) M' ∧
      ∀ wwn, M'.lookup wwn = tallyStep wwn (M.lookup wwn) (disks disk) := by
  have hexists := celIhashmapExists_eq hmalloc hM disk
  have hother : ∀ (n : ℤ) (wwn : List UInt8), wwnAt disks disk ≠ wwn →
      (M.insert (wwnAt disks disk) n).lookup wwn = tallyStep wwn (M.lookup wwn) (disks disk) := fun n wwn hne =>
    (Finmap.lookup_insert_of_ne M hne.symm).trans (if_neg hne).symm
  rw [countDisk, hexists, Option.bind_some]
  rcases hM.cases mem hmalloc disk with ⟨hnone, ⟨q, hq⟩, hadd⟩ | ⟨v, prev, e, hsome, hfind, hne, -, hupd⟩
  · obtain ⟨m', hrun, hM'⟩ := hadd (if (disks disk).partNo = -1 then 0 else 1)
    refine ⟨m', _, ?_, hM', fun wwn => ?_⟩
    · rw [hnone, if_neg (by decide), celIhashmapPut, hq, Option.bind_some, if_neg (by simp), hrun]
      rfl
    · by_cases hwwn : wwnAt disks disk = wwn
      · rw [← hwwn, Finmap.lookup_insert, hnone]
        exact (if_pos rfl).symm
      · exact hother _ wwn hwwn
  · rw [hsome, Option.isSome_some, if_pos rfl, if_pos rfl]
    split_ifs with hpart
    · obtain ⟨m', hrun, hM'⟩ := hupd fun num => i32 (num + 1)
      refine ⟨m', _, ?_, hM', fun wwn => ?_⟩
      · rw [celIhashmapInc, replaceNum, hfind, Option.bind_some, if_neg hne, hrun]
        rfl
      · by_cases hwwn : wwnAt disks disk = wwn
        · rw [← hwwn, Finmap.lookup_insert, hsome, tallyStep,
            if_pos (show (disks disk).wwn = wwnAt disks disk from rfl)]
          exact congrArg some (if_pos hpart).symm
        · exact hother _ wwn hwwn
    · refine ⟨m, M, rfl, hM, fun wwn => ?_⟩
      by_cases hwwn : wwnAt disks disk = wwn
      · rw [← hwwn, hsome, tallyStep, if_pos (show (disks disk).wwn = wwnAt disks disk from rfl)]
        exact congrArg some (if_neg hpart).symm
      · exact (if_neg hwwn).symm

theorem foldlM_countDisk (mem : ℕ → Bool) (hmalloc : malloc.Total) (list : List ℕ) (hM : m.Keeps (wwnAt disks) M) :
    ∃ m' M', list.foldlM (countDisk mem malloc disks) m = some m' ∧ m'.Keeps (wwnAt disks) M' ∧
      ∀ wwn, M'.lookup wwn = (list.map disks).foldl (tallyStep wwn) (M.lookup wwn) := by
  induction list generalizing m M with
  | nil => exact ⟨m, M, rfl, hM, fun _ => rfl⟩
  | cons disk list ih =>
    obtain ⟨m₁, M₁, hrun₁, hM₁, hlook₁⟩ := countDisk_keeps mem hmalloc hM disk
    obtain ⟨m', M', hrun, hM', hlook⟩ := ih hM₁
    refine ⟨m', M', ?_, hM', fun wwn => ?_⟩
    · rw [foldlM_cons, hrun₁]
      exact hrun
    · rw [hlook, hlook₁]
      rfl

/-- **The pass leaves the tally of every WWN.** -/
theorem countDisks_tally (hmalloc : malloc.Total) (mem : ℕ → Bool) (disks : ℕ → SarahDisk) (hM : m.Keeps str M)
    (list : List ℕ) :
    ∃ m' M', countDisks mem malloc disks m list = some m' ∧ m'.Keeps (wwnAt disks) M' ∧
      ∀ wwn, M'.lookup wwn = tally wwn (list.map disks) := by
  obtain ⟨vs, m₀, hclear, hM₀⟩ := celHashmapClear_keeps hM false (wwnAt disks)
  obtain ⟨m', M', hrun, hM', hlook⟩ := foldlM_countDisk mem hmalloc list hM₀
  refine ⟨m', M', ?_, hM', fun wwn => ?_⟩
  · rw [countDisks, celIhashmapClear, hclear]
    exact hrun
  · rw [hlook, Finmap.lookup_empty]
    rfl

theorem RoundMap.keeps (hmalloc : malloc.Total) (h : RoundMap malloc m) : ∃ str M, m.Keeps str M := by
  induction h with
  | init h => exact ⟨fun _ => [], ∅, celHashmapInit_keeps (by decide) h _⟩
  | @round mem disks list m m' _ hrun ih =>
    obtain ⟨str, M, hM⟩ := ih
    obtain ⟨m₁, M', hrun₁, hM', -⟩ := countDisks_tally hmalloc mem disks hM list
    rw [hrun, Option.some.injEq] at hrun₁
    exact ⟨_, M', hrun₁ ▸ hM'⟩

/-- `cel_ihashmap_init( &disk_map, 16, 0.85 )` -/
def initDiskMap : ℤ × HashMap ℤ :=
  celHashmapInit (fun _ => true) ⟨∅, [], 0, 0, 0, ⟨fun _ => 0, fun _ => Nat.zero_le _⟩⟩ 16
    ⟨fun n => min (n * 85 / 100) (2 ^ 32 - 256), fun _ => min_le_right _ _⟩

theorem roundMap_new (malloc : Malloc (HashNode ℤ)) : RoundMap malloc initDiskMap.2 := by
  have hinit : initDiskMap = (1, initDiskMap.2) := Prod.ext rfl rfl
  exact .init hinit

end Calls

/-! ## Every order -/

theorem partitionCount_perm {l l' : List SarahDisk} (h : l.Perm l') (wwn : List UInt8) :
    partitionCount wwn l = partitionCount wwn l' := h.countP_eq _

theorem PlainPartNumbers.perm {l l' : List SarahDisk} (hplain : PlainPartNumbers l) (h : l.Perm l') :
    PlainPartNumbers l' := by
  refine ⟨fun disk hdisk hpart => ?_, fun wwn => partitionCount_perm h wwn ▸ hplain.few wwn⟩
  rw [← h.countP_eq]
  exact hplain.alone disk (h.mem_iff.mpr hdisk) hpart

theorem PlainPartNumbers.tally_eq {list : List SarahDisk} (h : PlainPartNumbers list) (wwn : List UInt8) :
    (tally wwn list).getD 0 = partitionCount wwn list := by
  refine tally_eq_count (h.few wwn) fun d hd hpart hwwn => ?_
  have halone := h.alone d hd hpart
  rwa [hwwn] at halone

theorem tally_isSome {disk : SarahDisk} {list : List SarahDisk} (h : disk ∈ list) : (tally disk.wwn list).isSome := by
  induction list with
  | nil => cases h
  | cons d list ih =>
    by_cases hwwn : d.wwn = disk.wwn
    · rw [tally_cons hwwn]
      rfl
    · rw [tally_cons_of_ne hwwn]
      refine ih ((mem_cons.mp h).resolve_left fun heq => hwwn ?_)
      rw [heq]

theorem selectDisk_iff {malloc : Malloc (HashNode ℤ)} (hmalloc : malloc.Total) {disks : ℕ → SarahDisk} {order : List ℕ}
    {m : HashMap ℤ} {M : StrMap ℤ} (hM : m.Keeps (wwnAt disks) M)
    (hlook : ∀ wwn, M.lookup wwn = tally wwn (order.map disks)) (hplain : PlainPartNumbers (order.map disks))
    {disk : ℕ} (hdisk : disk ∈ order) :
    selectDisk disks m disk = some true ↔ ((disks disk).partNo = -1 ∧ (disks disk).format.length = 0) ∧
      partitionCount (disks disk).wwn (order.map disks) = 0 := by
  rw [selectDisk]
  by_cases hwhole : (disks disk).partNo = -1 ∧ (disks disk).format.length = 0
  · have hthere : (M.lookup (wwnAt disks disk)).isSome := by
      rw [hlook]
      exact tally_isSome (mem_map_of_mem hdisk)
    rw [if_pos hwhole, celIhashmapExists_eq hmalloc hM, celIhashmapGet_eq hmalloc hM, if_pos hthere, Option.bind_some,
      if_pos rfl, Option.map_some, hlook, hplain.tally_eq, Option.some.injEq, decide_eq_true_eq, Nat.cast_eq_zero]
    exact (and_iff_right hwhole).symm
  · rw [if_neg hwhole]
    exact iff_of_false (by decide) fun h => hwhole h.1

/-- A count below `2 ^ 31` for the names that occur is one for all names. -/
theorem partitionCount_lt {disks : ℕ → SarahDisk} {list : List ℕ}
    (h : ∀ disk, partitionCount (wwnAt disks disk) (list.map disks) < 2 ^ 31) (wwn : List UInt8) :
    partitionCount wwn (list.map disks) < 2 ^ 31 := by
  by_cases hin : ∃ disk, wwnAt disks disk = wwn
  · obtain ⟨disk, rfl⟩ := hin
    exact h disk
  · have hnone : partitionCount wwn (list.map disks) = 0 := by
      refine countP_eq_zero.mpr fun d hd hmatch => hin ?_
      obtain ⟨disk, -, rfl⟩ := mem_map.mp hd
      rw [decide_eq_true_eq] at hmatch
      exact ⟨disk, hmatch.1⟩
    omega

theorem exists_order_behind {disks : ℕ → SarahDisk} {list : List ℕ} {disk : ℕ} (hdisk : disk ∈ list)
    (hshared : (list.map disks).countP (fun d => d.wwn = (disks disk).wwn) ≠ 1) :
    ∃ other rest, (disks other).wwn = (disks disk).wwn ∧ (other :: disk :: rest).Perm list := by
  have hperm := perm_cons_erase hdisk
  have hother : 0 < ((list.erase disk).map disks).countP fun d => d.wwn = (disks disk).wwn := by
    rw [(hperm.map disks).countP_eq, map_cons, countP_cons, if_pos (decide_eq_true rfl)] at hshared
    omega
  obtain ⟨d, hd, hsame⟩ := countP_pos_iff.mp hother
  obtain ⟨other, hother, rfl⟩ := mem_map.mp hd
  refine ⟨other, (list.erase disk).erase other, of_decide_eq_true hsame, ?_⟩
  exact (Perm.swap disk other _).trans (((perm_cons_erase hother).symm.cons disk).trans hperm.symm)

/-- **Partitions are counted alike in every order** exactly when the part numbers are plain. -/
theorem countsInAnyOrder_iff {malloc : Malloc (HashNode ℤ)} (hmalloc : malloc.Total) (disks : ℕ → SarahDisk)
    (list : List ℕ) : CountsInAnyOrder malloc disks list ↔ PlainPartNumbers (list.map disks) := by
  constructor
  · rintro ⟨selected, h⟩
    obtain ⟨str, M, hM⟩ := (roundMap_new malloc).keeps hmalloc
    have hcount : ∀ order : List ℕ, order.Perm list → ∀ disk,
        (tally (wwnAt disks disk) (order.map disks)).getD 0 = partitionCount (wwnAt disks disk) (order.map disks) := by
      intro order horder disk
      obtain ⟨m', hrun, hget, -⟩ := h (fun _ => true) _ (roundMap_new malloc) order horder
      obtain ⟨m₁, M₁, hrun₁, hM₁, hlook₁⟩ := countDisks_tally hmalloc (fun _ => true) disks hM order
      rw [hrun, Option.some.injEq] at hrun₁
      have hvalue := hget disk
      rw [hrun₁, celIhashmapGet_eq hmalloc hM₁, hlook₁, Option.some.injEq] at hvalue
      rw [hvalue, partitionCount_perm (horder.map disks)]
    have hfew : ∀ wwn, partitionCount wwn (list.map disks) < 2 ^ 31 := by
      refine partitionCount_lt fun disk => ?_
      have hlt := tally_lt (wwnAt disks disk) (list.map disks)
      rw [hcount list (Perm.refl list) disk] at hlt
      omega
    refine ⟨fun d hd hpart => ?_, hfew⟩
    obtain ⟨disk, hdisk, rfl⟩ := mem_map.mp hd
    by_contra hshared
    -- the pass that comes to another entry first misses the count of this one
    obtain ⟨other, rest, hsame, horder⟩ := exists_order_behind hdisk hshared
    have hmissed : 0 < missed (disks disk).wwn ((disk :: rest).map disks) :=
      countP_pos_iff.mpr ⟨disks disk, mem_map_of_mem mem_cons_self, decide_eq_true ⟨rfl, hpart⟩⟩
    refine tally_ne_count hsame ?_ hmissed (hcount _ horder disk)
    exact (partitionCount_perm (horder.map disks) _).trans_lt (hfew _)
  · intro hplain
    refine ⟨{disk | disk ∈ list ∧ ((disks disk).partNo = -1 ∧ (disks disk).format.length = 0) ∧
      partitionCount (disks disk).wwn (list.map disks) = 0}, fun mem m hm order horder => ?_⟩
    obtain ⟨str, M, hM⟩ := hm.keeps hmalloc
    obtain ⟨m', M', hrun, hM', hlook⟩ := countDisks_tally hmalloc mem disks hM order
    have hplain' : PlainPartNumbers (order.map disks) := hplain.perm (horder.map disks).symm
    refine ⟨m', hrun, fun disk => ?_, fun disk => ?_⟩
    · rw [celIhashmapGet_eq hmalloc hM', hlook, hplain'.tally_eq, partitionCount_perm (horder.map disks)]
    · rw [Set.mem_ofPred_eq, ← horder.mem_iff, ← partitionCount_perm (horder.map disks)]
      exact and_congr_right fun hdisk => (selectDisk_iff hmalloc hM' hlook hplain' hdisk).symm

/-- A disk and its first partition. -/
def sdaDisks (disk : ℕ) : SarahDisk where
  wwn := lit "5000"
  name := if disk = 1 then lit "/dev/sda" else lit "/dev/sda1"
  partNo := if disk = 1 then -1 else 1

theorem countsInAnyOrder_iff_sda : CountsInAnyOrder Malloc.bump sdaDisks [1, 2] := by
  refine (countsInAnyOrder_iff Malloc.bump_total sdaDisks [1, 2]).mpr ⟨by decide, fun wwn => ?_⟩
  exact countP_le_length.trans_lt (by decide)

/-- `/dev/sda` and `/dev/sda4294967294`, whose number reads as -2. -/
def wrappedDisks (disk : ℕ) : SarahDisk :=
  { wwn := lit "5000", name := if disk = 1 then lit "/dev/sda" else lit "/dev/sda4294967294",
    partNo := if disk = 1 then -1 else -2 }

theorem not_countsInAnyOrder : ¬ CountsInAnyOrder Malloc.bump wrappedDisks [1, 2] := by
  rintro ⟨selected, h⟩
  obtain ⟨m', hrun, hget, -⟩ := h (fun _ => true) _ (roundMap_new Malloc.bump) [1, 2] (Perm.refl _)
  have hzero : (countDisks (fun _ => true) Malloc.bump wrappedDisks initDiskMap.2 [1, 2]).bind
      (fun m => celIhashmapGet (wwnAt wrappedDisks) m 1) = some 0 := by decide +kernel
  rw [hrun, Option.bind_some, hget 1] at hzero
  exact absurd hzero (by decide)

end Sarah
