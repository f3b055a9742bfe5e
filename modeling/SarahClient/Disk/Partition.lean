import SarahClient.CInt
import SarahClient.Lib.Block
import Mathlib.Data.List.Chain
import Mathlib.Logic.Function.Iterate

/-!
# The partition planner (`app_smartdisk.c`, `disk.c`)

A disk is planned as partitions of 2 TBytes. The number of partitions is counted with the stride `offset`, and the
partitions are laid out with the stride `offset + 1`.

* `DiskPartition`, `getDiskPartitionsByOffset`: the planner; `none` where the code writes outside the array, where the
  counter is no `int`, and where the fuel of the counting loop is used up;
* `mkpartCmd`: the command that makes a partition; `DiskPartition.isRest`: it is told to take the rest of the disk;
* `Planned`: the partitions cover the disk; `layout_eq`: what the planner writes;
* **`planner_iff`**: they do exactly when the disk has one to `2 ^ 32` blocks.
-/

namespace Sarah

open Block

/-- `sarah_disk_partition_t`. -/
structure DiskPartition where
  start : UInt64
  blocks : UInt64
  format : List UInt8
deriving DecidableEq

/-- The blocks of 2 TBytes. -/
def planOffset : UInt64 := 4294967296

/-- The loop that counts the partitions. -/
def countPartitions (pBlocks : UInt64) : ℕ → UInt64 → ℕ → Option ℕ
  | 0, _, _ => none
  | fuel + 1, cur, partNum =>
    if cur < pBlocks then
      -- `part_num++`
      if partNum + 1 < 2 ^ 31 then countPartitions pBlocks fuel (cur + planOffset) (partNum + 1) else none
    else some partNum

/-- The loop that fills the `n` entries from `i` on, with `cur` after it. -/
def fillPartitions : ℕ → ℕ → UInt64 → List (Option DiskPartition) → Option (List (Option DiskPartition) × UInt64)
  | 0, _, cur, partitions => some (partitions, cur)
  | n + 1, i, cur, partitions =>
    (store partitions i (some ⟨cur, planOffset, lit "ext4"⟩)).bind
      (fillPartitions n (i + 1) (cur + (planOffset + 1)))

/-- `_get_disk_partitions_by_offset`: the array behind `ptr`, with `NULL` for an entry that is not filled. -/
def getDiskPartitionsByOffset (fuel : ℕ) (pBlocks : UInt64) : Option (List (Option DiskPartition)) :=
  (countPartitions pBlocks fuel 0 0).bind fun partNum =>
    (fillPartitions (partNum - 1) 0 0 (List.replicate partNum none)).bind fun r =>
      -- the index `part_num - 1` is negative without partitions
      if partNum = 0 then none
      else store r.1 (partNum - 1) (some ⟨r.2, pBlocks - r.2, lit "ext4"⟩)

/-! ## The partition maker -/

/-- `mkpart_cmd` of `sarah_disk_partition_shell` for the partition `i`; `-1` is converted to `unsigned long`. -/
def mkpartCmd (disk : List UInt8) (i : ℕ) (p : DiskPartition) : List UInt8 :=
  let unit : UInt64 := 2097152
  let gigas (n : UInt64) : List UInt8 := decimal (n / unit).toNat ++ lit "G"
  lit "parted -s " ++ disk ++ lit " mkpart sarahos_" ++ decimal i ++ lit " ext4 " ++
    if p.start = 0 ∧ p.blocks = -1 then lit "2048s 100%"
    else if p.start = 0 ∧ p.blocks ≠ -1 then lit "1049k " ++ gigas p.blocks
    else if p.start ≠ 0 ∧ p.blocks = -1 then gigas p.start ++ lit " 100%"
    else gigas p.start ++ lit " " ++ gigas (p.start + p.blocks)

/-- The partition maker takes the rest of the disk. -/
def DiskPartition.isRest (p : DiskPartition) : Prop := p.blocks = -1

/-- The command for the rest of the disk ends with a percent sign, any other with a unit. -/
theorem mkpartCmd_getLast (disk : List UInt8) (i : ℕ) (p : DiskPartition) :
    (mkpartCmd disk i p).getLast? = some 37 ↔ p.isRest := by
  have hpercent : (lit " 100%").getLast? = some 37 := by decide
  have hunit : (lit "G").getLast? = some 71 := by decide
  have hfirst : (lit "2048s 100%").getLast? = some 37 := by decide
  unfold mkpartCmd DiskPartition.isRest
  by_cases hs : p.start = 0 <;> by_cases hb : p.blocks = -1
  all_goals
    simp only [hs, hb, ne_eq, not_true_eq_false, not_false_eq_true, and_true, and_false, if_true, if_false,
      List.getLast?_append, hpercent, hunit, hfirst, Option.some_or, Option.some.injEq]
    try decide

/-! ## The plan -/

/-- The end of a partition. -/
def DiskPartition.stop (p : DiskPartition) : ℕ := p.start.toNat + p.blocks.toNat

/-- **The property of a plan** for a disk of `pBlocks` blocks. -/
structure Planned (pBlocks : UInt64) (parts : List DiskPartition) : Prop where
  nonempty : ∀ p ∈ parts, 0 < p.blocks.toNat
  within : ∀ p ∈ parts, p.stop ≤ pBlocks.toNat
  disjoint : parts.Pairwise fun p q => p.stop ≤ q.start.toNat ∨ q.stop ≤ p.start.toNat
  contiguous : parts.IsChain fun p q => p.stop = q.start.toNat
  covers : ∀ b < pBlocks.toNat, ∃ p ∈ parts, p.start.toNat ≤ b ∧ b < p.stop
  noWrap : ∀ p ∈ parts.getLast?, p.start ≤ pBlocks
  rest : ∀ p ∈ parts.dropLast, ¬ p.isRest

/-- The planner ends, writes inside its array, and fills it with a plan. -/
def PlansDisk (pBlocks : UInt64) : Prop :=
  ∃ fuel parts, getDiskPartitionsByOffset fuel pBlocks = some (parts.map some) ∧ Planned pBlocks parts

/-- The full partitions of the second loop. -/
def fullPartitions : ℕ → UInt64 → List DiskPartition
  | 0, _ => []
  | n + 1, cur => ⟨cur, planOffset, lit "ext4"⟩ :: fullPartitions n (cur + (planOffset + 1))

/-- Where the partition after `n` whole ones starts. -/
def startAfter (n : ℕ) (cur : UInt64) : UInt64 := (· + (planOffset + 1))^[n] cur

theorem startAfter_zero (cur : UInt64) : startAfter 0 cur = cur := Function.iterate_zero_apply _ cur

theorem startAfter_succ (n : ℕ) (cur : UInt64) : startAfter (n + 1) cur = startAfter n (cur + (planOffset + 1)) :=
  Function.iterate_succ_apply _ n cur

/-- A plan of `n + 1` partitions: all but the last are full. -/
def layout (pBlocks : UInt64) (n : ℕ) (cur : UInt64) : List DiskPartition :=
  fullPartitions n cur ++ [⟨startAfter n cur, pBlocks - startAfter n cur, lit "ext4"⟩]

theorem length_fullPartitions : ∀ (n : ℕ) (cur : UInt64), (fullPartitions n cur).length = n
  | 0, _ => rfl
  | n + 1, cur => by rw [fullPartitions, List.length_cons, length_fullPartitions n]

theorem fillPartitions_eq : ∀ (n : ℕ) (cur : UInt64) (xs ys : List (Option DiskPartition)), n ≤ ys.length →
    fillPartitions n xs.length cur (xs ++ ys) =
      some (xs ++ (fullPartitions n cur).map some ++ ys.drop n, startAfter n cur)
  | 0, cur, xs, ys, _ => by
    rw [fillPartitions, fullPartitions, startAfter_zero, List.map_nil, List.append_nil, List.drop_zero]
  | n + 1, cur, xs, ys, h => by
    obtain ⟨y, ys, rfl⟩ := List.exists_cons_of_length_pos (Nat.zero_lt_of_lt h)
    have hstore : store (xs ++ y :: ys) xs.length (some ⟨cur, planOffset, lit "ext4"⟩) =
        some ((xs ++ [some ⟨cur, planOffset, lit "ext4"⟩]) ++ ys) := by
      rw [store_of_lt (by simp), List.set_append_right _ _ le_rfl, Nat.sub_self, List.set_cons_zero,
        List.append_assoc, List.singleton_append]
    have ih := fillPartitions_eq n (cur + (planOffset + 1)) (xs ++ [some ⟨cur, planOffset, lit "ext4"⟩]) ys
      (Nat.le_of_succ_le_succ h)
    rw [List.length_append, List.length_singleton] at ih
    rw [fillPartitions, hstore, Option.bind_some, ih, fullPartitions, startAfter_succ, List.drop_succ_cons,
      List.map_cons, List.append_assoc xs, List.singleton_append]

theorem layout_eq {pBlocks : UInt64} {fuel n : ℕ} (hn : countPartitions pBlocks fuel 0 0 = some (n + 1)) :
    getDiskPartitionsByOffset fuel pBlocks = some ((layout pBlocks n 0).map some) := by
  have hfill := fillPartitions_eq n 0 [] (List.replicate (n + 1) none) (by simp)
  rw [List.nil_append, List.nil_append, List.length_nil] at hfill
  have hlen : ((fullPartitions n 0).map some).length = n := by rw [List.length_map, length_fullPartitions]
  have hdrop : (List.replicate (n + 1) (none : Option DiskPartition)).drop n = [none] := by simp
  rw [getDiskPartitionsByOffset, hn, Option.bind_some, Nat.add_sub_cancel, hfill, Option.bind_some,
    if_neg (Nat.succ_ne_zero n), hdrop, store_of_lt (by simp [hlen]), List.set_append_right _ _ hlen.le, hlen,
    Nat.sub_self, List.set_cons_zero, layout, List.map_append, List.map_singleton]

theorem countPartitions_le {pBlocks : UInt64} : ∀ (fuel : ℕ) {cur : UInt64} {partNum n : ℕ},
    countPartitions pBlocks fuel cur partNum = some n → partNum ≤ n
  | 0, _, _, _, h => by cases h
  | fuel + 1, cur, partNum, n, h => by
    unfold countPartitions at h
    split_ifs at h
    · exact (Nat.le_succ partNum).trans (countPartitions_le fuel h)
    · exact (Option.some.inj h).le

/-- A disk of more than `2 ^ 32` blocks is counted as two partitions at least. -/
theorem two_le_countPartitions {pBlocks : UInt64} (h : planOffset < pBlocks) {fuel n : ℕ}
    (hn : countPartitions pBlocks fuel 0 0 = some n) : 2 ≤ n := by
  have hpos : (0 : UInt64) < pBlocks := UInt64.lt_trans (by decide : (0 : UInt64) < planOffset) h
  match fuel with
  | 0 => cases hn
  | 1 =>
    rw [countPartitions, if_pos hpos, if_pos (by decide)] at hn
    cases hn
  | fuel + 2 =>
    rw [countPartitions, if_pos hpos, if_pos (by decide), countPartitions, UInt64.zero_add, if_pos h,
      if_pos (by decide)] at hn
    exact countPartitions_le fuel hn

/-- The first two partitions of a plan leave the block `2 ^ 32` between them. -/
theorem layout_head (pBlocks : UInt64) (n : ℕ) : ∃ blocks parts, layout pBlocks (n + 1) 0 =
    ⟨0, planOffset, lit "ext4"⟩ :: ⟨planOffset + 1, blocks, lit "ext4"⟩ :: parts := by
  cases n with
  | zero =>
    refine ⟨pBlocks - (planOffset + 1), [], ?_⟩
    simp only [layout, fullPartitions, startAfter_succ, startAfter_zero, UInt64.zero_add, List.cons_append,
      List.nil_append]
  | succ n =>
    exact ⟨planOffset, _, by simp only [layout, fullPartitions, UInt64.zero_add, List.cons_append]; rfl⟩

theorem planned_of_run {pBlocks : UInt64} {fuel n : ℕ} (hn : countPartitions pBlocks fuel 0 0 = some (n + 1))
    {parts : List DiskPartition} (hrun : getDiskPartitionsByOffset fuel pBlocks = some (parts.map some)) :
    layout pBlocks n 0 = parts := by
  rw [layout_eq hn] at hrun
  exact List.map_injective_iff.mpr (fun _ _ => Option.some.inj) (Option.some.inj hrun)

theorem not_plansDisk_of_lt {pBlocks : UInt64} (h : planOffset < pBlocks) : ¬ PlansDisk pBlocks := by
  rintro ⟨fuel, parts, hrun, hplan⟩
  obtain ⟨n, hn, -⟩ := Option.bind_eq_some_iff.mp hrun
  obtain ⟨m, rfl⟩ := Nat.exists_eq_add_of_le' (two_le_countPartitions h hn)
  obtain ⟨blocks, rest, hlayout⟩ := layout_head pBlocks m
  have hchain := hplan.contiguous
  rw [← planned_of_run hn hrun, hlayout] at hchain
  have hnext : (0 : UInt64).toNat + planOffset.toNat = (planOffset + 1).toNat := (List.isChain_cons_cons.mp hchain).1
  revert hnext
  decide

theorem not_plansDisk_zero : ¬ PlansDisk 0 := by
  rintro ⟨fuel, parts, hrun, -⟩
  obtain ⟨n, hn, -⟩ := Option.bind_eq_some_iff.mp hrun
  have hzero : n = 0 := by
    match fuel with
    | 0 => exact absurd hn (by rw [countPartitions]; exact Option.some_ne_none n |>.symm)
    | fuel + 1 =>
      rw [countPartitions, if_neg (by decide)] at hn
      exact (Option.some.inj hn).symm
  subst hzero
  rw [getDiskPartitionsByOffset, hn, Option.bind_some] at hrun
  obtain ⟨r, -, hrun⟩ := Option.bind_eq_some_iff.mp hrun
  rw [if_pos rfl] at hrun
  exact Option.some_ne_none _ hrun.symm

theorem planned_single {pBlocks : UInt64} (hpos : 0 < pBlocks.toNat) :
    Planned pBlocks [⟨0, pBlocks, lit "ext4"⟩] where
  nonempty := List.forall_mem_singleton.mpr hpos
  within := List.forall_mem_singleton.mpr (by rw [DiskPartition.stop, UInt64.toNat_zero, Nat.zero_add])
  disjoint := List.pairwise_singleton _ _
  contiguous := List.isChain_singleton _
  covers := fun b hb => ⟨_, List.mem_singleton_self _, Nat.zero_le b, by
    rw [DiskPartition.stop, UInt64.toNat_zero, Nat.zero_add]
    exact hb⟩
  noWrap := fun p hp => by
    cases Option.mem_some_iff.mp hp
    exact UInt64.zero_le
  rest := fun p hp => absurd hp List.not_mem_nil

/-- **The partition planner** covers a disk exactly when it has one to `2 ^ 32` blocks. -/
theorem planner_iff (pBlocks : UInt64) : PlansDisk pBlocks ↔ 0 < pBlocks ∧ pBlocks ≤ planOffset := by
  constructor
  · refine fun hplans => ⟨UInt64.not_le.mp fun hzero => ?_, UInt64.not_lt.mp fun hlt => not_plansDisk_of_lt hlt hplans⟩
    rw [UInt64.le_zero_iff.mp hzero] at hplans
    exact not_plansDisk_zero hplans
  · rintro ⟨hpos, hle⟩
    have hcount : countPartitions pBlocks 2 0 0 = some 1 := by
      rw [countPartitions, if_pos hpos, if_pos (by decide), countPartitions, UInt64.zero_add,
        if_neg (UInt64.not_lt.mpr hle)]
    have hrun := layout_eq hcount
    have hlayout : layout pBlocks 0 0 = [⟨0, pBlocks, lit "ext4"⟩] := by
      rw [layout, fullPartitions, startAfter_zero, UInt64.sub_zero, List.nil_append]
    rw [hlayout] at hrun
    exact ⟨2, _, hrun, planned_single (UInt64.lt_iff_toNat_lt.mp hpos)⟩

/-- A disk of `2 ^ 32 + 1` blocks: the second partition starts behind the last block. -/
theorem not_planner : ¬ ∀ pBlocks, PlansDisk pBlocks := fun hall => not_plansDisk_of_lt (by decide) (hall 4294967297)

end Sarah
