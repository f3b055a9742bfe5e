import SarahClient.Disk.Model

/-!
# The mount target in its buffers (`sarah_disk_mount` of `app_smartdisk.c`)

The field `mount` of the entry is taken by its 156 bytes here.

* `mountTargetOf`: the target as it should be; `sarahDiskMount_eq`;
* **`mountsExactly_iff`**: when every access stays inside, and the field holds the whole target after a success.
-/

namespace Sarah

open List

/-- `char mount[156]`. -/
abbrev MountField := { bytes : List UInt8 // bytes.length = 156 }

/-- An entry with the bytes of its field `mount`. -/
def SarahDisk.withField (disk : SarahDisk) (field : MountField) : SarahDisk := { disk with mount := field.1 }

/-- The base directory without trailing slashes, `/`, the prefix, the WWN, `_part` and the partition number. -/
def mountTargetOf (smartdisk : Smartdisk) (disk : SarahDisk) : List UInt8 :=
  mountTarget smartdisk (smartdisk.mountBasedir.rdropWhile (· = 47)) disk

/-- **The property** of a mount: no access outside the buffers, the exact target in the call of `mount`, and the whole
target in the field after a success, with a NUL. -/
def MountsExactly (answers : MountAnswers) (smartdisk : Smartdisk) (disk : SarahDisk) : Prop :=
  ∃ r : ℤ × Option (List UInt8) × SarahDisk, sarahDiskMount answers smartdisk disk = some r ∧
    (∀ t, r.2.1 = some t → t = mountTargetOf smartdisk disk) ∧
    (r.1 = 0 → ∃ rest, r.2.2.mount = mountTargetOf smartdisk disk ++ 0 :: rest)

/-- What the buffers ask for, as far as the calls get. -/
structure TargetFits (answers : MountAnswers) (smartdisk : Smartdisk) (disk : SarahDisk) : Prop where
  basedir : smartdisk.mountBasedir.length ≤ 256
  stops : ∃ c ∈ smartdisk.mountBasedir, c ≠ 47
  target : answers.basedir = true → (mountTargetOf smartdisk disk).length < 256
  field : answers.basedir = true → answers.target = true → answers.mount = true →
    (mountTargetOf smartdisk disk).length ≤ 156 ∧
      (answers.chmod = true → disk.mount[(mountTargetOf smartdisk disk).length]? = some 0)

theorem trimSlashes_eq_some_iff {path base : List UInt8} :
    trimSlashes path = some base ↔ (∃ c ∈ path, c ≠ 47) ∧ base = path.rdropWhile (· = 47) := by
  unfold trimSlashes
  split_ifs with hall
  · refine iff_of_false (by simp) ?_
    rintro ⟨⟨c, hc, hne⟩, -⟩
    exact hne (of_decide_eq_true (all_eq_true.mp hall c hc))
  · rw [Bool.not_eq_true, all_eq_false] at hall
    obtain ⟨c, hc, hne⟩ := hall
    rw [Option.some_inj, eq_comm]
    exact (and_iff_right ⟨c, hc, by simpa using hne⟩).symm

/-- The field after the copy ends with a NUL behind the text exactly where the byte there was a NUL. -/
theorem overlay_eq_append_zero_iff (s old : List UInt8) :
    (∃ rest, overlay s old = s ++ 0 :: rest) ↔ old[s.length]? = some 0 := by
  unfold overlay
  constructor
  · rintro ⟨rest, h⟩
    rw [← head?_drop, append_cancel_left h]
    rfl
  · intro h
    rw [← head?_drop] at h
    obtain ⟨rest, hrest⟩ := head?_eq_some_iff.mp h
    exact ⟨rest, by rw [hrest]⟩

theorem sarahDiskMount_eq {answers : MountAnswers} {smartdisk : Smartdisk} {disk : SarahDisk}
    (hlen : smartdisk.mountBasedir.length ≤ 256) (hstops : ∃ c ∈ smartdisk.mountBasedir, c ≠ 47) :
    sarahDiskMount answers smartdisk disk =
      let target := mountTargetOf smartdisk disk
      if !answers.basedir then some (1, none, disk)
      else if 256 ≤ target.length then none
      else if !answers.target then some (2, none, disk)
      else if !answers.mount then some (3, some target, disk)
      else if 156 < target.length then none
      else some (if answers.chmod then 0 else 4, some target, { disk with mount := overlay target disk.mount }) := by
  unfold sarahDiskMount
  rw [if_neg (by omega), trimSlashes_eq_some_iff.mpr ⟨hstops, rfl⟩, Option.bind_some]
  rfl

theorem sarahDiskMount_none {answers : MountAnswers} {smartdisk : Smartdisk} {disk : SarahDisk}
    (h : ¬ (smartdisk.mountBasedir.length ≤ 256 ∧ ∃ c ∈ smartdisk.mountBasedir, c ≠ 47)) :
    sarahDiskMount answers smartdisk disk = none := by
  unfold sarahDiskMount
  by_cases hlen : 256 < smartdisk.mountBasedir.length
  · exact if_pos hlen
  · have htrim : trimSlashes smartdisk.mountBasedir = none := Option.eq_none_iff_forall_ne_some.mpr fun base hbase =>
      h ⟨by omega, (trimSlashes_eq_some_iff.mp hbase).1⟩
    rw [if_neg hlen, htrim, Option.bind_none]

theorem exists_some_iff {A : Type} {a : A} {P : A → Prop} : (∃ r, some a = some r ∧ P r) ↔ P a := by
  simp only [Option.some_inj, exists_eq_left']

/-- **When a mount stays inside its buffers and is exact.** -/
theorem mountsExactly_iff (answers : MountAnswers) (smartdisk : Smartdisk) (disk : SarahDisk) (field : MountField) :
    MountsExactly answers smartdisk (disk.withField field) ↔ TargetFits answers smartdisk (disk.withField field) := by
  generalize disk.withField field = disk
  by_cases hbounds : smartdisk.mountBasedir.length ≤ 256 ∧ ∃ c ∈ smartdisk.mountBasedir, c ≠ 47
  · have hfits : TargetFits answers smartdisk disk ↔
        (answers.basedir = true → (mountTargetOf smartdisk disk).length < 256) ∧
        (answers.basedir = true → answers.target = true → answers.mount = true →
          (mountTargetOf smartdisk disk).length ≤ 156 ∧
            (answers.chmod = true → disk.mount[(mountTargetOf smartdisk disk).length]? = some 0)) :=
      ⟨fun h => ⟨h.target, h.field⟩, fun h => ⟨hbounds.1, hbounds.2, h.1, h.2⟩⟩
    rw [hfits, MountsExactly, sarahDiskMount_eq hbounds.1 hbounds.2]
    dsimp only
    -- the ways out in the order of the source
    split_ifs with hbasedir hlong htarget hmount hfield hchmod
    · have hb : answers.basedir = false := by simpa using hbasedir
      rw [exists_some_iff, hb]
      exact iff_of_true ⟨nofun, nofun⟩ ⟨nofun, nofun⟩
    · have hb : answers.basedir = true := by simpa using hbasedir
      refine iff_of_false nofun fun h => ?_
      exact absurd (h.1 hb) (Nat.not_lt.mpr hlong)
    · have ht : answers.target = false := by simpa using htarget
      rw [exists_some_iff, ht]
      exact iff_of_true ⟨nofun, nofun⟩ ⟨fun _ => Nat.not_le.mp hlong, nofun⟩
    · have hm : answers.mount = false := by simpa using hmount
      rw [exists_some_iff, hm]
      exact iff_of_true ⟨fun _ h => (Option.some.inj h).symm, nofun⟩ ⟨fun _ => Nat.not_le.mp hlong, nofun⟩
    · have hb : answers.basedir = true := by simpa using hbasedir
      have ht : answers.target = true := by simpa using htarget
      have hm : answers.mount = true := by simpa using hmount
      refine iff_of_false nofun fun h => ?_
      exact absurd (h.2 hb ht hm).1 (Nat.not_le.mpr hfield)
    · have hb : answers.basedir = true := by simpa using hbasedir
      have ht : answers.target = true := by simpa using htarget
      have hm : answers.mount = true := by simpa using hmount
      rw [exists_some_iff, hb, ht, hm, hchmod]
      dsimp only
      rw [overlay_eq_append_zero_iff]
      exact ⟨fun h => ⟨fun _ => Nat.not_le.mp hlong, fun _ _ _ => ⟨Nat.not_lt.mp hfield, fun _ => h.2 rfl⟩⟩,
        fun h => ⟨fun _ ht => (Option.some.inj ht).symm, fun _ => (h.2 rfl rfl rfl).2 rfl⟩⟩
    · have hc : answers.chmod = false := Bool.eq_false_iff.mpr hchmod
      rw [exists_some_iff, hc]
      exact iff_of_true ⟨fun _ h => (Option.some.inj h).symm, nofun⟩
        ⟨fun _ => Nat.not_le.mp hlong, fun _ _ _ => ⟨Nat.not_lt.mp hfield, nofun⟩⟩
  · rw [MountsExactly, sarahDiskMount_none hbounds]
    refine iff_of_false ?_ fun h => hbounds ⟨h.basedir, h.stops⟩
    rintro ⟨r, hrun, -⟩
    cases hrun

/-- The root as base directory: the loop looks in front of the buffer. -/
theorem not_mountsExactly : ¬ ∀ (answers : MountAnswers) (smartdisk : Smartdisk) (disk : SarahDisk)
    (field : MountField), MountsExactly answers smartdisk (disk.withField field) := by
  intro hall
  obtain ⟨r, hrun, -⟩ := hall ⟨true, true, true, true⟩ ⟨lit "/", lit "sarah_"⟩ {} ⟨replicate 156 0, length_replicate⟩
  have hnone : sarahDiskMount ⟨true, true, true, true⟩ ⟨lit "/", lit "sarah_"⟩
      (({} : SarahDisk).withField ⟨replicate 156 0, length_replicate⟩) = none := by
    refine sarahDiskMount_none ?_
    decide
  rw [hnone] at hrun
  cases hrun

end Sarah
