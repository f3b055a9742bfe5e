import SarahClient.Disk.Fdisk
import SarahClient.Disk.Lsblk

/-!
# Mount targets

* `DevFile`, `DiskMachine`: the files of `/dev/` with their disks and partition numbers, and what the commands print;
* **`getDiskList_eq`**: the disk list of a machine;
* `Nameless`, `Clash`: partitions without a WWN of their own, and two of them that are mounted at one target;
* **`mounts_apart_iff`**: the mount targets of partitions differ exactly when no two clash.
-/

namespace Sarah

open List Stdio

/-! ## Machines -/

/-- A file of `/dev/`, named after its disk and, for a partition, its number. -/
structure DevFile where
  stem : List UInt8
  part : Option ℕ
  isBlk : Bool
  opens : Bool
  identity : Option HdDriveid
  geometry : Option ℕ
  size : Option ℕ

namespace DevFile

/-- What stands before the number: a disk whose name ends in a digit is set off. -/
def parent (f : DevFile) : List UInt8 := if f.stem.getLast?.any isdigit then f.stem ++ lit "p" else f.stem

/-- The `d_name` of the file. -/
def dName (f : DevFile) : List UInt8 :=
  match f.part with
  | none => f.stem
  | some k => f.parent ++ decimal k

/-- Its path. -/
def path (f : DevFile) : List UInt8 := lit "/dev/" ++ f.dName

/-- What the code sees of the device. -/
def device (f : DevFile) : DiskDevice :=
  { dName := f.dName, isBlk := f.isBlk, opens := f.opens, identity := f.identity, geometry := f.geometry,
    size := f.size }

/-- A name that fits the buffers for it. -/
structure WellFormed (f : DevFile) : Prop where
  nul : 0 ∉ f.dName
  length : f.dName.length ≤ 58
  digits : (f.dName.rtakeWhile isdigit).length ≤ 11
  part : ∀ k ∈ f.part, k < 2 ^ 31

/-- What the pass over `/dev/` leaves out before the filter. -/
def Skipped (f : DevFile) : Prop := f.dName = lit "." ∨ f.dName = lit ".." ∨ !f.isBlk

instance (f : DevFile) : Decidable f.Skipped := by unfold Skipped; infer_instance

/-- A device that gets an entry: it passes the filter and can be opened. -/
def enumerated (f : DevFile) : Bool :=
  ¬ f.Skipped ∧ ¬ 0 < smartdiskScanFilter { name := f.path } (-1) ∧ f.opens

/-- What `_get_tailing_integer` makes of the name. -/
def number (f : DevFile) : ℤ :=
  let digits := f.dName.rtakeWhile isdigit
  if digits = [] then -1 else atoi (digits ++ List.replicate (12 - digits.length) 0)

/-- The entry that the pass over `/dev/` makes. -/
def scanned (f : DevFile) : SarahDisk :=
  let dtp := fillQueries f.device { name := f.path, partNo := f.number }
  { dtp with serialNo := celRightTrim dtp.serialNo, model := celRightTrim dtp.model }

end DevFile

/-- **A machine**: the files of `/dev/` and the output of `fdisk -l` and `lsblk`. Different disks report different WWNs
and have different identifiers, and the rows of a table are partitions of its disk. -/
structure DiskMachine where
  files : List DevFile
  fdisk : Option FdiskListing
  lsblk : Option LsblkListing
  nodup : (files.map DevFile.dName).Nodup
  wellFormed : ∀ f ∈ files, f.isBlk = true → f.WellFormed
  wwns : ∀ f ∈ files, ∀ g ∈ files, ∀ i ∈ f.identity, ∀ j ∈ g.identity, i.words = j.words → f.stem = g.stem
  identifiers : ∀ listing ∈ fdisk, ∀ b ∈ listing.blocks, ∀ b' ∈ listing.blocks, ∀ wwn ∈ b.identifier,
    wwn ∈ b'.identifier → b = b'
  disks : ∀ listing ∈ fdisk, ∀ b ∈ listing.blocks, ∀ f ∈ files, b.name = f.path → f.part = none
  rows : ∀ listing ∈ fdisk, ∀ b ∈ listing.blocks, ∀ r ∈ b.rows, ∀ f ∈ files, r.name = f.path →
    b.name = lit "/dev/" ++ f.stem

/-! ## The pass over `/dev/` -/

variable {f g : DevFile}

theorem getTailingInteger_dName (h : f.WellFormed) (partNo : ℤ) :
    ∃ r, getTailingInteger f.dName partNo = some r ∧ (if r.1 = 0 then r.2 else -1) = f.number := by
  have hdigits : ¬ 12 ≤ (f.dName.rtakeWhile isdigit).length := by
    have := h.digits
    omega
  unfold getTailingInteger DevFile.number
  dsimp only
  by_cases hnil : f.dName.rtakeWhile isdigit = []
  · rw [if_pos hnil, if_pos hnil]
    exact ⟨_, rfl, rfl⟩
  · rw [if_neg hnil, if_neg hnil, if_neg hdigits]
    exact ⟨_, rfl, rfl⟩

theorem addDevice_file (st : DiskScan) (hskip : ¬ f.Skipped) (hdtp : st.dtp = { name := f.path, partNo := f.number }) :
    (addDevice (some smartdiskScanFilter) f.device st).disks =
        st.disks ++ (if f.enumerated then [f.scanned] else []) ∧
      (addDevice (some smartdiskScanFilter) f.device st).activeBackupStrategy =
        (st.activeBackupStrategy && (!f.enumerated || f.identity.isNone)) := by
  have hfilter : (some smartdiskScanFilter).any (fun filter => 0 < filter st.dtp (-1)) =
      decide (0 < smartdiskScanFilter { name := f.path } (-1)) := by
    rw [hdtp]
    rfl
  unfold addDevice
  rw [hfilter]
  by_cases hrejected : 0 < smartdiskScanFilter { name := f.path } (-1)
  · have hno : f.enumerated = false := decide_eq_false fun h => h.2.1 hrejected
    rw [hno, if_pos (decide_eq_true hrejected)]
    exact ⟨(append_nil _).symm, (Bool.and_true _).symm⟩
  · rw [if_neg (fun h => hrejected (of_decide_eq_true h))]
    have hdev : f.device.opens = f.opens := rfl
    cases hopens : f.opens with
    | false =>
      have hno : f.enumerated = false := decide_eq_false fun h => absurd (hopens.symm.trans h.2.2) (by decide)
      rw [hno, hdev, hopens]
      exact ⟨(append_nil _).symm, (Bool.and_true _).symm⟩
    | true =>
      have hyes : f.enumerated = true := decide_eq_true ⟨hskip, hrejected, hopens⟩
      rw [hyes, hdev, hopens, hdtp]
      exact ⟨rfl, rfl⟩

theorem scanDevice_file (h : f.isBlk = true → f.WellFormed) (st : DiskScan) :
    ∃ st', scanDevice (some smartdiskScanFilter) st f.device = some st' ∧
      st'.disks = st.disks ++ (if f.enumerated then [f.scanned] else []) ∧
      st'.activeBackupStrategy = (st.activeBackupStrategy && (!f.enumerated || f.identity.isNone)) := by
  unfold scanDevice
  by_cases hskip : f.Skipped
  · have hno : f.enumerated = false := decide_eq_false fun h => h.1 hskip
    rw [hno]
    exact ⟨st, if_pos hskip, (append_nil _).symm, (Bool.and_true _).symm⟩
  · have hblk : f.isBlk = true := by
      cases hblk : f.isBlk with
      | false => exact absurd (Or.inr (Or.inr (congrArg not hblk))) hskip
      | true => rfl
    obtain ⟨r, hr, hnumber⟩ := getTailingInteger_dName (h hblk) st.partNo
    have hpath : lit "/dev/" ++ f.device.dName.take 58 = f.path := congrArg _ (take_of_length_le (h hblk).length)
    have hget : getTailingInteger f.device.dName st.partNo = some r := hr
    have hadd := addDevice_file { st with dtp := { name := f.path, partNo := f.number }, partNo := r.2 } hskip rfl
    refine ⟨_, (if_neg hskip).trans ?_, hadd⟩
    rw [hget, Option.map_some, hpath, hnumber]

/-- **The pass over `/dev/`.** -/
theorem scanDevices_files {files : List DevFile} (h : ∀ f ∈ files, f.isBlk = true → f.WellFormed) (st : DiskScan) :
    ∃ st', scanDevices (some smartdiskScanFilter) st (files.map DevFile.device) = some st' ∧
      st'.disks = st.disks ++ (files.filter DevFile.enumerated).map DevFile.scanned ∧
      st'.activeBackupStrategy =
        (st.activeBackupStrategy && (files.filter DevFile.enumerated).all fun f => f.identity.isNone) := by
  induction files generalizing st with
  | nil => exact ⟨st, rfl, (append_nil _).symm, (Bool.and_true _).symm⟩
  | cons f files ih =>
    obtain ⟨st₁, hscan, hdisks₁, hactive₁⟩ := scanDevice_file (h f mem_cons_self) st
    obtain ⟨st', hrest, hdisks, hactive⟩ := ih (fun g hg => h g (mem_cons_of_mem f hg)) st₁
    refine ⟨st', ?_, ?_, ?_⟩
    · unfold scanDevices at hrest ⊢
      rw [map_cons, foldlM_cons, hscan]
      exact hrest
    · rw [hdisks, hdisks₁, append_assoc]
      cases henum : f.enumerated with
      | false => rw [filter_cons_of_neg (by rw [henum]; decide)]; rfl
      | true => rw [filter_cons_of_pos henum]; rfl
    · rw [hactive, hactive₁, Bool.and_assoc]
      cases henum : f.enumerated with
      | false => rw [filter_cons_of_neg (by rw [henum]; decide)]; rfl
      | true => rw [filter_cons_of_pos henum, all_cons]; rfl

theorem DevFile.isBlk_of_enumerated (h : f.enumerated = true) : f.isBlk = true := by
  have hskip := (of_decide_eq_true h).1
  cases hblk : f.isBlk with
  | false => exact absurd (Or.inr (Or.inr (congrArg not hblk))) hskip
  | true => rfl

/-- The WWN of a device whose query fails, which is also that of words of zeros. -/
def unknownWwn : List UInt8 := lit "0x0000000000000000"

theorem fillQueries_fields (dev : DiskDevice) (dtp : SarahDisk) :
    (fillQueries dev dtp).name = dtp.name ∧
      (fillQueries dev dtp).wwn = dev.identity.elim unknownWwn (fun i => wwnText i.words) ∧
        (fillQueries dev dtp).partNo = dtp.partNo ∧ (fillQueries dev dtp).pBlocks = dev.size.getD dtp.pBlocks ∧
          (fillQueries dev dtp).format = dtp.format ∧ (fillQueries dev dtp).mount = dtp.mount := by
  unfold fillQueries
  cases dev.identity <;> cases dev.geometry <;> cases dev.size <;> exact ⟨rfl, rfl, rfl, rfl, rfl, rfl⟩

namespace DevFile

theorem scanned_name (f : DevFile) : f.scanned.name = f.path := (fillQueries_fields f.device _).1

theorem scanned_wwn (f : DevFile) : f.scanned.wwn = f.identity.elim unknownWwn fun i => wwnText i.words :=
  (fillQueries_fields f.device _).2.1

theorem scanned_partNo (f : DevFile) : f.scanned.partNo = f.number := (fillQueries_fields f.device _).2.2.1

theorem scanned_pBlocks (f : DevFile) : f.scanned.pBlocks = f.size.getD 0 := (fillQueries_fields f.device _).2.2.2.1

theorem scanned_format (f : DevFile) : f.scanned.format = [] := (fillQueries_fields f.device _).2.2.2.2.1

theorem scanned_mount (f : DevFile) : f.scanned.mount = [] := (fillQueries_fields f.device _).2.2.2.2.2

end DevFile

/-! ## WWNs -/

theorem hexDigit_inj {a b : ℕ} (ha : a < 16) (hb : b < 16) (h : hexDigit a = hexDigit b) : a = b := by
  have hnat := congrArg UInt8.toNat h
  unfold hexDigit at hnat
  rw [UInt8.toNat_ofNat', UInt8.toNat_ofNat'] at hnat
  split_ifs at hnat <;> omega

theorem hexWord_inj {v w : UInt16} (h : hexWord v = hexWord w) : v = w := by
  have hv := v.toNat_lt
  have hw := w.toNat_lt
  simp only [hexWord, cons.injEq, and_true] at h
  have h₁ := hexDigit_inj (by omega) (by omega) h.1
  have h₂ := hexDigit_inj (by omega) (by omega) h.2.1
  have h₃ := hexDigit_inj (by omega) (by omega) h.2.2.1
  have h₄ := hexDigit_inj (by omega) (by omega) h.2.2.2
  rw [← UInt16.toNat_inj]
  omega

/-- **The text of a WWN tells its words.** -/
theorem wwnText_inj {v w : Fin 4 → UInt16} (h : wwnText v = wwnText w) : v = w := by
  obtain ⟨h, h₃⟩ := append_inj' h rfl
  obtain ⟨h, h₂⟩ := append_inj' h rfl
  obtain ⟨h, h₁⟩ := append_inj' h rfl
  have h₀ := append_cancel_left h
  funext i
  match i with
  | 0 => exact hexWord_inj h₀
  | 1 => exact hexWord_inj h₁
  | 2 => exact hexWord_inj h₂
  | 3 => exact hexWord_inj h₃

theorem wwnText_zero : wwnText (fun _ => 0) = unknownWwn := by decide

theorem length_wwnText (w : Fin 4 → UInt16) : (wwnText w).length = 18 := rfl

/-! ## Numbers -/

theorem rtakeWhile_run {p : UInt8 → Bool} {s d : List UInt8} (hd : ∀ c ∈ d, p c) (hs : ∀ c ∈ s.getLast?, p c = false) :
    (s ++ d).rtakeWhile p = d := by
  have hstop : Stops p s.reverse := fun c hc => hs c (by rwa [head?_reverse] at hc)
  have hrun : ∀ c ∈ d.reverse, p c := fun c hc => hd c (mem_reverse.mp hc)
  rw [rtakeWhile, reverse_append, takeWhile_run hrun hstop, reverse_reverse]

theorem DevFile.parent_getLast (f : DevFile) : ∀ c ∈ f.parent.getLast?, isdigit c = false := by
  intro c hc
  unfold DevFile.parent at hc
  split_ifs at hc with hdigit
  · rw [show lit "p" = [112] from rfl, getLast?_concat] at hc
    obtain rfl := Option.some.inj hc
    decide
  · rw [hc, Option.any_some] at hdigit
    exact Bool.eq_false_iff.mpr hdigit

/-- **The number of a partition is read from its name.** -/
theorem DevFile.number_eq (h : f.WellFormed) {k : ℕ} (hk : f.part = some k) : f.number = k := by
  have hlt := h.part k hk
  have hname : f.dName = f.parent ++ decimal k := by rw [DevFile.dName, hk]
  have hdigits : f.dName.rtakeWhile isdigit = decimal k := by
    rw [hname]
    exact rtakeWhile_run (isdigit_of_mem_decimal k) f.parent_getLast
  have hlen : (decimal k).length ≤ 11 := hdigits ▸ h.digits
  have hint : decimalInt k = decimal k := by
    unfold decimalInt
    rw [if_neg (by omega), Int.natAbs_natCast]
  have hzeros : 12 - (decimal k).length = 11 - (decimal k).length + 1 := by omega
  unfold DevFile.number
  dsimp only
  rw [hdigits, if_neg (decimal_ne_nil k), hzeros, ← hint]
  exact (atoi_decimalInt_iff (by omega) (by omega) _).mpr ⟨by omega, by omega⟩

/-! ## Targets -/

/-- **A target tells the WWN and the number.** -/
theorem mountTarget_inj (smartdisk : Smartdisk) (base : List UInt8) {d d' : SarahDisk} (hd : 0 ≤ d.partNo)
    (hd' : 0 ≤ d'.partNo) :
    mountTarget smartdisk base d = mountTarget smartdisk base d' ↔ d.wwn = d'.wwn ∧ d.partNo = d'.partNo := by
  have hnumber : ∀ disk : SarahDisk, 0 ≤ disk.partNo → mountTarget smartdisk base disk =
      base ++ lit "/" ++ smartdisk.mountPrefix ++ disk.wwn ++ lit "_part" ++ decimal disk.partNo.natAbs := by
    intro disk hdisk
    rw [mountTarget, decimalInt, if_neg (by omega)]
  rw [hnumber d hd, hnumber d' hd']
  have hlast : ∀ s : List UInt8, ∀ c ∈ (s ++ lit "_part").getLast?, isdigit c = false := by
    intro s c hc
    rw [getLast?_append, show (lit "_part").getLast? = some 116 from rfl, Option.some_or] at hc
    obtain rfl := Option.some.inj hc
    decide
  constructor
  · intro h
    have hdigits := congrArg (rtakeWhile isdigit) h
    rw [rtakeWhile_run (isdigit_of_mem_decimal _) (hlast _), rtakeWhile_run (isdigit_of_mem_decimal _)
      (hlast _)] at hdigits
    have hpart : d.partNo.natAbs = d'.partNo.natAbs := by
      rw [← digitsValue_decimal d.partNo.natAbs, hdigits, digitsValue_decimal]
    rw [hpart] at h
    exact ⟨append_cancel_left (append_cancel_right (append_cancel_right h)), by omega⟩
  · rintro ⟨hwwn, hpart⟩
    rw [hwwn, hpart]

theorem needsMount_iff (disk : SarahDisk) :
    needsMount disk = true ↔ -1 < disk.partNo ∧ 0 < disk.pBlocks ∧ 1 < disk.format.length ∧ disk.mount = [] := by
  rw [needsMount, decide_eq_true_iff, length_eq_zero_iff]

theorem sarahDiskMount_target {answers : MountAnswers} {smartdisk : Smartdisk} {disk : SarahDisk}
    {r : ℤ × Option (List UInt8) × SarahDisk} (h : sarahDiskMount answers smartdisk disk = some r) {t : List UInt8}
    (ht : t ∈ r.2.1) : ∃ base, trimSlashes smartdisk.mountBasedir = some base ∧
      t = mountTarget smartdisk base disk := by
  rw [sarahDiskMount] at h
  by_cases hlen : 256 < smartdisk.mountBasedir.length
  · rw [if_pos hlen] at h
    cases h
  · rw [if_neg hlen] at h
    obtain ⟨base, hbase, h⟩ := Option.bind_eq_some_iff.mp h
    refine ⟨base, hbase, ?_⟩
    dsimp only at h
    -- the first three ways out leave no target
    split_ifs at h
    · cases h; cases ht
    · cases h; cases ht
    · cases h; exact (Option.some.inj ht).symm
    · cases h; exact (Option.some.inj ht).symm
    · cases h; exact (Option.some.inj ht).symm

theorem mem_mountDisks {answers : SarahDisk → MountAnswers} {smartdisk : Smartdisk} {disks : List SarahDisk}
    {calls : List (List UInt8 × List UInt8)} (h : mountDisks answers smartdisk disks = some calls)
    {name target : List UInt8} (hmem : (name, target) ∈ calls) :
    ∃ base, trimSlashes smartdisk.mountBasedir = some base ∧
      ∃ disk ∈ disks, disk.name = name ∧ needsMount disk = true ∧ target = mountTarget smartdisk base disk := by
  induction disks generalizing calls with
  | nil =>
    obtain rfl := Option.some.inj h
    cases hmem
  | cons disk disks ih =>
    rw [mountDisks] at h
    split_ifs at h with hneeds
    · obtain ⟨r, hr, hrest⟩ := Option.bind_eq_some_iff.mp h
      obtain ⟨calls', hcalls', rfl⟩ := Option.map_eq_some_iff.mp hrest
      rcases mem_append.mp hmem with hmem | hmem
      · obtain ⟨t, ht, heq⟩ := mem_map.mp hmem
        obtain ⟨rfl, rfl⟩ := Prod.mk.inj heq
        obtain ⟨base, hbase, htarget⟩ := sarahDiskMount_target hr (Option.mem_toList.mp ht)
        exact ⟨base, hbase, disk, mem_cons_self, rfl, hneeds, htarget⟩
      · obtain ⟨base, hbase, d, hd, hrest⟩ := ih hcalls' hmem
        exact ⟨base, hbase, d, mem_cons_of_mem disk hd, hrest⟩
    · obtain ⟨base, hbase, d, hd, hrest⟩ := ih h hmem
      exact ⟨base, hbase, d, mem_cons_of_mem disk hd, hrest⟩

/-- When everything succeeds and fits, every entry that needs it is mounted. -/
theorem mountDisks_calls {smartdisk : Smartdisk} {base : List UInt8} (hlen : smartdisk.mountBasedir.length ≤ 256)
    (hbase : trimSlashes smartdisk.mountBasedir = some base) {disks : List SarahDisk}
    (hfits : ∀ disk ∈ disks, (mountTarget smartdisk base disk).length < 156) :
    ∃ calls, mountDisks (fun _ => ⟨true, true, true, true⟩) smartdisk disks = some calls ∧
      ∀ disk ∈ disks, needsMount disk = true → (disk.name, mountTarget smartdisk base disk) ∈ calls := by
  induction disks with
  | nil => exact ⟨[], rfl, fun _ h => by cases h⟩
  | cons disk disks ih =>
    obtain ⟨calls, hcalls, hmem⟩ := ih fun d hd => hfits d (mem_cons_of_mem disk hd)
    have hfit := hfits disk mem_cons_self
    rw [mountDisks]
    by_cases hneeds : needsMount disk = true
    · have hmount : sarahDiskMount ⟨true, true, true, true⟩ smartdisk disk = some (0,
        some (mountTarget smartdisk base disk),
          { disk with mount := overlay (mountTarget smartdisk base disk) disk.mount }) := by
        unfold sarahDiskMount
        rw [if_neg (by omega), hbase, Option.bind_some]
        dsimp only
        rw [if_neg (by decide), if_neg (by omega), if_neg (by decide), if_neg (by decide), if_neg (by omega)]
        rfl
      refine ⟨(disk.name, mountTarget smartdisk base disk) :: calls, ?_, ?_⟩
      · rw [if_pos hneeds, hmount, Option.bind_some, hcalls]
        rfl
      · intro d hd hd'
        rcases mem_cons.mp hd with rfl | hd
        · exact mem_cons_self
        · exact mem_cons_of_mem _ (hmem d hd hd')
    · refine ⟨calls, by rw [if_neg hneeds, hcalls], ?_⟩
      intro d hd hd'
      rcases mem_cons.mp hd with rfl | hd
      · exact absurd hd' hneeds
      · exact hmem d hd hd'

/-! ## The disk list -/

namespace DiskMachine

variable (m : DiskMachine)

/-- What the code asks of the machine. -/
def system : DiskSystem :=
  { dev := some (m.files.map DevFile.device), fdisk := m.fdisk.map FdiskListing.text,
    lsblk := m.lsblk.map LsblkListing.text }

/-- The devices that get an entry. -/
def enumerated : List DevFile := m.files.filter DevFile.enumerated

/-- The blocks of `fdisk -l` that are read. -/
def blocksRead : List DiskBlock :=
  if m.enumerated.all fun f => f.identity.isNone then m.fdisk.elim [] FdiskListing.parsed else []

/-- The rows of `lsblk`. -/
def rowsRead : List LsblkRow := m.lsblk.elim [] LsblkListing.rows

/-- The entry of a device in the list. -/
def entry (f : DevFile) : SarahDisk := fillRows m.rowsRead (fillBlocks m.blocksRead f.scanned)

theorem fillBlocks_name (bs : List DiskBlock) (disk : SarahDisk) : (fillBlocks bs disk).name = disk.name :=
  fillBlocks_invariant (P := fun d => d.name = disk.name) (fun b _ d hd => (fillHeader_name b d).trans hd)
    (fun _ _ r d hd => (r.fill_name _ d).trans hd) rfl

theorem mem_files (h : f ∈ m.enumerated) : f ∈ m.files ∧ f.enumerated = true := mem_filter.mp h

theorem wellFormed_of_enumerated (h : f ∈ m.enumerated) : f.WellFormed :=
  m.wellFormed f (m.mem_files h).1 (DevFile.isBlk_of_enumerated (m.mem_files h).2)

theorem diskNames_scanned : DiskNames (m.enumerated.map DevFile.scanned) := by
  constructor
  · have hpaths : (m.enumerated.map DevFile.scanned).map SarahDisk.name =
        (m.enumerated.map DevFile.dName).map (lit "/dev/" ++ ·) := by
      rw [map_map, map_map]
      exact map_congr_left fun f _ => f.scanned_name
    rw [hpaths]
    have hsub : m.enumerated.map DevFile.dName <+ m.files.map DevFile.dName := filter_sublist.map _
    exact (m.nodup.sublist hsub).map fun _ _ h => append_cancel_left h
  · intro disk hdisk
    obtain ⟨f, hf, rfl⟩ := mem_map.mp hdisk
    rw [f.scanned_name, DevFile.path, mem_append, not_or]
    exact ⟨by decide, (m.wellFormed_of_enumerated hf).nul⟩

theorem inDev_scanned : ∀ disk ∈ m.enumerated.map DevFile.scanned, InDev disk.name := by
  intro disk hdisk
  obtain ⟨f, -, rfl⟩ := mem_map.mp hdisk
  rw [f.scanned_name]
  exact prefix_append _ _

/-- **The disk list of a machine.** -/
theorem getDiskList_eq :
    sarahGetDiskList m.system [] 3 (some smartdiskScanFilter) = some (0, m.enumerated.map m.entry) := by
  obtain ⟨st₁, hscan, hdisks₁, hactive₁⟩ := scanDevices_files m.wellFormed { disks := [] }
  rw [nil_append] at hdisks₁
  rw [Bool.true_and] at hactive₁
  have hfdisk : ∃ st₂, fdiskFill (m.fdisk.map FdiskListing.text) st₁ = some st₂ ∧
      st₂.disks = (m.enumerated.map DevFile.scanned).map (fillBlocks m.blocksRead) := by
    have hnone : fillBlocks [] = id := rfl
    have hinDev := m.inDev_scanned
    unfold blocksRead
    rw [enumerated] at hinDev ⊢
    rw [← hdisks₁] at hinDev ⊢
    rw [← hactive₁]
    cases hactive : st₁.activeBackupStrategy with
    | false =>
      refine ⟨st₁, ?_, ?_⟩
      · unfold fdiskFill
        rw [hactive]
        rfl
      · exact (map_id st₁.disks).symm
    | true =>
      cases hfdisk : m.fdisk with
      | none =>
        refine ⟨st₁, ?_, (map_id st₁.disks).symm⟩
        unfold fdiskFill
        rw [hactive]
        rfl
      | some listing =>
        obtain ⟨st₂, hfill, hst₂⟩ := Option.map_eq_some_iff.mp (FdiskListing.fdiskFill_text hactive hinDev)
        exact ⟨st₂, hfill, hst₂⟩
  obtain ⟨st₂, hfill₂, hdisks₂⟩ := hfdisk
  have hlsblk : ∃ st₃, fillPt (some smartdiskScanFilter) (m.lsblk.map LsblkListing.text) st₂ = some st₃ ∧
      st₃.disks = st₂.disks.map (fillRows m.rowsRead) := by
    unfold rowsRead
    cases m.lsblk with
    | none => exact ⟨st₂, rfl, (map_id st₂.disks).symm⟩
    | some listing =>
      refine fillPt_text listing ?_
      rw [hdisks₂]
      exact diskNames_map (fillBlocks_name m.blocksRead) m.diskNames_scanned
  obtain ⟨st₃, hfill₃, hdisks₃⟩ := hlsblk
  have hlist : st₃.disks = m.enumerated.map m.entry := by
    rw [hdisks₃, hdisks₂, map_map, map_map]
    rfl
  unfold sarahGetDiskList system
  dsimp only
  rw [hscan, Option.bind_some, hfill₂, Option.bind_some, if_pos (by decide), hfill₃, Option.map_some, hlist]

/-! ## Partitions without a WWN of their own -/

/-- The row of a device among the blocks that are read. -/
structure Row (f : DevFile) (b : DiskBlock) (r : PartitionRow) : Prop where
  read : b ∈ m.blocksRead
  mem : r ∈ b.rows
  name : r.name = f.path

/-- **A partition without a WWN of its own**, with what stands in its place: its query failed and no block that is read
has a row for it; its query reported zeros; its table has no identifier, or one that reads like a failed query. -/
inductive Nameless (f : DevFile) : List UInt8 → Prop
  | failed (row : ∀ b r, ¬ m.Row f b r) (identity : f.identity = none) : Nameless f unknownWwn
  | zero (row : ∀ b r, ¬ m.Row f b r) {i : HdDriveid} (identity : f.identity = some i) (words : i.words = fun _ => 0) :
      Nameless f unknownWwn
  | unlabelled {b : DiskBlock} {r : PartitionRow} (row : m.Row f b r) (identifier : b.identifier = none) : Nameless f []
  | zeroLabel {b : DiskBlock} {r : PartitionRow} (row : m.Row f b r) (identifier : b.identifier = some unknownWwn) :
      Nameless f unknownWwn

/-- A partition that is to be mounted: it has an entry and blocks, and `lsblk` shows a format and no mount path. -/
structure Mountable (f : DevFile) : Prop where
  enumerated : f ∈ m.enumerated
  part : f.part ≠ none
  blocks : (∃ b r, m.Row f b r ∧ r.start ≤ r.stop) ∨ (∀ b r, ¬ m.Row f b r) ∧ ∃ n ∈ f.size, 0 < n
  format : ∃ r ∈ m.rowsRead, r.Fills f.path ∧ r.mount = []

/-- **Two partitions clash**: they belong to different disks, have one number, are to be mounted and have the same in
place of a WWN. -/
structure Clash (f g : DevFile) : Prop where
  disk : f.stem ≠ g.stem
  part : f.part = g.part
  left : m.Mountable f
  right : m.Mountable g
  nameless : ∃ wwn, m.Nameless f wwn ∧ m.Nameless g wwn

/-- **The property**: different partitions get different mount targets, in every pass over the list. -/
def MountsApart : Prop :=
  ∀ smartdisk answers list calls,
    sarahGetDiskList m.system [] 3 (some smartdiskScanFilter) = some (0, list) →
      mountDisks answers smartdisk list = some calls →
        ∀ f ∈ m.files, ∀ g ∈ m.files, f.part ≠ none → g.part ≠ none → f.dName ≠ g.dName →
          ∀ target, (f.path, target) ∈ calls → (g.path, target) ∉ calls

/-! ## The entry of a partition -/

variable {m} {b : DiskBlock} {r : PartitionRow}

theorem queries_failed (hb : b ∈ m.blocksRead) (hf : f ∈ m.enumerated) : f.identity = none := by
  unfold blocksRead at hb
  split_ifs at hb with hall
  · exact Option.isNone_iff_eq_none.mp (all_eq_true.mp hall f hf)
  · cases hb

theorem mem_listing (hb : b ∈ m.blocksRead) : ∃ listing ∈ m.fdisk, b ∈ listing.blocks := by
  unfold blocksRead at hb
  split_ifs at hb
  · cases hfdisk : m.fdisk with
    | none => rw [hfdisk] at hb; cases hb
    | some listing =>
      rw [hfdisk] at hb
      exact ⟨listing, rfl, listing.mem_of_parsed hb⟩
  · cases hb

theorem blocksRead_nodup (m : DiskMachine) : (m.blocksRead.flatMap DiskBlock.names).Nodup := by
  unfold blocksRead
  split_ifs
  · cases m.fdisk with
    | none => exact nodup_nil
    | some listing => exact listing.names_nodup.of_append_left
  · exact nodup_nil

theorem filled_of_row (h : m.Row f b r) :
    fillBlocks m.blocksRead f.scanned = r.fill (b.identifier.getD []) f.scanned := by
  have hname : f.scanned.name = r.name := f.scanned_name.trans h.name.symm
  have hmem : f.scanned.name ∈ b.names := hname ▸ mem_cons_of_mem _ (mem_map_of_mem h.mem)
  rw [fillBlocks_of_mem m.blocksRead_nodup h.read hmem]
  exact DiskBlock.fill_row ((nodup_flatMap.mp m.blocksRead_nodup).1 b h.read) h.mem hname

theorem filled_of_no_row (hf : f ∈ m.files) (hpart : f.part ≠ none) (h : ∀ b r, ¬ m.Row f b r) :
    fillBlocks m.blocksRead f.scanned = f.scanned := by
  refine fillBlocks_of_notMem fun hmem => ?_
  rw [f.scanned_name] at hmem
  obtain ⟨b, hb, hmem⟩ := mem_flatMap.mp hmem
  obtain ⟨listing, hlisting, hblock⟩ := mem_listing hb
  rcases mem_cons.mp hmem with hname | hmem
  · exact hpart (m.disks listing hlisting b hblock f hf hname.symm)
  · obtain ⟨r, hr, hname⟩ := mem_map.mp hmem
    exact h b r ⟨hb, hr, hname⟩

theorem entry_wwn (m : DiskMachine) (f : DevFile) : (m.entry f).wwn = (fillBlocks m.blocksRead f.scanned).wwn :=
  (fillRows_keep _ _).2.1

theorem entry_pBlocks (m : DiskMachine) (f : DevFile) :
    (m.entry f).pBlocks = (fillBlocks m.blocksRead f.scanned).pBlocks := (fillRows_keep _ _).2.2.1

theorem entry_name (m : DiskMachine) (f : DevFile) : (m.entry f).name = f.path :=
  (fillRows_keep _ _).1.trans ((fillBlocks_name _ _).trans f.scanned_name)

theorem fill_of_row (h : m.Row f b r) : r.fill (b.identifier.getD []) f.scanned =
    { f.scanned with wwn := b.identifier.getD [], pStart := r.start, pBlocks := r.stop + 1 - r.start,
                     pSize := u64 ((r.stop + 1 - r.start : ℕ) * 512) } :=
  if_pos (f.scanned_name.trans h.name.symm)

theorem entry_wwn_of_row (h : m.Row f b r) : (m.entry f).wwn = b.identifier.getD [] := by
  rw [entry_wwn, filled_of_row h, fill_of_row h]

theorem entry_pBlocks_of_row (h : m.Row f b r) : (m.entry f).pBlocks = r.stop + 1 - r.start := by
  rw [entry_pBlocks, filled_of_row h, fill_of_row h]

theorem entry_wwn_of_no_row (hf : f ∈ m.files) (hpart : f.part ≠ none) (h : ∀ b r, ¬ m.Row f b r) :
    (m.entry f).wwn = f.identity.elim unknownWwn fun i => wwnText i.words := by
  rw [entry_wwn, filled_of_no_row hf hpart h, f.scanned_wwn]

/-! ## Equal WWNs -/

theorem wwn_of_nameless (hf : f ∈ m.files) (hpart : f.part ≠ none) {wwn : List UInt8} (h : m.Nameless f wwn) :
    (m.entry f).wwn = wwn := by
  cases h with
  | failed row identity => rw [entry_wwn_of_no_row hf hpart row, identity, Option.elim_none]
  | zero row identity words => rw [entry_wwn_of_no_row hf hpart row, identity, Option.elim_some, words, wwnText_zero]
  | unlabelled row identifier => rw [entry_wwn_of_row row, identifier, Option.getD_none]
  | zeroLabel row identifier => rw [entry_wwn_of_row row, identifier, Option.getD_some]

theorem identifier_wellFormed (hb : b ∈ m.blocksRead) {wwn : List UInt8} (hwwn : b.identifier = some wwn) :
    wwn ≠ [] ∧ wwn.length ≤ 40 := by
  obtain ⟨listing, -, hblock⟩ := mem_listing hb
  obtain ⟨hne, hlen, -⟩ := (listing.wellFormed b hblock).identifier wwn hwwn
  exact ⟨hne, hlen⟩

/-- **Where the WWN of a partition comes from**: its query, the identifier of its table, or nowhere. -/
theorem wwn_cases (hf : f ∈ m.files) (hpart : f.part ≠ none) :
    (∃ i, (∀ b r, ¬ m.Row f b r) ∧ f.identity = some i ∧ (m.entry f).wwn = wwnText i.words) ∨
      (∃ b r, m.Row f b r ∧ b.identifier = some (m.entry f).wwn) ∨ m.Nameless f (m.entry f).wwn := by
  by_cases hrow : ∃ b r, m.Row f b r
  · obtain ⟨b, r, hrow⟩ := hrow
    rw [entry_wwn_of_row hrow]
    cases hid : b.identifier with
    | none => exact Or.inr (Or.inr (.unlabelled hrow hid))
    | some wwn => exact Or.inr (Or.inl ⟨b, r, hrow, hid⟩)
  · have hno : ∀ b r, ¬ m.Row f b r := fun b r h => hrow ⟨b, r, h⟩
    rw [entry_wwn_of_no_row hf hpart hno]
    cases hid : f.identity with
    | none => exact Or.inr (Or.inr (.failed hno hid))
    | some i => exact Or.inl ⟨i, hno, rfl, rfl⟩

theorem placeholder_of_nameless {wwn : List UInt8} (h : m.Nameless f wwn) : wwn = unknownWwn ∨ wwn = [] := by
  cases h with
  | failed | zero | zeroLabel => exact Or.inl rfl
  | unlabelled => exact Or.inr rfl

/-- What stands in place of a WWN does so only in a partition without one. -/
theorem nameless_of_placeholder (hf : f ∈ m.files) (hpart : f.part ≠ none)
    (h : (m.entry f).wwn = unknownWwn ∨ (m.entry f).wwn = []) : m.Nameless f (m.entry f).wwn := by
  rcases wwn_cases hf hpart with ⟨i, hno, hid, hwwn⟩ | ⟨b, r, hrow, hid⟩ | hnameless
  · rcases h with h | h
    · have hwords : i.words = fun _ => 0 := wwnText_inj (hwwn.symm.trans (h.trans wwnText_zero.symm))
      rw [h]
      exact .zero hno hid hwords
    · have hlen := length_wwnText i.words
      rw [← hwwn, h] at hlen
      cases hlen
  · rcases h with h | h
    · rw [h] at hid ⊢
      exact .zeroLabel hrow hid
    · exact absurd h (identifier_wellFormed hrow.read hid).1
  · exact hnameless

/-- **Partitions of different disks have one WWN only when neither has its own.** -/
theorem nameless_of_eq (hf : f ∈ m.enumerated) (hg : g ∈ m.enumerated) (hfpart : f.part ≠ none) (hgpart : g.part ≠ none)
    (hstem : f.stem ≠ g.stem) (h : (m.entry f).wwn = (m.entry g).wwn) : ∃ wwn, m.Nameless f wwn ∧ m.Nameless g wwn := by
  have hff := (m.mem_files hf).1
  have hgf := (m.mem_files hg).1
  rcases wwn_cases hff hfpart with ⟨i, -, hi, hiwwn⟩ | ⟨b, r, hrow, hid⟩ | hnameless
  · rcases wwn_cases hgf hgpart with ⟨j, -, hj, hjwwn⟩ | ⟨c, r, hrow, -⟩ | hnameless
    · have hwords := wwnText_inj (hiwwn.symm.trans (h.trans hjwwn))
      exact absurd (m.wwns f hff g hgf i hi j hj hwords) hstem
    · have hnone := queries_failed hrow.read hf
      rw [hi] at hnone
      cases hnone
    · have hplace := placeholder_of_nameless hnameless
      rw [← h] at hnameless hplace
      exact ⟨_, nameless_of_placeholder hff hfpart hplace, hnameless⟩
  · rcases wwn_cases hgf hgpart with ⟨j, -, hj, -⟩ | ⟨c, r', hrow', hid'⟩ | hnameless
    · have hnone := queries_failed hrow.read hg
      rw [hj] at hnone
      cases hnone
    · obtain ⟨listing, hlisting, hb⟩ := mem_listing hrow.read
      obtain ⟨listing', hlisting', hc⟩ := mem_listing hrow'.read
      obtain rfl := Option.mem_unique hlisting hlisting'
      obtain rfl := m.identifiers listing hlisting b hb c hc _ hid (h ▸ hid')
      have hstems := (m.rows listing hlisting b hb r hrow.mem f hff hrow.name).symm.trans
        (m.rows listing hlisting b hb r' hrow'.mem g hgf hrow'.name)
      exact absurd (append_cancel_left hstems) hstem
    · have hplace := placeholder_of_nameless hnameless
      rw [← h] at hnameless hplace
      exact ⟨_, nameless_of_placeholder hff hfpart hplace, hnameless⟩
  · have hplace := placeholder_of_nameless hnameless
    rw [h] at hnameless hplace
    exact ⟨_, hnameless, nameless_of_placeholder hgf hgpart hplace⟩

/-! ## Which partitions are mounted -/

theorem fillBlocks_kept (bs : List DiskBlock) (disk : SarahDisk) :
    (fillBlocks bs disk).partNo = disk.partNo ∧ (fillBlocks bs disk).format = disk.format ∧
      (fillBlocks bs disk).mount = disk.mount := by
  refine fillBlocks_invariant (P := fun d => d.partNo = disk.partNo ∧ d.format = disk.format ∧ d.mount = disk.mount)
    ?_ ?_ ⟨rfl, rfl, rfl⟩
  · intro b _ d hd
    unfold DiskBlock.fillHeader
    split
    · exact hd
    · split_ifs <;> exact hd
  · intro b _ r d hd
    unfold PartitionRow.fill
    split_ifs <;> exact hd

theorem entry_wwn_length (m : DiskMachine) (f : DevFile) : (m.entry f).wwn.length ≤ 40 := by
  rw [entry_wwn]
  refine fillBlocks_invariant (P := fun d => d.wwn.length ≤ 40) ?_ ?_ ?_
  · intro b hb d hd
    unfold DiskBlock.fillHeader
    split
    · exact hd
    · rename_i wwn hwwn
      split_ifs
      · exact (identifier_wellFormed hb hwwn).2
      · exact hd
  · intro b hb r d hd
    unfold PartitionRow.fill
    split_ifs
    · cases hid : b.identifier with
      | none => exact Nat.zero_le 40
      | some wwn => exact (identifier_wellFormed hb hid).2
    · exact hd
  · rw [f.scanned_wwn]
    cases f.identity with
    | none => decide
    | some i => rw [Option.elim_some, length_wwnText]; decide

theorem number_range (f : DevFile) : -2 ^ 31 ≤ f.number ∧ f.number < 2 ^ 31 := by
  unfold DevFile.number
  dsimp only
  split_ifs
  · decide
  · exact i32_range _

theorem entry_partNo (hf : f ∈ m.enumerated) {k : ℕ} (hk : f.part = some k) : (m.entry f).partNo = k := by
  have hnumber := DevFile.number_eq (m.wellFormed_of_enumerated hf) hk
  have hfilled : (fillBlocks m.blocksRead f.scanned).partNo = k := by
    rw [(fillBlocks_kept _ _).1, f.scanned_partNo, hnumber]
  rw [← hfilled]
  exact (fillRows_keep _ _).2.2.2 (by rw [hfilled]; omega)

theorem entry_partNo_range (m : DiskMachine) (f : DevFile) :
    -2 ^ 31 ≤ (m.entry f).partNo ∧ (m.entry f).partNo < 2 ^ 31 := by
  have hfilled : (fillBlocks m.blocksRead f.scanned).partNo = f.number := by
    rw [(fillBlocks_kept _ _).1, f.scanned_partNo]
  have hrange := number_range f
  unfold entry fillRows
  rw [← hfilled] at hrange
  refine foldlRecOn (motive := fun d : SarahDisk => -2 ^ 31 ≤ d.partNo ∧ d.partNo < 2 ^ 31) m.rowsRead _ hrange
    fun d hd r _ => ?_
  unfold LsblkRow.fill
  split_ifs
  · unfold LsblkRow.store
    dsimp only
    split_ifs
    · decide
    · exact hd
  · exact hd

theorem rows_agree (m : DiskMachine) : ∀ r ∈ m.rowsRead, ∀ r' ∈ m.rowsRead, r.device = r'.device →
    r.format = r'.format ∧ r.mount = r'.mount := by
  unfold rowsRead
  cases m.lsblk with
  | none => exact fun _ h => by cases h
  | some listing => exact listing.agree

/-- The entry of a partition has a format and no mount path when a row of `lsblk` says so. -/
theorem entry_format (m : DiskMachine) (f : DevFile) :
    (1 < (m.entry f).format.length ∧ (m.entry f).mount = []) ↔ ∃ r ∈ m.rowsRead, r.Fills f.path ∧ r.mount = [] := by
  obtain ⟨-, hformat, hmount⟩ := fillBlocks_kept m.blocksRead f.scanned
  rw [f.scanned_format] at hformat
  rw [f.scanned_mount] at hmount
  have hname : (fillBlocks m.blocksRead f.scanned).name = f.path := (fillBlocks_name _ _).trans f.scanned_name
  have hfilled : ∀ r ∈ m.rowsRead, r.Fills f.path →
      (m.entry f).format = r.format ∧ (m.entry f).mount = r.mount := by
    intro r hr hfills
    refine fillRows_format ?_ (Or.inl ⟨⟨r, hr, hname.symm ▸ hfills⟩, hformat, hmount⟩)
    intro r' hr' hfills'
    rw [hname] at hfills'
    exact m.rows_agree r' hr' r hr (append_cancel_left (hfills'.1.symm.trans hfills.1))
  constructor
  · rintro ⟨hlen, hnone⟩
    by_contra hno
    have hkeep : ∀ r ∈ m.rowsRead, ¬ r.Fills (fillBlocks m.blocksRead f.scanned).name := by
      rw [hname]
      intro r hr hfills
      exact hno ⟨r, hr, hfills, (hfilled r hr hfills).2.symm.trans hnone⟩
    rw [entry, fillRows_of_not_fills hkeep, hformat] at hlen
    exact absurd hlen (by decide)
  · rintro ⟨r, hr, hfills, hnone⟩
    obtain ⟨h₁, h₂⟩ := hfilled r hr hfills
    rw [h₁, h₂]
    exact ⟨hfills.2.1, hnone⟩

theorem entry_blocks (hf : f ∈ m.files) (hpart : f.part ≠ none) :
    0 < (m.entry f).pBlocks ↔
      (∃ b r, m.Row f b r ∧ r.start ≤ r.stop) ∨ (∀ b r, ¬ m.Row f b r) ∧ ∃ n ∈ f.size, 0 < n := by
  constructor
  · intro h
    by_cases hrow : ∃ b r, m.Row f b r
    · obtain ⟨b, r, hrow⟩ := hrow
      rw [entry_pBlocks_of_row hrow] at h
      exact Or.inl ⟨b, r, hrow, by omega⟩
    · have hno : ∀ b r, ¬ m.Row f b r := fun b r h => hrow ⟨b, r, h⟩
      rw [entry_pBlocks, filled_of_no_row hf hpart hno, f.scanned_pBlocks] at h
      refine Or.inr ⟨hno, ?_⟩
      cases hsize : f.size with
      | none => rw [hsize] at h; exact absurd h (by decide)
      | some n => rw [hsize] at h; exact ⟨n, rfl, h⟩
  · rintro (⟨b, r, hrow, hle⟩ | ⟨hno, n, hn, hpos⟩)
    · rw [entry_pBlocks_of_row hrow]
      omega
    · rw [entry_pBlocks, filled_of_no_row hf hpart hno, f.scanned_pBlocks, hn]
      exact hpos

theorem needsMount_entry (hf : f ∈ m.enumerated) (hpart : f.part ≠ none) :
    needsMount (m.entry f) = true ↔ m.Mountable f := by
  obtain ⟨k, hk⟩ := Option.ne_none_iff_exists'.mp hpart
  have hnumber := entry_partNo hf hk
  have hblocks := entry_blocks (m.mem_files hf).1 hpart
  rw [needsMount_iff, hblocks, m.entry_format]
  constructor
  · rintro ⟨-, hblocks, hformat⟩
    exact ⟨hf, hpart, hblocks, hformat⟩
  · rintro ⟨-, -, hblocks, hformat⟩
    exact ⟨by omega, hblocks, hformat⟩

/-! ## Mount targets -/

theorem dName_of_entry (hf : f ∈ m.files) {g : DevFile} (hg : g ∈ m.files) (h : (m.entry g).name = f.path) : g = f := by
  rw [entry_name] at h
  exact inj_on_of_nodup_map m.nodup hg hf (append_cancel_left h)

/-- A device that is mounted is in the list and its target is that of its entry. -/
theorem call_of_mem {smartdisk : Smartdisk} {answers : SarahDisk → MountAnswers}
    {calls : List (List UInt8 × List UInt8)}
    (hcalls : mountDisks answers smartdisk (m.enumerated.map m.entry) = some calls) (hf : f ∈ m.files)
    {target : List UInt8} (hmem : (f.path, target) ∈ calls) :
    ∃ base, trimSlashes smartdisk.mountBasedir = some base ∧ f ∈ m.enumerated ∧ needsMount (m.entry f) = true ∧
      target = mountTarget smartdisk base (m.entry f) := by
  obtain ⟨base, hbase, disk, hdisk, hname, hneeds, htarget⟩ := mem_mountDisks hcalls hmem
  obtain ⟨g, hg, rfl⟩ := mem_map.mp hdisk
  obtain rfl := dName_of_entry hf (m.mem_files hg).1 hname
  exact ⟨base, hbase, hg, hneeds, htarget⟩

theorem dName_eq_of (hstem : f.stem = g.stem) (hpart : f.part = g.part) : f.dName = g.dName := by
  unfold DevFile.dName DevFile.parent
  rw [hstem, hpart]

theorem not_apart_of_clash (h : m.Clash f g) : ¬ m.MountsApart := by
  intro happart
  have hf := h.left.enumerated
  have hg := h.right.enumerated
  have hff := (m.mem_files hf).1
  have hgf := (m.mem_files hg).1
  obtain ⟨k, hk⟩ := Option.ne_none_iff_exists'.mp h.left.part
  obtain ⟨wwn, hfwwn, hgwwn⟩ := h.nameless
  have hwwn : (m.entry f).wwn = (m.entry g).wwn :=
    (wwn_of_nameless hff h.left.part hfwwn).trans (wwn_of_nameless hgf h.right.part hgwwn).symm
  have hpart : (m.entry f).partNo = (m.entry g).partNo :=
    (entry_partNo hf hk).trans (entry_partNo hg (h.part ▸ hk)).symm
  have htarget : mountTarget ⟨lit "/data/", lit "sarah_"⟩ (lit "/data") (m.entry f) =
      mountTarget ⟨lit "/data/", lit "sarah_"⟩ (lit "/data") (m.entry g) := by
    unfold mountTarget
    rw [hwwn, hpart]
  have hfits : ∀ disk ∈ m.enumerated.map m.entry,
      (mountTarget ⟨lit "/data/", lit "sarah_"⟩ (lit "/data") disk).length < 156 := by
    intro disk hdisk
    obtain ⟨d, -, rfl⟩ := mem_map.mp hdisk
    have hlen := m.entry_wwn_length d
    have hrange := m.entry_partNo_range d
    have hdecimal := decimalInt_length_le (n := (m.entry d).partNo) (by omega) (by omega)
    simp only [mountTarget, length_append]
    rw [show (lit "/data").length = 5 from rfl, show (lit "/").length = 1 from rfl,
      show (lit "sarah_").length = 6 from rfl, show (lit "_part").length = 5 from rfl]
    omega
  obtain ⟨calls, hcalls, hmem⟩ :=
    mountDisks_calls (by decide) (show trimSlashes (lit "/data/") = some (lit "/data") by decide)
    hfits
  have hfneeds := (needsMount_entry hf h.left.part).mpr h.left
  have hgneeds := (needsMount_entry hg h.right.part).mpr h.right
  have hfcall := hmem _ (mem_map_of_mem hf) hfneeds
  have hgcall := hmem _ (mem_map_of_mem hg) hgneeds
  rw [entry_name] at hfcall hgcall
  have hne : f.dName ≠ g.dName := by
    intro hname
    obtain rfl := inj_on_of_nodup_map m.nodup hff hgf hname
    exact h.disk rfl
  rw [← htarget] at hgcall
  exact happart _ _ _ _ m.getDiskList_eq hcalls f hff g hgf h.left.part h.right.part hne _ hfcall hgcall

/-- **Partitions get different mount targets exactly when no two of them clash.** -/
theorem mounts_apart_iff (m : DiskMachine) : m.MountsApart ↔ ∀ f ∈ m.files, ∀ g ∈ m.files, ¬ m.Clash f g := by
  constructor
  · intro happart f _ g _ hclash
    exact not_apart_of_clash hclash happart
  · intro hno smartdisk answers list calls hlist hcalls f hff g hgf hfpart hgpart hne target hfcall hgcall
    rw [m.getDiskList_eq] at hlist
    obtain rfl := (Prod.mk.inj (Option.some.inj hlist)).2
    obtain ⟨base, hbase, hf, hfneeds, hftarget⟩ := call_of_mem hcalls hff hfcall
    obtain ⟨base', hbase', hg, hgneeds, hgtarget⟩ := call_of_mem hcalls hgf hgcall
    obtain rfl := Option.some.inj (hbase.symm.trans hbase')
    have hfpos := ((needsMount_iff _).mp hfneeds).1
    have hgpos := ((needsMount_iff _).mp hgneeds).1
    obtain ⟨hwwn, hpartNo⟩ := (mountTarget_inj smartdisk base (by omega) (by omega)).mp (hftarget.symm.trans hgtarget)
    obtain ⟨k, hk⟩ := Option.ne_none_iff_exists'.mp hfpart
    obtain ⟨l, hl⟩ := Option.ne_none_iff_exists'.mp hgpart
    have hpart : f.part = g.part := by
      rw [entry_partNo hf hk, entry_partNo hg hl] at hpartNo
      rw [hk, hl, Int.ofNat_inj.mp hpartNo]
    have hstem : f.stem ≠ g.stem := fun hstem => hne (dName_eq_of hstem hpart)
    exact hno f hff g hgf
      { disk := hstem
        part := hpart
        left := (needsMount_entry hf hfpart).mp hfneeds
        right := (needsMount_entry hg hgpart).mp hgneeds
        nameless := nameless_of_eq hf hg hfpart hgpart hstem hwwn }

/-- A device of a SCSI disk with 2048 blocks. -/
def sdFile (letter : UInt8) (part : Option ℕ) (identity : Option HdDriveid) : DevFile :=
  { stem := lit "sd" ++ [letter], part := part, isBlk := true, opens := true, identity := identity, geometry := none,
    size := some 2048 }

/-- A partition of the format `ext4` that is not mounted. -/
def ext4Row (device : List UInt8) : LsblkRow :=
  { device := device, gap := lit " ", format := lit "ext4", sep := [], mount := [], tail := [] }

theorem ext4Row_wellFormed (letter : UInt8) (hletter : letter ∈ lit "bc") :
    (ext4Row (lit "sd" ++ [letter] ++ lit "1")).WellFormed := by
  rw [show lit "bc" = [98, 99] from rfl, mem_cons, mem_singleton] at hletter
  rcases hletter with rfl | rfl <;> exact {
    line := by decide
    device := by decide +kernel
    named := by decide
    gap := by decide +kernel
    format := by decide +kernel
    apart := by decide
    formatFits := by decide
    sep := by decide +kernel
    mount := by decide +kernel
    mounted := by decide
    mountFits := by decide
    tail := by decide +kernel
    blank := by decide +kernel }

/-- Two partitions that are not mounted. -/
def twoRows : LsblkListing where
  header := lit "NAME FSTYPE MOUNTPOINT"
  rows := [ext4Row (lit "sdb1"), ext4Row (lit "sdc1")]
  headerLine := line_header
  wellFormed := forall_mem_cons.mpr ⟨ext4Row_wellFormed 98 (by decide),
    forall_mem_singleton.mpr (ext4Row_wellFormed 99 (by decide))⟩
  agree := by decide

/-- The query of `sda` succeeds, those of the partitions of two other disks fail. -/
def mixedMachine : DiskMachine where
  files := [sdFile 97 none (some ⟨[], [], fun _ => 1⟩), sdFile 98 (some 1) none, sdFile 99 (some 1) none]
  fdisk := none
  lsblk := some twoRows
  nodup := by decide
  wellFormed := by
    intro f hf _
    simp only [mem_cons, not_mem_nil, or_false] at hf
    rcases hf with rfl | rfl | rfl <;> exact ⟨by decide, by decide, by decide, by decide⟩
  wwns := by
    intro f hf g hg i hi j hj _
    simp only [mem_cons, not_mem_nil, or_false] at hf hg
    rcases hf with rfl | rfl | rfl
    · rcases hg with rfl | rfl | rfl
      · rfl
      · cases hj
      · cases hj
    · cases hi
    · cases hi
  identifiers := fun _ h => by cases h
  disks := fun _ h => by cases h
  rows := fun _ h => by cases h

theorem mixedMachine_no_row (f : DevFile) (b : DiskBlock) (r : PartitionRow) : ¬ mixedMachine.Row f b r := by
  intro h
  have hread := h.read
  unfold blocksRead at hread
  split_ifs at hread <;> cases hread

theorem mixedMachine_mountable {letter : UInt8} (hletter : letter ∈ lit "bc") :
    mixedMachine.Mountable (sdFile letter (some 1) none) := by
  rw [show lit "bc" = [98, 99] from rfl, mem_cons, mem_singleton] at hletter
  have hblocks : ∃ n ∈ (some 2048 : Option ℕ), 0 < n := ⟨2048, rfl, by decide⟩
  rcases hletter with rfl | rfl
  · exact {
      enumerated := mem_filter.mpr ⟨mem_cons_of_mem _ mem_cons_self, by decide⟩
      part := fun h => by cases h
      blocks := Or.inr ⟨mixedMachine_no_row _, hblocks⟩
      format := ⟨ext4Row (lit "sdb1"), mem_cons_self, by decide, rfl⟩ }
  · exact {
      enumerated := mem_filter.mpr ⟨mem_cons_of_mem _ (mem_cons_of_mem _ mem_cons_self), by decide⟩
      part := fun h => by cases h
      blocks := Or.inr ⟨mixedMachine_no_row _, hblocks⟩
      format := ⟨ext4Row (lit "sdc1"), mem_cons_of_mem _ mem_cons_self, by decide, rfl⟩ }

/-- When one query succeeds, two partitions whose queries fail get one target. -/
theorem not_mounts_apart : ¬ ∀ m : DiskMachine, m.MountsApart := by
  intro h
  refine not_apart_of_clash (f := sdFile 98 (some 1) none) (g := sdFile 99 (some 1) none) ?_ (h mixedMachine)
  exact {
    disk := by decide
    part := rfl
    left := mixedMachine_mountable (by decide)
    right := mixedMachine_mountable (by decide)
    nameless := ⟨unknownWwn, .failed (mixedMachine_no_row _) rfl, .failed (mixedMachine_no_row _) rfl⟩ }

end DiskMachine

end Sarah
