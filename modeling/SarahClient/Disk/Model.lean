import SarahClient.Lib.Stdio
import SarahClient.Md5.Model
import Mathlib.Data.List.DropRight
import Mathlib.Data.List.Infix

/-!
# The disk list: `sarah_get_disk_list` of `disk.c` and the mounting of `app_smartdisk.c`

A write past the end of a buffer, and a read before its start, is `none`. Allocations succeed. The fields that `statvfs`
fills are left out.

* `SarahDisk`, `DiskDevice`: an entry of the list; a file of `/dev/` with what the queries answer;
* `sarahGetDiskList`: `scanDevices` over `/dev/`, `fdiskFill` from `fdisk -l`, `fillPt` from `lsblk`;
* `sarahDiskMount`, `mountDisks`: the mount targets.
-/

namespace Sarah

open Stdio

/-- Conversion to `unsigned long`. -/
def u64 (n : ℤ) : ℕ := (n % 2 ^ 64).toNat

/-- `struct sarah_disk_entry`; the character arrays by the C strings that they hold. -/
structure SarahDisk where
  wwn : List UInt8 := []
  serialNo : List UInt8 := []
  model : List UInt8 := []
  name : List UInt8 := []
  format : List UInt8 := []
  mount : List UInt8 := []
  partNo : ℤ := 0
  pStart : ℕ := 0
  pBlocks : ℕ := 0
  pSize : ℕ := 0
  deriving DecidableEq

/-- A filter of the disk list, with the step that it is called in. -/
abbrev DiskFilter := SarahDisk → ℤ → ℤ

/-- `SARAH_DISK_FILL_PT`. -/
def fillPtMask : ℕ := 1

/-! ## The files of `/dev/` -/

/-- What `HDIO_GET_IDENTITY` reports; `words` are the words 108 to 111. -/
structure HdDriveid where
  serialNo : List UInt8
  model : List UInt8
  words : Fin 4 → UInt16

/-- A file of `/dev/`: `isBlk` for `DT_BLK`, and what `open` and the three `ioctl`s answer. -/
structure DiskDevice where
  dName : List UInt8
  isBlk : Bool
  opens : Bool
  identity : Option HdDriveid
  geometry : Option ℕ
  size : Option ℕ

/-- `%04x` of a word of 16 bits. -/
def hexWord (w : UInt16) : List UInt8 :=
  [hexDigit (w.toNat / 4096), hexDigit (w.toNat / 256 % 16), hexDigit (w.toNat / 16 % 16), hexDigit (w.toNat % 16)]

/-- The text of the WWN words, `0x%04x%04x%04x%04x`. -/
def wwnText (words : Fin 4 → UInt16) : List UInt8 :=
  lit "0x" ++ hexWord (words 0) ++ hexWord (words 1) ++ hexWord (words 2) ++ hexWord (words 3)

/-- `_get_tailing_integer`: its code and `*integer`; the buffer has 12 bytes, the last one for the NUL. -/
def getTailingInteger (src : List UInt8) (integer : ℤ) : Option (ℤ × ℤ) :=
  let digits := src.rtakeWhile isdigit
  if digits = [] then some (1, integer)
  else if 12 ≤ digits.length then none
  else some (0, atoi (digits ++ List.replicate (12 - digits.length) 0))

/-- `cel_right_trim`, which leaves a string of blanks alone. -/
def celRightTrim (str : List UInt8) : List UInt8 :=
  let kept := str.rdropWhile fun c => c = 32 ∨ c = 9 ∨ c = 13
  if kept = [] then str else kept

/-- The locals of `sarah_get_disk_list` and the list. -/
structure DiskScan where
  disks : List SarahDisk
  dtp : SarahDisk := {}
  activeBackupStrategy : Bool := true
  partNo : ℤ := 0
  blockSize : ℤ := 0

/-- What the queries of an open device fill in. -/
def fillQueries (dev : DiskDevice) (dtp : SarahDisk) : SarahDisk :=
  let dtp := match dev.identity with
    | none => { dtp with
        serialNo := lit "0x00000000", model := lit "Unknow model", wwn := lit "0x0000000000000000" }
    | some drive => { dtp with
        serialNo := cstr drive.serialNo, model := cstr drive.model, wwn := wwnText drive.words }
  let dtp := match dev.geometry with
    | none => dtp
    | some start => { dtp with pStart := start }
  match dev.size with
  | none => dtp
  | some blockSize => { dtp with pBlocks := blockSize, pSize := u64 (blockSize * 512) }

/-- The entry of a device, whose name and number stand in `dtp`: the filter, `open` and the queries. -/
def addDevice (filter : Option DiskFilter) (dev : DiskDevice) (st : DiskScan) : DiskScan :=
  if filter.any (fun f => 0 < f st.dtp (-1)) then st
  else if !dev.opens then st
  else
    let dtp := fillQueries dev st.dtp
    let disk := { dtp with serialNo := celRightTrim dtp.serialNo, model := celRightTrim dtp.model }
    { st with
      dtp := dtp
      disks := st.disks ++ [disk]
      activeBackupStrategy := st.activeBackupStrategy && dev.identity.isNone
      blockSize := match dev.size with
        | none => st.blockSize
        | some size => size }

/-- The pass over `/dev/` for one file. -/
def scanDevice (filter : Option DiskFilter) (st : DiskScan) (dev : DiskDevice) : Option DiskScan :=
  if dev.dName = lit "." ∨ dev.dName = lit ".." ∨ !dev.isBlk then some st
  else
    (getTailingInteger dev.dName st.partNo).map fun r : ℤ × ℤ =>
      let dtp := { name := lit "/dev/" ++ dev.dName.take 58, partNo := if r.1 = 0 then r.2 else -1 }
      addDevice filter dev { st with dtp := dtp, partNo := r.2 }

/-- The loop of `sarah_disk_scan_all` over the directory. -/
def scanDevices (filter : Option DiskFilter) (st : DiskScan) (devices : List DiskDevice) : Option DiskScan :=
  devices.foldlM (scanDevice filter) st

/-! ## The listing of `fdisk -l`

The functions take the lines that are still to be read, each as the C string that `fgets` leaves in `buffer`. -/

/-- `"Disk %63[^:]:%*[^,], %lld%*[^,], %lld"` -/
def headerFormat : List Directive :=
  [.lit (lit "Disk"), .space, .set (fun c => c ≠ 58) (some 63) true, .lit (lit ":"), .set (fun c => c ≠ 44) none false,
    .lit (lit ","), .space, .int, .set (fun c => c ≠ 44) none false, .lit (lit ","), .space, .int]

/-- `"%*[^:]: %s"` -/
def identifierFormat : List Directive := [.set (fun c => c ≠ 58) none false, .lit (lit ":"), .space, .str none]

/-- `"%63s%*[^0-9]%ld %lld"` -/
def partitionFormat : List Directive := [.str (some 63), .set (fun c => !isdigit c) none false, .int, .space, .int]

/-- Try to detect the disk identifier: its line, and the lines behind the last one read. -/
def detectIdentifier : List (List UInt8) → Option (List UInt8) × List (List UInt8)
  | [] => (none, [])
  | buffer :: lines =>
    if strncmpEq buffer (lit "Disk id") 7 then (some buffer, lines)
    else if buffer.length < 2 then (none, lines)
    else detectIdentifier lines

/-- Clear all the empty lines; the line that ends them is left for the next loop (`read_line`). -/
def clearEmpty (lines : List (List UInt8)) : List (List UInt8) := lines.dropWhile fun buffer => buffer.length ≤ 1

/-- Try to detect the partitions of the disk. -/
def detectDevice : List (List UInt8) → Bool × List (List UInt8)
  | [] => (false, [])
  | buffer :: lines =>
    if lit "Device" <:+: buffer then (true, lines)
    else if buffer.length < 2 then (false, lines)
    else detectDevice lines

/-- Override the entries of the disk with what its block says. -/
def overrideDisk (dtp disk : SarahDisk) : SarahDisk :=
  if disk.name = dtp.name then { disk with wwn := dtp.wwn, pSize := dtp.pSize, pBlocks := dtp.pBlocks } else disk

/-- Override the entries of the partition. -/
def overridePartition (dtp disk : SarahDisk) : SarahDisk :=
  if disk.name = dtp.name then
    { disk with wwn := dtp.wwn, pStart := dtp.pStart, pBlocks := dtp.pBlocks, pSize := dtp.pSize }
  else disk

/-- One line of a partition table. -/
def scanPartition (st : DiskScan) (buffer : List UInt8) : DiskScan :=
  let values := sscanf partitionFormat buffer
  let pStart := u64 (intAt values 1 st.dtp.pStart)
  let blockSize := intAt values 2 st.blockSize
  let pBlocks := u64 (blockSize - pStart + 1)
  let dtp := { st.dtp with
    name := textAt values 0 st.dtp.name, pStart := pStart, pBlocks := pBlocks, pSize := u64 (pBlocks * 512) }
  { st with dtp := dtp, blockSize := blockSize, disks := st.disks.map (overridePartition dtp) }

/-- Scan all the partitions. -/
def scanPartitions : DiskScan → List (List UInt8) → DiskScan × List (List UInt8)
  | st, [] => (st, [])
  | st, buffer :: lines => if buffer.length < 2 then (st, lines) else scanPartitions (scanPartition st buffer) lines

/-- The header line of a disk. -/
def scanHeader (buffer : List UInt8) : SarahDisk :=
  let values := sscanf headerFormat buffer
  { name := textAt values 0 [], pSize := u64 (intAt values 1 0), pBlocks := u64 (intAt values 2 0) }

/-- The identifier of the disk, written into `wwn[41]`. -/
def scanIdentifier (st : DiskScan) : Option (List UInt8) → Option DiskScan
  | none => some st
  | some buffer =>
    let dtp := { st.dtp with wwn := textAt (sscanf identifierFormat buffer) 0 st.dtp.wwn }
    if 41 ≤ dtp.wwn.length then none else some { st with dtp := dtp, disks := st.disks.map (overrideDisk dtp) }

/-- The partition table, if there is one. -/
def scanTable (st : DiskScan) (lines : List (List UInt8)) : DiskScan × List (List UInt8) :=
  let table := detectDevice (clearEmpty lines)
  if table.1 then scanPartitions st table.2 else (st, table.2)

/-- From the header line of a disk to the line that ends its block. -/
def scanDisk (st : DiskScan) (buffer : List UInt8) (lines : List (List UInt8)) :
    Option (DiskScan × List (List UInt8)) :=
  let found := detectIdentifier lines
  (scanIdentifier { st with dtp := scanHeader buffer } found.1).map fun st => scanTable st found.2

theorem detectIdentifier_length_le (lines : List (List UInt8)) : (detectIdentifier lines).2.length ≤ lines.length := by
  induction lines with
  | nil => exact le_rfl
  | cons buffer lines ih =>
    unfold detectIdentifier
    split_ifs
    · exact Nat.le_succ _
    · exact Nat.le_succ _
    · exact ih.trans (Nat.le_succ _)

theorem detectDevice_length_le (lines : List (List UInt8)) : (detectDevice lines).2.length ≤ lines.length := by
  induction lines with
  | nil => exact le_rfl
  | cons buffer lines ih =>
    unfold detectDevice
    split_ifs
    · exact Nat.le_succ _
    · exact Nat.le_succ _
    · exact ih.trans (Nat.le_succ _)

theorem scanPartitions_length_le (st : DiskScan) (lines : List (List UInt8)) :
    (scanPartitions st lines).2.length ≤ lines.length := by
  induction lines generalizing st with
  | nil => exact le_rfl
  | cons buffer lines ih =>
    unfold scanPartitions
    split_ifs
    · exact Nat.le_succ _
    · exact (ih _).trans (Nat.le_succ _)

theorem scanTable_length_le (st : DiskScan) (lines : List (List UInt8)) :
    (scanTable st lines).2.length ≤ lines.length := by
  have hclear : (clearEmpty lines).length ≤ lines.length := List.length_dropWhile_le _ _
  have hdevice := detectDevice_length_le (clearEmpty lines)
  unfold scanTable
  dsimp only
  split_ifs
  · exact (scanPartitions_length_le _ _).trans (hdevice.trans hclear)
  · exact hdevice.trans hclear

theorem scanDisk_length_le {st st' : DiskScan} {buffer : List UInt8} {lines rest : List (List UInt8)}
    (h : scanDisk st buffer lines = some (st', rest)) : rest.length ≤ lines.length := by
  unfold scanDisk at h
  obtain ⟨st₁, -, heq⟩ := Option.map_eq_some_iff.mp h
  have htable := scanTable_length_le st₁ (detectIdentifier lines).2
  rw [heq] at htable
  exact htable.trans (detectIdentifier_length_le lines)

/-- The loop over the output of `fdisk -l`. -/
def fdiskLoop (st : DiskScan) : List (List UInt8) → Option DiskScan
  | [] => some st
  | buffer :: lines =>
    if !strncmpEq buffer (lit "Disk") 4 then fdiskLoop st lines
    else
      match _h : scanDisk st buffer lines with
      | none => none
      | some (st', rest) => fdiskLoop st' rest
  termination_by lines => lines.length
  decreasing_by
  · exact Nat.lt_succ_self _
  · exact Nat.lt_succ_of_le (scanDisk_length_le _h)

/-- The backup hardware information fill; `fdisk` is `none` when `popen` fails. -/
def fdiskFill (fdisk : Option (List UInt8)) (st : DiskScan) : Option DiskScan :=
  if st.activeBackupStrategy then
    match fdisk with
    | none => some st
    | some text => fdiskLoop st (fgetsAll 256 text)
  else some st

/-! ## The listing of `lsblk` -/

/-- `"%63s %15s %155s"` -/
def lsblkFormat : List Directive := [.str (some 63), .space, .str (some 15), .space, .str (some 155)]

/-- `memcpy` of a C string, without its NUL, over a C string. -/
def overlay (s old : List UInt8) : List UInt8 := s ++ old.drop s.length

/-- Fill the first entry of the device. -/
def fillFormat (device format mount : List UInt8) : List SarahDisk → List SarahDisk
  | [] => []
  | disk :: disks =>
    if strncmpEq disk.name (lit "/dev/") 5 ∧ disk.name.drop 5 = device then
      { disk with
        format := overlay format disk.format
        mount := if 0 < mount.length then overlay mount disk.mount else disk.mount
        partNo := if disk.partNo = -1 ∧ 1 < format.length then 0 else disk.partNo } :: disks
    else disk :: fillFormat device format mount disks

/-- One line of `lsblk`; `device` has 48 bytes and `mount` 64. -/
def fillLine (filter : Option DiskFilter) (st : DiskScan) (buffer : List UInt8) : Option DiskScan :=
  let values := sscanf lsblkFormat buffer
  let device := textAt values 0 []
  let format := textAt values 1 []
  let mount := textAt values 2 []
  if 48 ≤ device.length ∨ 64 ≤ mount.length then none
  else if format.length < 2 then some st
  else
    let st := { st with dtp := { st.dtp with format := format } }
    if filter.any (fun f => f st.dtp fillPtMask ≠ 0) then some st
    else some { st with disks := fillFormat device format mount st.disks }

/-- The partition information, behind the header line of `lsblk`; `lsblk` is `none` when `popen` fails. -/
def fillPt (filter : Option DiskFilter) (lsblk : Option (List UInt8)) (st : DiskScan) : Option DiskScan :=
  match lsblk with
  | none => some st
  | some text => (fgetsAll 256 text).tail.foldlM (fillLine filter) st

/-! ## The disk list -/

/-- What the system answers: the files of `/dev/` and the output of the commands. -/
structure DiskSystem where
  dev : Option (List DiskDevice)
  fdisk : Option (List UInt8)
  lsblk : Option (List UInt8)

/-- `sarah_get_disk_list`: its code and the list. -/
def sarahGetDiskList (sys : DiskSystem) (list : List SarahDisk) (mask : ℕ) (filter : Option DiskFilter) :
    Option (ℤ × List SarahDisk) :=
  match sys.dev with
  | none => some (1, list)
  | some devices =>
    (scanDevices filter { disks := list } devices).bind fun st => (fdiskFill sys.fdisk st).bind fun st =>
      (if mask &&& fillPtMask ≠ 0 then fillPt filter sys.lsblk st else some st).map fun st => (0, st.disks)

/-- `tolower` in the C locale. -/
def tolower (c : UInt8) : UInt8 := if 65 ≤ c.toNat ∧ c.toNat ≤ 90 then c + 32 else c

/-- `all_types` -/
def allTypes : List (List UInt8) :=
  [lit "fat16", lit "fat32", lit "ntfs", lit "exfat", lit "hpfs", lit "ext2", lit "ext3", lit "ext4", lit "vfat",
    lit "jfs", lit "xfs"]

/-- `sarah_is_valid_disk_type`; `len` is 10. -/
def sarahIsValidDiskType (type : List UInt8) : ℤ := if type.map tolower ∈ allTypes.take 10 then 0 else 1

/-- `_smartdisk_scan_filter` -/
def smartdiskScanFilter : DiskFilter := fun disk step =>
  if step = -1 then
    if strncmpEq disk.name (lit "/dev/loop") 9 ∨ strncmpEq disk.name (lit "/dev/ram") 8 then 1 else 0
  else if step = fillPtMask then if 0 < sarahIsValidDiskType disk.format then 1 else 0
  else 0

/-! ## Mounting -/

/-- The configuration of `app_smartdisk.c`. -/
structure Smartdisk where
  mountBasedir : List UInt8
  mountPrefix : List UInt8

/-- What the system calls of one mount answer: a directory is there or is made, `mount` and `chmod` succeed. -/
structure MountAnswers where
  basedir : Bool
  target : Bool
  mount : Bool
  chmod : Bool

/-- The path without its tailing slashes; the loop runs off the front of a path of slashes. -/
def trimSlashes (path : List UInt8) : Option (List UInt8) :=
  if path.all (· = 47) then none else some (path.rdropWhile (· = 47))

/-- `"/%s%s_part%d"` behind the base directory. -/
def mountTarget (smartdisk : Smartdisk) (base : List UInt8) (disk : SarahDisk) : List UInt8 :=
  base ++ lit "/" ++ smartdisk.mountPrefix ++ disk.wwn ++ lit "_part" ++ decimalInt disk.partNo

/-- `sarah_disk_mount`: its code, the target that `mount` is called with, and the entry. `_target` has 256 bytes, the
field `mount` 156; a text of 156 bytes leaves it without a NUL. -/
def sarahDiskMount (answers : MountAnswers) (smartdisk : Smartdisk) (disk : SarahDisk) :
    Option (ℤ × Option (List UInt8) × SarahDisk) :=
  if 256 < smartdisk.mountBasedir.length then none
  else
    (trimSlashes smartdisk.mountBasedir).bind fun base =>
      let target := mountTarget smartdisk base disk
      if !answers.basedir then some (1, none, disk)
      else if 256 ≤ target.length then none
      else if !answers.target then some (2, none, disk)
      else if !answers.mount then some (3, some target, disk)
      else if 156 < target.length then none
      else some (if answers.chmod then 0 else 4, some target, { disk with mount := overlay target disk.mount })

/-- The disk mount checking of `sarah_smartdisk_application`. -/
def needsMount (disk : SarahDisk) : Bool :=
  -1 < disk.partNo ∧ 0 < disk.pBlocks ∧ 1 < disk.format.length ∧ disk.mount.length = 0

/-- The mount calls of one pass over the list: device and target. -/
def mountDisks (answers : SarahDisk → MountAnswers) (smartdisk : Smartdisk) :
    List SarahDisk → Option (List (List UInt8 × List UInt8))
  | [] => some []
  | disk :: disks =>
    if needsMount disk then
      (sarahDiskMount (answers disk) smartdisk disk).bind fun r =>
        (mountDisks answers smartdisk disks).map fun calls => r.2.1.toList.map (disk.name, ·) ++ calls
    else mountDisks answers smartdisk disks

end Sarah
