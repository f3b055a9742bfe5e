import SarahClient.Disk.Listing

/-!
# What is read from `lsblk`

* `LsblkRow`, `LsblkListing`: the listing and its text;
* `LsblkRow.fill`: what a row does to an entry, with the filter of the smartdisk application;
* **`fillPt_text`**: the disk list after the fill; **`fillRows_format`**: the format and mount path of an entry.
-/

namespace Sarah

open List Stdio

/-- A device with its format and mount path, which can be missing. What stands behind the mount path is not read: the
rest of a path with blanks. -/
structure LsblkRow where
  device : List UInt8
  gap : List UInt8
  format : List UInt8
  sep : List UInt8
  mount : List UInt8
  tail : List UInt8
  deriving DecidableEq

/-- The printed row. -/
def LsblkRow.line (r : LsblkRow) : List UInt8 := r.device ++ r.gap ++ r.format ++ r.sep ++ r.mount ++ r.tail

/-- A format longer than 15 bytes runs over into what is read as the mount path. -/
structure LsblkRow.WellFormed (r : LsblkRow) : Prop where
  line : Line 256 r.line
  device : ∀ c ∈ r.device, isspace c = false
  named : r.device ≠ [] ∧ r.device.length ≤ 47
  gap : ∀ c ∈ r.gap, isspace c = true
  format : ∀ c ∈ r.format, isspace c = false
  apart : r.format ≠ [] → r.gap ≠ []
  formatFits : r.format.length ≤ 78
  sep : ∀ c ∈ r.sep, isspace c = true
  mount : ∀ c ∈ r.mount, isspace c = false
  mounted : r.mount ≠ [] → r.format ≠ [] ∧ r.sep ≠ []
  mountFits : r.mount.length ≤ 63
  tail : Stops (fun c => !isspace c) r.tail
  blank : r.mount = [] → ∀ c ∈ r.tail, isspace c = true

/-- **The listing of `lsblk`**, with its header line; rows of one device say the same. -/
structure LsblkListing where
  header : List UInt8
  rows : List LsblkRow
  headerLine : Line 256 header
  wellFormed : ∀ r ∈ rows, r.WellFormed
  agree : ∀ r ∈ rows, ∀ r' ∈ rows, r.device = r'.device → r.format = r'.format ∧ r.mount = r'.mount

theorem line_header : Line 256 (lit "NAME FSTYPE MOUNTPOINT") := by decide

/-- The printed listing. -/
def LsblkListing.text (listing : LsblkListing) : List UInt8 :=
  (listing.header :: listing.rows.map LsblkRow.line).flatMap fun l => l ++ [10]

/-! ## What the format reads -/

theorem stops_blank {w : List UInt8} (h : ∀ c ∈ w, isspace c = true) : Stops (fun c => !isspace c) w :=
  .of_forall fun c hc => by simp only [h c hc, Bool.not_true]

theorem blank_append {u v : List UInt8} (hu : ∀ c ∈ u, isspace c = true) (hv : ∀ c ∈ v, isspace c = true) :
    ∀ c ∈ u ++ v, isspace c = true := fun c hc => (mem_append.mp hc).elim (hu c) (hv c)

theorem LsblkRow.WellFormed.sscanf_device {r : LsblkRow} (h : r.WellFormed) {s : List UInt8}
    (hs : Stops (fun c => !isspace c) s) :
    sscanf lsblkFormat (r.device ++ s) = .text r.device :: sscanf (lsblkFormat.drop 1) s :=
  sscanf_str _ h.named.1 h.device hs (within_some (by have := h.named.2; omega))

/-- What a line gives: the device, and the format and mount path where they fit. -/
theorem sscanf_lsblk {r : LsblkRow} (h : r.WellFormed) :
    textAt (sscanf lsblkFormat (nl r.line)) 0 [] = r.device ∧
      (r.format.length ≤ 15 → textAt (sscanf lsblkFormat (nl r.line)) 1 [] = r.format ∧
        textAt (sscanf lsblkFormat (nl r.line)) 2 [] = r.mount) ∧
      (15 < r.format.length → textAt (sscanf lsblkFormat (nl r.line)) 1 [] = r.format.take 15 ∧
        textAt (sscanf lsblkFormat (nl r.line)) 2 [] = r.format.drop 15) := by
  have hend : r.mount = [] → ∀ c ∈ r.tail ++ [10], isspace c = true := fun hmount =>
    blank_append (h.blank hmount) (by decide +kernel)
  have htail : Stops (fun c => !isspace c) (r.tail ++ [10]) := by
    by_cases hnil : r.tail = []
    · rw [hnil]
      exact .cons rfl
    · exact h.tail.append hnil
  have hline : nl r.line = r.device ++ (r.gap ++ (r.format ++ (r.sep ++ (r.mount ++ (r.tail ++ [10]))))) := by
    simp only [nl, LsblkRow.line, append_assoc]
  rw [hline]
  by_cases hformat : r.format = []
  · have hmount : r.mount = [] := by
      by_contra hmount
      exact (h.mounted hmount).1 hformat
    have hrest : ∀ c ∈ r.gap ++ (r.sep ++ (r.tail ++ [10])), isspace c = true :=
      blank_append h.gap (blank_append h.sep (hend hmount))
    have hscan : sscanf lsblkFormat (r.device ++ (r.gap ++ (r.sep ++ (r.tail ++ [10])))) = [.text r.device] := by
      rw [h.sscanf_device (stops_blank hrest)]
      exact congrArg _ (sscanf_blank _ _ hrest)
    rw [hformat, hmount, nil_append, nil_append, hscan]
    exact ⟨rfl, fun _ => ⟨rfl, rfl⟩, fun hlong => by cases hlong⟩
  · have hgap : Stops (fun c => !isspace c) (r.gap ++ (r.format ++ (r.sep ++ (r.mount ++ (r.tail ++ [10]))))) :=
      (stops_blank h.gap).append (h.apart hformat)
    have hstart : ∀ s, Stops isspace (r.format ++ s) := fun s => (Stops.of_forall h.format).append hformat
    rcases Nat.lt_or_ge 15 r.format.length with hlong | hshort
    · have hdrop : r.format.drop 15 ≠ [] := by
        rw [Ne, drop_eq_nil_iff]
        omega
      have hdropped : ∀ c ∈ r.format.drop 15, isspace c = false := fun c hc => h.format c (mem_of_mem_drop hc)
      have hstop : Stops (fun c => !isspace c) (r.sep ++ (r.mount ++ (r.tail ++ [10]))) := by
        by_cases hmount : r.mount = []
        · rw [hmount, nil_append]
          exact stops_blank (blank_append h.sep (hend hmount))
        · exact (stops_blank h.sep).append (h.mounted hmount).2
      have hscan : sscanf lsblkFormat (r.device ++ (r.gap ++ (r.format ++ (r.sep ++ (r.mount ++ (r.tail ++ [10])))))) =
          [.text r.device, .text (r.format.take 15), .text (r.format.drop 15)] := by
        have hfits := h.formatFits
        rw [h.sscanf_device hgap, lsblkFormat, drop_succ_cons, drop_zero, sscanf_space _ h.gap (hstart _),
          sscanf_str_take _ h.format hlong.le hstop, sscanf_space_of_stops _ ((Stops.of_forall hdropped).append hdrop),
          sscanf_str _ hdrop hdropped hstop (within_some (by rw [length_drop]; omega)), sscanf]
      rw [hscan]
      exact ⟨rfl, fun hle => absurd hle (by omega), fun _ => ⟨rfl, rfl⟩⟩
    · by_cases hmount : r.mount = []
      · have hrest : ∀ c ∈ r.sep ++ (r.tail ++ [10]), isspace c = true := blank_append h.sep (hend hmount)
        have hscan : sscanf lsblkFormat (r.device ++ (r.gap ++ (r.format ++ (r.sep ++ (r.tail ++ [10]))))) =
            [.text r.device, .text r.format] := by
          rw [hmount, nil_append] at hgap
          rw [h.sscanf_device hgap, lsblkFormat, drop_succ_cons, drop_zero, sscanf_space _ h.gap (hstart _),
            sscanf_str _ hformat h.format (stops_blank hrest) (within_some hshort)]
          exact congrArg _ (congrArg _ (sscanf_blank _ _ hrest))
        rw [hmount, nil_append, hscan]
        exact ⟨rfl, fun _ => ⟨rfl, rfl⟩, fun hlong => absurd hlong (by omega)⟩
      · have hsep := (h.mounted hmount).2
        have hscan : sscanf lsblkFormat (r.device ++
          (r.gap ++ (r.format ++ (r.sep ++ (r.mount ++ (r.tail ++ [10])))))) =
            [.text r.device, .text r.format, .text r.mount] := by
          have hfits := h.mountFits
          rw [h.sscanf_device hgap, lsblkFormat, drop_succ_cons, drop_zero, sscanf_space _ h.gap (hstart _),
            sscanf_str _ hformat h.format ((stops_blank h.sep).append hsep) (within_some hshort),
            sscanf_space _ h.sep ((Stops.of_forall h.mount).append hmount),
            sscanf_str _ hmount h.mount htail (within_some (by omega)), sscanf]
        rw [hscan]
        exact ⟨rfl, fun _ => ⟨rfl, rfl⟩, fun hlong => absurd hlong (by omega)⟩

/-! ## The fill -/

/-- A row whose format passes the filter. -/
def LsblkRow.Passes (r : LsblkRow) : Prop := 2 ≤ r.format.length ∧ sarahIsValidDiskType r.format = 0

instance (r : LsblkRow) : Decidable r.Passes := by unfold LsblkRow.Passes; infer_instance

/-- What a row stores in an entry of its device. -/
def LsblkRow.store (r : LsblkRow) (disk : SarahDisk) : SarahDisk :=
  { disk with
    format := overlay r.format disk.format
    mount := overlay r.mount disk.mount
    partNo := if disk.partNo = -1 then 0 else disk.partNo }

/-- The row fills the entries of a name in. -/
def LsblkRow.Fills (r : LsblkRow) (name : List UInt8) : Prop := name = lit "/dev/" ++ r.device ∧ r.Passes

instance (r : LsblkRow) (name : List UInt8) : Decidable (r.Fills name) := by unfold LsblkRow.Fills; infer_instance

/-- What a row does to an entry. -/
def LsblkRow.fill (r : LsblkRow) (disk : SarahDisk) : SarahDisk :=
  if r.Fills disk.name then r.store disk else disk

/-- What rows write into an entry, one after the other. -/
def fillRows (rows : List LsblkRow) (disk : SarahDisk) : SarahDisk := rows.foldl (fun disk r => r.fill disk) disk

/-- Names as `sarah_get_disk_list` makes them. -/
def DiskNames (disks : List SarahDisk) : Prop :=
  (disks.map SarahDisk.name).Nodup ∧ ∀ disk ∈ disks, 0 ∉ disk.name

theorem device_iff {name : List UInt8} (hname : 0 ∉ name) (device : List UInt8) :
    (strncmpEq name (lit "/dev/") 5 ∧ name.drop 5 = device) ↔ name = lit "/dev/" ++ device := by
  have hstarts : strncmpEq name (lit "/dev/") 5 = true ↔ lit "/dev/" <+: name := strncmpEq_iff hname (by decide)
  rw [hstarts]
  constructor
  · rintro ⟨⟨s, rfl⟩, rfl⟩
    rfl
  · rintro rfl
    exact ⟨prefix_append _ _, rfl⟩

theorem fillEntry_eq {r : LsblkRow} (hpasses : r.Passes) (disk : SarahDisk) :
    { disk with
      format := overlay r.format disk.format
      mount := if 0 < r.mount.length then overlay r.mount disk.mount else disk.mount
      partNo := if disk.partNo = -1 ∧ 1 < r.format.length then 0 else disk.partNo } = r.store disk := by
  have hmount : (if 0 < r.mount.length then
    overlay r.mount disk.mount else disk.mount) = overlay r.mount disk.mount := by
    split_ifs with hlen
    · rfl
    · rw [length_eq_zero_iff.mp (Nat.eq_zero_of_not_pos hlen)]
      rfl
  have hpart : (if disk.partNo = -1 ∧ 1 < r.format.length then 0 else disk.partNo) =
      if disk.partNo = -1 then 0 else disk.partNo := if_congr (and_iff_left hpasses.1) rfl rfl
  rw [hmount, hpart]
  rfl

theorem fillFormat_eq {r : LsblkRow} (hpasses : r.Passes) {disks : List SarahDisk} (hdisks : DiskNames disks) :
    fillFormat r.device r.format r.mount disks = disks.map r.fill := by
  induction disks with
  | nil => rfl
  | cons disk disks ih =>
    obtain ⟨hnodup, hnul⟩ := hdisks
    rw [map_cons, nodup_cons] at hnodup
    have htail : DiskNames disks := ⟨hnodup.2, fun d hd => hnul d (mem_cons_of_mem disk hd)⟩
    have hiff := device_iff (hnul disk mem_cons_self) r.device
    rw [fillFormat, map_cons]
    by_cases hname : disk.name = lit "/dev/" ++ r.device
    · have hkeep : ∀ d ∈ disks, r.fill d = d := by
        intro d hd
        refine if_neg fun h => hnodup.1 ?_
        rw [hname, ← h.1]
        exact mem_map_of_mem hd
      have hfills : r.Fills disk.name := ⟨hname, hpasses⟩
      rw [if_pos (hiff.mpr hname), LsblkRow.fill, if_pos hfills, (map_congr_left hkeep).trans (map_id' disks),
        fillEntry_eq hpasses]
    · rw [if_neg (fun h => hname (hiff.mp h)), ih htail, LsblkRow.fill, if_neg fun h => hname h.1]

theorem map_fill_of_not_passes {r : LsblkRow} (h : ¬ r.Passes) (disks : List SarahDisk) : disks.map r.fill = disks :=
  (map_congr_left fun _ _ => if_neg fun hdisk => h hdisk.2).trans (map_id' disks)

theorem sarahIsValidDiskType_of_ne {type : List UInt8} (h : sarahIsValidDiskType type ≠ 0) :
    sarahIsValidDiskType type = 1 := by
  unfold sarahIsValidDiskType at h ⊢
  split_ifs at h ⊢ with hmem
  · exact absurd rfl h
  · rfl

theorem type_length_of_valid {type : List UInt8} (h : sarahIsValidDiskType type = 0) : type.length ≤ 5 := by
  have hshort : ∀ s ∈ allTypes.take 10, s.length ≤ 5 := by decide
  unfold sarahIsValidDiskType at h
  split_ifs at h with hmem
  · rw [← length_map tolower]
    exact hshort _ hmem
  · cases h

theorem fill_name (r : LsblkRow) (disk : SarahDisk) : (r.fill disk).name = disk.name := by
  unfold LsblkRow.fill
  split_ifs <;> rfl

variable {st : DiskScan}

/-- One line of `lsblk` fills the first entry of its device, when its format passes. -/
theorem fillLine_passes (st : DiskScan) {r : LsblkRow} (h : r.WellFormed) :
    ∃ st', fillLine (some smartdiskScanFilter) st (nl r.line) = some st' ∧
      st'.disks = if r.Passes then fillFormat r.device r.format r.mount st.disks else st.disks := by
  obtain ⟨hdevice, hshort, hlong⟩ := sscanf_lsblk h
  have hfits : ¬ (48 ≤ r.device.length) := by
    have := h.named.2
    omega
  unfold fillLine
  simp only [hdevice]
  rcases Nat.lt_or_ge 15 r.format.length with hlen | hlen
  · obtain ⟨hformat, hmount⟩ := hlong hlen
    have hmountFits : ¬ (64 ≤ (r.format.drop 15).length) := by
      have := h.formatFits
      rw [length_drop]
      omega
    have hcut : (r.format.take 15).length = 15 := length_take_of_le hlen.le
    have hrejected : sarahIsValidDiskType (r.format.take 15) = 1 := sarahIsValidDiskType_of_ne fun hv => by
      have := type_length_of_valid hv
      omega
    have hnot : ¬ r.Passes := fun hp => by
      have := type_length_of_valid hp.2
      omega
    simp only [hformat, hmount]
    rw [if_neg (not_or.mpr ⟨hfits, hmountFits⟩), if_neg (by omega), if_neg hnot]
    refine ⟨_, if_pos ?_, rfl⟩
    simp [smartdiskScanFilter, fillPtMask, hrejected]
  · obtain ⟨hformat, hmount⟩ := hshort hlen
    have hmountFits : ¬ (64 ≤ r.mount.length) := by
      have := h.mountFits
      omega
    simp only [hformat, hmount]
    rw [if_neg (not_or.mpr ⟨hfits, hmountFits⟩)]
    by_cases htwo : r.format.length < 2
    · rw [if_pos htwo, if_neg fun hp => absurd hp.1 (by omega)]
      exact ⟨st, rfl, rfl⟩
    · rw [if_neg htwo]
      by_cases hvalid : sarahIsValidDiskType r.format = 0
      · have hpasses : r.Passes := ⟨by omega, hvalid⟩
        rw [if_pos hpasses]
        refine ⟨_, if_neg ?_, rfl⟩
        simp [smartdiskScanFilter, fillPtMask, hvalid]
      · have hpasses : ¬ r.Passes := fun hp => hvalid hp.2
        rw [if_neg hpasses]
        refine ⟨_, if_pos ?_, rfl⟩
        simp [smartdiskScanFilter, fillPtMask, sarahIsValidDiskType_of_ne hvalid]

theorem fillLine_row {r : LsblkRow} (h : r.WellFormed) (hdisks : DiskNames st.disks) :
    ∃ st', fillLine (some smartdiskScanFilter) st (nl r.line) = some st' ∧ st'.disks = st.disks.map r.fill := by
  obtain ⟨st', hline, hst'⟩ := fillLine_passes st h
  refine ⟨st', hline, hst'.trans ?_⟩
  split_ifs with hpasses
  · exact fillFormat_eq hpasses hdisks
  · exact (map_fill_of_not_passes hpasses st.disks).symm

theorem diskNames_map {disks : List SarahDisk} {f : SarahDisk → SarahDisk} (hf : ∀ disk, (f disk).name = disk.name)
    (h : DiskNames disks) : DiskNames (disks.map f) := by
  have hnames : (disks.map f).map SarahDisk.name = disks.map SarahDisk.name := by
    rw [map_map]
    exact map_congr_left fun disk _ => hf disk
  refine ⟨hnames.symm ▸ h.1, ?_⟩
  intro disk hdisk
  obtain ⟨d, hd, rfl⟩ := mem_map.mp hdisk
  rw [hf]
  exact h.2 d hd

theorem fillLines_rows {rows : List LsblkRow} (hrows : ∀ r ∈ rows, r.WellFormed) (hdisks : DiskNames st.disks) :
    ∃ st', (rows.map (nl ∘ LsblkRow.line)).foldlM (fillLine (some smartdiskScanFilter)) st = some st' ∧
      st'.disks = st.disks.map (fillRows rows) := by
  induction rows generalizing st with
  | nil => exact ⟨st, rfl, (map_id' st.disks).symm⟩
  | cons r rows ih =>
    obtain ⟨st₁, hline, hst₁⟩ := fillLine_row (hrows r mem_cons_self) hdisks
    have hnames : DiskNames st₁.disks := by
      rw [hst₁]
      exact diskNames_map (fill_name r) hdisks
    obtain ⟨st', hrest, hst'⟩ := ih (fun r' hr' => hrows r' (mem_cons_of_mem r hr')) hnames
    refine ⟨st', ?_, ?_⟩
    · rw [map_cons, foldlM_cons, Function.comp_apply, hline]
      exact hrest
    · rw [hst', hst₁, map_map]
      rfl

theorem fillPt_lines {header : List UInt8} {rows : List LsblkRow} (hheader : Line 256 header)
    (hrows : ∀ r ∈ rows, Line 256 r.line) (filter : Option DiskFilter) (st : DiskScan) :
    fillPt filter (some ((header :: rows.map LsblkRow.line).flatMap fun l => l ++ [10])) st =
      (rows.map (nl ∘ LsblkRow.line)).foldlM (fillLine filter) st := by
  have hlines : ∀ l ∈ header :: rows.map LsblkRow.line, Line 256 l := by
    intro l hl
    rcases mem_cons.mp hl with rfl | hl
    · exact hheader
    · obtain ⟨r, hr, rfl⟩ := mem_map.mp hl
      exact hrows r hr
  unfold fillPt
  dsimp only
  rw [fgetsAll_lines hlines, map_cons, tail_cons, map_map]
  rfl

/-- **The disk list after the fill.** -/
theorem fillPt_text (listing : LsblkListing) (hdisks : DiskNames st.disks) :
    ∃ st', fillPt (some smartdiskScanFilter) (some listing.text) st = some st' ∧
      st'.disks = st.disks.map (fillRows listing.rows) := by
  rw [LsblkListing.text, fillPt_lines listing.headerLine fun r hr => (listing.wellFormed r hr).line]
  exact fillLines_rows listing.wellFormed hdisks

/-! ## What an entry gets -/

theorem overlay_nil (s : List UInt8) : overlay s [] = s := by
  rw [overlay, drop_nil, append_nil]

theorem overlay_self (s : List UInt8) : overlay s s = s := by
  rw [overlay, drop_length, append_nil]

theorem fillRows_keep (rows : List LsblkRow) (disk : SarahDisk) :
    (fillRows rows disk).name = disk.name ∧ (fillRows rows disk).wwn = disk.wwn ∧
      (fillRows rows disk).pBlocks = disk.pBlocks ∧
        (disk.partNo ≠ -1 → (fillRows rows disk).partNo = disk.partNo) := by
  induction rows generalizing disk with
  | nil => exact ⟨rfl, rfl, rfl, fun _ => rfl⟩
  | cons r rows ih =>
    obtain ⟨hname, hwwn, hblocks, hpart⟩ := ih (r.fill disk)
    have hfill : (r.fill disk).name = disk.name ∧ (r.fill disk).wwn = disk.wwn ∧
        (r.fill disk).pBlocks = disk.pBlocks ∧ (disk.partNo ≠ -1 → (r.fill disk).partNo = disk.partNo) := by
      unfold LsblkRow.fill
      split_ifs
      · exact ⟨rfl, rfl, rfl, fun h => if_neg h⟩
      · exact ⟨rfl, rfl, rfl, fun _ => rfl⟩
    refine ⟨hname.trans hfill.1, hwwn.trans hfill.2.1, hblocks.trans hfill.2.2.1, fun h => ?_⟩
    exact (hpart (by rw [hfill.2.2.2 h]; exact h)).trans (hfill.2.2.2 h)

theorem fillRows_of_not_fills {rows : List LsblkRow} {disk : SarahDisk} (h : ∀ r ∈ rows, ¬ r.Fills disk.name) :
    fillRows rows disk = disk := by
  induction rows with
  | nil => rfl
  | cons r rows ih =>
    rw [fillRows, foldl_cons, LsblkRow.fill, if_neg (h r mem_cons_self)]
    exact ih fun r' hr' => h r' (mem_cons_of_mem r hr')

/-- **A row that fills a blank entry in decides its format and its mount path.** -/
theorem fillRows_format {rows : List LsblkRow} {r : LsblkRow} {disk : SarahDisk}
    (hagree : ∀ r' ∈ rows, r'.Fills disk.name → r'.format = r.format ∧ r'.mount = r.mount)
    (h : (∃ r' ∈ rows, r'.Fills disk.name) ∧ disk.format = [] ∧ disk.mount = [] ∨
      disk.format = r.format ∧ disk.mount = r.mount) :
    (fillRows rows disk).format = r.format ∧ (fillRows rows disk).mount = r.mount := by
  induction rows generalizing disk with
  | nil =>
    rcases h with ⟨⟨r', hr', -⟩, -⟩ | h
    · cases hr'
    · exact h
  | cons r' rows ih =>
    have hname := fill_name r' disk
    have hrest : ∀ r₁ ∈ rows, r₁.Fills (r'.fill disk).name → r₁.format = r.format ∧ r₁.mount = r.mount := by
      rw [hname]
      exact fun r₁ hr₁ => hagree r₁ (mem_cons_of_mem r' hr₁)
    have hstep : (∃ r₁ ∈ rows, r₁.Fills (r'.fill disk).name) ∧ (r'.fill disk).format = [] ∧ (r'.fill disk).mount = [] ∨
        (r'.fill disk).format = r.format ∧ (r'.fill disk).mount = r.mount := by
      rw [hname]
      by_cases hfills : r'.Fills disk.name
      · obtain ⟨hformat, hmount⟩ := hagree r' mem_cons_self hfills
        have hstore : r'.fill disk = r'.store disk := if_pos hfills
        refine Or.inr ?_
        rw [hstore, LsblkRow.store, hformat, hmount]
        rcases h with ⟨-, hf, hm⟩ | ⟨hf, hm⟩
        · rw [hf, hm]
          exact ⟨overlay_nil _, overlay_nil _⟩
        · rw [hf, hm]
          exact ⟨overlay_self _, overlay_self _⟩
      · have hkeep : r'.fill disk = disk := if_neg hfills
        rw [hkeep]
        refine h.imp_left fun ⟨⟨r₁, hr₁, hfills₁⟩, hblank⟩ => ⟨?_, hblank⟩
        rcases mem_cons.mp hr₁ with rfl | hr₁
        · exact absurd hfills₁ hfills
        · exact ⟨r₁, hr₁, hfills₁⟩
    exact ih hrest hstep

end Sarah
