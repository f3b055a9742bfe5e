import SarahClient.Disk.Lsblk

/-!
# The partition fill on a disk list

* `LsblkTable`: a listing whose rows can miss their type and their mount path;
* `LsblkRow.read`: what is read from a row, the first word of its mount path, in the place of a missing type too;
* `fillFirst`: a fill reaches the first entry of a name;
* **`fillsExactly_iff`**: when every entry is as its row says.
-/

namespace Sarah

open List Stdio

/-! ## The listing -/

/-- A row as `lsblk` prints it, with fields that fit their buffers. -/
structure LsblkRow.Printed (r : LsblkRow) : Prop where
  line : Line 256 r.line
  device : ∀ c ∈ r.device, isspace c = false
  named : r.device ≠ [] ∧ r.device.length ≤ 47
  gap : ∀ c ∈ r.gap, isspace c = true
  format : ∀ c ∈ r.format, isspace c = false
  apart : r.format ≠ [] ∨ r.mount ≠ [] → r.gap ≠ []
  formatFits : r.format.length ≤ 15
  sep : ∀ c ∈ r.sep, isspace c = true
  mount : Stops isspace r.mount
  mounted : r.format ≠ [] → r.mount ≠ [] → r.sep ≠ []
  mountFits : r.mount.length ≤ 63
  tail : ∀ c ∈ r.tail, isspace c = true

/-- **A listing of distinct devices**, with its header line. -/
structure LsblkTable where
  header : List UInt8
  rows : List LsblkRow
  headerLine : Line 256 header
  printed : ∀ r ∈ rows, r.Printed
  distinct : (rows.map LsblkRow.device).Nodup

/-- The printed table. -/
def LsblkTable.text (table : LsblkTable) : List UInt8 :=
  (table.header :: table.rows.map LsblkRow.line).flatMap fun l => l ++ [10]

/-- The first word of a text, as `%s` reads it. -/
def firstWord (s : List UInt8) : List UInt8 := s.takeWhile fun c => !isspace c

/-- What follows the first word. -/
def behindWord (s : List UInt8) : List UInt8 := s.dropWhile fun c => !isspace c

/-- The row that is read. Of a mount path only the first word is; without a type it is taken for the type, and the
second word for the mount path. -/
def LsblkRow.read (r : LsblkRow) : LsblkRow :=
  let rest := behindWord r.mount
  if r.format = [] then
    { device := r.device, gap := r.gap ++ r.sep, format := firstWord r.mount, sep := rest.takeWhile isspace,
      mount := firstWord (rest.dropWhile isspace), tail := behindWord (rest.dropWhile isspace) ++ r.tail }
  else { r with mount := firstWord r.mount, tail := rest ++ r.tail }

theorem firstWord_append_behindWord (s : List UInt8) : firstWord s ++ behindWord s = s := takeWhile_append_dropWhile

theorem firstWord_length_le (s : List UInt8) : (firstWord s).length ≤ s.length := (List.takeWhile_prefix _).length_le

theorem isspace_of_mem_firstWord {s : List UInt8} {c : UInt8} (hc : c ∈ firstWord s) : isspace c = false := by
  have hword := mem_takeWhile_imp hc
  simpa only [Bool.not_eq_true'] using hword

theorem stops_behindWord (s : List UInt8) : Stops (fun c => !isspace c) (behindWord s) := stops_dropWhile _ s

theorem eq_nil_of_firstWord {s : List UInt8} (hs : Stops isspace s) (h : firstWord s = []) : s = [] := by
  cases s with
  | nil => rfl
  | cons c s =>
    rw [firstWord, takeWhile_cons_of_pos (by rw [hs c rfl]; rfl)] at h
    cases h

theorem stops_behind {s t : List UInt8} (ht : ∀ c ∈ t, isspace c = true) :
    Stops (fun c => !isspace c) (behindWord s ++ t) := by
  by_cases hnil : behindWord s = []
  · rw [hnil]
    exact stops_blank ht
  · exact (stops_behindWord s).append hnil

theorem blank_behind {s t : List UInt8} (hs : Stops isspace s) (ht : ∀ c ∈ t, isspace c = true)
    (h : firstWord s = []) : ∀ c ∈ behindWord s ++ t, isspace c = true := by
  rw [eq_nil_of_firstWord hs h]
  exact ht

theorem apart_of_secondWord {s : List UInt8} (hs : Stops isspace s)
    (h : firstWord ((behindWord s).dropWhile isspace) ≠ []) :
    firstWord s ≠ [] ∧ (behindWord s).takeWhile isspace ≠ [] := by
  constructor
  · intro hnil
    rw [eq_nil_of_firstWord hs hnil] at h
    exact h rfl
  · intro hnil
    have hrest : (behindWord s).dropWhile isspace = behindWord s := by
      have hsplit := @takeWhile_append_dropWhile _ isspace (behindWord s)
      rwa [hnil, nil_append] at hsplit
    rw [hrest, firstWord, takeWhile_of_stops (stops_behindWord s)] at h
    exact h rfl

theorem LsblkRow.read_of_format {r : LsblkRow} (h : r.format ≠ []) :
    r.read = { r with mount := firstWord r.mount, tail := behindWord r.mount ++ r.tail } := if_neg h

theorem LsblkRow.read_device (r : LsblkRow) : r.read.device = r.device := by
  unfold LsblkRow.read
  dsimp only
  split_ifs <;> rfl

theorem LsblkRow.read_line (r : LsblkRow) : r.read.line = r.line := by
  have hmount : firstWord r.mount ++ (behindWord r.mount ++ r.tail) = r.mount ++ r.tail := by
    rw [← append_assoc, firstWord_append_behindWord]
  unfold LsblkRow.read
  dsimp only
  split_ifs with hformat
  · have hrest : (behindWord r.mount).takeWhile isspace ++ (firstWord ((behindWord r.mount).dropWhile isspace) ++
        (behindWord ((behindWord r.mount).dropWhile isspace) ++ r.tail)) = behindWord r.mount ++ r.tail := by
      rw [← append_assoc (firstWord _), firstWord_append_behindWord, ← append_assoc, takeWhile_append_dropWhile]
    simp only [LsblkRow.line, hformat, append_nil, append_assoc]
    rw [hrest, hmount]
  · simp only [LsblkRow.line, append_assoc]
    rw [hmount]

theorem LsblkRow.Printed.read_untyped {r : LsblkRow} (h : r.Printed) (hformat : r.format = []) : r.read.WellFormed := by
  have hrest : (behindWord r.mount).length ≤ r.mount.length := (dropWhile_suffix _).length_le
  have hsecond : ((behindWord r.mount).dropWhile isspace).length ≤ (behindWord r.mount).length :=
    (dropWhile_suffix _).length_le
  have hstart : Stops isspace ((behindWord r.mount).dropWhile isspace) := stops_dropWhile isspace _
  have hread : r.read = { r with
      gap := r.gap ++ r.sep
      format := firstWord r.mount
      sep := (behindWord r.mount).takeWhile isspace
      mount := firstWord ((behindWord r.mount).dropWhile isspace)
      tail := behindWord ((behindWord r.mount).dropWhile isspace) ++ r.tail } := if_pos hformat
  have hline : Line 256 r.read.line := r.read_line.symm ▸ h.line
  rw [hread] at hline ⊢
  exact {
    line := hline
    device := h.device
    named := h.named
    gap := blank_append h.gap h.sep
    format := fun c => isspace_of_mem_firstWord
    apart := fun hne => append_ne_nil_of_left_ne_nil (h.apart (Or.inr fun hnil => hne (by rw [hnil]; rfl))) _
    formatFits := (firstWord_length_le _).trans (h.mountFits.trans (by decide))
    sep := fun c => mem_takeWhile_imp
    mount := fun c => isspace_of_mem_firstWord
    mounted := apart_of_secondWord h.mount
    mountFits := (firstWord_length_le _).trans (hsecond.trans (hrest.trans h.mountFits))
    tail := stops_behind h.tail
    blank := blank_behind hstart h.tail }

theorem LsblkRow.Printed.read {r : LsblkRow} (h : r.Printed) : r.read.WellFormed := by
  by_cases hformat : r.format = []
  · exact h.read_untyped hformat
  have hline : Line 256 r.read.line := r.read_line.symm ▸ h.line
  rw [LsblkRow.read_of_format hformat] at hline ⊢
  exact {
    line := hline
    device := h.device
    named := h.named
    gap := h.gap
    format := h.format
    apart := fun hne => h.apart (Or.inl hne)
    formatFits := h.formatFits.trans (by decide)
    sep := h.sep
    mount := fun c => isspace_of_mem_firstWord
    mounted := fun hne => ⟨hformat, h.mounted hformat fun hnil => hne (by rw [hnil]; rfl)⟩
    mountFits := (firstWord_length_le _).trans h.mountFits
    tail := stops_behind h.tail
    blank := blank_behind h.mount h.tail }

theorem LsblkRow.Printed.device_nul {r : LsblkRow} (h : r.Printed) : 0 ∉ r.device := by
  intro h0
  refine h.line.nul ?_
  simp only [LsblkRow.line, append_assoc]
  exact mem_append_left _ h0

/-! ## What the disks should be -/

/-- The type of the row is in the list of valid types, compared without case. -/
def LsblkRow.Typed (r : LsblkRow) : Prop := r.format.map tolower ∈ allTypes

instance (r : LsblkRow) : Decidable r.Typed := by unfold LsblkRow.Typed; infer_instance

/-- The row of a disk. -/
def LsblkTable.rowOf (table : LsblkTable) (disk : SarahDisk) : Option LsblkRow :=
  table.rows.find? fun r => disk.name = lit "/dev/" ++ r.device

/-- The disk as its row says. -/
def LsblkRow.filled (r : LsblkRow) (disk : SarahDisk) : SarahDisk :=
  { disk with
    format := r.format
    mount := r.mount
    partNo := if disk.partNo = -1 then 0 else disk.partNo }

/-- The entry of a disk after the table was read. -/
def LsblkTable.filled (table : LsblkTable) (disk : SarahDisk) : SarahDisk :=
  match table.rowOf disk with
  | none => disk
  | some r => if r.Typed then r.filled disk else disk

/-- **The fill is exact**: each disk with a typed row is as the row says, every other disk is unchanged. -/
def FillsExactly (table : LsblkTable) (st : DiskScan) : Prop :=
  ∃ st', fillPt (some smartdiskScanFilter) (some table.text) st = some st' ∧ st'.disks = st.disks.map table.filled

/-! ## When they are -/

/-- What an entry with the row `r` has to hold before the fill; `first` says that no entry of its name stands before
it. Behind the first word of the mount path the entry keeps what it has there. -/
structure LsblkRow.Suits (r : LsblkRow) (first : Prop) (disk : SarahDisk) : Prop where
  shorter : r.Typed → first → r.Passes →
    disk.format.length ≤ r.format.length ∧ disk.mount.drop (firstWord r.mount).length = behindWord r.mount
  already : r.Typed → ¬ (first ∧ r.Passes) → disk.format = r.format ∧ disk.mount = r.mount ∧ disk.partNo ≠ -1
  shifted : r.format = [] → first → r.read.Passes →
    r.read.format <+: disk.format ∧ r.read.mount <+: disk.mount ∧ disk.partNo ≠ -1

/-- Every entry suits its row; `seen` are the names before the entries. -/
def LsblkTable.Suits (table : LsblkTable) : List (List UInt8) → List SarahDisk → Prop
  | _, [] => True
  | seen, disk :: disks =>
    (∀ r ∈ table.rowOf disk, r.Suits (disk.name ∉ seen) disk) ∧ table.Suits (disk.name :: seen) disks

/-! ## The first entry of a name -/

/-- `f` on the first entry of each name that is not among `seen`. -/
def fillFirst (f : SarahDisk → SarahDisk) : List (List UInt8) → List SarahDisk → List SarahDisk
  | _, [] => []
  | seen, disk :: disks => (if disk.name ∈ seen then disk else f disk) :: fillFirst f (disk.name :: seen) disks

theorem fillFirst_congr {f g : SarahDisk → SarahDisk} {disks : List SarahDisk} {seen : List (List UInt8)}
    (h : ∀ disk ∈ disks, disk.name ∉ seen → f disk = g disk) : fillFirst f seen disks = fillFirst g seen disks := by
  induction disks generalizing seen with
  | nil => rfl
  | cons disk disks ih =>
    have hrest : ∀ d ∈ disks, d.name ∉ disk.name :: seen → f d = g d := fun d hd hnew =>
      h d (mem_cons_of_mem disk hd) fun hmem => hnew (mem_cons_of_mem disk.name hmem)
    rw [fillFirst, fillFirst, ih hrest]
    congr 1
    split_ifs with hseen
    · rfl
    · exact h disk mem_cons_self hseen

theorem fillFirst_id (seen : List (List UInt8)) (disks : List SarahDisk) :
    fillFirst (fun disk => disk) seen disks = disks := by
  induction disks generalizing seen with
  | nil => rfl
  | cons disk disks ih => rw [fillFirst, ite_self, ih]

theorem fillFirst_comp {f g : SarahDisk → SarahDisk} (hg : ∀ disk, (g disk).name = disk.name)
    (seen : List (List UInt8)) (disks : List SarahDisk) :
    fillFirst f seen (fillFirst g seen disks) = fillFirst (fun disk => f (g disk)) seen disks := by
  induction disks generalizing seen with
  | nil => rfl
  | cons disk disks ih =>
    simp only [fillFirst]
    by_cases hseen : disk.name ∈ seen
    · simp only [if_pos hseen, ih]
    · simp only [if_neg hseen, hg, ih]

theorem names_iff {device : List UInt8} (hdevice : 0 ∉ device) (name : List UInt8) :
    (strncmpEq name (lit "/dev/") 5 ∧ name.drop 5 = device) ↔ name = lit "/dev/" ++ device := by
  constructor
  · rintro ⟨hstarts, hdrop⟩
    rw [strncmpEq, decide_eq_true_iff] at hstarts
    have hbegins : lit "/dev/" <+: name := by
      rw [show lit "/dev/" = (cstr name).take 5 from hstarts.symm]
      have htake := take_prefix 5 (cstr name)
      exact htake.trans <| takeWhile_prefix _
    obtain ⟨s, rfl⟩ := hbegins
    rw [← hdrop]
    rfl
  · rintro rfl
    have hnul : 0 ∉ lit "/dev/" ++ device := fun h => (mem_append.mp h).elim (by decide) hdevice
    exact ⟨(strncmpEq_iff hnul (by decide)).mpr (prefix_append _ _), rfl⟩

theorem fill_of_name_ne {r : LsblkRow} {disk : SarahDisk} (h : disk.name ≠ lit "/dev/" ++ r.device) :
    r.fill disk = disk := if_neg fun hfills => h hfills.1

theorem fillFirst_fill_of_mem {r : LsblkRow} {seen : List (List UInt8)} (h : lit "/dev/" ++ r.device ∈ seen)
    (disks : List SarahDisk) : fillFirst r.fill seen disks = disks := by
  refine (fillFirst_congr fun disk _ hnew => ?_).trans (fillFirst_id seen disks)
  exact fill_of_name_ne fun hname => hnew (hname ▸ h)

theorem fillFormat_first {r : LsblkRow} (hnul : 0 ∉ r.device) (hpasses : r.Passes) {seen : List (List UInt8)}
    (hseen : lit "/dev/" ++ r.device ∉ seen) (disks : List SarahDisk) :
    fillFormat r.device r.format r.mount disks = fillFirst r.fill seen disks := by
  induction disks generalizing seen with
  | nil => rfl
  | cons disk disks ih =>
    have hiff := names_iff hnul disk.name
    rw [fillFormat, fillFirst]
    by_cases hname : disk.name = lit "/dev/" ++ r.device
    · have hrest : fillFirst r.fill (disk.name :: seen) disks = disks :=
        fillFirst_fill_of_mem (hname ▸ mem_cons_self) disks
      have hfills : r.Fills disk.name := ⟨hname, hpasses⟩
      have hnew : disk.name ∉ seen := hname ▸ hseen
      rw [if_pos (hiff.mpr hname), fillEntry_eq hpasses, if_neg hnew, LsblkRow.fill, if_pos hfills, hrest]
    · have hnew : lit "/dev/" ++ r.device ∉ disk.name :: seen := fun h =>
        (mem_cons.mp h).elim (fun heq => hname heq.symm) hseen
      rw [if_neg (fun h => hname (hiff.mp h)), fill_of_name_ne hname, ite_self, ih hnew]

/-! ## The lines of the listing -/

variable {st : DiskScan}

theorem fillLine_first (st : DiskScan) {r : LsblkRow} (h : r.Printed) :
    ∃ st', fillLine (some smartdiskScanFilter) st (nl r.line) = some st' ∧
      st'.disks = fillFirst r.read.fill [] st.disks := by
  obtain ⟨st', hline, hst'⟩ := fillLine_passes st h.read
  rw [r.read_line] at hline
  refine ⟨st', hline, hst'.trans ?_⟩
  have hnul : 0 ∉ r.read.device := r.read_device ▸ h.device_nul
  split_ifs with hpasses
  · exact fillFormat_first hnul hpasses not_mem_nil st.disks
  · have hkeep : ∀ disk ∈ st.disks, disk.name ∉ [] → r.read.fill disk = disk := fun disk _ _ =>
      if_neg fun hfills => hpasses hfills.2
    exact ((fillFirst_congr hkeep).trans (fillFirst_id [] st.disks)).symm

theorem fillLines_first (st : DiskScan) {rows : List LsblkRow} (hrows : ∀ r ∈ rows, r.Printed) :
    ∃ st', (rows.map (nl ∘ LsblkRow.line)).foldlM (fillLine (some smartdiskScanFilter)) st = some st' ∧
      st'.disks = fillFirst (fillRows (rows.map LsblkRow.read)) [] st.disks := by
  induction rows generalizing st with
  | nil => exact ⟨st, rfl, (fillFirst_id [] st.disks).symm⟩
  | cons r rows ih =>
    obtain ⟨st₁, hline, hst₁⟩ := fillLine_first st (hrows r mem_cons_self)
    obtain ⟨st', hrest, hst'⟩ := ih st₁ fun r' hr' => hrows r' (mem_cons_of_mem r hr')
    refine ⟨st', ?_, ?_⟩
    · rw [map_cons, foldlM_cons, Function.comp_apply, hline]
      exact hrest
    · rw [hst', hst₁, fillFirst_comp (fill_name r.read)]
      rfl

/-- **The disk list after the fill**, with every entry. -/
theorem fillPt_table (table : LsblkTable) (st : DiskScan) :
    ∃ st', fillPt (some smartdiskScanFilter) (some table.text) st = some st' ∧
      st'.disks = fillFirst (fillRows (table.rows.map LsblkRow.read)) [] st.disks := by
  rw [LsblkTable.text, fillPt_lines table.headerLine fun r hr => (table.printed r hr).line]
  exact fillLines_first _ table.printed

/-! ## One entry and its row -/

theorem fillRows_read {rows : List LsblkRow} (hdistinct : (rows.map LsblkRow.device).Nodup) (disk : SarahDisk) :
    fillRows (rows.map LsblkRow.read) disk =
      match rows.find? fun r => disk.name = lit "/dev/" ++ r.device with
      | none => disk
      | some r => r.read.fill disk := by
  induction rows with
  | nil => rfl
  | cons r rows ih =>
    obtain ⟨hnew, hrest⟩ := nodup_cons.mp hdistinct
    rw [map_cons, fillRows, foldl_cons, find?_cons]
    by_cases hname : disk.name = lit "/dev/" ++ r.device
    · have hother : ∀ r' ∈ rows.map LsblkRow.read, ¬ r'.Fills (r.read.fill disk).name := by
        intro r' hr' hfills
        obtain ⟨r₁, hr₁, rfl⟩ := mem_map.mp hr'
        have hsame := hfills.1
        rw [fill_name, r₁.read_device, hname] at hsame
        exact hnew (append_cancel_left hsame ▸ mem_map_of_mem hr₁)
      rw [decide_eq_true hname]
      exact fillRows_of_not_fills hother
    · rw [decide_eq_false hname, fill_of_name_ne (r.read_device.symm ▸ hname)]
      exact ih hrest

theorem overlay_eq_left_iff {s old : List UInt8} : overlay s old = s ↔ old.length ≤ s.length := by
  rw [overlay, append_right_eq_self, drop_eq_nil_iff]

theorem overlay_eq_right_iff {s old : List UInt8} : overlay s old = old ↔ s <+: old := by
  constructor
  · intro h
    exact ⟨_, h⟩
  · rintro ⟨t, rfl⟩
    rw [overlay, drop_left]

theorem typed_of_passes {r : LsblkRow} (h : r.Passes) : r.Typed := by
  have hvalid := h.2
  unfold sarahIsValidDiskType at hvalid
  split_ifs at hvalid with hmem
  · exact mem_of_mem_take hmem
  · cases hvalid

theorem LsblkRow.Typed.format_ne_nil {r : LsblkRow} (h : r.Typed) : r.format ≠ [] := by
  intro hnil
  have hempty : [] ∈ allTypes := by
    rw [LsblkRow.Typed, hnil] at h
    exact h
  exact absurd hempty (by decide)

theorem overlay_firstWord_iff (s old : List UInt8) :
    overlay (firstWord s) old = s ↔ old.drop (firstWord s).length = behindWord s := by
  conv_lhs =>
    rhs
    rw [← firstWord_append_behindWord s]
  rw [overlay, append_cancel_left_eq]

theorem store_read_eq_filled_iff {r : LsblkRow} (hformat : r.format ≠ []) (disk : SarahDisk) :
    r.read.store disk = r.filled disk ↔
      disk.format.length ≤ r.format.length ∧ disk.mount.drop (firstWord r.mount).length = behindWord r.mount := by
  rw [LsblkRow.read_of_format hformat, LsblkRow.store, LsblkRow.filled, ← overlay_eq_left_iff,
    ← overlay_firstWord_iff]
  constructor
  · intro h
    exact ⟨congrArg SarahDisk.format h, congrArg SarahDisk.mount h⟩
  · rintro ⟨hfits, hmount⟩
    rw [hfits, hmount]

theorem read_passes_iff {r : LsblkRow} (hformat : r.format ≠ []) : r.read.Passes ↔ r.Passes := by
  rw [LsblkRow.read_of_format hformat]
  exact Iff.rfl

theorem partNo_eq_iff (n : ℤ) : (if n = -1 then 0 else n) = n ↔ n ≠ -1 := by
  split_ifs with h <;> omega

theorem eq_filled_iff (r : LsblkRow) (disk : SarahDisk) :
    disk = r.filled disk ↔ disk.format = r.format ∧ disk.mount = r.mount ∧ disk.partNo ≠ -1 := by
  rw [LsblkRow.filled, ← partNo_eq_iff]
  constructor
  · intro h
    exact ⟨congrArg SarahDisk.format h, congrArg SarahDisk.mount h, (congrArg SarahDisk.partNo h).symm⟩
  · rintro ⟨hformat, hmount, hpart⟩
    rw [← hformat, ← hmount, hpart]

theorem store_eq_self_iff (r : LsblkRow) (disk : SarahDisk) :
    r.store disk = disk ↔ r.format <+: disk.format ∧ r.mount <+: disk.mount ∧ disk.partNo ≠ -1 := by
  rw [LsblkRow.store, ← overlay_eq_right_iff, ← overlay_eq_right_iff, ← partNo_eq_iff]
  constructor
  · intro h
    exact ⟨congrArg SarahDisk.format h, congrArg SarahDisk.mount h, congrArg SarahDisk.partNo h⟩
  · rintro ⟨hformat, hmount, hpart⟩
    rw [hformat, hmount, hpart]

theorem typed_iff {r : LsblkRow} {disk : SarahDisk} (htyped : r.Typed) (hname : disk.name = lit "/dev/" ++ r.device)
    (seen : List (List UInt8)) :
    (if disk.name ∈ seen then disk else r.read.fill disk) = r.filled disk ↔ r.Suits (disk.name ∉ seen) disk := by
  have hformat := htyped.format_ne_nil
  have hdevice : disk.name = lit "/dev/" ++ r.read.device := r.read_device.symm ▸ hname
  by_cases hfirst : disk.name ∉ seen ∧ r.Passes
  · have hfills : r.read.Fills disk.name := ⟨hdevice, (read_passes_iff hformat).mpr hfirst.2⟩
    rw [if_neg hfirst.1, LsblkRow.fill, if_pos hfills, store_read_eq_filled_iff hformat]
    exact ⟨fun h => ⟨fun _ _ _ => h, fun _ hnot => absurd hfirst hnot, fun hnil => absurd hnil hformat⟩,
      fun h => h.shorter htyped hfirst.1 hfirst.2⟩
  · have hkeep : (if disk.name ∈ seen then disk else r.read.fill disk) = disk := by
      split_ifs with hseen
      · rfl
      · exact if_neg fun hfills => hfirst ⟨hseen, (read_passes_iff hformat).mp hfills.2⟩
    rw [hkeep, eq_filled_iff]
    exact ⟨fun h => ⟨fun _ hnew hpasses => absurd ⟨hnew, hpasses⟩ hfirst, fun _ _ => h,
      fun hnil => absurd hnil hformat⟩, fun h => h.already htyped hfirst⟩

theorem untyped_iff {r : LsblkRow} {disk : SarahDisk} (htyped : ¬ r.Typed)
    (hname : disk.name = lit "/dev/" ++ r.device) (seen : List (List UInt8)) :
    (if disk.name ∈ seen then disk else r.read.fill disk) = disk ↔ r.Suits (disk.name ∉ seen) disk := by
  by_cases hshift : r.format = [] ∧ disk.name ∉ seen ∧ r.read.Passes
  · obtain ⟨hformat, hnew, hpasses⟩ := hshift
    have hfills : r.read.Fills disk.name := ⟨r.read_device.symm ▸ hname, hpasses⟩
    rw [if_neg hnew, LsblkRow.fill, if_pos hfills, store_eq_self_iff]
    exact ⟨fun h => ⟨fun ht => absurd ht htyped, fun ht => absurd ht htyped, fun _ _ _ => h⟩,
      fun h => h.shifted hformat hnew hpasses⟩
  · have hkeep : (if disk.name ∈ seen then disk else r.read.fill disk) = disk := by
      split_ifs with hseen
      · rfl
      · refine if_neg fun hfills => ?_
        by_cases hformat : r.format = []
        · exact hshift ⟨hformat, hseen, hfills.2⟩
        · exact htyped (typed_of_passes ((read_passes_iff hformat).mp hfills.2))
    exact ⟨fun _ => ⟨fun ht => absurd ht htyped, fun ht => absurd ht htyped,
      fun hformat hnew hpasses => absurd ⟨hformat, hnew, hpasses⟩ hshift⟩, fun _ => hkeep⟩

theorem entry_iff (table : LsblkTable) (disk : SarahDisk) (seen : List (List UInt8)) :
    (if disk.name ∈ seen then disk else fillRows (table.rows.map LsblkRow.read) disk) = table.filled disk ↔
      ∀ r ∈ table.rowOf disk, r.Suits (disk.name ∉ seen) disk := by
  rw [fillRows_read table.distinct, LsblkTable.filled, LsblkTable.rowOf]
  cases hrow : table.rows.find? fun r => disk.name = lit "/dev/" ++ r.device with
  | none => simp only [ite_self, Option.mem_def, reduceCtorEq, false_imp_iff, implies_true]
  | some r =>
    have hname : disk.name = lit "/dev/" ++ r.device := by simpa using find?_some hrow
    simp only [Option.mem_def, Option.some.injEq, forall_eq']
    by_cases htyped : r.Typed
    · rw [if_pos htyped]
      exact typed_iff htyped hname seen
    · rw [if_neg htyped]
      exact untyped_iff htyped hname seen

theorem fillFirst_eq_iff (table : LsblkTable) (seen : List (List UInt8)) (disks : List SarahDisk) :
    fillFirst (fillRows (table.rows.map LsblkRow.read)) seen disks = disks.map table.filled ↔
      table.Suits seen disks := by
  induction disks generalizing seen with
  | nil => exact iff_of_true rfl trivial
  | cons disk disks ih => rw [fillFirst, map_cons, cons.injEq, entry_iff, ih, LsblkTable.Suits]

/-- **The fill is exact when every entry suits its row.** -/
theorem fillsExactly_iff (table : LsblkTable) (st : DiskScan) :
    FillsExactly table st ↔ table.Suits [] st.disks := by
  obtain ⟨st', hrun, hst'⟩ := fillPt_table table st
  rw [← fillFirst_eq_iff, ← hst']
  constructor
  · rintro ⟨st₁, hrun₁, hst₁⟩
    rw [hrun, Option.some.injEq] at hrun₁
    rw [hrun₁, hst₁]
  · intro h
    exact ⟨st', hrun, h⟩

/-! ## A disk that is hidden -/

/-- A mounted partition of another format. -/
def xfsRow : LsblkRow where
  device := lit "sda1"
  gap := [32]
  format := lit "xfs"
  sep := [32]
  mount := lit "/data"
  tail := []

/-- `xfs`, the last type of the list. -/
def xfsTable : LsblkTable where
  header := lit "NAME FSTYPE MOUNTPOINT"
  rows := [xfsRow]
  headerLine := line_header
  printed := by
    rintro r (_ | ⟨_, h⟩)
    · constructor <;> decide +kernel
    · cases h
  distinct := nodup_singleton _

theorem not_fillsExactly :
    ¬ ∀ (table : LsblkTable) (st : DiskScan), FillsExactly table st := by
  intro h
  obtain ⟨st', hrun, hst'⟩ := h xfsTable { disks := [{ name := lit "/dev/sda1", partNo := 1 }] }
  have hkept : (fillPt (some smartdiskScanFilter) (some xfsTable.text)
      { disks := [{ name := lit "/dev/sda1", partNo := 1 }] }).map DiskScan.disks =
      some [{ name := lit "/dev/sda1", partNo := 1 }] := by decide +kernel
  rw [hrun, Option.map_some, hst'] at hkept
  exact absurd hkept (by decide +kernel)

end Sarah
