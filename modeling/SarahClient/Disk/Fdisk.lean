import SarahClient.Disk.Listing
import Mathlib.Data.List.Forall2
import Mathlib.Data.List.Perm.Basic

/-!
# What the loop over `fdisk -l` reads

* `parsed`, `swallowed`: the blocks that the loop reads, and those that it takes for the end of the block before;
* `fillBlocks`: what the blocks that are read do to an entry; **`fdiskLoop_listing`**: the disk list after the loop;
* **`fdisk_exact_iff`**: every labelled disk and its partitions get their own data exactly when no labelled disk is
  swallowed.
-/

namespace Sarah

open List Stdio

/-! ## What is read -/

/-- The blocks that are read, when the block at hand is (`swallow` off) or is not read: a block without a table takes
the next one with it. -/
def parsedFrom : Bool → List DiskBlock → List DiskBlock
  | _, [] => []
  | true, _ :: bs => parsedFrom false bs
  | false, b :: bs => b :: parsedFrom b.table.isNone bs

/-- The other blocks: those that follow a block without a table. -/
def swallowedFrom : Bool → List DiskBlock → List DiskBlock
  | _, [] => []
  | true, b :: bs => b :: swallowedFrom false bs
  | false, b :: bs => swallowedFrom b.table.isNone bs

/-- The blocks that the loop reads. -/
def FdiskListing.parsed (listing : FdiskListing) : List DiskBlock := parsedFrom false listing.blocks

/-- The blocks that the loop takes for the end of the block before. -/
def FdiskListing.swallowed (listing : FdiskListing) : List DiskBlock := swallowedFrom false listing.blocks

/-- What a row does to an entry. -/
def PartitionRow.fill (wwn : List UInt8) (r : PartitionRow) (disk : SarahDisk) : SarahDisk :=
  if disk.name = r.name then
    { disk with
      wwn := wwn
      pStart := r.start
      pBlocks := r.stop + 1 - r.start
      pSize := u64 ((r.stop + 1 - r.start : ℕ) * 512) }
  else disk

/-- What the header of a labelled disk does to an entry. -/
def DiskBlock.fillHeader (b : DiskBlock) (disk : SarahDisk) : SarahDisk :=
  match b.identifier with
  | none => disk
  | some wwn => if disk.name = b.name then { disk with wwn := wwn, pSize := b.size, pBlocks := b.sectors } else disk

/-- What a block that is read does to an entry. -/
def DiskBlock.fill (b : DiskBlock) (disk : SarahDisk) : SarahDisk :=
  b.rows.foldl (fun disk r => r.fill (b.identifier.getD []) disk) (b.fillHeader disk)

/-- What blocks write into an entry, one after the other. -/
def fillBlocks (bs : List DiskBlock) (disk : SarahDisk) : SarahDisk := bs.foldl (fun disk b => b.fill disk) disk

/-! ## A block -/

variable {st : DiskScan} {b : DiskBlock} {disk : SarahDisk} {rest : List (List UInt8)}

theorem u64_of_lt {n : ℕ} (h : n < 2 ^ 64) : u64 n = n := by
  unfold u64
  omega

theorem scanPartition_row (st : DiskScan) {r : PartitionRow} (h : r.WellFormed) :
    (scanPartition st (nl r.line)).disks = st.disks.map (r.fill st.dtp.wwn) ∧
      (scanPartition st (nl r.line)).dtp.wwn = st.dtp.wwn := by
  have hstart : u64 (r.start : ℤ) = r.start := u64_of_lt (h.start.trans (by decide))
  have hblocks : u64 ((r.stop : ℤ) - r.start + 1) = r.stop + 1 - r.start := by
    have := h.stop
    have := h.order
    unfold u64
    omega
  unfold scanPartition
  rw [sscanf_partition h]
  refine ⟨?_, rfl⟩
  apply map_congr_left
  intro disk _
  simp only [textAt, intAt, getElem?_cons_zero, getElem?_cons_succ, hstart, hblocks]
  rfl

/-- What follows a block: nothing, or an empty line. -/
def Ends (rest : List (List UInt8)) : Prop := ∀ l ∈ rest.head?, l = nl []

theorem Ends.cons_nl : Ends (nl [] :: rest) := fun _ hl => (Option.some.inj hl).symm

theorem scanPartitions_rows (st : DiskScan) {rows : List PartitionRow} (hrows : ∀ r ∈ rows, r.WellFormed)
    (hrest : Ends rest) :
    (scanPartitions st (rows.map (nl ∘ PartitionRow.line) ++ rest)).2 = rest.tail ∧
      (scanPartitions st (rows.map (nl ∘ PartitionRow.line) ++ rest)).1.disks =
        st.disks.map fun disk => rows.foldl (fun disk r => r.fill st.dtp.wwn disk) disk := by
  induction rows generalizing st with
  | nil =>
    rw [map_nil, nil_append]
    have hid : st.disks.map (fun disk => ([] : List PartitionRow).foldl (fun disk r => r.fill st.dtp.wwn disk) disk) =
        st.disks := map_id' st.disks
    cases rest with
    | nil => exact ⟨rfl, hid.symm⟩
    | cons l rest =>
      obtain rfl := hrest l rfl
      exact ⟨rfl, hid.symm⟩
  | cons r rows ih =>
    have hr := hrows r mem_cons_self
    have hlen : ¬ (nl r.line).length < 2 := by
      obtain ⟨s, hs⟩ := hr.inDev.eq_cons
      rw [length_nl, PartitionRow.line, hs]
      simp only [cons_append, length_cons]
      omega
    obtain ⟨hdisks, hwwn⟩ := scanPartition_row st hr
    obtain ⟨h₁, h₂⟩ := ih (scanPartition st (nl r.line)) fun r' hr' => hrows r' (mem_cons_of_mem r hr')
    rw [map_cons, cons_append, Function.comp_apply, scanPartitions, if_neg hlen]
    refine ⟨h₁, h₂.trans ?_⟩
    rw [hdisks, hwwn, map_map]
    rfl

theorem DiskBlock.WellFormed.nul (h : b.WellFormed) {l : List UInt8} (hl : l ∈ b.lines) : 0 ∉ l := (h.line l hl).nul

theorem DiskBlock.WellFormed.rows (h : b.WellFormed) : ∀ r ∈ b.rows, r.WellFormed := by
  intro r hr
  rw [DiskBlock.rows] at hr
  cases htable : b.table with
  | none => rw [htable] at hr; cases hr
  | some table =>
    rw [htable] at hr
    exact (h.table table htable).2.2 r hr

theorem DiskBlock.header_mem (b : DiskBlock) : b.header ∈ b.lines := mem_append_left _ mem_cons_self

theorem DiskBlock.head_mem {l : List UInt8} (hl : l ∈ b.headLines) : l ∈ b.lines :=
  mem_append_left _ (mem_cons_of_mem _ hl)

theorem DiskBlock.table_mem {l : List UInt8} (hl : l ∈ b.tableLines) : l ∈ b.lines := mem_append_right _ hl

theorem identifierLine_starts (wwn : List UInt8) : lit "Disk id" <+: DiskBlock.identifierLine wwn :=
  ⟨lit "entifier: " ++ wwn, rfl⟩

theorem detectIdentifier_infos {infos : List (List UInt8)} (h : ∀ l ∈ infos, InfoLine l ∧ 0 ∉ l)
    (lines : List (List UInt8)) : detectIdentifier (infos.map nl ++ lines) = detectIdentifier lines := by
  induction infos with
  | nil => rfl
  | cons l infos ih =>
    obtain ⟨hinfo, hnul⟩ := h l mem_cons_self
    have hid : ¬ strncmpEq (nl l) (lit "Disk id") 7 = true := fun hid => hinfo.identifier ((diskId_nl hnul).mp hid)
    rw [map_cons, cons_append, detectIdentifier, if_neg hid, if_neg (length_nl_of_head hinfo.start)]
    exact ih fun l' hl' => h l' (mem_cons_of_mem l hl')

theorem detectIdentifier_head (h : b.WellFormed) (hrest : Ends rest) :
    (detectIdentifier (b.headLines.map nl ++ rest)).1 = b.identifier.map (nl ∘ DiskBlock.identifierLine) ∧
      clearEmpty (detectIdentifier (b.headLines.map nl ++ rest)).2 = clearEmpty rest := by
  have hinfos : ∀ l ∈ b.infos, InfoLine l ∧ 0 ∉ l := fun l hl =>
    ⟨h.infos l hl, h.nul (DiskBlock.head_mem (mem_append_left _ hl))⟩
  rw [DiskBlock.headLines, map_append, append_assoc, detectIdentifier_infos hinfos]
  cases hid : b.identifier with
  | none =>
    rw [Option.toList_none, map_nil, map_nil, nil_append, Option.map_none]
    cases rest with
    | nil => exact ⟨rfl, rfl⟩
    | cons l rest =>
      obtain rfl := hrest l rfl
      exact ⟨rfl, rfl⟩
  | some wwn =>
    have hmem : DiskBlock.identifierLine wwn ∈ b.headLines := by
      rw [DiskBlock.headLines, hid]
      exact mem_append_right _ (mem_singleton_self _)
    have hline := (diskId_nl (h.nul (DiskBlock.head_mem hmem))).mpr (identifierLine_starts wwn)
    rw [Option.toList_some, map_singleton, map_singleton, singleton_append, detectIdentifier, if_pos hline]
    exact ⟨rfl, rfl⟩

theorem scanHeader_header (h : b.WellFormed) :
    scanHeader (nl b.header) = { name := b.name, pSize := b.size, pBlocks := b.sectors } := by
  have hsize : u64 (b.size : ℤ) = b.size := u64_of_lt (h.size.trans (by decide))
  have hsectors : u64 (b.sectors : ℤ) = b.sectors := u64_of_lt (h.sectors.trans (by decide))
  unfold scanHeader
  rw [sscanf_header h]
  simp only [textAt, intAt, getElem?_cons_zero, getElem?_cons_succ, hsize, hsectors]

theorem scanDisk_block (st : DiskScan) (h : b.WellFormed) (hrest : Ends rest) :
    ∃ dtp : SarahDisk, dtp.wwn = b.identifier.getD [] ∧
      scanDisk st (nl b.header) (b.headLines.map nl ++ rest) =
        some (scanTable { st with dtp := dtp, disks := st.disks.map b.fillHeader } rest) := by
  obtain ⟨hfound, hclear⟩ := detectIdentifier_head h hrest
  have htable : ∀ st, scanTable st (detectIdentifier (b.headLines.map nl ++ rest)).2 = scanTable st rest := by
    intro st
    unfold scanTable
    rw [hclear]
  unfold scanDisk
  dsimp only
  rw [hfound, scanHeader_header h]
  simp only [htable]
  cases hid : b.identifier with
  | none =>
    have hfill : st.disks.map b.fillHeader = st.disks := by
      have hone : b.fillHeader = id := by
        funext disk
        unfold DiskBlock.fillHeader
        rw [hid]
        rfl
      rw [hone, map_id]
    exact ⟨{ name := b.name, pSize := b.size, pBlocks := b.sectors }, rfl, by rw [hfill]; rfl⟩
  | some wwn =>
    obtain ⟨hne, hlen, hwwn⟩ := h.identifier wwn hid
    have hfill : st.disks.map b.fillHeader =
        st.disks.map (overrideDisk { name := b.name, wwn := wwn, pSize := b.size, pBlocks := b.sectors }) := by
      apply map_congr_left
      intro disk _
      unfold DiskBlock.fillHeader
      rw [hid]
      rfl
    refine ⟨{ name := b.name, wwn := wwn, pSize := b.size, pBlocks := b.sectors }, rfl, ?_⟩
    rw [Option.map_some, Function.comp_apply, scanIdentifier, sscanf_identifier hne hwwn, hfill]
    have hfit : ¬ 41 ≤ wwn.length := by omega
    exact congrArg (Option.map fun st => scanTable st rest) (if_neg hfit)

/-! ## The end of a block -/

/-- From the line that ends the search for a table. -/
def afterDevice (st : DiskScan) (table : Bool × List (List UInt8)) : DiskScan × List (List UInt8) :=
  if table.1 then scanPartitions st table.2 else (st, table.2)

theorem scanTable_eq (st : DiskScan) (lines : List (List UInt8)) :
    scanTable st lines = afterDevice st (detectDevice (clearEmpty lines)) := rfl

theorem clearEmpty_nil (lines : List (List UInt8)) : clearEmpty (nl [] :: lines) = clearEmpty lines := rfl

theorem clearEmpty_of_length {buffer : List UInt8} (h : ¬ buffer.length < 2) (lines : List (List UInt8)) :
    clearEmpty (buffer :: lines) = buffer :: lines := by
  refine dropWhile_cons_of_neg ?_
  rw [decide_eq_true_iff]
  omega

theorem scanTable_none : scanTable st [] = (st, []) := rfl

theorem scanTable_rows (st : DiskScan) {table : List UInt8 × List PartitionRow} (hdevice : lit "Device" <:+: table.1)
    (hrows : ∀ r ∈ table.2, r.WellFormed) (hrest : Ends rest) :
    (scanTable st (nl [] :: nl table.1 :: (table.2.map (nl ∘ PartitionRow.line) ++ rest))).2 = rest.tail ∧
      (scanTable st (nl [] :: nl table.1 :: (table.2.map (nl ∘ PartitionRow.line) ++ rest))).1.disks =
        st.disks.map fun disk => table.2.foldl (fun disk r => r.fill st.dtp.wwn disk) disk := by
  have hlen : ¬ (nl table.1).length < 2 := by
    have := hdevice.length_le
    rw [show (lit "Device").length = 6 from rfl] at this
    rw [length_nl]
    omega
  have hclear : clearEmpty (nl [] :: nl table.1 :: (table.2.map (nl ∘ PartitionRow.line) ++ rest)) =
      nl table.1 :: (table.2.map (nl ∘ PartitionRow.line) ++ rest) := by
    rw [clearEmpty_nil, clearEmpty_of_length hlen]
  have hfound : lit "Device" <:+: nl table.1 := hdevice.trans (prefix_append _ _).isInfix
  rw [scanTable_eq, hclear, detectDevice, if_pos hfound]
  exact scanPartitions_rows st hrows hrest

theorem scanPartition_other (hdisks : ∀ disk ∈ st.disks, InDev disk.name) {l : List UInt8}
    (hl : ∃ c ∈ l.head?, isspace c = false ∧ c ≠ 47) : (scanPartition st (nl l)).disks = st.disks := by
  obtain ⟨c, hc, hspace, hslash⟩ := hl
  obtain ⟨s, rfl⟩ : ∃ s, l = c :: s := head?_eq_some_iff.mp hc
  obtain ⟨f, values, hscan⟩ := sscanf_str_cons (partitionFormat.drop 1) hspace 62 (s ++ [10])
  have hname : (scanPartition st (nl (c :: s))).disks =
      st.disks.map (overridePartition (scanPartition st (nl (c :: s))).dtp) := rfl
  have hdtp : (scanPartition st (nl (c :: s))).dtp.name = c :: f := by
    have hsscanf : sscanf partitionFormat (nl (c :: s)) = .text (c :: f) :: values := hscan
    unfold scanPartition
    rw [hsscanf]
    rfl
  have hkeep : ∀ disk ∈ st.disks, overridePartition (scanPartition st (nl (c :: s))).dtp disk = disk := by
    intro disk hdisk
    obtain ⟨t, ht⟩ := (hdisks disk hdisk).eq_cons
    refine if_neg ?_
    rw [hdtp, ht]
    exact fun heq => hslash (cons.inj heq).1.symm
  rw [hname]
  exact (map_congr_left hkeep).trans (map_id' st.disks)

theorem scanPartitions_other (st : DiskScan) {lines : List (List UInt8)} (hdisks : ∀ disk ∈ st.disks, InDev disk.name)
    (hlines : ∀ l ∈ lines, ∃ c ∈ l.head?, isspace c = false ∧ c ≠ 47) (hrest : Ends rest) :
    (scanPartitions st (lines.map nl ++ rest)).2 = rest.tail ∧
      (scanPartitions st (lines.map nl ++ rest)).1.disks = st.disks := by
  induction lines generalizing st with
  | nil =>
    cases rest with
    | nil => exact ⟨rfl, rfl⟩
    | cons l rest =>
      obtain rfl := hrest l rfl
      exact ⟨rfl, rfl⟩
  | cons l lines ih =>
    have hl := hlines l mem_cons_self
    have hkeep := scanPartition_other hdisks hl
    have hrec := ih (scanPartition st (nl l)) (by rw [hkeep]; exact hdisks)
      fun l' hl' => hlines l' (mem_cons_of_mem l hl')
    rw [map_cons, cons_append, scanPartitions, if_neg (length_nl_of_head hl)]
    exact ⟨hrec.1, hrec.2.trans hkeep⟩

theorem detectDevice_other {lines : List (List UInt8)} (hdisks : ∀ disk ∈ st.disks, InDev disk.name)
    (hlines : ∀ l ∈ lines, ∃ c ∈ l.head?, isspace c = false ∧ c ≠ 47) (hrest : Ends rest) :
    (afterDevice st (detectDevice (lines.map nl ++ rest))).2 = rest.tail ∧
      (afterDevice st (detectDevice (lines.map nl ++ rest))).1.disks = st.disks := by
  induction lines with
  | nil =>
    cases rest with
    | nil => exact ⟨rfl, rfl⟩
    | cons l rest =>
      obtain rfl := hrest l rfl
      exact ⟨rfl, rfl⟩
  | cons l lines ih =>
    have htail : ∀ l' ∈ lines, ∃ c ∈ l'.head?, isspace c = false ∧ c ≠ 47 := fun l' hl' =>
      hlines l' (mem_cons_of_mem l hl')
    rw [map_cons, cons_append, detectDevice]
    by_cases hfound : lit "Device" <:+: nl l
    · rw [if_pos hfound]
      exact scanPartitions_other st hdisks htail hrest
    · rw [if_neg hfound, if_neg (length_nl_of_head (hlines l mem_cons_self))]
      exact ih htail

theorem DiskBlock.WellFormed.head_start (h : b.WellFormed) :
    ∀ l ∈ b.header :: b.headLines, ∃ c ∈ l.head?, isspace c = false ∧ c ≠ 47 := by
  intro l hl
  rcases mem_cons.mp hl with rfl | hl
  · exact ⟨68, rfl, by decide, by decide⟩
  · rcases mem_append.mp hl with hl | hl
    · exact (h.infos l hl).start
    · obtain ⟨wwn, -, rfl⟩ := mem_map.mp hl
      exact ⟨68, rfl, by decide, by decide⟩

/-- **The end of a block without a table takes the next block with it**, up to the empty line before its table. -/
theorem scanTable_swallow (h : b.WellFormed) (hdisks : ∀ disk ∈ st.disks, InDev disk.name) (hrest : Ends rest) :
    (scanTable st (nl [] :: nl [] :: ((b.header :: b.headLines).map nl ++ rest))).2 = rest.tail ∧
      (scanTable st (nl [] :: nl [] :: ((b.header :: b.headLines).map nl ++ rest))).1.disks = st.disks := by
  have hclear : clearEmpty (nl [] :: nl [] :: ((b.header :: b.headLines).map nl ++ rest)) =
      (b.header :: b.headLines).map nl ++ rest := by
    rw [clearEmpty_nil, clearEmpty_nil, map_cons, cons_append,
      clearEmpty_of_length (length_nl_of_head (h.head_start b.header mem_cons_self))]
  have hother := detectDevice_other hdisks h.head_start hrest
  rw [scanTable_eq, hclear]
  exact hother

/-! ## The loop -/

theorem fdiskLoop_skip (skip : List (List UInt8)) (h : ∀ l ∈ skip, 0 ∉ l ∧ ¬ lit "Disk" <+: l) (st : DiskScan)
    (lines : List (List UInt8)) : fdiskLoop st (skip.map nl ++ lines) = fdiskLoop st lines := by
  induction skip with
  | nil => rfl
  | cons l skip ih =>
    obtain ⟨hnul, hdisk⟩ := h l mem_cons_self
    have hno : strncmpEq (nl l) (lit "Disk") 4 = false := by
      rw [← Bool.not_eq_true, disk_nl hnul]
      exact hdisk
    rw [map_cons, cons_append, fdiskLoop, hno]
    exact ih fun l' hl' => h l' (mem_cons_of_mem l hl')

theorem fdiskLoop_disk {buffer : List UInt8} {lines : List (List UInt8)} {st' : DiskScan}
    (hdisk : strncmpEq buffer (lit "Disk") 4 = true) (hscan : scanDisk st buffer lines = some (st', rest)) :
    fdiskLoop st (buffer :: lines) = fdiskLoop st' rest := by
  rw [fdiskLoop, hdisk, if_neg (by decide)]
  split
  · rename_i heq
    rw [hscan] at heq
    cases heq
  · rename_i heq
    rw [hscan] at heq
    cases heq
    rfl

/-- What stands behind a block. -/
def blockEnd : List DiskBlock → List (List UInt8)
  | [] => []
  | b :: bs => [] :: [] :: listingLines (b :: bs)

theorem listingLines_cons (b : DiskBlock) (bs : List DiskBlock) : listingLines (b :: bs) = b.lines ++ blockEnd bs := by
  cases bs with
  | nil => rw [blockEnd, append_nil]; rfl
  | cons b' bs => rfl

theorem ends_blockEnd (bs : List DiskBlock) : Ends ((blockEnd bs).map nl) := by
  cases bs with
  | nil => exact fun _ h => by cases h
  | cons b' bs => exact .cons_nl

theorem ends_tableLines (b : DiskBlock) (bs : List DiskBlock) : Ends ((b.tableLines ++ blockEnd bs).map nl) := by
  unfold DiskBlock.tableLines
  split
  · exact ends_blockEnd bs
  · exact .cons_nl

theorem fdiskLoop_blockEnd (st : DiskScan) (bs : List DiskBlock) :
    fdiskLoop st ((blockEnd bs).map nl).tail = fdiskLoop st ((listingLines bs).map nl) := by
  cases bs with
  | nil => rfl
  | cons b' bs => exact fdiskLoop_skip [[]] (by decide) st _

theorem fdiskLoop_tableLines (h : b.WellFormed) (st : DiskScan) (bs : List DiskBlock) :
    fdiskLoop st ((b.tableLines ++ blockEnd bs).map nl).tail = fdiskLoop st ((listingLines bs).map nl) := by
  cases htable : b.table with
  | none =>
    have hlines : b.tableLines = [] := by rw [DiskBlock.tableLines, htable]
    rw [hlines]
    exact fdiskLoop_blockEnd st bs
  | some table =>
    have hlines : b.tableLines = [] :: table.1 :: table.2.map PartitionRow.line := by rw [DiskBlock.tableLines, htable]
    obtain ⟨-, hdisk, hrows⟩ := h.table table htable
    have hskip : ∀ l ∈ table.1 :: table.2.map PartitionRow.line, 0 ∉ l ∧ ¬ lit "Disk" <+: l := by
      intro l hl
      have hnul : 0 ∉ l := h.nul (DiskBlock.table_mem (by rw [hlines]; exact mem_cons_of_mem _ hl))
      refine ⟨hnul, ?_⟩
      rcases mem_cons.mp hl with rfl | hl
      · exact hdisk
      · obtain ⟨r, hr, rfl⟩ := mem_map.mp hl
        obtain ⟨s, hs⟩ := (hrows r hr).inDev.eq_cons
        rw [PartitionRow.line, hs]
        rintro ⟨t, ht⟩
        exact absurd (cons.inj ht).1 (by decide)
    rw [hlines, cons_append, map_cons, tail_cons, map_append, fdiskLoop_skip _ hskip]
    cases bs with
    | nil => rfl
    | cons b' bs => exact fdiskLoop_skip [[], []] (by decide) st _

theorem fdiskLoop_block (h : b.WellFormed) (st : DiskScan) (bs : List DiskBlock) :
    ∃ st₁ : DiskScan, st₁.dtp.wwn = b.identifier.getD [] ∧ st₁.disks = st.disks.map b.fillHeader ∧
      fdiskLoop st ((listingLines (b :: bs)).map nl) =
        fdiskLoop (scanTable st₁ ((b.tableLines ++ blockEnd bs).map nl)).1
          (scanTable st₁ ((b.tableLines ++ blockEnd bs).map nl)).2 := by
  have hdisk : strncmpEq (nl b.header) (lit "Disk") 4 = true := by
    rw [disk_nl (h.nul b.header_mem)]
    simp only [DiskBlock.header, append_assoc]
    exact prefix_append _ _
  obtain ⟨dtp, hwwn, hscan⟩ := scanDisk_block st h (ends_tableLines b bs)
  have hlines : (listingLines (b :: bs)).map nl =
      nl b.header :: (b.headLines.map nl ++ (b.tableLines ++ blockEnd bs).map nl) := by
    rw [listingLines_cons, DiskBlock.lines, append_assoc, cons_append, map_cons, map_append]
  refine ⟨{ st with dtp := dtp, disks := st.disks.map b.fillHeader }, hwwn, rfl, ?_⟩
  rw [hlines]
  exact fdiskLoop_disk hdisk hscan

theorem fillHeader_name (b : DiskBlock) (disk : SarahDisk) : (b.fillHeader disk).name = disk.name := by
  unfold DiskBlock.fillHeader
  split
  · rfl
  · split_ifs <;> rfl

theorem PartitionRow.fill_name (wwn : List UInt8) (r : PartitionRow) (disk : SarahDisk) :
    (r.fill wwn disk).name = disk.name := by
  unfold PartitionRow.fill
  split_ifs <;> rfl

theorem foldl_fill_name (wwn : List UInt8) (rows : List PartitionRow) (disk : SarahDisk) :
    (rows.foldl (fun disk r => r.fill wwn disk) disk).name = disk.name := by
  induction rows generalizing disk with
  | nil => rfl
  | cons r rows ih => exact (ih _).trans (r.fill_name wwn disk)

theorem DiskBlock.fill_name (b : DiskBlock) (disk : SarahDisk) : (b.fill disk).name = disk.name :=
  (foldl_fill_name _ _ _).trans (fillHeader_name b disk)

theorem inDev_map {disks : List SarahDisk} {f : SarahDisk → SarahDisk} (hf : ∀ disk, (f disk).name = disk.name)
    (hdisks : ∀ disk ∈ disks, InDev disk.name) : ∀ disk ∈ disks.map f, InDev disk.name := by
  intro disk hdisk
  obtain ⟨d, hd, rfl⟩ := mem_map.mp hdisk
  rw [hf]
  exact hdisks d hd

theorem fdiskLoop_withTable (h : b.WellFormed) {table : List UInt8 × List PartitionRow} (htable : b.table = some table)
    (st : DiskScan) (bs : List DiskBlock) :
    ∃ st' : DiskScan, st'.disks = st.disks.map b.fill ∧
      fdiskLoop st ((listingLines (b :: bs)).map nl) = fdiskLoop st' ((listingLines bs).map nl) := by
  obtain ⟨hdevice, -, hrows⟩ := h.table table htable
  obtain ⟨st₁, hwwn, hdisks, hloop⟩ := fdiskLoop_block h st bs
  have hlines : (b.tableLines ++ blockEnd bs).map nl =
      nl [] :: nl table.1 :: (table.2.map (nl ∘ PartitionRow.line) ++ (blockEnd bs).map nl) := by
    rw [DiskBlock.tableLines, htable, map_append, map_cons, map_cons, map_map]
    rfl
  obtain ⟨hrest, hfill⟩ := scanTable_rows st₁ hdevice hrows (ends_blockEnd bs)
  refine ⟨(scanTable st₁ ((b.tableLines ++ blockEnd bs).map nl)).1, ?_, hloop.trans ?_⟩
  · have hbrows : b.rows = table.2 := by rw [DiskBlock.rows, htable]
    rw [hlines, hfill, hdisks, hwwn, map_map, ← hbrows]
    rfl
  · rw [← fdiskLoop_blockEnd, ← hrest, hlines]

theorem DiskBlock.fill_of_table_none (htable : b.table = none) : b.fill = b.fillHeader := by
  funext disk
  have hrows : b.rows = [] := by rw [DiskBlock.rows, htable]
  rw [DiskBlock.fill, hrows, foldl_nil]

theorem fdiskLoop_withoutTable (h : b.WellFormed) (htable : b.table = none) {b' : DiskBlock} (h' : b'.WellFormed)
    (hdisks : ∀ disk ∈ st.disks, InDev disk.name) (bs : List DiskBlock) :
    ∃ st' : DiskScan, st'.disks = st.disks.map b.fill ∧
      fdiskLoop st ((listingLines (b :: b' :: bs)).map nl) = fdiskLoop st' ((listingLines bs).map nl) := by
  obtain ⟨st₁, -, hdisks₁, hloop⟩ := fdiskLoop_block h st (b' :: bs)
  have hinDev : ∀ disk ∈ st₁.disks, InDev disk.name := by
    rw [hdisks₁]
    exact inDev_map (fillHeader_name b) hdisks
  have hlines : (b.tableLines ++ blockEnd (b' :: bs)).map nl =
      nl [] :: nl [] :: ((b'.header :: b'.headLines).map nl ++ (b'.tableLines ++ blockEnd bs).map nl) := by
    rw [DiskBlock.tableLines, htable, blockEnd, listingLines_cons, DiskBlock.lines, append_assoc, nil_append, map_cons,
      map_cons, map_append]
  obtain ⟨hrest, hkeep⟩ := scanTable_swallow h' hinDev (ends_tableLines b' bs)
  refine ⟨(scanTable st₁ ((b.tableLines ++ blockEnd (b' :: bs)).map nl)).1, ?_, hloop.trans ?_⟩
  · rw [hlines, hkeep, hdisks₁, DiskBlock.fill_of_table_none htable]
  · rw [← fdiskLoop_tableLines h', ← hrest, hlines]

/-- **The disk list after the loop**: the blocks that are read are filled in, one after the other. -/
theorem fdiskLoop_listing : ∀ {bs : List DiskBlock} {st : DiskScan}, (∀ b ∈ bs, b.WellFormed) →
    (∀ disk ∈ st.disks, InDev disk.name) →
      (fdiskLoop st ((listingLines bs).map nl)).map DiskScan.disks =
        some (st.disks.map (fillBlocks (parsedFrom false bs)))
  | [], st, _, _ => by
    rw [listingLines, map_nil, fdiskLoop, Option.map_some, parsedFrom]
    exact congrArg some (map_id' st.disks).symm
  | b :: bs, st, hbs, hdisks => by
    have h := hbs b mem_cons_self
    have hfill : ∀ (bs' : List DiskBlock) {st' : DiskScan}, st'.disks = st.disks.map b.fill →
        st'.disks.map (fillBlocks bs') = st.disks.map (fillBlocks (b :: bs')) := by
      intro bs' st' hst'
      rw [hst', map_map]
      rfl
    cases htable : b.table with
    | some table =>
      obtain ⟨st', hst', hloop⟩ := fdiskLoop_withTable h htable st bs
      have hinDev : ∀ disk ∈ st'.disks, InDev disk.name := by
        rw [hst']
        exact inDev_map b.fill_name hdisks
      rw [hloop, fdiskLoop_listing (fun b' hb' => hbs b' (mem_cons_of_mem b hb')) hinDev, parsedFrom, htable,
        hfill _ hst']
      rfl
    | none =>
      cases bs with
      | nil =>
        obtain ⟨st₁, -, hdisks₁, hloop⟩ := fdiskLoop_block h st []
        have hlines : (b.tableLines ++ blockEnd []).map nl = [] := by
          rw [DiskBlock.tableLines, htable]
          rfl
        rw [hloop, hlines, scanTable_none, fdiskLoop, Option.map_some, hdisks₁,
          ← DiskBlock.fill_of_table_none htable, parsedFrom, parsedFrom]
        rfl
      | cons b' bs =>
        obtain ⟨st', hst', hloop⟩ :=
          fdiskLoop_withoutTable h htable (hbs b' (mem_cons_of_mem b mem_cons_self)) hdisks bs
        have hinDev : ∀ disk ∈ st'.disks, InDev disk.name := by
          rw [hst']
          exact inDev_map b.fill_name hdisks
        rw [hloop, fdiskLoop_listing (fun c hc => hbs c (mem_cons_of_mem b (mem_cons_of_mem b' hc))) hinDev, parsedFrom,
          htable, hfill _ hst']
        rfl

/-! ## What an entry gets -/

section Fold

variable {α β κ : Type} {f : β → α → α} {name : α → κ} {keys : β → List κ} {bs : List β} {a : α}

theorem foldl_of_notMem (hkeep : ∀ b a, name a ∉ keys b → f b a = a) (ha : name a ∉ bs.flatMap keys) :
    bs.foldl (fun a b => f b a) a = a := by
  induction bs with
  | nil => rfl
  | cons b bs ih =>
    rw [flatMap_cons, mem_append, not_or] at ha
    rw [foldl_cons, hkeep b a ha.1]
    exact ih ha.2

theorem foldl_of_mem (hkeep : ∀ b a, name a ∉ keys b → f b a = a) (hname : ∀ b a, name (f b a) = name a)
    (hnodup : (bs.flatMap keys).Nodup) {b : β} (hb : b ∈ bs) (ha : name a ∈ keys b) :
    bs.foldl (fun a b => f b a) a = f b a := by
  obtain ⟨s, t, rfl⟩ := append_of_mem hb
  rw [flatMap_append, flatMap_cons] at hnodup
  have hs : name a ∉ s.flatMap keys := fun hmem =>
    disjoint_of_nodup_append hnodup hmem (mem_append_left _ ha)
  have ht : name (f b a) ∉ t.flatMap keys := fun hmem =>
    disjoint_of_nodup_append hnodup.of_append_right ha (hname b a ▸ hmem)
  rw [foldl_append, foldl_of_notMem hkeep hs, foldl_cons, foldl_of_notMem hkeep ht]

end Fold

theorem PartitionRow.fill_keep (wwn : List UInt8) (r : PartitionRow) (disk : SarahDisk) (h : disk.name ∉ [r.name]) :
    r.fill wwn disk = disk := if_neg fun heq => h (mem_singleton.mpr heq)

theorem fillHeader_keep (h : disk.name ≠ b.name) : b.fillHeader disk = disk := by
  unfold DiskBlock.fillHeader
  split
  · rfl
  · exact if_neg h

theorem fillHeader_of_identifier {wwn : List UInt8} (hwwn : b.identifier = some wwn) (h : disk.name = b.name) :
    b.fillHeader disk = { disk with wwn := wwn, pSize := b.size, pBlocks := b.sectors } := by
  unfold DiskBlock.fillHeader
  rw [hwwn]
  exact if_pos h

theorem DiskBlock.names_eq (b : DiskBlock) : b.names = b.name :: b.rows.flatMap fun r => [r.name] := by
  rw [DiskBlock.names, map_eq_flatMap]

theorem DiskBlock.fill_keep (b : DiskBlock) (disk : SarahDisk) (h : disk.name ∉ b.names) : b.fill disk = disk := by
  rw [DiskBlock.names_eq, mem_cons, not_or] at h
  rw [DiskBlock.fill, fillHeader_keep h.1]
  exact foldl_of_notMem (PartitionRow.fill_keep _) h.2

theorem DiskBlock.fill_header (hnodup : b.names.Nodup) (h : disk.name = b.name) : b.fill disk = b.fillHeader disk := by
  rw [DiskBlock.names_eq, nodup_cons] at hnodup
  have hrows : (b.fillHeader disk).name ∉ b.rows.flatMap fun r => [r.name] := by
    rw [fillHeader_name, h]
    exact hnodup.1
  rw [DiskBlock.fill]
  exact foldl_of_notMem (PartitionRow.fill_keep _) hrows

theorem DiskBlock.fill_row (hnodup : b.names.Nodup) {r : PartitionRow} (hr : r ∈ b.rows) (h : disk.name = r.name) :
    b.fill disk = r.fill (b.identifier.getD []) disk := by
  rw [DiskBlock.names_eq, nodup_cons] at hnodup
  have hne : disk.name ≠ b.name := by
    rintro heq
    exact hnodup.1 (mem_flatMap.mpr ⟨r, hr, mem_singleton.mpr (heq.symm.trans h)⟩)
  rw [DiskBlock.fill, fillHeader_keep hne]
  exact foldl_of_mem (PartitionRow.fill_keep _) (PartitionRow.fill_name _) hnodup.2 hr (mem_singleton.mpr h)

theorem fillBlocks_of_notMem {bs : List DiskBlock} (h : disk.name ∉ bs.flatMap DiskBlock.names) :
    fillBlocks bs disk = disk := foldl_of_notMem DiskBlock.fill_keep h

theorem fillBlocks_of_mem {bs : List DiskBlock} (hnodup : (bs.flatMap DiskBlock.names).Nodup) (hb : b ∈ bs)
    (h : disk.name ∈ b.names) : fillBlocks bs disk = b.fill disk :=
  foldl_of_mem DiskBlock.fill_keep DiskBlock.fill_name hnodup hb h

theorem fillBlocks_invariant {P : SarahDisk → Prop} {bs : List DiskBlock}
    (hheader : ∀ b ∈ bs, ∀ disk, P disk → P (b.fillHeader disk))
    (hrow : ∀ b ∈ bs, ∀ (r : PartitionRow) disk, P disk → P (r.fill (b.identifier.getD []) disk)) (h : P disk) :
    P (fillBlocks bs disk) := by
  refine foldlRecOn bs _ h fun disk hdisk b hb => ?_
  exact foldlRecOn b.rows _ (hheader b hb disk hdisk) fun disk hdisk r _ => hrow b hb r disk hdisk

/-! ## Which blocks are read -/

theorem parsed_append_swallowed (swallow : Bool) (bs : List DiskBlock) :
    parsedFrom swallow bs ++ swallowedFrom swallow bs ~ bs := by
  induction bs generalizing swallow with
  | nil => cases swallow <;> exact .refl _
  | cons b bs ih =>
    cases swallow with
    | true => exact perm_middle.trans ((ih false).cons b)
    | false => exact (ih b.table.isNone).cons b

namespace FdiskListing

variable (listing : FdiskListing)

/-- The devices that a listing names. -/
def names : List (List UInt8) := listing.blocks.flatMap DiskBlock.names

theorem names_perm : (listing.parsed ++ listing.swallowed).flatMap DiskBlock.names ~ listing.names :=
  (parsed_append_swallowed false listing.blocks).flatMap_right DiskBlock.names

theorem names_nodup : (listing.parsed.flatMap DiskBlock.names ++ listing.swallowed.flatMap DiskBlock.names).Nodup := by
  have h := listing.names_perm.nodup_iff.mpr listing.nodup
  rwa [flatMap_append] at h

theorem mem_parsed_or_swallowed (hb : b ∈ listing.blocks) : b ∈ listing.parsed ∨ b ∈ listing.swallowed :=
  mem_append.mp ((parsed_append_swallowed false listing.blocks).mem_iff.mpr hb)

theorem mem_of_swallowed (hb : b ∈ listing.swallowed) : b ∈ listing.blocks :=
  (parsed_append_swallowed false listing.blocks).mem_iff.mp (mem_append_right _ hb)

theorem mem_of_parsed (hb : b ∈ listing.parsed) : b ∈ listing.blocks :=
  (parsed_append_swallowed false listing.blocks).mem_iff.mp (mem_append_left _ hb)

/-! ## The property -/

/-- What an entry carries after the loop, when it was `disk` before. -/
structure Carries (disk disk' : SarahDisk) : Prop where
  header : ∀ b ∈ listing.blocks, ∀ wwn ∈ b.identifier, disk.name = b.name →
    disk'.wwn = wwn ∧ disk'.pSize = b.size ∧ disk'.pBlocks = b.sectors
  row : ∀ b ∈ listing.blocks, ∀ wwn ∈ b.identifier, ∀ r ∈ b.rows, disk.name = r.name →
    disk'.wwn = wwn ∧ disk'.pStart = r.start ∧ (disk'.pBlocks : ℤ) = r.stop - r.start + 1
  other : disk.name ∉ listing.names → disk' = disk

/-- A disk list that holds the devices of the listing, when no identity query succeeded. -/
structure Reads (st : DiskScan) : Prop where
  backup : st.activeBackupStrategy = true
  inDev : ∀ disk ∈ st.disks, InDev disk.name
  holds : ∀ name ∈ listing.names, ∃ disk ∈ st.disks, disk.name = name

/-- **The property**: every entry ends with what the listing says about it. -/
def Meets (st : DiskScan) : Prop :=
  ∃ st', fdiskFill (some listing.text) st = some st' ∧ Forall₂ listing.Carries st.disks st'.disks

theorem mem_listingLines {bs : List DiskBlock} {l : List UInt8} (hl : l ∈ listingLines bs) :
    l = [] ∨ ∃ b ∈ bs, l ∈ b.lines := by
  induction bs with
  | nil => cases hl
  | cons b bs ih =>
    rw [listingLines_cons, mem_append] at hl
    rcases hl with hl | hl
    · exact Or.inr ⟨b, mem_cons_self, hl⟩
    · cases bs with
      | nil => cases hl
      | cons b' bs =>
        rw [blockEnd, mem_cons, mem_cons] at hl
        rcases hl with rfl | rfl | hl
        · exact Or.inl rfl
        · exact Or.inl rfl
        · rcases ih hl with rfl | ⟨c, hc, hlc⟩
          · exact Or.inl rfl
          · exact Or.inr ⟨c, mem_cons_of_mem b hc, hlc⟩

theorem fgetsAll_text : fgetsAll 256 listing.text = (listingLines listing.blocks).map nl := by
  refine fgetsAll_lines fun l hl => ?_
  rcases mem_listingLines hl with rfl | ⟨b, hb, hlb⟩
  · exact ⟨by decide, not_mem_nil, not_mem_nil⟩
  · exact (listing.wellFormed b hb).line l hlb

variable {listing} {st : DiskScan}

/-- **The disk list after the fill.** -/
theorem fdiskFill_text (hbackup : st.activeBackupStrategy = true) (hinDev : ∀ disk ∈ st.disks, InDev disk.name) :
    (fdiskFill (some listing.text) st).map DiskScan.disks = some (st.disks.map (fillBlocks listing.parsed)) := by
  rw [fdiskFill, if_pos hbackup, listing.fgetsAll_text]
  exact fdiskLoop_listing listing.wellFormed hinDev

theorem meets_iff (hst : listing.Reads st) :
    listing.Meets st ↔ ∀ disk ∈ st.disks, listing.Carries disk (fillBlocks listing.parsed disk) := by
  obtain ⟨st', hfill, hdisks⟩ := Option.map_eq_some_iff.mp (fdiskFill_text hst.backup hst.inDev)
  unfold Meets
  have hsame : Forall₂ (fun disk disk' => listing.Carries disk (fillBlocks listing.parsed disk')) st.disks st.disks ↔
      ∀ disk ∈ st.disks, listing.Carries disk (fillBlocks listing.parsed disk) := forall₂_same
  rw [← hsame, ← forall₂_map_right_iff, ← hdisks]
  constructor
  · rintro ⟨st₁, hst₁, hcarries⟩
    rw [hfill] at hst₁
    rwa [Option.some.inj hst₁]
  · exact fun h => ⟨st', hfill, h⟩

theorem carries_of_parsed (h : ∀ b ∈ listing.swallowed, b.identifier = none) (disk : SarahDisk) :
    listing.Carries disk (fillBlocks listing.parsed disk) := by
  have hparsed : ∀ b ∈ listing.blocks, ∀ wwn ∈ b.identifier, b ∈ listing.parsed := by
    intro b hb wwn hwwn
    rcases listing.mem_parsed_or_swallowed hb with hb | hb
    · exact hb
    · rw [h b hb] at hwwn
      cases hwwn
  have hnodup := listing.names_nodup.of_append_left
  have hnames : ∀ b ∈ listing.parsed, b.names.Nodup := fun b hb => (nodup_flatMap.mp hnodup).1 b hb
  constructor
  · intro b hb wwn hwwn hname
    have hb := hparsed b hb wwn hwwn
    rw [fillBlocks_of_mem hnodup hb (hname ▸ mem_cons_self), DiskBlock.fill_header (hnames b hb) hname,
      fillHeader_of_identifier hwwn hname]
    exact ⟨rfl, rfl, rfl⟩
  · intro b hb wwn hwwn r hr hname
    have horder := ((listing.wellFormed b hb).rows r hr).order
    have hb := hparsed b hb wwn hwwn
    have hmem : disk.name ∈ b.names := hname ▸ mem_cons_of_mem _ (mem_map_of_mem hr)
    rw [fillBlocks_of_mem hnodup hb hmem, DiskBlock.fill_row (hnames b hb) hr hname, PartitionRow.fill, if_pos hname,
      hwwn]
    refine ⟨rfl, rfl, ?_⟩
    dsimp only
    omega
  · intro hother
    refine fillBlocks_of_notMem fun hmem => hother ?_
    rw [← listing.names_perm.mem_iff, flatMap_append]
    exact mem_append_left _ hmem

/-- The disk list with one blank entry per device of the listing. -/
def blankList (listing : FdiskListing) : DiskScan := { disks := listing.names.map fun name => { name := name } }

theorem reads_blankList (listing : FdiskListing) : listing.Reads listing.blankList := by
  refine ⟨rfl, ?_, fun name hname => ⟨{ name := name }, mem_map_of_mem hname, rfl⟩⟩
  intro disk hdisk
  obtain ⟨name, hname, rfl⟩ := mem_map.mp hdisk
  obtain ⟨b, hb, hname⟩ := mem_flatMap.mp hname
  have hwf := listing.wellFormed b hb
  rcases mem_cons.mp hname with rfl | hname
  · exact hwf.inDev
  · obtain ⟨r, hr, rfl⟩ := mem_map.mp hname
    exact (hwf.rows r hr).inDev

theorem not_meets_of_swallowed (hb : b ∈ listing.swallowed) {wwn : List UInt8} (hwwn : b.identifier = some wwn) :
    ¬ listing.Meets listing.blankList := by
  intro hmeets
  have hblock := listing.mem_of_swallowed hb
  have hname : b.name ∈ listing.names := mem_flatMap.mpr ⟨b, hblock, mem_cons_self⟩
  have hcarries := (meets_iff listing.reads_blankList).mp hmeets { name := b.name } (mem_map_of_mem hname)
  have hunread : b.name ∉ listing.parsed.flatMap DiskBlock.names := fun hmem =>
    disjoint_of_nodup_append listing.names_nodup hmem (mem_flatMap.mpr ⟨b, hb, mem_cons_self⟩)
  rw [fillBlocks_of_notMem hunread] at hcarries
  have hblank := (hcarries.header b hblock wwn hwwn rfl).1
  exact ((listing.wellFormed b hblock).identifier wwn hwwn).1 hblank.symm

/-- **The listing is read right exactly when no labelled disk is swallowed**: the property holds for every disk list
that holds the devices if and only if no block that stands behind a block without a table, which is read, has an
identifier. -/
theorem fdisk_exact_iff (listing : FdiskListing) :
    (∀ st, listing.Reads st → listing.Meets st) ↔ ∀ b ∈ listing.swallowed, b.identifier = none := by
  constructor
  · intro h b hb
    by_contra hne
    obtain ⟨wwn, hwwn⟩ := Option.ne_none_iff_exists'.mp hne
    exact not_meets_of_swallowed hb hwwn (h _ listing.reads_blankList)
  · intro h st hst
    exact (meets_iff hst).mpr fun disk _ => carries_of_parsed h disk

/-- A blank disk. -/
def blankDisk : DiskBlock where
  name := lit "/dev/sdb"
  human := lit " 1 KiB"
  size := 1024
  unit := lit " bytes"
  sectors := 2
  tail := lit " sectors"
  infos := [lit "Units: sectors of 1 * 512 = 512 bytes"]
  identifier := none
  table := none

/-- A labelled disk with one partition. -/
def labelledDisk : DiskBlock where
  name := lit "/dev/sda"
  human := lit " 4 KiB"
  size := 4096
  unit := lit " bytes"
  sectors := 8
  tail := lit " sectors"
  infos := [lit "Units: sectors of 1 * 512 = 512 bytes"]
  identifier := some (lit "0x1a2b3c4d")
  table := some (lit "Device     Boot Start End Sectors Size Id Type",
    [{ name := lit "/dev/sda1", gap := lit "  *  ", start := 2, sep := lit " ", stop := 7,
       tail := lit " 6 3K 83 Linux" }])

theorem infoLine_units : InfoLine (lit "Units: sectors of 1 * 512 = 512 bytes") :=
  ⟨⟨85, rfl, by decide, by decide⟩, by decide⟩

theorem blankDisk_wellFormed : blankDisk.WellFormed where
  line := by decide +kernel
  inDev := ⟨lit "sdb", rfl⟩
  width := by decide +kernel
  name := by decide +kernel
  human := by decide +kernel
  size := by decide +kernel
  unit := by decide +kernel
  sectors := by decide +kernel
  tail := by decide +kernel
  infos := forall_mem_singleton.mpr infoLine_units
  identifier := fun _ h => by cases h
  table := fun _ h => by cases h

theorem labelledDisk_wellFormed : labelledDisk.WellFormed where
  line := by decide +kernel
  inDev := ⟨lit "sda", rfl⟩
  width := by decide +kernel
  name := by decide +kernel
  human := by decide +kernel
  size := by decide +kernel
  unit := by decide +kernel
  sectors := by decide +kernel
  tail := by decide +kernel
  infos := forall_mem_singleton.mpr infoLine_units
  identifier := by decide +kernel
  table := by
    rintro table ⟨⟩
    refine ⟨⟨[], lit "     Boot Start End Sectors Size Id Type", rfl⟩, by decide, forall_mem_singleton.mpr ?_⟩
    exact {
      inDev := ⟨lit "sda1", rfl⟩
      width := by decide +kernel
      name := by decide +kernel
      gap := by decide +kernel
      blank := ⟨32, rfl, rfl⟩
      start := by decide +kernel
      sep := by decide +kernel
      stop := by decide +kernel
      order := by decide +kernel
      tail := by decide +kernel }

/-- A blank disk before a labelled one. -/
def blankFirst : FdiskListing where
  blocks := [blankDisk, labelledDisk]
  wellFormed := forall_mem_cons.mpr ⟨blankDisk_wellFormed, forall_mem_singleton.mpr labelledDisk_wellFormed⟩
  nodup := by decide

/-- A blank disk swallows the labelled one behind it. -/
theorem not_fdisk_exact : ¬ ∀ (listing : FdiskListing) (st : DiskScan), listing.Reads st → listing.Meets st := by
  intro h
  have hswallowed : labelledDisk ∈ blankFirst.swallowed := mem_cons_self
  exact not_meets_of_swallowed hswallowed rfl (h blankFirst _ blankFirst.reads_blankList)

end FdiskListing

end Sarah
