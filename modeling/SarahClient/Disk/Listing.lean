import SarahClient.Disk.Model
import Mathlib.Data.List.Nodup

/-!
# The listing of `fdisk -l`

* `PartitionRow`, `DiskBlock`, `FdiskListing`: a listing and its text;
* `sscanf_header`, `sscanf_identifier`, `sscanf_partition`: what the formats read from its lines.
-/

namespace Sarah

open List Stdio

/-! ## Listings -/

/-- A row of a partition table. -/
structure PartitionRow where
  name : List UInt8
  gap : List UInt8
  start : ℕ
  sep : List UInt8
  stop : ℕ
  tail : List UInt8
  deriving DecidableEq

/-- The printed row. -/
def PartitionRow.line (r : PartitionRow) : List UInt8 :=
  r.name ++ r.gap ++ decimal r.start ++ r.sep ++ decimal r.stop ++ r.tail

/-- A disk: its header line, further lines about it, its identifier, and its table with the table's header line. -/
structure DiskBlock where
  name : List UInt8
  human : List UInt8
  size : ℕ
  unit : List UInt8
  sectors : ℕ
  tail : List UInt8
  infos : List (List UInt8)
  identifier : Option (List UInt8)
  table : Option (List UInt8 × List PartitionRow)
  deriving DecidableEq

namespace DiskBlock

/-- The rows of a block, none without a table. -/
def rows (b : DiskBlock) : List PartitionRow :=
  match b.table with
  | none => []
  | some table => table.2

/-- The first line of a block. -/
def header (b : DiskBlock) : List UInt8 :=
  lit "Disk" ++ lit " " ++ b.name ++ lit ":" ++ b.human ++ lit "," ++ lit " " ++ decimal b.size ++ b.unit ++ lit "," ++
    lit " " ++ decimal b.sectors ++ b.tail

/-- The line with the disk identifier. -/
def identifierLine (wwn : List UInt8) : List UInt8 := lit "Disk identifier" ++ lit ":" ++ lit " " ++ wwn

/-- The lines below the header line, up to the first empty one. -/
def headLines (b : DiskBlock) : List (List UInt8) := b.infos ++ b.identifier.toList.map identifierLine

/-- An empty line, the header line of the table and its rows. -/
def tableLines (b : DiskBlock) : List (List UInt8) :=
  match b.table with
  | none => []
  | some table => [] :: table.1 :: table.2.map PartitionRow.line

/-- All lines of a block. -/
def lines (b : DiskBlock) : List (List UInt8) := b.header :: b.headLines ++ b.tableLines

/-- The devices that a block names. -/
def names (b : DiskBlock) : List (List UInt8) := b.name :: b.rows.map PartitionRow.name

end DiskBlock

/-- Two empty lines between blocks. -/
def listingLines : List DiskBlock → List (List UInt8)
  | [] => []
  | [b] => b.lines
  | b :: b' :: bs => b.lines ++ [] :: [] :: listingLines (b' :: bs)

/-- A device of `/dev/`. -/
def InDev (name : List UInt8) : Prop := lit "/dev/" <+: name

/-- The columns of a row as `fdisk` prints them, within the code's buffers. -/
structure PartitionRow.WellFormed (r : PartitionRow) : Prop where
  inDev : InDev r.name
  width : r.name.length ≤ 63
  name : ∀ c ∈ r.name, isspace c = false
  gap : ∀ c ∈ r.gap, isdigit c = false
  blank : ∃ c ∈ r.gap.head?, isspace c = true
  start : r.start < 2 ^ 63
  sep : r.sep ≠ [] ∧ ∀ c ∈ r.sep, isspace c = true
  stop : r.stop < 2 ^ 63
  order : r.start ≤ r.stop + 1
  tail : Stops isdigit r.tail

/-- A line about a disk starts with neither a blank nor the name of a device. -/
structure InfoLine (l : List UInt8) : Prop where
  start : ∃ c ∈ l.head?, isspace c = false ∧ c ≠ 47
  identifier : ¬ lit "Disk id" <+: l

/-- The lines of a block as `fdisk` prints them, within the code's buffers. -/
structure DiskBlock.WellFormed (b : DiskBlock) : Prop where
  line : ∀ l ∈ b.lines, Line 256 l
  inDev : InDev b.name
  width : b.name.length ≤ 63
  name : 58 ∉ b.name
  human : b.human ≠ [] ∧ 44 ∉ b.human
  size : b.size < 2 ^ 63
  unit : b.unit ≠ [] ∧ 44 ∉ b.unit ∧ Stops isdigit b.unit
  sectors : b.sectors < 2 ^ 63
  tail : Stops isdigit b.tail
  infos : ∀ l ∈ b.infos, InfoLine l
  identifier : ∀ w ∈ b.identifier, w ≠ [] ∧ w.length ≤ 40 ∧ ∀ c ∈ w, isspace c = false
  table : ∀ table ∈ b.table, lit "Device" <:+: table.1 ∧ ¬ lit "Disk" <+: table.1 ∧ ∀ r ∈ table.2, r.WellFormed

/-- **The listing of `fdisk -l`**: no device is named twice. -/
structure FdiskListing where
  blocks : List DiskBlock
  wellFormed : ∀ b ∈ blocks, b.WellFormed
  nodup : (blocks.flatMap DiskBlock.names).Nodup

/-- The printed listing. -/
def FdiskListing.text (listing : FdiskListing) : List UInt8 := (listingLines listing.blocks).flatMap fun l => l ++ [10]

/-! ## Lines -/

/-- A line as it stands in the buffer. -/
def nl (l : List UInt8) : List UInt8 := l ++ [10]

theorem strncmpEq_iff {s t : List UInt8} (hs : 0 ∉ s) (ht : 0 ∉ t) : strncmpEq s t t.length = true ↔ t <+: s := by
  rw [strncmpEq, decide_eq_true_iff, cstr_of_notMem hs, cstr_of_notMem ht, take_length, prefix_iff_eq_take]
  exact eq_comm

theorem prefix_nl {t l : List UInt8} (ht : 10 ∉ t) : t <+: nl l ↔ t <+: l := by
  rw [nl, prefix_concat_iff]
  constructor
  · rintro (rfl | h)
    · exact absurd (mem_append_right l (mem_singleton_self 10)) ht
    · exact h
  · exact Or.inr

theorem strncmpEq_nl {l t : List UInt8} (hl : 0 ∉ l) (h0 : 0 ∉ t) (h10 : 10 ∉ t) :
    strncmpEq (nl l) t t.length = true ↔ t <+: l := by
  have hnul : 0 ∉ nl l := by
    rw [nl, mem_append, not_or]
    exact ⟨hl, by decide⟩
  rw [strncmpEq_iff hnul h0, prefix_nl h10]

theorem disk_nl {l : List UInt8} (hl : 0 ∉ l) : strncmpEq (nl l) (lit "Disk") 4 = true ↔ lit "Disk" <+: l :=
  strncmpEq_nl hl (by decide) (by decide)

theorem diskId_nl {l : List UInt8} (hl : 0 ∉ l) : strncmpEq (nl l) (lit "Disk id") 7 = true ↔ lit "Disk id" <+: l :=
  strncmpEq_nl hl (by decide) (by decide)

theorem length_nl (l : List UInt8) : (nl l).length = l.length + 1 := by
  rw [nl, length_append, length_singleton]

theorem length_nl_of_head {l : List UInt8} {p : UInt8 → Prop} (hl : ∃ c ∈ l.head?, p c) : ¬ (nl l).length < 2 := by
  obtain ⟨c, hc, -⟩ := hl
  cases l with
  | nil => cases hc
  | cons _ l =>
    rw [length_nl, length_cons]
    omega

theorem InDev.eq_cons {name : List UInt8} (h : InDev name) : ∃ s, name = 47 :: s := by
  obtain ⟨s, rfl⟩ := h
  exact ⟨lit "dev/" ++ s, rfl⟩

theorem InDev.ne_nil {name : List UInt8} (h : InDev name) : name ≠ [] := by
  obtain ⟨s, rfl⟩ := h.eq_cons
  exact cons_ne_nil _ _

/-! ## What the formats read -/

theorem sscanf_partition {r : PartitionRow} (h : r.WellFormed) :
    sscanf partitionFormat (nl r.line) = [.text r.name, .int r.start, .int r.stop] := by
  obtain ⟨c, hc, hblank⟩ := h.blank
  have hgap : r.gap ≠ [] := fun hnil => by rw [hnil] at hc; cases hc
  have hstart : Stops (fun c => !isspace c) r.gap := fun c' hc' => by
    simp only [Option.mem_unique hc' hc, hblank, Bool.not_true]
  have hdigit : ∀ c ∈ r.gap, (fun c => !isdigit c) c := fun c hc => by simp only [h.gap c hc, Bool.not_false]
  have hsep : Stops isdigit r.sep := .of_forall fun c hc => not_isdigit_of_isspace (h.sep.2 c hc)
  simp only [partitionFormat, nl, PartitionRow.line, append_assoc]
  rw [sscanf_str _ h.inDev.ne_nil h.name (hstart.append hgap) (within_some h.width),
    sscanf_set _ _ hgap hdigit (stops_not_decimal _) within_none,
    sscanf_int _ h.start (hsep.append h.sep.1), sscanf_space _ h.sep.2 (stops_decimal _),
    sscanf_int _ h.stop (h.tail.append_newline), sscanf]
  rfl

theorem ne_of_notMem {c : UInt8} {s : List UInt8} (h : c ∉ s) : ∀ c' ∈ s, decide (c' ≠ c) = true := by
  intro c' hc'
  rw [decide_eq_true_iff]
  exact ne_of_mem_of_not_mem hc' h

theorem stops_colon (s : List UInt8) : Stops (fun c => decide (c ≠ 58)) (lit ":" ++ s) :=
  Stops.append (.cons rfl) (by decide)

theorem stops_comma (s : List UInt8) : Stops (fun c => decide (c ≠ 44)) (lit "," ++ s) :=
  Stops.append (.cons rfl) (by decide)

theorem sscanf_header {b : DiskBlock} (h : b.WellFormed) :
    sscanf headerFormat (nl b.header) = [.text b.name, .int b.size, .int b.sectors] := by
  have hname : Stops isspace b.name := by
    obtain ⟨s, hs⟩ := h.inDev.eq_cons
    rw [hs]
    exact .cons rfl
  simp only [headerFormat, nl, DiskBlock.header, append_assoc]
  rw [sscanf_lit, sscanf_space _ (by decide +kernel) (hname.append h.inDev.ne_nil),
    sscanf_set _ _ h.inDev.ne_nil (ne_of_notMem h.name) (stops_colon _) (within_some h.width), sscanf_lit,
    sscanf_set _ _ h.human.1 (ne_of_notMem h.human.2) (stops_comma _) within_none, sscanf_lit,
    sscanf_space _ (by decide +kernel) (stops_decimal _), sscanf_int _ h.size (h.unit.2.2.append h.unit.1),
    sscanf_set _ _ h.unit.1 (ne_of_notMem h.unit.2.1) (stops_comma _) within_none, sscanf_lit,
    sscanf_space _ (by decide +kernel) (stops_decimal _), sscanf_int _ h.sectors h.tail.append_newline, sscanf]
  rfl

theorem sscanf_identifier {wwn : List UInt8} (hne : wwn ≠ []) (hwwn : ∀ c ∈ wwn, isspace c = false) :
    sscanf identifierFormat (nl (DiskBlock.identifierLine wwn)) = [.text wwn] := by
  simp only [identifierFormat, nl, DiskBlock.identifierLine, append_assoc]
  rw [sscanf_set _ _ (by decide +kernel) (by decide +kernel) (stops_colon _) within_none, sscanf_lit,
    sscanf_space _ (by decide +kernel) ((Stops.of_forall hwwn).append hne),
    sscanf_str _ hne hwwn (.cons rfl) within_none, sscanf]
  rfl

end Sarah
