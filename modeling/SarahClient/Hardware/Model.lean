import SarahClient.Disk.Model
import SarahClient.Network

/-!
# The hardware information of `hardware.c`

`sarah_get_hd_info` and the three parse functions read the lines of `dmidecode` from one stream.

* `HdEntry`, `HdInfo`: the three structures; `HdField`: a character array with the key that fills it;
* `HdInfo.store`: what a line does to its array;
* `parseBiosInfo`, `parseSystemInfo`, `paseBoardInfo`: one line of a section;
* `hdStep`, `sarahGetHdInfo`: one line of the output, and all of it.
-/

namespace Sarah

open Stdio

/-! ## The structures -/

/-- `sarah_hd_bios_t`, `sarah_hd_system_t` and `sarah_hd_board_t`. -/
inductive HdEntry
  | bios
  | system
  | board
  deriving DecidableEq

/-- The bytes of the character arrays, which come first and without gaps. -/
def HdEntry.size : HdEntry → ℕ
  | .bios => 116
  | .system => 168
  | .board => 128

/-- The three structures; `text e i` is byte `i` of the character arrays of `e`. -/
structure HdInfo where
  text : HdEntry → ℕ → UInt8
  runtimeSize : ℕ
  romSize : ℕ

/-- `sarah_hd_bios_init`, `sarah_hd_system_init` and `sarah_hd_board_init`. -/
def hdInit : HdInfo := ⟨fun _ _ => 0, 0, 0⟩

/-- A character array: its place, the key of its line, `val_len >= size ? most : val_len` as the bytes that are copied,
and whether `cel_strtolower` follows. -/
structure HdField where
  entry : HdEntry
  key : List UInt8
  offset : ℕ
  size : ℕ
  most : ℕ
  lower : Bool
  deriving DecidableEq

/-- `vendor` of the BIOS. -/
def biosVendor : HdField := ⟨.bios, lit "Vendor", 0, 40, 39, false⟩

/-- `version` of the BIOS. -/
def biosVersion : HdField := ⟨.bios, lit "Version", 40, 64, 63, false⟩

/-- `release_date` of the BIOS. -/
def biosReleaseDate : HdField := ⟨.bios, lit "Release Date", 104, 12, 12, false⟩

/-- `manufacturer` of the system. -/
def systemManufacturer : HdField := ⟨.system, lit "Manufacturer", 0, 40, 39, false⟩

/-- `product_name` of the system. -/
def systemProductName : HdField := ⟨.system, lit "Product Name", 40, 24, 23, false⟩

/-- `version` of the system. -/
def systemVersion : HdField := ⟨.system, lit "Version", 64, 24, 23, false⟩

/-- `serial_no` of the system. -/
def systemSerialNo : HdField := ⟨.system, lit "Serial Number", 88, 40, 39, true⟩

/-- `uuid` of the system. -/
def systemUuid : HdField := ⟨.system, lit "UUID", 128, 40, 39, true⟩

/-- `manufacturer` of the board. -/
def boardManufacturer : HdField := ⟨.board, lit "Manufacturer", 0, 40, 39, false⟩

/-- `product_name` of the board. -/
def boardProductName : HdField := ⟨.board, lit "Product Name", 40, 24, 23, false⟩

/-- `version` of the board. -/
def boardVersion : HdField := ⟨.board, lit "Version", 64, 24, 23, false⟩

/-- `serial_no` of the board. -/
def boardSerialNo : HdField := ⟨.board, lit "Serial Number", 88, 40, 39, true⟩

/-! ## One line -/

section Store

variable (size : ℕ) (block : ℕ → UInt8)

/-- `memcpy` into a block of `size` bytes. -/
def memcpyAt (off : ℕ) (src : List UInt8) : Option (ℕ → UInt8) :=
  if off + src.length ≤ size then
    some fun i => if off ≤ i ∧ i < off + src.length then src.getD (i - off) 0 else block i
  else none

/-- `cel_strtolower` on `n` bytes of a block of `size` bytes, over a NUL as well. -/
def celStrtolower (off n : ℕ) : Option (ℕ → UInt8) :=
  if off + n ≤ size then some fun i => if off ≤ i ∧ i < off + n then tolower (block i) else block i else none

end Store

/-- The bytes of `val` that are copied. -/
def HdField.cut (f : HdField) (val : List UInt8) : List UInt8 :=
  val.take (if f.size ≤ val.length then f.most else val.length)

/-- The branch of a key of a character array. -/
def HdInfo.store (hd : HdInfo) (f : HdField) (val : List UInt8) : Option HdInfo :=
  (memcpyAt f.entry.size (hd.text f.entry) f.offset (f.cut val)).bind fun block =>
    (if f.lower then celStrtolower f.entry.size block f.offset val.length else some block).map fun block =>
      { hd with text := Function.update hd.text f.entry block }

/-- The `strcmp` chain of a parse function; a key that is not there is skipped. -/
def parseFields (fields : List HdField) (key val : List UInt8) (hd : HdInfo) : Option HdInfo :=
  match fields.find? fun f => f.key = key with
  | some f => hd.store f val
  | none => some hd

/-- `%u`: the number, by `strtoul` and cut to 32 bits, and the text behind it. -/
def scanUint (s : List UInt8) : Option (ℕ × List UInt8) :=
  let digits := unsign (s.dropWhile isspace)
  let n := digitsValue (digits.takeWhile isdigit)
  let negative := (s.dropWhile isspace).head? = some 45
  if digits.takeWhile isdigit = [] then none
  else
    some (u32 (if 2 ^ 64 ≤ n then 2 ^ 64 - 1 else if negative then (2 ^ 64 - n) % 2 ^ 64 else n),
      digits.dropWhile isdigit)

/-- The word that `%s` reads behind the number. -/
def unitWord (rest : List UInt8) : List UInt8 := (rest.dropWhile isspace).takeWhile fun c => !isspace c

/-- `sscanf(val, "%u %s", &size, unit)`; `unit` has 3 bytes, one for the NUL. -/
def scanSize (val : List UInt8) (size : ℕ) (unit : List UInt8) : Option (ℕ × List UInt8) :=
  match scanUint val with
  | none => some (size, unit)
  | some (n, rest) =>
    if 3 ≤ (unitWord rest).length then none else some (n, if unitWord rest = [] then unit else unitWord rest)

/-- The size in bytes, by the first byte of the unit. -/
def scaleSize (size : ℕ) (unit : List UInt8) : ℕ :=
  if unit.head? = some 107 ∨ unit.head? = some 75 then u32 (size * 1024)
  else if unit.head? = some 77 ∨ unit.head? = some 109 then u32 (size * 1024 * 1024)
  else size

/-- The locals of a parse function. -/
structure HdLocals where
  key : List UInt8 := []
  val : List UInt8 := []
  unit : List UInt8 := []

/-- The `strcmp` chain of `_parse_bios_info`; no two keys are the same. -/
def parseBiosInfo (loc : HdLocals) (hd : HdInfo) : Option (HdLocals × HdInfo) :=
  if loc.key = lit "Runtime Size" then
    (scanSize loc.val hd.runtimeSize loc.unit).map fun r =>
      ({ loc with unit := r.2 }, { hd with runtimeSize := scaleSize r.1 r.2 })
  else if loc.key = lit "ROM Size" then
    (scanSize loc.val hd.romSize loc.unit).map fun r =>
      ({ loc with unit := r.2 }, { hd with romSize := scaleSize r.1 r.2 })
  else (parseFields [biosVendor, biosVersion, biosReleaseDate] loc.key loc.val hd).map fun hd => (loc, hd)

/-- The `strcmp` chain of `_parse_system_info`. -/
def parseSystemInfo (loc : HdLocals) (hd : HdInfo) : Option (HdLocals × HdInfo) :=
  (parseFields [systemManufacturer, systemProductName, systemVersion, systemSerialNo, systemUuid] loc.key loc.val
    hd).map fun hd => (loc, hd)

/-- The `strcmp` chain of `_pase_board_info`. -/
def paseBoardInfo (loc : HdLocals) (hd : HdInfo) : Option (HdLocals × HdInfo) :=
  (parseFields [boardManufacturer, boardProductName, boardVersion, boardSerialNo] loc.key loc.val hd).map
    fun hd => (loc, hd)

/-- The function that reads a section. -/
def parseInfo : HdEntry → HdLocals → HdInfo → Option (HdLocals × HdInfo)
  | .bios => parseBiosInfo
  | .system => parseSystemInfo
  | .board => paseBoardInfo

/-! ## The output -/

/-- `"%32[^:]:%*[ ]%255[^\n]"` -/
def dmiFormat : List Directive :=
  [.set (fun c => c ≠ 58) (some 32) true, .lit [58], .set (fun c => c = 32) none false,
    .set (fun c => c ≠ 10) (some 255) true]

/-- The section that a line opens. -/
def headerEntry (buffer : List UInt8) : Option HdEntry :=
  if strncmpEq buffer (lit "BIOS Info") 9 then some .bios
  else if strncmpEq buffer (lit "System Info") 11 then some .system
  else if strncmpEq buffer (lit "Base Board Info") 15 then some .board
  else none

/-- Where the stream is read: in the loop of `sarah_get_hd_info`, or in a parse function with its locals. -/
structure HdReader where
  reading : Option (HdEntry × HdLocals)
  hd : HdInfo

/-- `sscanf` and the trims of a line with a colon. -/
def readPair (buffer : List UInt8) (loc : HdLocals) : HdLocals :=
  let values := sscanf dmiFormat buffer
  { loc with key := celLeftTrim (textAt values 0 loc.key), val := celRightTrim (textAt values 1 loc.val) }

/-- What a call of `fgets` is used for; a line of fewer than 2 bytes ends the section. -/
def hdStep (st : HdReader) (buffer : List UInt8) : Option HdReader :=
  match st.reading with
  | none => some { st with reading := (headerEntry buffer).map fun e => (e, {}) }
  | some (e, loc) =>
    if buffer.length < 2 then some { st with reading := none }
    else if 58 ∉ buffer then some st
    else (parseInfo e (readPair buffer loc) st.hd).map fun r => ⟨some (e, r.1), r.2⟩

/-- `sarah_get_hd_info`: its code and the structures; `dmidecode` is `none` when `popen` fails. -/
def sarahGetHdInfo (dmidecode : Option (List UInt8)) (hd : HdInfo) : Option (ℤ × HdInfo) :=
  match dmidecode with
  | none => some (1, hd)
  | some text => ((fgetsAll 256 text).foldlM hdStep ⟨none, hd⟩).map fun st => (0, st.hd)

end Sarah
