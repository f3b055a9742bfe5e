import SarahClient.CInt
import SarahClient.Lib.Bisect

/-!
# The ip2region lookup (`ext/ip2region`)

The database is a file: a super block with the offsets of the first and the last index block, a header of samples of the
index, the data, and the index blocks. A lookup is `none` where the code reads or writes outside a buffer.

* `Ip2region`, `Datablock`: `ip2region_entry` and `datablock_entry`;
* `fseek`, `fread`: the calls on the open file, as a position in its bytes;
* `memorySearch`, `binarySearch`, `btreeSearch`: the three lookups;
* `searchStep`: one lookup, by any of them.
-/

namespace Sarah

open Bisect

/-- `INDEX_BLOCK_LENGTH`. -/
def indexBlockLength : ℕ := 12

/-- `TOTAL_HEADER_LENGTH`. -/
def totalHeaderLength : ℕ := 8192

/-- `datablock_entry`: `region` is a block of 256 bytes. -/
structure Datablock where
  cityId : ℕ
  region : List UInt8
deriving DecidableEq

/-- `ip2region_entry`, with the samples read so far in `headerSip` and `headerPtr`; `dbHandler` is the position in the
file. -/
structure Ip2region where
  headerSip : List ℕ
  headerPtr : List ℕ
  headerLen : ℕ
  dbBinStr : Option (List UInt8)
  firstIndexPtr : ℕ
  lastIndexPtr : ℕ
  totalBlocks : ℕ
  dbHandler : ℕ
deriving DecidableEq

/-- The object as a successful `ip2region_create` leaves it. -/
def ip2regionCreate : Ip2region := ⟨[], [], 0, none, 0, 0, 0, 0⟩

/-- `getUnsignedInt`: four bytes, the low one first. -/
def getUnsignedInt (buffer : List UInt8) (offset : ℕ) : ℕ :=
  (buffer.getD offset 0).toNat + 2 ^ 8 * (buffer.getD (offset + 1) 0).toNat +
    2 ^ 16 * (buffer.getD (offset + 2) 0).toNat + 2 ^ 24 * (buffer.getD (offset + 3) 0).toNat

/-! ## The file -/

/-- A seek to a negative offset fails, and leaves the position. -/
def fseek (pos : ℕ) (offset : ℤ) : ℕ := if 0 ≤ offset then offset.toNat else pos

/-- `fread(buffer, size, 1, ..)`: `none` unless it returns 1. -/
def fread (db : List UInt8) (size pos : ℕ) : Option (List UInt8) × ℕ :=
  if size = 0 then (none, pos)
  else if pos + size ≤ db.length then (some ((db.drop pos).take size), pos + size)
  else (none, max pos db.length)

/-! ## Index blocks and data -/

/-- A block of the index: a range of addresses, and where its data are. -/
structure IndexBlock where
  sip : ℕ
  eip : ℕ
  dptr : ℕ
deriving DecidableEq

/-- The three numbers of a block. -/
def readBlock (buffer : List UInt8) (p : ℕ) : IndexBlock :=
  ⟨getUnsignedInt buffer p, getUnsignedInt buffer (p + 4), getUnsignedInt buffer (p + 8)⟩

/-- Where a search goes from a block. -/
def IndexBlock.compare (b : IndexBlock) (ip : ℕ) : Move ℕ :=
  if ip < b.sip then .left else if b.eip < ip then .right else .stop b.dptr

/-- The block at `p` of a buffer: `eip` and `dptr` are read only when the comparison before has not decided. -/
def bufferProbe (buffer : List UInt8) (ip : ℕ) (p : ℤ) : Option (Move ℕ × Unit) :=
  if p < 0 ∨ buffer.length < p + 4 then none
  else if ip < getUnsignedInt buffer p.toNat then some (.left, ())
  else if buffer.length < p + 8 then none
  else if getUnsignedInt buffer (p.toNat + 4) < ip then some (.right, ())
  else if buffer.length < p + 12 then none
  else some (.stop (getUnsignedInt buffer (p.toNat + 8)), ())

/-- Where the whole block can be read, the order of the reads does not matter. -/
theorem bufferProbe_of_le {buffer : List UInt8} {p : ℕ} (hp : p + indexBlockLength ≤ buffer.length) (ip : ℕ) :
    bufferProbe buffer ip p = some ((readBlock buffer p).compare ip, ()) := by
  unfold indexBlockLength at hp
  unfold bufferProbe readBlock IndexBlock.compare
  rw [if_neg (by omega), Int.toNat_natCast, if_neg (show ¬ (buffer.length : ℤ) < (p : ℤ) + 8 by omega),
    if_neg (show ¬ (buffer.length : ℤ) < (p : ℤ) + 12 by omega)]
  dsimp only
  split_ifs <;> rfl

/-- The length in a data pointer. -/
def dataLen (dptr : ℕ) : ℕ := (dptr >>> 24) &&& 0xFF

/-- The offset in it. -/
def dataPtr (dptr : ℕ) : ℕ := dptr &&& 0x00FFFFFF

/-- The data of `len` bytes at the start of `buffer`: with fewer than four, `memcpy` gets a negative length. -/
def fillDatablock (buffer : List UInt8) (len : ℕ) (block : Datablock) : Option Datablock :=
  if len < 4 then none
  else some ⟨getUnsignedInt buffer 0, (buffer.drop 4).take (len - 4) ++ 0 :: block.region.drop (len - 3)⟩

/-- The end of the two searches in the file: the data behind the pointer found. -/
def fetchData (db : List UInt8) (dptr : ℕ) (block : Datablock) (pos : ℕ) : Option ((ℕ × Datablock) × ℕ) :=
  if dptr = 0 then some ((0, block), pos)
  else
    match fread db (dataLen dptr) (fseek pos (dataPtr dptr)) with
    | (none, pos) => some ((0, block), pos)
    | (some buffer, pos) => (fillDatablock buffer (dataLen dptr) block).map fun b => ((1, b), pos)

/-- The number of index blocks, from the pointers in the super block. -/
def blockCount (buffer : List UInt8) : ℕ :=
  u32 (2 ^ 32 + getUnsignedInt buffer 4 - getUnsignedInt buffer 0) / indexBlockLength + 1

/-- The super block is copied into the object. -/
def Ip2region.loadIndex (o : Ip2region) (buffer : List UInt8) : Ip2region :=
  { o with firstIndexPtr := getUnsignedInt buffer 0
           lastIndexPtr := getUnsignedInt buffer 4
           totalBlocks := blockCount buffer }

/-! ## The search in memory -/

/-- The file, read at the first call. `false` where the search returns 0 right away; `malloc n` says whether `n` bytes
can be had. -/
def loadBinStr (malloc : ℕ → Bool) (db : List UInt8) (o : Ip2region) : Option (Bool × Ip2region) :=
  if o.dbBinStr.isSome then some (true, o)
  else if malloc db.length = false then some (false, { o with dbHandler := 0 })
  else if db.length = 0 then some (false, { o with dbBinStr := some db, dbHandler := 0 })
  else if db.length < 8 then none
  else some (true, { o with dbBinStr := some db, dbHandler := db.length }.loadIndex db)

/-- A probe of `ip2region_memory_search`; its offset is an `int`. -/
def memoryProbe (dbBinStr : List UInt8) (first ip : ℕ) (m : ℤ) (_ : Unit) : Option (Move ℕ × Unit) :=
  bufferProbe dbBinStr ip (i32 (first + m * indexBlockLength))

/-- `ip2region_memory_search`. -/
def memorySearch (malloc : ℕ → Bool) (db : List UInt8) (ip : ℕ) (block : Datablock) (o : Ip2region) :
    Option ((ℕ × Datablock) × Ip2region) :=
  (loadBinStr malloc db o).bind fun
    | (false, o) => some ((0, block), o)
    | (true, o) =>
      (bisect (memoryProbe (o.dbBinStr.getD []) o.firstIndexPtr ip) 0 0 o.totalBlocks ()).bind fun r =>
        if r.1 = 0 then some ((0, block), o)
        else if (o.dbBinStr.getD []).length < dataPtr r.1 + dataLen r.1 then none
        else (fillDatablock ((o.dbBinStr.getD []).drop (dataPtr r.1)) (dataLen r.1) block).map fun b => ((1, b), o)

/-! ## The binary search in the file -/

/-- The super block is read where it was not read before. -/
def loadSuper (db : List UInt8) (o : Ip2region) : Bool × Ip2region :=
  if o.totalBlocks = 0 then
    match fread db 8 0 with
    | (none, pos) => (false, { o with dbHandler := pos })
    | (some buffer, pos) => (true, { o with dbHandler := pos }.loadIndex buffer)
  else (true, o)

/-- One round of the loop: a short read ends the search with `return 0`. -/
def binaryProbe (db : List UInt8) (first ip : ℕ) (m : ℤ) (pos : ℕ) : Option (Move (Option ℕ) × ℕ) :=
  match fread db indexBlockLength (fseek pos (i32 (first + m * indexBlockLength))) with
  | (none, pos) => some (.stop none, pos)
  | (some buffer, pos) => some (((readBlock buffer 0).compare ip).map some, pos)

/-- `ip2region_binary_search`. -/
def binarySearch (db : List UInt8) (ip : ℕ) (block : Datablock) (o : Ip2region) :
    Option ((ℕ × Datablock) × Ip2region) :=
  match loadSuper db o with
  | (false, o) => some ((0, block), o)
  | (true, o) =>
    (bisect (binaryProbe db o.firstIndexPtr ip) (some 0) 0 o.totalBlocks o.dbHandler).bind fun
      | (none, pos) => some ((0, block), { o with dbHandler := pos })
      | (some dptr, pos) => (fetchData db dptr block pos).map fun r => (r.1, { o with dbHandler := r.2 })

/-! ## The b-tree search in the file -/

/-- The samples of the header, up to the first without a pointer. -/
def readHeader (buffer : List UInt8) : List (ℕ × ℕ) :=
  ((List.range (totalHeaderLength / 8)).map fun i => (getUnsignedInt buffer (8 * i), getUnsignedInt buffer (8 * i + 4)))
    |>.takeWhile fun sample => sample.2 ≠ 0

/-- The header is read where it was not read before. -/
def loadHeader (db : List UInt8) (o : Ip2region) : Bool × Ip2region :=
  if o.headerLen = 0 then
    match fread db totalHeaderLength 8 with
    | (none, pos) => (false, { o with dbHandler := pos })
    | (some buffer, pos) =>
      (true, { o with headerSip := (readHeader buffer).map Prod.fst
                      headerPtr := (readHeader buffer).map Prod.snd
                      headerLen := (readHeader buffer).length
                      dbHandler := pos })
  else (true, o)

/-- An element of a header array; what no sample was read into is not initialised. -/
def sampleAt (a : List ℕ) (i : ℤ) : Option ℕ := if 0 ≤ i then a[i.toNat]? else none

/-- The partition between the samples `i` and `i + 1`, as `sptr` and `eptr`. -/
def Ip2region.partition (o : Ip2region) (i : ℤ) : Option (Move (ℤ × ℤ) × Unit) :=
  (sampleAt o.headerPtr i).bind fun sptr : ℕ =>
    (sampleAt o.headerPtr (i + 1)).map fun eptr : ℕ => (.stop (i32 sptr, i32 eptr), ())

/-- One round of the loop over the header. -/
def headerProbe (o : Ip2region) (ip : ℕ) (m : ℤ) (_ : Unit) : Option (Move (ℤ × ℤ) × Unit) :=
  (sampleAt o.headerSip m).bind fun sip =>
    if ip = sip then if 0 < m then o.partition (m - 1) else o.partition m
    else if ip < sip then
      if m = 0 then o.partition m
      else (sampleAt o.headerSip (m - 1)).bind fun prev => if prev < ip then o.partition (m - 1) else some (.left, ())
    else if m = o.headerLen - 1 then o.partition (m - 1)
    else (sampleAt o.headerSip (m + 1)).bind fun next => if ip ≤ next then o.partition m else some (.right, ())

/-- A probe of the partition. -/
def partitionProbe (buffer : List UInt8) (ip : ℕ) (m : ℤ) (_ : Unit) : Option (Move ℕ × Unit) :=
  bufferProbe buffer ip (m * indexBlockLength)

/-- The partition from `sptr` to `eptr` is read into a buffer of 8192 bytes, and searched there. -/
def searchPartition (db : List UInt8) (ip : ℕ) (block : Datablock) (sptr eptr : ℤ) (pos : ℕ) :
    Option ((ℕ × Datablock) × ℕ) :=
  let indexBlockLen := i32 (eptr - sptr)
  let size := ((indexBlockLen + indexBlockLength) % 2 ^ 64).toNat
  if totalHeaderLength < min size (db.length - fseek pos sptr) then none
  else
    match fread db size (fseek pos sptr) with
    | (none, pos) => some ((0, block), pos)
    | (some buffer, pos) =>
      (bisect (partitionProbe buffer ip) 0 0 (indexBlockLen.tdiv indexBlockLength) ()).bind fun r =>
        fetchData db r.1 block pos

/-- `ip2region_btree_search`. -/
def btreeSearch (db : List UInt8) (ip : ℕ) (block : Datablock) (o : Ip2region) :
    Option ((ℕ × Datablock) × Ip2region) :=
  match loadHeader db o with
  | (false, o) => some ((0, block), o)
  | (true, o) =>
    (bisect (headerProbe o ip) (0, 0) 0 o.headerLen ()).bind fun r =>
      if r.1.1 = 0 then some ((0, block), o)
      else (searchPartition db ip block r.1.1 r.1.2 o.dbHandler).map fun q => (q.1, { o with dbHandler := q.2 })

/-! ## Any lookups, one after the other -/

/-- A lookup with one of the three algorithms. -/
inductive Lookup where
  | memory (ip : ℕ) (block : Datablock)
  | binary (ip : ℕ) (block : Datablock)
  | btree (ip : ℕ) (block : Datablock)

/-- A lookup on the object. -/
def searchStep (malloc : ℕ → Bool) (db : List UInt8) (o : Ip2region) : Lookup → Option (Ip2region × ℕ × Datablock)
  | .memory ip block => (memorySearch malloc db ip block o).map fun r => (r.2, r.1)
  | .binary ip block => (binarySearch db ip block o).map fun r => (r.2, r.1)
  | .btree ip block => (btreeSearch db ip block o).map fun r => (r.2, r.1)

end Sarah
