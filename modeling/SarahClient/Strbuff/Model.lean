import SarahClient.CInt
import SarahClient.Lib.Block
import SarahClient.Lib.Machine

/-!
# The growing string buffer of `cel_string.c`

The buffer is one zero-filled allocation of `opacity` bytes. `mem n` says whether an allocation of
`n` bytes succeeds. Every function returns its C return code with the buffer; an access outside the
allocation is `none`.

* `createBuffer`, `resizeBuffer`, `celStrbuffInit`;
* `celStrbuffAppendFrom`, `celStrbuffAppendChar`, `celStrbuffInsertFrom`, `celStrbuffRemove`,
  `celStrbuffClear`;
* `NetPiece`, `recvPieces`: the curl callbacks that append to a buffer;
* `StrbuffOp`, `strbuffStep`: one call on a buffer.
-/

namespace Sarah

open Block

/-- `cel_strbuff_t`: the allocation, its size in bytes, and the number of bytes in use. -/
structure Strbuff where
  buffer : List UInt8
  opacity : ℕ
  size : ℕ
  deriving DecidableEq, Repr

variable (mem : ℕ → Bool)

/-- A negative `int` becomes a `size_t` that no allocator can serve. -/
def createBuffer (opacity : ℤ) : Option (List UInt8) :=
  if 0 ≤ opacity ∧ mem opacity.toNat then some (List.replicate opacity.toNat 0) else none

/-- Grow (or shrink) the allocation, keeping the bytes in use. -/
def resizeBuffer (sb : Strbuff) (opacity : ℤ) : Option (ℤ × Strbuff) :=
  match createBuffer mem opacity with
  | none => some (0, sb)
  | some str =>
    let length := if (sb.size : ℤ) < opacity then sb.size else opacity.toNat
    if length ≤ sb.buffer.length then
      (copyIn str 0 (sb.buffer.take length)).map fun b =>
        (1, { sb with opacity := opacity.toNat, buffer := b })
    else none

/-- `cel_strbuff_init(sb, opacity, NULL)`. -/
def celStrbuffInit (opacity : ℤ) : Option Strbuff :=
  (createBuffer mem opacity).map fun b => ⟨b, opacity.toNat, 0⟩

/-- Leave room for `len` more bytes and the terminating NUL. -/
def growFor (sb : Strbuff) (len : ℕ) : Option (ℤ × Strbuff) :=
  if sb.opacity ≤ u32 (sb.size + len) then
    resizeBuffer mem sb (i32 (u32 (u32 (sb.size + len) * 2 + 1)))
  else some (1, sb)

/-- `memcpy(dst + off, src, len)`. -/
def memcpy (dst : List UInt8) (off : ℕ) (src : List UInt8) (len : ℕ) : Option (List UInt8) :=
  if len ≤ src.length then copyIn dst off (src.take len) else none

/-- The `while ( count-- > 0 )` loop of `cel_strbuff_append_from`. -/
def appendFromLoop (src : List UInt8) (len : ℕ) : ℕ → Strbuff → Option (ℤ × Strbuff)
  | 0, sb => some (1, sb)
  | n + 1, sb =>
    (growFor mem sb len).bind fun r =>
      if r.1 = 0 then some (0, r.2)
      else if len = 1 then
        src[0]?.bind fun c => (store r.2.buffer r.2.size c).bind fun b =>
          appendFromLoop src len n { r.2 with buffer := b, size := u32 (r.2.size + 1) }
      else
        (memcpy r.2.buffer r.2.size src len).bind fun b =>
          appendFromLoop src len n { r.2 with buffer := b, size := u32 (r.2.size + len) }

/-- `cel_strbuff_append_from`. -/
def celStrbuffAppendFrom (sb : Strbuff) (src : List UInt8) (len : ℕ) (count : ℤ) :
    Option (ℤ × Strbuff) := appendFromLoop mem src len count.toNat sb

/-- The loop of `cel_strbuff_append_char`. -/
def appendCharLoop (ch : UInt8) : ℕ → Strbuff → Option (ℤ × Strbuff)
  | 0, sb => some (1, sb)
  | n + 1, sb =>
    (if sb.opacity ≤ u32 (sb.size + 1) then resizeBuffer mem sb (i32 (u32 (sb.opacity * 2 + 1)))
      else some (1, sb)).bind fun r =>
      if r.1 = 0 then some (0, r.2)
      else
        (store r.2.buffer r.2.size ch).bind fun b =>
          appendCharLoop ch n { r.2 with buffer := b, size := u32 (r.2.size + 1) }

/-- `cel_strbuff_append_char`. -/
def celStrbuffAppendChar (sb : Strbuff) (ch : UInt8) (count : ℤ) : Option (ℤ × Strbuff) :=
  appendCharLoop mem ch count.toNat sb

/-- `for ( i = sb->size - 1; i >= l; i-- ) sb->buffer[i+len] = sb->buffer[i];` with `k` steps left. -/
def shiftTail (len l : ℕ) : ℕ → List UInt8 → Option (List UInt8)
  | 0, b => some b
  | k + 1, b => b[l + k]?.bind fun v => (store b (u32 (l + k + len)) v).bind (shiftTail len l k)

/-- The loop of `cel_strbuff_insert_from`. -/
def insertFromLoop (src : List UInt8) (len : ℕ) : ℕ → ℕ → Strbuff → Option (ℤ × Strbuff)
  | 0, _, sb => some (1, sb)
  | n + 1, idx, sb =>
    if sb.size < idx then some (1, sb)
    else
      (growFor mem sb len).bind fun r =>
        if r.1 = 0 then some (0, r.2)
        else
          (shiftTail len idx (r.2.size - idx) r.2.buffer).bind fun b =>
            (memcpy b idx src len).bind fun b =>
              insertFromLoop src len n (u32 (idx + len))
                { r.2 with buffer := b, size := u32 (r.2.size + len) }

/-- `cel_strbuff_insert_from`. -/
def celStrbuffInsertFrom (sb : Strbuff) (idx : ℕ) (src : List UInt8) (len : ℕ) (count : ℤ) :
    Option (ℤ × Strbuff) := insertFromLoop mem src len count.toNat idx sb

/-- `cel_strbuff_remove`: the bytes behind move up, and what they leave is cleared. -/
def celStrbuffRemove (sb : Strbuff) (idx len : ℕ) : Option (ℤ × Strbuff) :=
  if sb.size ≤ idx then some (0, sb)
  else
    let len := if sb.size - idx < len then sb.size - idx else len
    (moveDown len (idx + len) (sb.size - (idx + len)) sb.buffer).bind fun b =>
      (fill b (sb.size - len) len 0).map fun b => (1, { sb with buffer := b, size := sb.size - len })

/-- `cel_strbuff_clear`. -/
def celStrbuffClear (sb : Strbuff) : Option (ℤ × Strbuff) :=
  (fill sb.buffer 0 sb.size 0).map fun b => (1, { sb with buffer := b, size := 0 })

/-- One call of a curl receive callback; curl delivers at most 16384 bytes. -/
abbrev NetPiece := { b : List UInt8 // b.length ≤ 16384 }

/-- A receive callback on each piece of a body: `cel_strbuff_append_from` once, its result ignored. -/
def recvPieces : List NetPiece → Strbuff → Option Strbuff
  | [], sb => some sb
  | b :: bs, sb => (celStrbuffAppendFrom mem sb b.1 b.1.length 1).bind fun r => recvPieces bs r.2

/-- A call on a buffer; the caller's source holds at least the `len` bytes it announces. -/
inductive StrbuffOp
  | appendFrom (src : List UInt8) (len : ℕ) (h : len ≤ src.length) (count : ℤ)
  | appendChar (ch : UInt8) (count : ℤ)
  | insertFrom (idx : ℕ) (src : List UInt8) (len : ℕ) (h : len ≤ src.length) (count : ℤ)
  | remove (idx len : ℕ)
  | clear

/-- One call, with its return code. -/
def strbuffStep (sb : Strbuff) : StrbuffOp → Option (Strbuff × ℤ)
  | .appendFrom src len _ count => (celStrbuffAppendFrom mem sb src len count).map Prod.swap
  | .appendChar ch count => (celStrbuffAppendChar mem sb ch count).map Prod.swap
  | .insertFrom idx src len _ count => (celStrbuffInsertFrom mem sb idx src len count).map Prod.swap
  | .remove idx len => (celStrbuffRemove sb idx len).map Prod.swap
  | .clear => (celStrbuffClear sb).map Prod.swap

end Sarah
