import SarahClient.April.Model
import SarahClient.CJson.Number

/-!
# Parsing a text, `cJSON.c`

`content` is the text with its NUL, and a position in it is an offset.

* `Outcome`: a value and the offset behind it, a failure with the offset where it is noticed, or a read or a write
  outside the memory, which also stands for an endless loop;
* `parseString`: the loop that looks for the closing quote, the allocation, and the loop that decodes into it;
* `parseNumber`, `parseEntries`, `parseArray`, `parseObject`, `parseValue`;
* `cJSONParse`: the tree, or the position that `cJSON_GetErrorPtr` reports.
-/

namespace Sarah.JsonText

open Stdio

/-- What a parsing function does. -/
inductive Outcome (α : Type)
  | fault
  | fail (offset : ℕ)
  | ok (a : α) (offset : ℕ)
  deriving DecidableEq

/-- Go on with the value and the offset behind it. -/
def Outcome.bind {α β : Type} : Outcome α → (α → ℕ → Outcome β) → Outcome β
  | .fault, _ => .fault
  | .fail offset, _ => .fail offset
  | .ok a offset, f => f a offset

variable (content : List UInt8)

/-- `buffer_skip_whitespace`; from the end it steps back. -/
def bufferSkipWhitespace (offset : ℕ) : ℕ :=
  let o := offset + ((content.drop offset).takeWhile (· ≤ 32)).length
  if o = content.length then o - 1 else o

/-- `skip_utf8_bom` at the start. -/
def skipUtf8Bom : ℕ := if 4 < content.length ∧ [0xEF, 0xBB, 0xBF] <+: content then 3 else 0

/-! ## Strings -/

/-- The value of a digit in `parse_hex4`. -/
def hexDigit (c : UInt8) : Option ℕ :=
  if 48 ≤ c.toNat ∧ c.toNat ≤ 57 then some (c.toNat - 48)
  else if 65 ≤ c.toNat ∧ c.toNat ≤ 70 then some (10 + c.toNat - 65)
  else if 97 ≤ c.toNat ∧ c.toNat ≤ 102 then some (10 + c.toNat - 97)
  else none

/-- The loop of `parse_hex4` for the digits that are left; a character that is no digit gives 0. -/
def parseHex : ℕ → ℕ → ℕ → Option ℕ
  | 0, _, h => some h
  | left + 1, i, h =>
    (content[i]?).bind fun c =>
      match hexDigit c with
      | none => some 0
      | some d => parseHex left (i + 1) (16 * h + d)

/-- `parse_hex4`. -/
def parseHex4 (input : ℕ) : Option ℕ := parseHex content 4 input 0

/-- The loop that writes the bytes of a code point from the last one on; `mark` makes the first one. -/
def encodeUtf8 (mark : ℕ → ℕ) : ℕ → ℕ → List UInt8
  | 0, codepoint => [UInt8.ofNat (mark codepoint)]
  | position + 1, codepoint =>
    encodeUtf8 mark position (codepoint >>> 6) ++ [UInt8.ofNat ((codepoint ||| 0x80) &&& 0xBF)]

/-- The second half of `utf16_literal_to_utf8`: the length of the sequence, and the bytes written. -/
def encodeCodepoint (sequenceLength codepoint : ℕ) : ℕ × List UInt8 :=
  if codepoint < 0x80 then (sequenceLength, encodeUtf8 (· &&& 0x7F) 0 codepoint)
  else if codepoint < 0x800 then (sequenceLength, encodeUtf8 (fun c => (c ||| 0xC0) &&& 0xFF) 1 codepoint)
  else if codepoint < 0x10000 then (sequenceLength, encodeUtf8 (fun c => (c ||| 0xE0) &&& 0xFF) 2 codepoint)
  else if codepoint ≤ 0x10FFFF then (sequenceLength, encodeUtf8 (fun c => (c ||| 0xF0) &&& 0xFF) 3 codepoint)
  else (0, [])

/-- `utf16_literal_to_utf8`; the length 0 is a failure. -/
def utf16LiteralToUtf8 (input inputEnd : ℕ) : Option (ℕ × List UInt8) :=
  if inputEnd - input < 6 then some (0, [])
  else
    (parseHex4 content (input + 2)).bind fun first =>
      if 0xDC00 ≤ first ∧ first ≤ 0xDFFF then some (0, [])
      else if 0xD800 ≤ first ∧ first ≤ 0xDBFF then
        if inputEnd - (input + 6) < 6 then some (0, [])
        else
          (content[input + 6]?).bind fun a => (content[input + 7]?).bind fun b =>
            if a ≠ 92 ∨ b ≠ 117 then some (0, [])
            else
              (parseHex4 content (input + 8)).map fun second =>
                if second < 0xDC00 ∨ 0xDFFF < second then (0, [])
                else encodeCodepoint 12 (0x10000 + (((first &&& 0x3FF) <<< 10) ||| (second &&& 0x3FF)))
      else some (encodeCodepoint 6 first)

/-- The first loop of `parse_string`: the closing quote and the number of skipped bytes. -/
def scanString : List UInt8 → ℕ → ℕ → Option (ℕ × ℕ)
  | [], _, _ => none
  | c :: t, inputEnd, skipped =>
    if c = 34 then some (inputEnd, skipped)
    else if c = 92 then
      match t with
      | [] => none
      | _ :: t => scanString t (inputEnd + 2) (skipped + 1)
    else scanString t (inputEnd + 1) skipped

/-- The escapes of one character. -/
def unescape : UInt8 → Option UInt8
  | 98 => some 8
  | 102 => some 12
  | 110 => some 10
  | 114 => some 13
  | 116 => some 9
  | 34 => some 34
  | 92 => some 92
  | 47 => some 47
  | _ => none

/-- A character or an escape of the string: the bytes it takes, of which 0 is a failure, and those it gives. -/
def decodeStep (inputEnd input : ℕ) : Option (ℕ × List UInt8) :=
  (content[input]?).bind fun c =>
    if c ≠ 92 then some (1, [c])
    else
      (content[input + 1]?).bind fun e =>
        if e = 117 then utf16LiteralToUtf8 content input inputEnd
        else
          match unescape e with
          | some b => some (2, [b])
          | none => some (0, [])

/-- The second loop of `parse_string`, into an output of `capacity` bytes, and the NUL behind it. -/
def decodeLoop (capacity inputEnd : ℕ) : ℕ → ℕ → List UInt8 → Outcome (List UInt8)
  | 0, _, _ => .fault
  | fuel + 1, input, output =>
    if inputEnd ≤ input then if capacity < output.length + 1 then .fault else .ok output (inputEnd + 1)
    else
      match decodeStep content inputEnd input with
      | none => .fault
      | some (n, bytes) =>
        if n = 0 then .fail input
        else if capacity < output.length + bytes.length then .fault
        else decodeLoop capacity inputEnd fuel (input + n) (output ++ bytes)

/-- `parse_string`: the bytes of the output. -/
def parseString (offset : ℕ) : Outcome (List UInt8) :=
  match content[offset]? with
  | none => .fault
  | some c =>
    if c ≠ 34 then .fail (offset + 1)
    else
      match scanString (content.drop (offset + 1)) (offset + 1) 0 with
      | none => .fail (offset + 1)
      | some (inputEnd, skipped) =>
        decodeLoop content (inputEnd - offset - skipped + 1) inputEnd (inputEnd - offset) (offset + 1) []

/-! ## Values -/

/-- A parsed item and its children. -/
abbrev Node := JsonItem × Forest JsonItem

/-- `parse_number`, with its buffer of 64 bytes. -/
def parseNumber (offset : ℕ) : Outcome Node :=
  let text := ((content.drop offset).take 63).takeWhile numberChar
  match strtod text with
  | none => .fail offset
  | some (number, afterEnd) => .ok (createNumber (some number), .nil) (offset + (text.length - afterEnd.length))

/-- The loop of `parse_array` and of `parse_object`, from the character in front of an entry on. -/
def parseEntries (close : UInt8) (entry : ℕ → Outcome Node) : ℕ → ℕ → Outcome (Forest JsonItem)
  | 0, _ => .fault
  | fuel + 1, offset =>
    (entry (bufferSkipWhitespace content (offset + 1))).bind fun v offset =>
      let offset := bufferSkipWhitespace content offset
      if content[offset]? = some 44 then
        (parseEntries close entry fuel offset).bind fun rest offset => .ok (.cons v.1 v.2 rest) offset
      else if content[offset]? = some close then .ok (.cons v.1 v.2 .nil) (offset + 1)
      else .fail offset

/-- What `parse_array` and `parse_object` do from their opening bracket on. -/
def parseBrackets (type : JsonType) (close : UInt8) (entry : ℕ → Outcome Node) (offset : ℕ) : Outcome Node :=
  let offset := bufferSkipWhitespace content (offset + 1)
  if content[offset]? = some close then .ok (newItem type, .nil) (offset + 1)
  else if content[offset]? = none then .fail (offset - 1)
  else
    (parseEntries content close entry content.length (offset - 1)).bind fun kids offset =>
      .ok (newItem type, kids) offset

/-- `parse_array`. -/
def parseArray (value : ℕ → Outcome Node) (offset : ℕ) : Outcome Node :=
  match content[offset]? with
  | none => .fault
  | some c => if c ≠ 91 then .fail offset else parseBrackets content .array 93 value offset

/-- A member of an object: the name, the colon and the value. -/
def parseMember (value : ℕ → Outcome Node) (offset : ℕ) : Outcome Node :=
  (parseString content offset).bind fun name offset =>
    let offset := bufferSkipWhitespace content offset
    if content[offset]? ≠ some 58 then .fail offset
    else
      (value (bufferSkipWhitespace content (offset + 1))).bind fun v offset =>
        .ok ({ v.1 with string := some (cstr name) }, v.2) offset

/-- `parse_object`. -/
def parseObject (value : ℕ → Outcome Node) (offset : ℕ) : Outcome Node :=
  if content[offset]? ≠ some 123 then .fail offset
  else parseBrackets content .object 125 (parseMember content value) offset

/-- `parse_value`; `limit` is how much deeper arrays and objects may be nested. -/
def parseValue (limit offset : ℕ) : Outcome Node :=
  if lit "null" <+: content.drop offset then .ok (newItem .null, .nil) (offset + 4)
  else if lit "false" <+: content.drop offset then .ok (newItem .false, .nil) (offset + 5)
  else if lit "true" <+: content.drop offset then .ok ({ newItem .true with valueint := 1 }, .nil) (offset + 4)
  else if content[offset]? = some 34 then
    (parseString content offset).bind fun s offset => .ok (createString s, .nil) offset
  else if (content[offset]?).any (fun c => c = 45 || isdigit c) then parseNumber content offset
  else if content[offset]? = some 91 then
    match limit with
    | 0 => .fail offset
    | limit + 1 => parseArray content (parseValue limit) offset
  else if content[offset]? = some 123 then
    match limit with
    | 0 => .fail offset
    | limit + 1 => parseObject content (parseValue limit) offset
  else .fail offset

/-- `CJSON_NESTING_LIMIT`. -/
def nestingLimit : ℕ := 1000

/-- `cJSON_Parse`: the tree, or the offset that the error position names. -/
def cJSONParse (value : List UInt8) : Option (Except ℕ (Forest JsonItem)) :=
  let content := cstr value ++ [0]
  match parseValue content nestingLimit (bufferSkipWhitespace content (skipUtf8Bom content)) with
  | .fault => none
  | .fail offset => some (.error (if offset < content.length then offset else content.length - 1))
  | .ok v _ => some (.ok (.cons v.1 v.2 .nil))

end Sarah.JsonText
