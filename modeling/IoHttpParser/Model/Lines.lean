import IoHttpParser.Model.Chars
import IoHttpParser.Lib.Memory
import IoHttpParser.Lib.Lanes

/-!
# Line scanning

The static helpers of `ihtp_parser.c` that look at one line: line ends, delimiters, the
word-at-a-time validators and the trimming of field values. A pointer into the buffer is
the suffix it starts, and pointers are returned as offsets.
-/

namespace IoHttpParser
open Memory Lanes

/-- `find_line_end`: the length of the line and of its ending. -/
def findLineEnd (buf : Bytes) (policy : Policy) : Except Status (Nat × Nat) :=
  match memchr lf buf with
  | none => .error .incomplete
  | some i =>
    if 0 < i && buf[i - 1]? == some cr then .ok (i - 1, 2)
    else if policy.rejectBareLf then .error .error
    else .ok (i, 1)

/-- `find_header_name_colon`. -/
def findHeaderNameColon (buf : Bytes) : Option Nat :=
  match memchr colon buf with
  | none => none
  | some offset =>
    if offset == 0 then none
    else if (buf.take offset).all isTokenChar then some offset
    else none

/-- The loop of `find_method_space` at index `i`. -/
def findMethodSpaceFrom (i : Nat) : Bytes → Option Nat
  | [] => none
  | c :: rest =>
    if c == sp then if i == 0 then none else some i
    else if !isTokenChar c then none
    else findMethodSpaceFrom (i + 1) rest

/-- `find_method_space`. -/
def findMethodSpace (buf : Bytes) : Option Nat := findMethodSpaceFrom 0 buf

/-- `find_last_char_offset`. -/
def findLastCharOffset (buf : Bytes) (ch : UInt8) : Option Nat := memrchr ch buf

/-- The lanes of `chunk` below `limit`, in their top bits. -/
def lowControls (chunk limit : UInt64) : UInt64 :=
  (chunk - ones64 * limit) &&& ~~~chunk &&& highs64

/-- The lanes of `chunk` equal to DEL, in their top bits. -/
def hasDel (chunk : UInt64) : UInt64 :=
  let delBytes := chunk ^^^ (ones64 * 0x7f)
  (delBytes - ones64) &&& ~~~delBytes &&& highs64

/-- `while ((size_t)(end - p) >= guard) { if (stop) break; p += stride; }`. -/
def skipWords (guard stride : Nat) (stop : Bytes → Bool) : Nat → Bytes → Bytes
  | 0, p => p
  | fuel + 1, p =>
    if guard ≤ p.length then
      if stop p then p else skipWords guard stride stop fuel (p.drop stride)
    else p

/-- `request_target_is_valid`. -/
def requestTargetIsValid (buf : Bytes) (allowSpaces : Bool) : Bool :=
  let p :=
    if !allowSpaces then
      skipWords 8 8 (fun p =>
        let chunk := load64 (p.take 8)
        (lowControls chunk 0x21 ||| hasDel chunk) != 0) buf.length buf
    else buf
  p.all (fun c => (c == sp && allowSpaces) || !(c ≤ 0x20 || c == 0x7f))

/-- `field_text_is_valid`. -/
def fieldTextIsValid (buf : Bytes) : Bool :=
  let p := skipWords 32 16 (fun p =>
    let chunkA := load64 (p.take 8)
    let chunkB := load64 ((p.drop 8).take 8)
    (lowControls chunkA 0x20 ||| hasDel chunkA ||| lowControls chunkB 0x20 ||| hasDel chunkB)
      != 0) buf.length buf
  let p := skipWords 8 8 (fun p =>
    let chunk := load64 (p.take 8)
    (lowControls chunk 0x20 ||| hasDel chunk) != 0) p.length p
  p.all (fun c => c == htab || !(c < 0x20 || c == 0x7f))

/-- `trim_and_validate_field_value`: the offset and length of the trimmed value. -/
def trimAndValidateFieldValue (buf : Bytes) : Option (Nat × Nat) :=
  let first := (buf.takeWhile isLws).length
  let last := first + ((buf.drop first).rdropWhile isLws).length
  if first == buf.length then some (buf.length, 0)
  else if fieldTextIsValid ((buf.drop first).take (last - first)) then some (first, last - first)
  else none

end IoHttpParser
