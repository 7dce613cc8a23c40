import IoHttpParser.Model.Parser
import IoHttpParser.Lib.Region

/-!
# The parser over pointers

`ihtp_parser.c` once more, with its pointers as positions of the caller's buffer: every byte it
loads, every region it hands to a library function and every `size_t` difference it takes is a step
that faults where the C code would leave the buffer or wrap around. `none` is a fault.
-/

namespace IoHttpParser
namespace Pointer
open Region Incremental Lanes

/-- `memchr`, with the position it returns. -/
def memchr (c : UInt8) (mem : Bytes) (buf len : Nat) : Option (Option Nat) := do
  let xs ← region mem buf len
  some ((Memory.memchr c xs).map (buf + ·))

/-- `memrchr`, with the position it returns. -/
def memrchr (c : UInt8) (mem : Bytes) (buf len : Nat) : Option (Option Nat) := do
  let xs ← region mem buf len
  some ((Memory.memrchr c xs).map (buf + ·))

/-- `ihtp_method_from_str`. -/
def methodFromStr (mem : Bytes) (method methodLen : Nat) : Option Method := do
  let xs ← region mem method methodLen
  some (IoHttpParser.methodFromStr xs)

/-- `find_line_end`: `*line_end` and `*line_ending_len`. -/
def findLineEnd (mem : Bytes) (buf len : Nat) (policy : Policy) :
    Option (Except Status (Nat × Nat)) := do
  match ← memchr lf mem buf len with
  | none => some (.error .incomplete)
  | some p =>
    if p > buf then
      let before ← sub p 1
      let c ← load mem before
      if c == cr then some (.ok (before, 2))
      else if policy.rejectBareLf then some (.error .error)
      else some (.ok (p, 1))
    else if policy.rejectBareLf then some (.error .error)
    else some (.ok (p, 1))

/-- `find_header_name_colon`. -/
def findHeaderNameColon (mem : Bytes) (buf len : Nat) : Option (Option Nat) := do
  match ← memchr colon mem buf len with
  | none => some none
  | some p =>
    let offset ← sub p buf
    if offset == 0 then some none
    else if ← allAt isTokenChar mem buf offset then some (some offset)
    else some none

/-- The loop of `find_method_space` at index `i`, with that many bytes left. -/
def findMethodSpaceFrom (mem : Bytes) (buf : Nat) : Nat → Nat → Option (Option Nat)
  | _, 0 => some none
  | i, left + 1 => do
    let c ← load mem (buf + i)
    if c == sp then if i == 0 then some none else some (some i)
    else if !isTokenChar c then some none
    else findMethodSpaceFrom mem buf (i + 1) left

/-- `find_method_space`. -/
def findMethodSpace (mem : Bytes) (buf len : Nat) : Option (Option Nat) :=
  findMethodSpaceFrom mem buf 0 len

/-- `find_last_char_offset`. -/
def findLastCharOffset (mem : Bytes) (buf len : Nat) (ch : UInt8) : Option (Option Nat) := do
  match ← memrchr ch mem buf len with
  | none => some none
  | some pos =>
    let offset ← sub pos buf
    some (some offset)

/-- `while ((size_t)(end - p) >= guard) { if (stop) break; p += stride; }`, the new `p`. -/
def skipWords (guard stride : Nat) (stop : Nat → Option Bool) (endp : Nat) :
    Nat → Nat → Option Nat
  | 0, p => some p
  | fuel + 1, p => do
    let left ← sub endp p
    if guard ≤ left then
      if ← stop p then some p else skipWords guard stride stop endp fuel (p + stride)
    else some p

/-- `memcpy(&chunk, p, sizeof(chunk))`. -/
def loadWord (mem : Bytes) (p : Nat) : Option UInt64 := do
  let xs ← region mem p 8
  some (load64 xs)

/-- `request_target_is_valid`. -/
def requestTargetIsValid (mem : Bytes) (buf len : Nat) (allowSpaces : Bool) : Option Bool := do
  let endp := buf + len
  let p ←
    if !allowSpaces then
      skipWords 8 8 (fun p => do
        let chunk ← loadWord mem p
        some ((lowControls chunk 0x21 ||| hasDel chunk) != 0)) endp len buf
    else some buf
  let left ← sub endp p
  allAt (fun c => (c == sp && allowSpaces) || !(c ≤ 0x20 || c == 0x7f)) mem p left

/-- `field_text_is_valid`. -/
def fieldTextIsValid (mem : Bytes) (buf len : Nat) : Option Bool := do
  let endp := buf + len
  let p ← skipWords 32 16 (fun p => do
    let chunkA ← loadWord mem p
    let chunkB ← loadWord mem (p + 8)
    some ((lowControls chunkA 0x20 ||| hasDel chunkA ||| lowControls chunkB 0x20 |||
      hasDel chunkB) != 0)) endp len buf
  let left ← sub endp p
  let p ← skipWords 8 8 (fun p => do
    let chunk ← loadWord mem p
    some ((lowControls chunk 0x20 ||| hasDel chunk) != 0)) endp left p
  let left ← sub endp p
  allAt (fun c => c == htab || !(c < 0x20 || c == 0x7f)) mem p left

/-- `trim_and_validate_field_value`: `*trimmed_start` and `*trimmed_len`. -/
def trimAndValidateFieldValue (mem : Bytes) (buf len : Nat) : Option (Option (Nat × Nat)) := do
  let first ← leadWhile isLws mem buf len
  let inner ← sub len first
  let kept ← trailWhile isLws mem (buf + first) inner
  let last := first + kept
  if first == len then some (some (buf + len, 0)) else
  let trimmedLen ← sub last first
  if ← fieldTextIsValid mem (buf + first) trimmedLen then some (some (buf + first, trimmedLen))
  else some none

/-- `parse_status_line`. -/
def parseStatusLine (mem : Bytes) (buf len : Nat) (resp : Response Span) (policy : Policy) :
    Option (Status × Response Span × Nat) := do
  match ← findLineEnd mem buf len policy with
  | .error status => some (status, resp, 0)
  | .ok (lineBreak, lineEndingLen) =>
    let lineLen ← sub lineBreak buf
    if lineLen < 13 then some (.error, resp, 0) else
    let magic ← region mem buf 7
    if magic != ascii "HTTP/1." then some (.error, resp, 0) else
    let b7 ← load mem (buf + 7)
    match versionOfByte (some b7) with
    | none => some (.error, resp, 0)
    | some version =>
      let resp := { resp with version }
      let b8 ← load mem (buf + 8)
      if b8 != sp then some (.error, resp, 0) else
      let d9 ← load mem (buf + 9)
      if !isDigit d9 then some (.error, resp, 0) else
      let d10 ← load mem (buf + 10)
      if !isDigit d10 then some (.error, resp, 0) else
      let d11 ← load mem (buf + 11)
      if !isDigit d11 then some (.error, resp, 0) else
      let statusCode :=
        (d9.toNat - 0x30) * 100 + (d10.toNat - 0x30) * 10 + (d11.toNat - 0x30)
      let resp := { resp with statusCode }
      if statusCode < 100 || statusCode > 599 then some (.error, resp, 0) else
      let b12 ← load mem (buf + 12)
      if b12 != sp then some (.error, resp, 0) else
      if lineLen > 13 then
        let reasonLen ← sub lineBreak (buf + 13)
        let resp := { resp with reason := ⟨buf + 13, reasonLen⟩ }
        if ← fieldTextIsValid mem (buf + 13) reasonLen then
          some (.ok, resp, lineLen + lineEndingLen)
        else some (.error, resp, 0)
      else some (.ok, { resp with reason := ⟨buf + 13, 0⟩ }, lineLen + lineEndingLen)

/-- `parse_request_line`. -/
def parseRequestLine (mem : Bytes) (buf len : Nat) (req : Request Span) (policy : Policy) :
    Option (Status × Request Span × Nat) := do
  match ← findLineEnd mem buf len policy with
  | .error .incomplete =>
    if len > ihtpMaxRequestLine then some (.errorTooLong, req, 0)
    else some (.incomplete, req, 0)
  | .error status => some (status, req, 0)
  | .ok (lineBreak, lineEndingLen) =>
    let lineLen ← sub lineBreak buf
    if lineLen > ihtpMaxRequestLine then some (.errorTooLong, req, 0) else
    match ← findMethodSpace mem buf lineLen with
    | none => some (.error, req, 0)
    | some sp1 =>
      let method ← methodFromStr mem buf sp1
      let req := { req with methodStr := ⟨buf, sp1⟩, method }
      let pathStart := buf + sp1 + 1
      let afterMethod ← sub lineLen sp1
      let remaining ← sub afterMethod 1
      match ← findLastCharOffset mem pathStart remaining sp with
      | none => some (.error, req, 0)
      | some sp2 =>
        let req := { req with path := ⟨pathStart, sp2⟩ }
        if sp2 == 0 then some (.error, req, 0) else
        if !(← requestTargetIsValid mem pathStart sp2 policy.allowSpacesInUri) then
          some (.error, req, 0)
        else
        let ver := pathStart + sp2 + 1
        let verLen ← sub lineBreak ver
        if verLen != 8 then some (.error, req, 0) else
        let magic ← region mem ver 7
        if magic != ascii "HTTP/1." then some (.error, req, 0) else
        let b7 ← load mem (ver + 7)
        match versionOfByte (some b7) with
        | none => some (.error, req, 0)
        | some version => some (.ok, { req with version }, lineLen + lineEndingLen)

/-- One iteration of the loop of `parse_header_block` over the `len` bytes at `buf`. -/
def headerStep (mem : Bytes) (maxHeaders : Nat) (policy : Policy) (buf len pos : Nat)
    (headers : List (Header Span)) : Option (Decision (List (Header Span)) Status) :=
  if pos < len then do
    let c ← load mem (buf + pos)
    let isContinuation := isLws c
    if policy.rejectObsFold && isContinuation then some (.fail .error) else
    let lineStart := buf + pos
    let rest ← sub len pos
    match ← findLineEnd mem lineStart rest policy with
    | .error .incomplete =>
      if rest > ihtpMaxHeaderLine then some (.fail .errorTooLong) else some .more
    | .error status => some (.fail status)
    | .ok (lineBreak, lineEndingLen) =>
      let lineLen ← sub lineBreak lineStart
      if lineLen > ihtpMaxHeaderLine then some (.fail .errorTooLong) else
      if lineLen == 0 then some (.finish lineEndingLen headers) else
      if isContinuation then
        if headers.length == 0 then some (.fail .error) else
        if !(← fieldTextIsValid mem lineStart lineLen) then some (.fail .error) else
        let last ← sub headers.length 1
        let h ← headers[last]?
        let valueLen ← sub lineBreak h.value.start
        some (.advance (lineLen + lineEndingLen)
          (headers.set last { h with value := ⟨h.value.start, valueLen⟩ }))
      else
        match ← findHeaderNameColon mem lineStart lineLen with
        | none => some (.fail .error)
        | some colonOffset =>
          if headers.length ≥ maxHeaders then some (.fail .errorTooManyHeaders) else
          let valStart := lineStart + colonOffset + 1
          let valLen ← sub lineBreak valStart
          match ← trimAndValidateFieldValue mem valStart valLen with
          | none => some (.fail .error)
          | some (valStart, valLen) =>
            some (.advance (lineLen + lineEndingLen)
              (headers ++ [⟨⟨lineStart, colonOffset⟩, ⟨valStart, valLen⟩⟩]))
  else some .more

/-- The loop of `parse_header_block` at `pos`. -/
def headerLoop (mem : Bytes) (maxHeaders : Nat) (policy : Policy) (buf len initialCount : Nat) :
    Nat → Nat → List (Header Span) → Option (Status × List (Header Span) × Nat)
  | 0, pos, headers => some (.incomplete, headers, pos)
  | fuel + 1, pos, headers => do
    match ← headerStep mem maxHeaders policy buf len pos headers with
    | .more => some (.incomplete, headers, pos)
    | .fail status => some (status, headers.take initialCount, 0)
    | .advance n headers =>
      headerLoop mem maxHeaders policy buf len initialCount fuel (pos + n) headers
    | .finish n headers => some (.ok, headers, pos + n)

/-- `parse_header_block`. -/
def parseHeaderBlock (mem : Bytes) (buf len : Nat) (headers : List (Header Span))
    (maxHeaders : Nat) (policy : Policy) : Option (Status × List (Header Span) × Nat) :=
  headerLoop mem maxHeaders policy buf len headers.length (len + 1) 0 headers

end Pointer

/-- A stateful entry point with the pointer-level reader of its start line, and the spans that the
start line leaves in the output. -/
structure PointerParser (out : Type) extends MessageParser out where
  startLineAt : Bytes → Nat → Nat → out → Policy → Option (Status × out × Nat)
  startSpans : out → List Span

namespace PointerParser
open Region

variable {out : Type} (p : PointerParser out)

/-- The header phase of a stateful call. -/
def parseHeadersPhaseAt (policy : Policy) (state : ParserState) (buf : Bytes) (o : out) :
    Option (ParseResult out) := do
  let len ← sub buf.length state.cursor
  let (status, headers, blockEnd) ←
    Pointer.parseHeaderBlock buf state.cursor len (p.headers o) p.capacity policy
  let state := { state with cursor := state.cursor + blockEnd }
  let o := p.setHeaders o headers
  match status with
  | .incomplete => some ⟨.incomplete, state, o, 0⟩
  | .ok => some ⟨.ok, { state with phase := .done }, o, state.cursor⟩
  | status => some ⟨status, { state with phase := .error }, o, 0⟩

/-- The common body of the stateful entry points. -/
def parseStatefulAt (state : ParserState) (buf : Bytes) (o : out) (policy : Option Policy)
    (bytesConsumed : Nat) : Option (ParseResult out) :=
  if state.mode ≠ p.mode then some ⟨.error, state, o, bytesConsumed⟩ else
  let policy := resolvePolicy policy
  match state.phase with
  | .error => some ⟨.error, state, o, 0⟩
  | .done => some ⟨.ok, state, o, state.cursor⟩
  | .startLine => do
    let len ← sub buf.length state.cursor
    match ← p.startLineAt buf state.cursor len o policy with
    | (.ok, o, lineEnd) =>
      p.parseHeadersPhaseAt policy
        { state with cursor := state.cursor + lineEnd, phase := .headers } buf o
    | (status, o, _) =>
      some ⟨status, if p.fatal status then { state with phase := .error } else state, o, 0⟩
  | .headers => p.parseHeadersPhaseAt policy state buf o

end PointerParser

/-- `ihtp_parse_request_stateful` over pointers. -/
def requestPointers : PointerParser (Request Span) where
  toMessageParser := requestParser
  startLineAt := Pointer.parseRequestLine
  startSpans req := [req.methodStr, req.path]

/-- `ihtp_parse_response_stateful` over pointers. -/
def responsePointers : PointerParser (Response Span) where
  toMessageParser := responseParser
  startLineAt := Pointer.parseStatusLine
  startSpans resp := [resp.reason]

/-- `ihtp_parse_headers_stateful` over pointers. -/
def headersPointers (maxHeaders : Nat) : PointerParser (List (Header Span)) where
  toMessageParser := headersParser maxHeaders
  startLineAt _ _ _ headers _ := some (.error, headers, 0)
  startSpans _ := []

end IoHttpParser
