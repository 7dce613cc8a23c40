import IoHttpParser.Model.Parser
import IoHttpParser.Lib.Counting

/-!
# The parser with its counters

`ihtp_parser.c` as it is compiled with `IHTP_PERF_TRACE`: every function again, with the counters
that it adds to. The counters are natural numbers here; those of the program are these modulo
`2 ^ 64`.
-/

namespace IoHttpParser
open Memory Lanes Incremental Counting

/-- The fields of `ihtp_perf_counters_t`. -/
inductive PerfCounter where
  | findLineEndCalls | findLineEndBytes
  | findMethodSpaceCalls | findMethodSpaceBytes
  | requestTargetCalls | requestTargetBytes | requestTargetFastBytes | requestTargetSlowBytes
  | findHeaderNameColonCalls | findHeaderNameColonBytes
  | trimFieldValueCalls | trimFieldValueBytes
  | fieldTextCalls | fieldTextBytes | fieldTextFastBytes | fieldTextSlowBytes
  | parseRequestLineCalls | parseHeaderBlockCalls
  deriving DecidableEq, Repr

/-- `ihtp_perf_counters_t`. -/
abbrev PerfCounters := PerfCounter → Nat

/-- A computation that adds to the counters. -/
abbrev Perf := Counted PerfCounters

/-- `IHTP_PERF_ADD`. -/
def perfAdd (field : PerfCounter) (value : Nat) : Perf Unit := Counted.add (Pi.single field value)

namespace Perf

/-- `find_line_end`. -/
def findLineEnd (buf : Bytes) (policy : Policy) : Perf (Except Status (Nat × Nat)) := do
  perfAdd .findLineEndCalls 1
  match memchr lf buf with
  | none =>
    perfAdd .findLineEndBytes buf.length
    pure (.error .incomplete)
  | some i =>
    perfAdd .findLineEndBytes (i + 1)
    pure <|
      if 0 < i && buf[i - 1]? == some cr then .ok (i - 1, 2)
      else if policy.rejectBareLf then .error .error
      else .ok (i, 1)

/-- `find_header_name_colon`. -/
def findHeaderNameColon (buf : Bytes) : Perf (Option Nat) := do
  perfAdd .findHeaderNameColonCalls 1
  match memchr colon buf with
  | none =>
    perfAdd .findHeaderNameColonBytes buf.length
    pure none
  | some offset =>
    perfAdd .findHeaderNameColonBytes (offset + 1)
    pure <|
      if offset == 0 then none
      else if (buf.take offset).all isTokenChar then some offset
      else none

/-- The loop of `find_method_space` at index `i`. -/
def findMethodSpaceFrom (i : Nat) : Bytes → Perf (Option Nat)
  | [] => pure none
  | c :: rest => do
    perfAdd .findMethodSpaceBytes 1
    if c == sp then pure (if i == 0 then none else some i)
    else if !isTokenChar c then pure none
    else findMethodSpaceFrom (i + 1) rest

/-- `find_method_space`. -/
def findMethodSpace (buf : Bytes) : Perf (Option Nat) := do
  perfAdd .findMethodSpaceCalls 1
  findMethodSpaceFrom 0 buf

/-- A word loop, with the bytes that it steps over. -/
def skipWords (field : PerfCounter) (guard stride : Nat) (stop : Bytes → Bool) :
    Nat → Bytes → Perf Bytes
  | 0, p => pure p
  | fuel + 1, p =>
    if guard ≤ p.length then
      if stop p then pure p
      else do
        perfAdd field stride
        skipWords field guard stride stop fuel (p.drop stride)
    else pure p

/-- A byte loop, with the bytes that it reads. -/
def all (field : PerfCounter) (ok : UInt8 → Bool) : Bytes → Perf Bool
  | [] => pure true
  | c :: p => do
    perfAdd field 1
    if ok c then all field ok p else pure false

/-- `request_target_is_valid`. -/
def requestTargetIsValid (buf : Bytes) (allowSpaces : Bool) : Perf Bool := do
  perfAdd .requestTargetCalls 1
  perfAdd .requestTargetBytes buf.length
  let p ←
    if !allowSpaces then
      skipWords .requestTargetFastBytes 8 8 (fun p =>
        let chunk := load64 (p.take 8)
        (lowControls chunk 0x21 ||| hasDel chunk) != 0) buf.length buf
    else pure buf
  all .requestTargetSlowBytes (fun c => (c == sp && allowSpaces) || !(c ≤ 0x20 || c == 0x7f)) p

/-- `field_text_is_valid`. -/
def fieldTextIsValid (buf : Bytes) : Perf Bool := do
  perfAdd .fieldTextCalls 1
  perfAdd .fieldTextBytes buf.length
  let p ← skipWords .fieldTextFastBytes 32 16 (fun p =>
    let chunkA := load64 (p.take 8)
    let chunkB := load64 ((p.drop 8).take 8)
    (lowControls chunkA 0x20 ||| hasDel chunkA ||| lowControls chunkB 0x20 ||| hasDel chunkB)
      != 0) buf.length buf
  let p ← skipWords .fieldTextFastBytes 8 8 (fun p =>
    let chunk := load64 (p.take 8)
    (lowControls chunk 0x20 ||| hasDel chunk) != 0) p.length p
  all .fieldTextSlowBytes (fun c => c == htab || !(c < 0x20 || c == 0x7f)) p

/-- `trim_and_validate_field_value`. -/
def trimAndValidateFieldValue (buf : Bytes) : Perf (Option (Nat × Nat)) := do
  perfAdd .trimFieldValueCalls 1
  perfAdd .trimFieldValueBytes buf.length
  let first := (buf.takeWhile isLws).length
  let last := first + ((buf.drop first).rdropWhile isLws).length
  if first == buf.length then pure (some (buf.length, 0))
  else
    let valid ← fieldTextIsValid ((buf.drop first).take (last - first))
    pure (if valid then some (first, last - first) else none)

/-- `parse_status_line`. -/
def parseStatusLine (base : Nat) (buf : Bytes) (resp : Response Span) (policy : Policy) :
    Perf (Status × Response Span × Nat) := do
  match ← findLineEnd buf policy with
  | .error status => pure (status, resp, 0)
  | .ok (lineLen, lineEndingLen) =>
    if lineLen < 13 || buf.take 7 != ascii "HTTP/1." then pure (.error, resp, 0) else
    match versionOfByte buf[7]? with
    | none => pure (.error, resp, 0)
    | some version =>
      let resp := { resp with version }
      if buf[8]? != some sp then pure (.error, resp, 0) else
      let d9 := buf.getD 9 0
      let d10 := buf.getD 10 0
      let d11 := buf.getD 11 0
      if !isDigit d9 || !isDigit d10 || !isDigit d11 then pure (.error, resp, 0) else
      let statusCode :=
        (d9.toNat - 0x30) * 100 + (d10.toNat - 0x30) * 10 + (d11.toNat - 0x30)
      let resp := { resp with statusCode }
      if statusCode < 100 || statusCode > 599 then pure (.error, resp, 0) else
      if buf[12]? != some sp then pure (.error, resp, 0) else
      let resp := { resp with reason := ⟨base + 13, lineLen - 13⟩ }
      if lineLen > 13 then
        let valid ← fieldTextIsValid ((buf.drop 13).take (lineLen - 13))
        pure (if !valid then (.error, resp, 0) else (.ok, resp, lineLen + lineEndingLen))
      else pure (.ok, resp, lineLen + lineEndingLen)

/-- `parse_request_line`. -/
def parseRequestLine (base : Nat) (buf : Bytes) (req : Request Span) (policy : Policy) :
    Perf (Status × Request Span × Nat) := do
  perfAdd .parseRequestLineCalls 1
  match ← findLineEnd buf policy with
  | .error .incomplete =>
    pure (if buf.length > ihtpMaxRequestLine then (.errorTooLong, req, 0)
      else (.incomplete, req, 0))
  | .error status => pure (status, req, 0)
  | .ok (lineLen, lineEndingLen) =>
    if lineLen > ihtpMaxRequestLine then pure (.errorTooLong, req, 0) else
    match ← findMethodSpace (buf.take lineLen) with
    | none => pure (.error, req, 0)
    | some sp1 =>
      let req := { req with methodStr := ⟨base, sp1⟩, method := methodFromStr (buf.take sp1) }
      let pathStart := sp1 + 1
      let remaining := lineLen - sp1 - 1
      match findLastCharOffset ((buf.drop pathStart).take remaining) sp with
      | none => pure (.error, req, 0)
      | some sp2 =>
        let req := { req with path := ⟨base + pathStart, sp2⟩ }
        if sp2 == 0 then pure (.error, req, 0) else
        let valid ← requestTargetIsValid ((buf.drop pathStart).take sp2) policy.allowSpacesInUri
        if !valid then pure (.error, req, 0) else
        let ver := pathStart + sp2 + 1
        let verLen := lineLen - ver
        if verLen != 8 || (buf.drop ver).take 7 != ascii "HTTP/1." then pure (.error, req, 0) else
        match versionOfByte buf[ver + 7]? with
        | none => pure (.error, req, 0)
        | some version => pure (.ok, { req with version }, lineLen + lineEndingLen)

/-- One iteration of the loop of `parse_header_block`. -/
def headerStep (maxHeaders : Nat) (policy : Policy) (base : Nat) (headers : List (Header Span))
    (rest : Bytes) : Perf (Decision (List (Header Span)) Status) :=
  match rest with
  | [] => pure .more
  | c :: _ =>
    let isContinuation := isLws c
    if policy.rejectObsFold && isContinuation then pure (.fail .error) else do
    match ← findLineEnd rest policy with
    | .error .incomplete =>
      pure (if rest.length > ihtpMaxHeaderLine then .fail .errorTooLong else .more)
    | .error status => pure (.fail status)
    | .ok (lineLen, lineEndingLen) =>
      if lineLen > ihtpMaxHeaderLine then pure (.fail .errorTooLong) else
      if lineLen == 0 then pure (.finish lineEndingLen headers) else
      if isContinuation then
        match headers.getLast? with
        | none => pure (.fail .error)
        | some h =>
          let valid ← fieldTextIsValid (rest.take lineLen)
          let value := ⟨h.value.start, base + lineLen - h.value.start⟩
          pure (if !valid then .fail .error
            else .advance (lineLen + lineEndingLen) (headers.dropLast ++ [{ h with value }]))
      else
        match ← findHeaderNameColon (rest.take lineLen) with
        | none => pure (.fail .error)
        | some colonOffset =>
          if headers.length ≥ maxHeaders then pure (.fail .errorTooManyHeaders) else
          let valStart := colonOffset + 1
          match ← trimAndValidateFieldValue ((rest.drop valStart).take (lineLen - valStart)) with
          | none => pure (.fail .error)
          | some (first, valLen) =>
            pure (.advance (lineLen + lineEndingLen)
              (headers ++ [⟨⟨base, colonOffset⟩, ⟨base + valStart + first, valLen⟩⟩]))

/-- The loop of `parse_header_block`. -/
def headerLoop (maxHeaders : Nat) (policy : Policy) (base initialCount : Nat) :
    Nat → Nat → List (Header Span) → Bytes → Perf (Status × List (Header Span) × Nat)
  | 0, pos, headers, _ => pure (.incomplete, headers, pos)
  | fuel + 1, pos, headers, rest => do
    match ← headerStep maxHeaders policy (base + pos) headers rest with
    | .more => pure (.incomplete, headers, pos)
    | .fail status => pure (status, headers.take initialCount, 0)
    | .advance n headers =>
      headerLoop maxHeaders policy base initialCount fuel (pos + n) headers (rest.drop n)
    | .finish n headers => pure (.ok, headers, pos + n)

/-- `parse_header_block`. -/
def parseHeaderBlock (base : Nat) (buf : Bytes) (headers : List (Header Span))
    (maxHeaders : Nat) (policy : Policy) : Perf (Status × List (Header Span) × Nat) := do
  perfAdd .parseHeaderBlockCalls 1
  headerLoop maxHeaders policy base headers.length (buf.length + 1) 0 headers buf

end Perf

/-- A stateful entry point with its counters: the start line is the one that adds to them. -/
structure PerfParser (out : Type) extends MessageParser out where
  startLinePerf : Nat → Bytes → out → Policy → Perf (Status × out × Nat)

namespace PerfParser

variable {out : Type} (p : PerfParser out)

/-- The header phase of a stateful call. -/
def parseHeadersPhasePerf (policy : Policy) (state : ParserState) (buf : Bytes) (o : out) :
    Perf (ParseResult out) := do
  let (status, headers, blockEnd) ←
    Perf.parseHeaderBlock state.cursor (buf.drop state.cursor) (p.headers o) p.capacity policy
  let state := { state with cursor := state.cursor + blockEnd }
  let o := p.setHeaders o headers
  pure <| match status with
    | .incomplete => ⟨.incomplete, state, o, 0⟩
    | .ok => ⟨.ok, { state with phase := .done }, o, state.cursor⟩
    | status => ⟨status, { state with phase := .error }, o, 0⟩

/-- A stateful call. -/
def parseStatefulPerf (state : ParserState) (buf : Bytes) (o : out) (policy : Option Policy)
    (bytesConsumed : Nat) : Perf (ParseResult out) :=
  if state.mode ≠ p.mode then pure ⟨.error, state, o, bytesConsumed⟩ else
  let policy := resolvePolicy policy
  match state.phase with
  | .error => pure ⟨.error, state, o, 0⟩
  | .done => pure ⟨.ok, state, o, state.cursor⟩
  | .startLine => do
    match ← p.startLinePerf state.cursor (buf.drop state.cursor) o policy with
    | (.ok, o, lineEnd) =>
      p.parseHeadersPhasePerf policy
        { state with cursor := state.cursor + lineEnd, phase := .headers } buf o
    | (status, o, _) =>
      pure ⟨status, if p.fatal status then { state with phase := .error } else state, o, 0⟩
  | .headers => p.parseHeadersPhasePerf policy state buf o

end PerfParser

/-- `ihtp_parse_request_stateful`. -/
def requestPerf : PerfParser (Request Span) := ⟨requestParser, Perf.parseRequestLine⟩

/-- `ihtp_parse_response_stateful`. -/
def responsePerf : PerfParser (Response Span) := ⟨responseParser, Perf.parseStatusLine⟩

/-- `ihtp_parse_headers_stateful`, which reads no start line. -/
def headersPerf (maxHeaders : Nat) : PerfParser (List (Header Span)) :=
  ⟨headersParser maxHeaders, fun _ _ headers _ => pure (.error, headers, 0)⟩

end IoHttpParser
