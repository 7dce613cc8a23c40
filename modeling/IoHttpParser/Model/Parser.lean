import IoHttpParser.Model.Lines
import IoHttpParser.Lib.Reader

/-!
# Request and response heads

`parse_status_line`, `parse_request_line`, `parse_header_block` and the entry points of
`ihtp_parser.c`. Spans are offsets into the whole accumulated buffer, so the line parsers
take the offset `base` of the suffix they work on.
-/

namespace IoHttpParser
open Memory Incremental

/-- `ihtp_method_from_str`. -/
def methodFromStr (method : Bytes) : Method :=
  match method.length with
  | 3 => if method == ascii "GET" then .get else if method == ascii "PUT" then .put else .unknown
  | 4 =>
    if method == ascii "POST" then .post else if method == ascii "HEAD" then .head else .unknown
  | 5 =>
    if method == ascii "PATCH" then .patch
    else if method == ascii "TRACE" then .trace else .unknown
  | 6 => if method == ascii "DELETE" then .delete else .unknown
  | 7 =>
    if method == ascii "OPTIONS" then .options
    else if method == ascii "CONNECT" then .connect else .unknown
  | _ => .unknown

/-- `ihtp_method_to_str`. -/
def methodToStr : Method → Bytes
  | .get => ascii "GET"
  | .post => ascii "POST"
  | .put => ascii "PUT"
  | .delete => ascii "DELETE"
  | .head => ascii "HEAD"
  | .options => ascii "OPTIONS"
  | .patch => ascii "PATCH"
  | .connect => ascii "CONNECT"
  | .trace => ascii "TRACE"
  | .unknown => ascii "UNKNOWN"

/-- The version byte after `HTTP/1.`. -/
def versionOfByte (c : Option UInt8) : Option HttpVersion :=
  if c == some 0x31 then some .http11 else if c == some 0x30 then some .http10 else none

/-- `parse_status_line`: the status, the response with the fields written so far, and
`*line_end`. -/
def parseStatusLine (base : Nat) (buf : Bytes) (resp : Response Span) (policy : Policy) :
    Status × Response Span × Nat :=
  match findLineEnd buf policy with
  | .error status => (status, resp, 0)
  | .ok (lineLen, lineEndingLen) =>
    if lineLen < 13 || buf.take 7 != ascii "HTTP/1." then (.error, resp, 0) else
    match versionOfByte buf[7]? with
    | none => (.error, resp, 0)
    | some version =>
      let resp := { resp with version }
      if buf[8]? != some sp then (.error, resp, 0) else
      let d9 := buf.getD 9 0
      let d10 := buf.getD 10 0
      let d11 := buf.getD 11 0
      if !isDigit d9 || !isDigit d10 || !isDigit d11 then (.error, resp, 0) else
      let statusCode :=
        (d9.toNat - 0x30) * 100 + (d10.toNat - 0x30) * 10 + (d11.toNat - 0x30)
      let resp := { resp with statusCode }
      if statusCode < 100 || statusCode > 599 then (.error, resp, 0) else
      if buf[12]? != some sp then (.error, resp, 0) else
      let resp := { resp with reason := ⟨base + 13, lineLen - 13⟩ }
      if lineLen > 13 && !fieldTextIsValid ((buf.drop 13).take (lineLen - 13)) then
        (.error, resp, 0)
      else (.ok, resp, lineLen + lineEndingLen)

/-- `parse_request_line`: the status, the request with the fields written so far, and
`*line_end`. -/
def parseRequestLine (base : Nat) (buf : Bytes) (req : Request Span) (policy : Policy) :
    Status × Request Span × Nat :=
  match findLineEnd buf policy with
  | .error .incomplete =>
    if buf.length > ihtpMaxRequestLine then (.errorTooLong, req, 0) else (.incomplete, req, 0)
  | .error status => (status, req, 0)
  | .ok (lineLen, lineEndingLen) =>
    if lineLen > ihtpMaxRequestLine then (.errorTooLong, req, 0) else
    match findMethodSpace (buf.take lineLen) with
    | none => (.error, req, 0)
    | some sp1 =>
      let req := { req with methodStr := ⟨base, sp1⟩, method := methodFromStr (buf.take sp1) }
      let pathStart := sp1 + 1
      let remaining := lineLen - sp1 - 1
      match findLastCharOffset ((buf.drop pathStart).take remaining) sp with
      | none => (.error, req, 0)
      | some sp2 =>
        let req := { req with path := ⟨base + pathStart, sp2⟩ }
        if sp2 == 0 then (.error, req, 0) else
        if !requestTargetIsValid ((buf.drop pathStart).take sp2) policy.allowSpacesInUri then
          (.error, req, 0)
        else
        let ver := pathStart + sp2 + 1
        let verLen := lineLen - ver
        if verLen != 8 || (buf.drop ver).take 7 != ascii "HTTP/1." then (.error, req, 0) else
        match versionOfByte buf[ver + 7]? with
        | none => (.error, req, 0)
        | some version => (.ok, { req with version }, lineLen + lineEndingLen)

/-- One iteration of the loop of `parse_header_block`, at offset `base` of the buffer. The
loop waits when its condition fails. -/
def headerStep (maxHeaders : Nat) (policy : Policy) (base : Nat) (headers : List (Header Span))
    (rest : Bytes) : Decision (List (Header Span)) Status :=
  match rest with
  | [] => .more
  | c :: _ =>
    let isContinuation := isLws c
    if policy.rejectObsFold && isContinuation then .fail .error else
    match findLineEnd rest policy with
    | .error .incomplete =>
      if rest.length > ihtpMaxHeaderLine then .fail .errorTooLong else .more
    | .error status => .fail status
    | .ok (lineLen, lineEndingLen) =>
      if lineLen > ihtpMaxHeaderLine then .fail .errorTooLong else
      if lineLen == 0 then .finish lineEndingLen headers else
      if isContinuation then
        match headers.getLast? with
        | none => .fail .error
        | some h =>
          if !fieldTextIsValid (rest.take lineLen) then .fail .error else
          -- the value now runs from its old start to the end of this line
          let value := ⟨h.value.start, base + lineLen - h.value.start⟩
          .advance (lineLen + lineEndingLen) (headers.dropLast ++ [{ h with value }])
      else
        match findHeaderNameColon (rest.take lineLen) with
        | none => .fail .error
        | some colonOffset =>
          if headers.length ≥ maxHeaders then .fail .errorTooManyHeaders else
          let valStart := colonOffset + 1
          match trimAndValidateFieldValue ((rest.drop valStart).take (lineLen - valStart)) with
          | none => .fail .error
          | some (first, valLen) =>
            .advance (lineLen + lineEndingLen)
              (headers ++ [⟨⟨base, colonOffset⟩, ⟨base + valStart + first, valLen⟩⟩])

/-- The loop of `parse_header_block` at `pos`; an error return leaves the header count at
`initialCount` and `*block_end` at zero. -/
def headerLoop (maxHeaders : Nat) (policy : Policy) (base initialCount : Nat) :
    Nat → Nat → List (Header Span) → Bytes → Status × List (Header Span) × Nat
  | 0, pos, headers, _ => (.incomplete, headers, pos)
  | fuel + 1, pos, headers, rest =>
    match headerStep maxHeaders policy (base + pos) headers rest with
    | .more => (.incomplete, headers, pos)
    | .fail status => (status, headers.take initialCount, 0)
    | .advance n headers =>
      headerLoop maxHeaders policy base initialCount fuel (pos + n) headers (rest.drop n)
    | .finish n headers => (.ok, headers, pos + n)

/-- `parse_header_block`: the status, the counted headers and `*block_end`. -/
def parseHeaderBlock (base : Nat) (buf : Bytes) (headers : List (Header Span))
    (maxHeaders : Nat) (policy : Policy) : Status × List (Header Span) × Nat :=
  headerLoop maxHeaders policy base headers.length (buf.length + 1) 0 headers buf

/-- `ihtp_parser_state_init`, and `ihtp_parser_state_reset` of a state in that mode. -/
def parserStateInit (mode : ParserMode) : ParserState :=
  { mode, phase := if mode = .headers then .headers else .startLine, cursor := 0 }

/-- What a stateful entry point returns and leaves in its arguments. -/
structure ParseResult (out : Type) where
  status : Status
  state : ParserState
  out : out
  bytesConsumed : Nat
  deriving DecidableEq, Repr

/-- What distinguishes the three stateful entry points: the mode they require, the start
line they read, the start-line statuses that end the parse, and the header array. -/
structure MessageParser (out : Type) where
  mode : ParserMode
  startLine : Nat → Bytes → out → Policy → Status × out × Nat
  fatal : Status → Bool
  capacity : Nat
  headers : out → List (Header Span)
  setHeaders : out → List (Header Span) → out

namespace MessageParser

variable {out : Type} (p : MessageParser out)

/-- The header phase of a stateful call. -/
def parseHeadersPhase (policy : Policy) (state : ParserState) (buf : Bytes) (o : out) :
    ParseResult out :=
  let (status, headers, blockEnd) :=
    parseHeaderBlock state.cursor (buf.drop state.cursor) (p.headers o) p.capacity policy
  let state := { state with cursor := state.cursor + blockEnd }
  let o := p.setHeaders o headers
  match status with
  | .incomplete => ⟨.incomplete, state, o, 0⟩
  | .ok => ⟨.ok, { state with phase := .done }, o, state.cursor⟩
  | status => ⟨status, { state with phase := .error }, o, 0⟩

/-- The common body of the stateful entry points. -/
def parseStateful (state : ParserState) (buf : Bytes) (o : out) (policy : Option Policy)
    (bytesConsumed : Nat) : ParseResult out :=
  if state.mode ≠ p.mode then ⟨.error, state, o, bytesConsumed⟩ else
  let policy := resolvePolicy policy
  match state.phase with
  | .error => ⟨.error, state, o, 0⟩
  | .done => ⟨.ok, state, o, state.cursor⟩
  | .startLine =>
    match p.startLine state.cursor (buf.drop state.cursor) o policy with
    | (.ok, o, lineEnd) =>
      p.parseHeadersPhase policy
        { state with cursor := state.cursor + lineEnd, phase := .headers } buf o
    | (status, o, _) =>
      ⟨status, if p.fatal status then { state with phase := .error } else state, o, 0⟩
  | .headers => p.parseHeadersPhase policy state buf o

end MessageParser

/-- The parameters of `ihtp_parse_request_stateful`. -/
def requestParser : MessageParser (Request Span) where
  mode := .request
  startLine := parseRequestLine
  fatal status := status == .error || status == .errorTooLong
  capacity := ihtpMaxHeaders
  headers := Request.headers
  setHeaders req headers := { req with headers }

/-- The parameters of `ihtp_parse_response_stateful`. -/
def responseParser : MessageParser (Response Span) where
  mode := .response
  startLine := parseStatusLine
  fatal status := status == .error
  capacity := ihtpMaxHeaders
  headers := Response.headers
  setHeaders resp headers := { resp with headers }

/-- The parameters of `ihtp_parse_headers_stateful`, which has no start line: being called in
that phase is an error. -/
def headersParser (maxHeaders : Nat) : MessageParser (List (Header Span)) where
  mode := .headers
  startLine _ _ headers _ := (.error, headers, 0)
  fatal _ := true
  capacity := maxHeaders
  headers := id
  setHeaders _ headers := headers

/-- `ihtp_parse_request_stateful`. -/
def parseRequestStateful := requestParser.parseStateful

/-- `ihtp_parse_response_stateful`. -/
def parseResponseStateful := responseParser.parseStateful

/-- `ihtp_parse_headers_stateful`. -/
def parseHeadersStateful (maxHeaders : Nat) := (headersParser maxHeaders).parseStateful

/-- `ihtp_parse_request`: status, request and `*bytes_consumed`. -/
def parseRequest (buf : Bytes) (policy : Option Policy) : Status × Request Span × Nat :=
  let r := parseRequestStateful (parserStateInit .request) buf .zero policy 0
  (r.status, r.out, r.bytesConsumed)

/-- `ihtp_parse_response`. -/
def parseResponse (buf : Bytes) (policy : Option Policy) : Status × Response Span × Nat :=
  let r := parseResponseStateful (parserStateInit .response) buf .zero policy 0
  (r.status, r.out, r.bytesConsumed)

/-- `ihtp_parse_headers`, with `maxHeaders` the capacity passed in `*num_headers`. -/
def parseHeaders (buf : Bytes) (maxHeaders : Nat) (policy : Option Policy) :
    Status × List (Header Span) × Nat :=
  let r := parseHeadersStateful maxHeaders (parserStateInit .headers) buf [] policy 0
  (r.status, r.out, r.bytesConsumed)

end IoHttpParser
