import IoHttpParser.Model.Semantics
import IoHttpParser.Model.ContentLength
import IoHttpParser.Model.Pointers

/-!
# The semantics layer over pointers

`ihtp_semantics.c` once more, with the strings of a message as spans of the caller's buffer: the
comparisons, the comma-list cursors and the header loops load their bytes one by one, and fault
where the C code would leave the buffer or a literal, or take a difference below zero. Running out
of fuel is a fault as well.
-/

namespace IoHttpParser
namespace Pointer
open Region

/-- The loop of `header_name_eq` and `bytes_eq_ignore_case` at index `i`. -/
def eqIgnoreCaseFrom (mem : Bytes) (buf : Nat) (lit : Bytes) : Nat → Nat → Option Bool
  | _, 0 => some true
  | i, left + 1 => do
    let a ← load mem (buf + i)
    let b ← load lit i
    if asciiLower a != asciiLower b then some false
    else eqIgnoreCaseFrom mem buf lit (i + 1) left

/-- `header_name_eq`. -/
def headerNameEq (mem : Bytes) (h : Header Span) (name : String) (nameLen : Nat) : Option Bool :=
  if h.name.len != nameLen then some false
  else eqIgnoreCaseFrom mem h.name.start (ascii name) 0 nameLen

/-- `bytes_eq_ignore_case`. -/
def bytesEqIgnoreCase (mem : Bytes) (buf len : Nat) (lit : String) (litLen : Nat) : Option Bool :=
  if len != litLen then some false else eqIgnoreCaseFrom mem buf (ascii lit) 0 len

/-- The two trimming loops: the `part` and `part_len` they leave. -/
def trimPart (mem : Bytes) (part partLen : Nat) : Option (Nat × Nat) := do
  let lead ← leadWhile isLws mem part partLen
  let partLen ← sub partLen lead
  let partLen ← trailWhile isLws mem (part + lead) partLen
  some (part + lead, partLen)

/-- The cursor loop of the three comma-list parsers at `pos`. An element is handed its trimmed
`part` and `part_len`, and refuses with `some none`. -/
def listLoop {σ : Type} (element : σ → Nat → Nat → Option (Option σ)) (mem : Bytes)
    (value len : Nat) : Nat → Nat → Bool → σ → Option (Bool × σ)
  | 0, _, _, _ => none
  | fuel + 1, pos, saw, s =>
    if pos < len then do
      let partStart := pos
      let bound ← sub len pos
      let skipped ← leadWhile (· != comma) mem (value + pos) bound
      let pos := pos + skipped
      let partLen ← sub pos partStart
      let (part, partLen) ← trimPart mem (value + partStart) partLen
      match ← element s part partLen with
      | none => some (false, s)
      | some s =>
        if pos < len then
          let c ← load mem (value + pos)
          if c == comma then
            let pos := pos + 1
            if pos == len then some (false, s) else listLoop element mem value len fuel pos true s
          else listLoop element mem value len fuel pos true s
        else listLoop element mem value len fuel pos true s
    else some (saw, s)

/-- The loop over a whole value; every iteration moves `pos`. -/
def parseList {σ : Type} (element : σ → Nat → Nat → Option (Option σ)) (mem : Bytes) (s : σ)
    (value len : Nat) : Option (Bool × σ) :=
  listLoop element mem value len (len + 1) 0 false s

/-- One trimmed element of a Transfer-Encoding value. -/
def transferEncodingElement (mem : Bytes) (s : TransferCodings) (part partLen : Nat) :
    Option (Option TransferCodings) := do
  if partLen == 0 then some none else
  let params ← memchr semicolon mem part partLen
  let codingLen ← match params with
    | none => some partLen
    | some params => do
      let codingLen ← sub params part
      trailWhile isLws mem part codingLen
  if params.isSome && codingLen == 0 then some none else
  if !(← allAt isTokenChar mem part codingLen) then some none else
  let finalChunked ← bytesEqIgnoreCase mem part codingLen "chunked" 7
  if finalChunked && params.isSome then some none
  else some (some ⟨finalChunked, if finalChunked then s.chunkedCount + 1 else s.chunkedCount⟩)

/-- `parse_transfer_encoding`. -/
def parseTransferEncoding (mem : Bytes) (value len : Nat) : Option (Option TransferCodings) := do
  match ← parseList (transferEncodingElement mem) mem ⟨false, 0⟩ value len with
  | (true, s) => some (some s)
  | (false, _) => some none

/-- One trimmed element of a Connection value. -/
def connectionElement (mem : Bytes) (s : ConnectionOptions) (part partLen : Nat) :
    Option (Option ConnectionOptions) := do
  if partLen == 0 then some none else
  if !(← allAt isTokenChar mem part partLen) then some none else
  if ← bytesEqIgnoreCase mem part partLen "close" 5 then some (some { s with close := true })
  else if ← bytesEqIgnoreCase mem part partLen "keep-alive" 10 then
    some (some { s with keepAlive := true })
  else if ← bytesEqIgnoreCase mem part partLen "upgrade" 7 then
    some (some { s with upgrade := true })
  else some (some s)

/-- `parse_connection_header`. -/
def parseConnectionHeader (mem : Bytes) (value len : Nat) (s : ConnectionOptions) :
    Option (Bool × ConnectionOptions) :=
  parseList (connectionElement mem) mem s value len

/-- One trimmed element of a Trailer value. -/
def trailerElement (mem : Bytes) (s : Unit) (part partLen : Nat) : Option (Option Unit) := do
  if partLen == 0 then some none else
  if !(← allAt isTokenChar mem part partLen) then some none else some (some s)

/-- `parse_trailer_header`. -/
def parseTrailerHeader (mem : Bytes) (value len : Nat) : Option Bool := do
  let (ok, _) ← parseList (trailerElement mem) mem () value len
  some ok

/-- `parse_expect_header`: `*expects_continue`, where it returns `true`. -/
def parseExpectHeader (mem : Bytes) (value len : Nat) : Option (Option Bool) := do
  let (part, partLen) ← trimPart mem value len
  if partLen == 0 then some none else
  let expectsContinue ← bytesEqIgnoreCase mem part partLen "100-continue" 12
  some (some expectsContinue)

/-- The transfer-encoding branch. -/
def onTransferEncoding (mem : Bytes) (f : Framing) (value : Span) : Option (Option Framing) := do
  match ← parseTransferEncoding mem value.start value.len with
  | none => some none
  | some t => some (some { f with hasTe := true, chunked := t.endsWithChunked,
                                  chunkedCount := f.chunkedCount + t.chunkedCount })

/-- The content-length branch. -/
def onContentLength (mem : Bytes) (f : Framing) (value : Span) : Option (Option Framing) := do
  match ← parseContentLength mem value.start value.len with
  | none => some none
  | some n =>
    if f.hasCl && n != f.contentLength then some none
    else some (some { f with hasCl := true, contentLength := n })

/-- The connection branch. -/
def onConnection (mem : Bytes) (f : Framing) (value : Span) : Option (Option Framing) := do
  match ← parseConnectionHeader mem value.start value.len f.connection with
  | (false, _) => some none
  | (true, connection) => some (some { f with connection })

/-- The upgrade branch. -/
def onUpgrade (mem : Bytes) (f : Framing) (value : Span) : Option (Option Framing) := do
  if !(← allAt isTokenChar mem value.start value.len) then some none
  else some (some { f with hasUpgrade := true })

/-- The host branch. -/
def onHost (f : Framing) (value : Span) : Option (Option Framing) :=
  if f.hasHost || value.len == 0 then some none else some (some { f with hasHost := true })

/-- The expect branch. -/
def onExpect (mem : Bytes) (f : Framing) (value : Span) : Option (Option (Framing × Bool)) := do
  match ← parseExpectHeader mem value.start value.len with
  | none => some none
  | some e => some (some ({ f with hasExpect := true }, e))

/-- The trailer branch. -/
def onTrailer (mem : Bytes) (f : Framing) (value : Span) : Option (Option Framing) := do
  if !(← parseTrailerHeader mem value.start value.len) then some none
  else some (some { f with hasTrailer := true })

/-- One iteration of the loop of `ihtp_request_apply_semantics`. -/
def requestHeader (mem : Bytes) (s : Framing × Bool) (h : Header Span) :
    Option (Option (Framing × Bool)) := do
  let (f, expectsContinue) := s
  let kept (r : Option (Option Framing)) := r.map (Option.map (·, expectsContinue))
  if ← headerNameEq mem h "transfer-encoding" 17 then kept (onTransferEncoding mem f h.value)
  else if ← headerNameEq mem h "content-length" 14 then kept (onContentLength mem f h.value)
  else if ← headerNameEq mem h "connection" 10 then kept (onConnection mem f h.value)
  else if ← headerNameEq mem h "upgrade" 7 then kept (onUpgrade mem f h.value)
  else if ← headerNameEq mem h "host" 4 then kept (onHost f h.value)
  else if ← headerNameEq mem h "expect" 6 then onExpect mem f h.value
  else if ← headerNameEq mem h "trailer" 7 then kept (onTrailer mem f h.value)
  else some (some s)

/-- One iteration of the loop of `ihtp_response_apply_semantics`. -/
def responseHeader (mem : Bytes) (f : Framing) (h : Header Span) : Option (Option Framing) := do
  if ← headerNameEq mem h "transfer-encoding" 17 then onTransferEncoding mem f h.value
  else if ← headerNameEq mem h "content-length" 14 then onContentLength mem f h.value
  else if ← headerNameEq mem h "connection" 10 then onConnection mem f h.value
  else if ← headerNameEq mem h "upgrade" 7 then onUpgrade mem f h.value
  else if ← headerNameEq mem h "trailer" 7 then onTrailer mem f h.value
  else some (some f)

/-- A header loop: the final variables, or those at an error return. -/
def headersLoop {σ : Type} (step : σ → Header Span → Option (Option σ)) :
    σ → List (Header Span) → Option (Except σ σ)
  | s, [] => some (.ok s)
  | s, h :: hs => do
    match ← step s h with
    | none => some (.error s)
    | some s => headersLoop step s hs

/-- `ihtp_request_apply_semantics` on the request as the parser leaves it. -/
def requestApplySemantics (mem : Bytes) (req : Request Span) (policy : Option Policy) :
    Option (Status × Request Span) := do
  let policy := resolvePolicy policy
  match ← headersLoop (requestHeader mem) (.init, req.expectsContinue) req.headers with
  | .error (_, expectsContinue) => some (.error, { req with expectsContinue })
  | .ok (f, expectsContinue) => some (f.requestOutcome policy { req with expectsContinue })

/-- `ihtp_response_apply_semantics` on the response as the parser leaves it. -/
def responseApplySemantics (mem : Bytes) (resp : Response Span) (policy : Option Policy) :
    Option (Status × Response Span) := do
  let policy := resolvePolicy policy
  match ← headersLoop (responseHeader mem) .init resp.headers with
  | .error _ => some (.error, resp)
  | .ok f => some (f.responseOutcome policy resp)

end Pointer
end IoHttpParser
