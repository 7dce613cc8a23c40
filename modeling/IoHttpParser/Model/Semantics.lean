import IoHttpParser.Model.Lines

/-!
# Framing and persistence

The field parsers and the two `apply_semantics` functions of `ihtp_semantics.c`, over
messages whose strings are resolved. The structs are threaded through every early return,
with the fields written by then.
-/

namespace IoHttpParser
open Memory

/-- `bytes_eq_ignore_case`, and `header_name_eq` on a header's name. -/
def bytesEqIgnoreCase (buf lit : Bytes) : Bool :=
  buf.length == lit.length && buf.map asciiLower == lit.map asciiLower

/-- `header_name_eq`. -/
def headerNameEq (h : Header Bytes) (name : String) : Bool := bytesEqIgnoreCase h.name (ascii name)

/-- The loop of `parse_content_length`. -/
def contentLengthLoop : Nat → Bytes → Option Nat
  | result, [] => some result
  | result, c :: rest =>
    if !isDigit c then none else
    let digit := c.toNat - 0x30
    if result > (2 ^ 64 - 1 - digit) / 10 then none
    else contentLengthLoop (u64 (u64 (result * 10) + digit)) rest

/-- `parse_content_length`. -/
def parseContentLength (value : Bytes) : Option Nat :=
  if value.length == 0 then none else contentLengthLoop 0 value

/-- The cursor loop of the three comma-list parsers: cut at the next comma, trim, hand the
element on, and refuse a comma that ends the value. Returns the verdict and what the elements
have written by then. -/
def listLoop {σ : Type} (element : σ → Bytes → Option σ) : Nat → Bool → σ → Bytes → Bool × σ
  | _, saw, s, [] => (saw, s)
  | 0, saw, s, _ => (saw, s)
  | fuel + 1, _, s, rest =>
    match element s (trim isLws (rest.takeWhile (· != comma))) with
    | none => (false, s)
    | some s =>
      match rest.dropWhile (· != comma) with
      | [] => (true, s)
      | _ :: rest => if rest.isEmpty then (false, s) else listLoop element fuel true s rest

/-- The loop over a whole value. -/
def parseList {σ : Type} (element : σ → Bytes → Option σ) (s : σ) (value : Bytes) : Bool × σ :=
  listLoop element value.length false s value

/-- `final_chunked` and `local_chunked_count` of `parse_transfer_encoding`. -/
structure TransferCodings where
  endsWithChunked : Bool
  chunkedCount : Nat
  deriving DecidableEq, Repr

/-- One trimmed element of a Transfer-Encoding value. -/
def transferEncodingElement (s : TransferCodings) (part : Bytes) : Option TransferCodings :=
  if part.isEmpty then none else
  let params := memchr semicolon part
  let coding := match params with
    | none => part
    | some i => (part.take i).rdropWhile isLws
  if params.isSome && coding.isEmpty then none else
  if !scanIsToken coding then none else
  let finalChunked := bytesEqIgnoreCase coding (ascii "chunked")
  if finalChunked && params.isSome then none
  else some ⟨finalChunked, if finalChunked then s.chunkedCount + 1 else s.chunkedCount⟩

/-- `parse_transfer_encoding`, which writes its outputs only when it accepts. -/
def parseTransferEncoding (value : Bytes) : Option TransferCodings :=
  match parseList transferEncodingElement ⟨false, 0⟩ value with
  | (true, s) => some s
  | (false, _) => none

/-- `connection_close`, `connection_keep_alive` and `connection_upgrade`. -/
structure ConnectionOptions where
  close : Bool
  keepAlive : Bool
  upgrade : Bool
  deriving DecidableEq, Repr

/-- One trimmed element of a Connection value. -/
def connectionElement (s : ConnectionOptions) (part : Bytes) : Option ConnectionOptions :=
  if part.isEmpty || !scanIsToken part then none
  else if bytesEqIgnoreCase part (ascii "close") then some { s with close := true }
  else if bytesEqIgnoreCase part (ascii "keep-alive") then some { s with keepAlive := true }
  else if bytesEqIgnoreCase part (ascii "upgrade") then some { s with upgrade := true }
  else some s

/-- `parse_connection_header`. -/
def parseConnectionHeader (value : Bytes) (s : ConnectionOptions) : Bool × ConnectionOptions :=
  parseList connectionElement s value

/-- One trimmed element of a Trailer value. -/
def trailerElement (s : Unit) (part : Bytes) : Option Unit :=
  if part.isEmpty || !scanIsToken part then none else some s

/-- `parse_trailer_header`. -/
def parseTrailerHeader (value : Bytes) : Bool := (parseList trailerElement () value).1

/-- `parse_expect_header`, which writes its output only when it accepts. -/
def parseExpectHeader (value : Bytes) : Option Bool :=
  let part := trim isLws value
  if part.isEmpty then none else some (bytesEqIgnoreCase part (ascii "100-continue"))

/-- The local variables of the two `apply_semantics` functions. -/
structure Framing where
  hasTe : Bool
  hasCl : Bool
  chunked : Bool
  hasHost : Bool
  hasUpgrade : Bool
  hasExpect : Bool
  hasTrailer : Bool
  connection : ConnectionOptions
  chunkedCount : Nat
  contentLength : Nat
  deriving DecidableEq, Repr

/-- Their initial values. -/
def Framing.init : Framing :=
  { hasTe := false, hasCl := false, chunked := false, hasHost := false, hasUpgrade := false,
    hasExpect := false, hasTrailer := false, connection := ⟨false, false, false⟩,
    chunkedCount := 0, contentLength := 0 }

namespace Framing

/-- The transfer-encoding branch. -/
def onTransferEncoding (f : Framing) (value : Bytes) : Option Framing :=
  match parseTransferEncoding value with
  | none => none
  | some t => some { f with hasTe := true, chunked := t.endsWithChunked,
                            chunkedCount := f.chunkedCount + t.chunkedCount }

/-- The content-length branch. -/
def onContentLength (f : Framing) (value : Bytes) : Option Framing :=
  match parseContentLength value with
  | none => none
  | some n =>
    if f.hasCl && n != f.contentLength then none
    else some { f with hasCl := true, contentLength := n }

/-- The connection branch. -/
def onConnection (f : Framing) (value : Bytes) : Option Framing :=
  match parseConnectionHeader value f.connection with
  | (false, _) => none
  | (true, connection) => some { f with connection }

/-- The upgrade branch. -/
def onUpgrade (f : Framing) (value : Bytes) : Option Framing :=
  if !scanIsToken value then none else some { f with hasUpgrade := true }

/-- The host branch. -/
def onHost (f : Framing) (value : Bytes) : Option Framing :=
  if f.hasHost || value.length == 0 then none else some { f with hasHost := true }

/-- The trailer branch. -/
def onTrailer (f : Framing) (value : Bytes) : Option Framing :=
  if !parseTrailerHeader value then none else some { f with hasTrailer := true }

end Framing

/-- One iteration of the loop of `ihtp_request_apply_semantics`; `none` is its error return,
before which the iteration has written nothing. The flag is `req->expects_continue`. -/
def requestHeader (s : Framing × Bool) (h : Header Bytes) : Option (Framing × Bool) :=
  let (f, expectsContinue) := s
  if headerNameEq h "transfer-encoding" then
    (f.onTransferEncoding h.value).map (·, expectsContinue)
  else if headerNameEq h "content-length" then
    (f.onContentLength h.value).map (·, expectsContinue)
  else if headerNameEq h "connection" then (f.onConnection h.value).map (·, expectsContinue)
  else if headerNameEq h "upgrade" then (f.onUpgrade h.value).map (·, expectsContinue)
  else if headerNameEq h "host" then (f.onHost h.value).map (·, expectsContinue)
  else if headerNameEq h "expect" then
    match parseExpectHeader h.value with
    | none => none
    | some e => some ({ f with hasExpect := true }, e)
  else if headerNameEq h "trailer" then (f.onTrailer h.value).map (·, expectsContinue)
  else some s

/-- One iteration of the loop of `ihtp_response_apply_semantics`. -/
def responseHeader (f : Framing) (h : Header Bytes) : Option Framing :=
  if headerNameEq h "transfer-encoding" then f.onTransferEncoding h.value
  else if headerNameEq h "content-length" then f.onContentLength h.value
  else if headerNameEq h "connection" then f.onConnection h.value
  else if headerNameEq h "upgrade" then f.onUpgrade h.value
  else if headerNameEq h "trailer" then f.onTrailer h.value
  else some f

/-- A header loop: the final variables, or those at an error return. -/
def headersLoop {σ : Type} (step : σ → Header Bytes → Option σ) : σ → List (Header Bytes) →
    Except σ σ
  | s, [] => .ok s
  | s, h :: hs =>
    match step s h with
    | none => .error s
    | some s => headersLoop step s hs

/-! ### Behind the loops

What follows a loop looks at no string of the message. -/

namespace Framing

variable {str : Type} (f : Framing)

/-- `req->keep_alive`, where a Connection option decides it. -/
def requestConnection (req : Request str) : Request str :=
  if f.connection.close then { req with keepAlive := false }
  else if f.connection.keepAlive then { req with keepAlive := true }
  else req

/-- `req->body_mode`. -/
def requestBodyMode (req : Request str) : Request str :=
  if f.hasTe && f.chunked then { req with bodyMode := .chunked }
  else if f.hasCl then { req with bodyMode := .fixed, contentLength := f.contentLength }
  else { req with bodyMode := .none }

/-- Upgrade, trailers, expectation and the persistence that is left open. -/
def requestPersistence (req : Request str) : Request str :=
  let hasConnection := f.connection.close || f.connection.keepAlive
  let req := { req with protocolUpgrade := f.hasUpgrade && f.connection.upgrade,
                        hasTrailerFields := f.hasTrailer }
  let req := if !f.hasExpect then { req with expectsContinue := false } else req
  if !hasConnection then
    if req.version == .http11 then { req with keepAlive := true }
    else { req with keepAlive := false }
  else req

/-- `ihtp_request_apply_semantics` behind its loop. -/
def requestOutcome (policy : Policy) (req : Request str) : Status × Request str :=
  if f.hasTe && f.hasCl && policy.rejectTeCl then (.error, req) else
  if req.version == .http11 && !f.hasHost then (.error, req) else
  if f.chunkedCount > 1 then (.error, req) else
  if f.hasTe && !f.chunked then (.error, req) else
  let req := f.requestBodyMode (f.requestConnection req)
  if f.hasTrailer && req.bodyMode != .chunked then (.error, req) else
  (.ok, f.requestPersistence req)

/-- `resp->keep_alive`, where a Connection option decides it. -/
def responseConnection (resp : Response str) : Response str :=
  if f.connection.close then { resp with keepAlive := false }
  else if f.connection.keepAlive then { resp with keepAlive := true }
  else resp

/-- `resp->body_mode`. -/
def responseBodyMode (resp : Response str) : Response str :=
  if (resp.statusCode ≥ 100 && resp.statusCode < 200) || resp.statusCode == 204 ||
      resp.statusCode == 304 then { resp with bodyMode := .none }
  else if f.hasTe && f.chunked then { resp with bodyMode := .chunked }
  else if f.hasCl then { resp with bodyMode := .fixed, contentLength := f.contentLength }
  else { resp with bodyMode := .eof }

/-- Upgrade, trailers and the persistence that is left open. -/
def responsePersistence (resp : Response str) : Response str :=
  let hasConnection := f.connection.close || f.connection.keepAlive
  let resp := { resp with
    protocolUpgrade :=
      resp.statusCode == 101 && f.hasUpgrade && f.connection.upgrade && !f.connection.close
    hasTrailerFields := f.hasTrailer }
  let resp := if resp.protocolUpgrade then { resp with keepAlive := false } else resp
  let hasConnection := hasConnection || resp.protocolUpgrade
  if !hasConnection && resp.version == .http11 && resp.bodyMode != .eof then
    { resp with keepAlive := true }
  else resp

/-- `ihtp_response_apply_semantics` behind its loop. -/
def responseOutcome (policy : Policy) (resp : Response str) : Status × Response str :=
  if f.hasTe && f.hasCl && policy.rejectTeCl then (.error, resp) else
  if f.chunkedCount > 1 then (.error, resp) else
  let resp := f.responseBodyMode (f.responseConnection resp)
  if f.hasTrailer && resp.bodyMode != .chunked then (.error, resp) else
  (.ok, f.responsePersistence resp)

end Framing

/-- `ihtp_request_apply_semantics`: the status and the request as it is left. -/
def requestApplySemantics (req : Request Bytes) (policy : Option Policy) :
    Status × Request Bytes :=
  match headersLoop requestHeader (.init, req.expectsContinue) req.headers with
  | .error (_, expectsContinue) => (.error, { req with expectsContinue })
  | .ok (f, expectsContinue) =>
    f.requestOutcome (resolvePolicy policy) { req with expectsContinue }

/-- `ihtp_response_apply_semantics`: the status and the response as it is left. -/
def responseApplySemantics (resp : Response Bytes) (policy : Option Policy) :
    Status × Response Bytes :=
  match headersLoop responseHeader .init resp.headers with
  | .error _ => (.error, resp)
  | .ok f => f.responseOutcome (resolvePolicy policy) resp

end IoHttpParser
