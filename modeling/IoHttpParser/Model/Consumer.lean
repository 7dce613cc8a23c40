import IoHttpParser.Model.Parser
import IoHttpParser.Model.Semantics
import IoHttpParser.Model.BodyDecoder
import IoHttpParser.Lib.Framed

/-!
# The pipelining consumer

The loop of `test_iohttp_integration.c`: parse a head into a cleared request, apply the
semantics, decode the body the request declares, and go on with the bytes behind it.
-/

namespace IoHttpParser
open Framed

/-- What the consumer makes of one message, and the length of it on the wire. -/
structure Message where
  request : Request Bytes
  payload : Bytes
  length : Nat
  deriving DecidableEq, Repr

/-- The body of a request at the front of `buf`: its payload, and the bytes behind it. The
consumer gives up unless the decoder completes. -/
def consumeBody (req : Request Bytes) (buf : Bytes) : Option (Bytes × Bytes) :=
  match req.bodyMode with
  | .none => some ([], buf)
  | .fixed =>
    let len := min buf.length req.contentLength
    match decodeFixed (fixedDecoderInit req.contentLength) len with
    | (.ok, _) => some (buf.take len, buf.drop len)
    | _ => none
  | .chunked =>
    match decodeChunked (.zero true) buf buf.length with
    | some r =>
      if r.ret < 0 then none
      else some (r.buf.take r.bufsz, (r.buf.drop r.bufsz).take r.ret.toNat)
    | none => none
  | .eof => none

/-- One message at the front of `buf` under the strict policy, and the bytes behind it. -/
def consumeMessage (buf : Bytes) : Option (Message × Bytes) :=
  match parseRequest buf none with
  | (.ok, req, n) =>
    match requestApplySemantics (req.resolve buf) none with
    | (.ok, req) =>
      match consumeBody req (buf.drop n) with
      | some (payload, rest) => some (⟨req, payload, buf.length - rest.length⟩, rest)
      | none => none
    | _ => none
  | _ => none

/-- A number of messages in turn. -/
def consumeMessages : Nat → Bytes → Option (List Message × Bytes) := readMany consumeMessage

end IoHttpParser
