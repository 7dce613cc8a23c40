import IoHttpParser.Model.Connection
import IoHttpParser.Spec.ChunkedBody

/-!
# What a connection is for

The bytes of a connection arrive in pieces that nobody chose for the messages they hold. What a
consumer gets of them is stated on the whole of the bytes, and on the messages an encoder wrote.
-/

namespace IoHttpParser
namespace Endpoint

variable {msg : Type → Type} (e : Endpoint msg) (policy : Option Policy)

/-- A connection takes pieces as it takes all their bytes at once: every decoder call returns, and
unless a piece is rejected the consumer has the same messages and stands at the same place. After a
rejection it has the first of the messages. -/
def TakesPieces (pieces : List Bytes) : Prop :=
  ∃ stage out whole all,
    (e.connection policy).receiveAll e.start pieces = some (stage, out) ∧
    (e.connection policy).receive e.start pieces.flatten = some (whole, all) ∧
    stage ≠ .hung ∧ whole ≠ .hung ∧ out <+: all ∧ (stage ≠ .closed → stage = whole ∧ out = all)

/-- Some piece is rejected. -/
def Closes (pieces : List Bytes) : Prop :=
  ∃ out, (e.connection policy).receiveAll e.start pieces = some (.closed, out)

/-- The messages in some bytes are complete, up to a head of which a part has arrived, and `cut`
holds of that part. -/
def EndsInCut (cut : Bytes → Prop) (bytes : Bytes) : Prop :=
  ∃ rest out, (e.connection policy).Reaches e.start bytes e.start rest out ∧ cut rest

/-- The wire form of a body, by the mode its message declares. -/
def IsBodyOf (m : msg Bytes) (body payload : Bytes) : Prop :=
  match e.bodyMode m with
  | .none => body = [] ∧ payload = []
  | .fixed => body.length = e.contentLength m ∧ payload = body
  | .chunked => ∃ b : ChunkedBody, body = b.wire ∧ payload = b.payload
  | .eof => False

/-- A call of the parser on a buffer of its own: `ihtp_parse_request`, `ihtp_parse_response`. -/
def oneShot (buf : Bytes) : Status × msg Span × Nat :=
  let r := e.parser.parseStateful (parserStateInit e.parser.mode) buf e.zero policy 0
  (r.status, r.out, r.bytesConsumed)

/-- A message on the wire: a head that is accepted on its own, and the body it declares. -/
structure Wire where
  head : Bytes
  body : Bytes
  spans : msg Span
  message : msg Bytes
  payload : Bytes
  parsed : e.oneShot policy head = (.ok, spans, head.length)
  accepted : e.applySemantics (e.resolve head spans) policy = (.ok, message)
  stays : e.upgraded message = false
  framed : e.IsBodyOf message body payload

namespace Wire

variable {e policy} (w : e.Wire policy)

/-- The bytes of a message. -/
def wire : Bytes := w.head ++ w.body

/-- What a consumer should make of it. -/
def delivery : Delivery msg := ⟨w.message, w.payload⟩

end Wire

/-- A head that hands the connection over: its message switches protocols, or its body ends with
the connection. -/
structure HandOver where
  head : Bytes
  spans : msg Span
  message : msg Bytes
  parsed : e.oneShot policy head = (.ok, spans, head.length)
  accepted : e.applySemantics (e.resolve head spans) policy = (.ok, message)
  leaves : e.upgraded message = true ∨ e.bodyMode message = .eof

end Endpoint
end IoHttpParser
