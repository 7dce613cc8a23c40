import IoHttpParser.Model.Parser
import IoHttpParser.Model.Semantics
import IoHttpParser.Model.BodyDecoder
import IoHttpParser.Lib.Process

/-!
# A connection

The integration sequence of `05-consumer-contracts.md` and `test_iohttp_integration.c` on input that
arrives in pieces: the stateful parser on the accumulated buffer, the semantics on a complete head,
the body decoder on what follows, and the parser again, reset, on what the decoder leaves. An
upgraded connection and a body that ends with the connection are handed to the consumer. A message
with `keep_alive = false` and a CONNECT request are not acted on here: whether to close the
connection or to set up a tunnel is up to the consumer, and what follows is read as the next message.
-/

namespace IoHttpParser
open Resumable

/-- `ihtp_parser_state_reset`. -/
def parserStateReset (state : ParserState) : ParserState :=
  { state with phase := if state.mode = .headers then .headers else .startLine, cursor := 0 }

/-- One direction of a connection: the entry points for its messages and the fields a consumer reads
off them. -/
structure Endpoint (msg : Type → Type) where
  parser : MessageParser (msg Span)
  zero : msg Span
  resolve : Bytes → msg Span → msg Bytes
  applySemantics : msg Bytes → Option Policy → Status × msg Bytes
  bodyMode : msg Bytes → BodyMode
  contentLength : msg Bytes → Nat
  upgraded : msg Bytes → Bool

/-- The requests of a client. -/
def requestEndpoint : Endpoint Request where
  parser := requestParser
  zero := .zero
  resolve buf req := req.resolve buf
  applySemantics := requestApplySemantics
  bodyMode := Request.bodyMode
  contentLength := Request.contentLength
  upgraded _ := false

/-- The responses of a server, which may switch protocols. -/
def responseEndpoint : Endpoint Response where
  parser := responseParser
  zero := .zero
  resolve buf resp := resp.resolve buf
  applySemantics := responseApplySemantics
  bodyMode := Response.bodyMode
  contentLength := Response.contentLength
  upgraded := Response.protocolUpgrade

/-- A message and its payload. -/
structure Delivery (msg : Type → Type) where
  message : msg Bytes
  payload : Bytes

/-- Where a consumer stands: in a head, with the bytes of it that have arrived, in a body, with the
payload so far, or behind a message that hands the connection over. A connection is closed by a
rejection; it hangs if a decoder call does not return. -/
inductive Stage (msg : Type → Type) where
  | head (buf : Bytes) (state : ParserState) (m : msg Span)
  | fixed (state : ParserState) (m : msg Bytes) (decoder : FixedDecoder) (payload : Bytes)
  | chunked (state : ParserState) (m : msg Bytes) (decoder : ChunkedDecoder) (payload : Bytes)
  | handedOver (m : msg Bytes) (bytes : Bytes)
  | closed
  | hung

namespace Endpoint

variable {msg : Type → Type} (e : Endpoint msg)

/-- The stage before a message: the parser state is reset and the message cleared. -/
def next (state : ParserState) : Stage msg := .head [] (parserStateReset state) e.zero

/-- A new connection. -/
def start : Stage msg := .head [] (parserStateInit e.parser.mode) e.zero

/-- What follows a head, by the body mode. -/
def enterBody (state : ParserState) (m : msg Bytes) (rest : Bytes) :
    Progress (Stage msg) UInt8 (Delivery msg) :=
  if e.upgraded m then .next (.handedOver m []) rest [] else
  match e.bodyMode m with
  | .none => .next (e.next state) rest [⟨m, []⟩]
  | .fixed => .next (.fixed state m (fixedDecoderInit (e.contentLength m)) []) rest []
  | .chunked => .next (.chunked state m (.zero true) []) rest []
  | .eof => .next (.handedOver m []) rest []

/-- One call of the library on the bytes that have arrived. -/
def step (policy : Option Policy) : Stage msg → Bytes → Progress (Stage msg) UInt8 (Delivery msg)
  | .head buf state m, arrived =>
    let buf := buf ++ arrived
    let r := e.parser.parseStateful state buf m policy 0
    match r.status with
    | .incomplete => .wait (.head buf r.state r.out)
    | .ok =>
      match e.applySemantics (e.resolve buf r.out) policy with
      | (.ok, m) => e.enterBody r.state m (buf.drop r.bytesConsumed)
      | _ => .wait .closed
    | _ => .wait .closed
  | .fixed state m decoder payload, arrived =>
    let len := min arrived.length decoder.remaining
    match decodeFixed decoder len with
    | (.ok, _) => .next (e.next state) (arrived.drop len) [⟨m, payload ++ arrived.take len⟩]
    | (.incomplete, decoder) => .wait (.fixed state m decoder (payload ++ arrived.take len))
    | _ => .wait .closed
  | .chunked state m decoder payload, arrived =>
    match decodeChunked decoder arrived arrived.length with
    | none => .wait .hung
    | some r =>
      let payload := payload ++ r.buf.take r.bufsz
      if 0 ≤ r.ret then
        .next (e.next state) ((r.buf.drop r.bufsz).take r.ret.toNat) [⟨m, payload⟩]
      else if r.ret = Status.incomplete.code then .wait (.chunked state m r.decoder payload)
      else .wait .closed
  | .handedOver m bytes, arrived => .wait (.handedOver m (bytes ++ arrived))
  | .closed, _ => .wait .closed
  | .hung, _ => .wait .hung

/-- The connection as a process. A message takes two steps, and its head is not empty. -/
def connection (policy : Option Policy) : Process (Stage msg) UInt8 (Delivery msg) where
  step := e.step policy
  fuel stage arrived :=
    match stage with
    | .head buf _ _ => 2 * (buf ++ arrived).length + 1
    | _ => 2 * arrived.length + 2

end Endpoint

end IoHttpParser
