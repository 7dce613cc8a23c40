import Mathlib.Data.List.DropRight
import IoHttpParser.Spec.ChunkMachine
import IoHttpParser.Spec.ChunkedBody

/-!
# Runs of the chunked decoder

A consumer calls `ihtp_decode_chunked` again and again with one decoder, whatever the calls return.
Here is what such runs are, and what they may rely on between two calls and between two iterations.
-/

namespace IoHttpParser
open Streaming

/-- The decoders that calls leave, from a zero-initialised one on. -/
inductive ChunkedDecoder.Reachable (consumeTrailer : Bool) : ChunkedDecoder → Prop where
  | zero : Reachable consumeTrailer (.zero consumeTrailer)
  | call {d : ChunkedDecoder} {buf : Bytes} {bufsz : Nat} {r : DecodeResult}
      (hd : Reachable consumeTrailer d) (hsz : bufsz ≤ buf.length)
      (hr : decodeChunked d buf bufsz = some r) : Reachable consumeTrailer r.decoder

/-- The values the variables of one call take, iteration after iteration. -/
inductive DecodeLoop.Reaches (avail : Nat) : DecodeLoop → DecodeLoop → Prop where
  | refl (l : DecodeLoop) : Reaches avail l l
  | step {l l' l'' : DecodeLoop} (hlt : l.src < avail)
      (hstep : l.step avail (l.buf.getD l.src 0) = .next l') (h : Reaches avail l' l'') :
      Reaches avail l l''

/-- The decoders that calls leave, with the bytes that the calls read one after the other. -/
inductive ChunkedDecoder.Reads (consumeTrailer : Bool) : Bytes → ChunkedDecoder → Prop where
  | zero : Reads consumeTrailer [] (.zero consumeTrailer)
  | call {w read : Bytes} {d : ChunkedDecoder} {buf : Bytes} {bufsz : Nat} {r : DecodeResult}
      (hd : Reads consumeTrailer w d) (hsz : bufsz ≤ buf.length)
      (hr : decodeChunked d buf bufsz = some r)
      (hread : buf.take bufsz = read ++ (decodeApart d (buf.take bufsz)).rest) :
      Reads consumeTrailer (w ++ read) r.decoder

/-! ### The state invariant -/

/-- The bytes behind the last line feed. -/
def lastLine (w : Bytes) : Bytes := w.rtakeWhile (· != lf)

/-- The digits read of the size line that `w` ends in. -/
def sizeDigits (w : Bytes) : Bytes := (lastLine w).takeWhile isHexDigit

/-- The decoder is in a size line. -/
def ChunkedDecoder.InSizeLine (d : ChunkedDecoder) : Prop :=
  d.state = chunkSize ∨ d.state = chunkExt ∨ d.state = chunkSizeLf

/-- What holds of a decoder that has read `w`. -/
structure ChunkedDecoder.Invariant (w : Bytes) (d : ChunkedDecoder) : Prop where
  state_le : d.state ≤ chunkDone
  count_le : d.InSizeLine → d.hexCount ≤ 16
  size_lt : d.InSizeLine → d.bytesLeftInChunk < 16 ^ d.hexCount
  digits : d.InSizeLine → (sizeDigits w).length = d.hexCount
  size : d.InSizeLine → hexValue (sizeDigits w) = d.bytesLeftInChunk
  no_wrap : d.state = chunkSize → d.hexCount < 16 → ∀ c, isHexDigit c = true →
    d.bytesLeftInChunk * 16 + hexDigitToU64 c ≤ 2 ^ 64 - 1
  data_pos : d.state = chunkData → 0 < d.bytesLeftInChunk
  trailer_le : d.state = chunkTrailer → d.hexCount ≤ trailerLineLf

/-! ### What calls report -/

/-- A call with what it returned. -/
structure DecodeCall where
  decoder : ChunkedDecoder
  buf : Bytes
  bufsz : Nat
  result : DecodeResult

namespace DecodeCall

variable (c : DecodeCall)

/-- The bytes that are available. -/
def input : Bytes := c.buf.take c.bufsz

/-- The payload among them. -/
def payload : Bytes := (decodeApart c.decoder c.input).out

/-- The input goes on with the chunked coding that the decoder has read so far: up to the end of
the body, every byte has a transition. -/
def Admitted : Prop := (chunkMachine false).Admits c.decoder c.input

/-- `*bufsz` and `total_decoded` account for the payload, which the buffer starts with. -/
structure Accounted : Prop where
  bufsz : c.result.bufsz = c.payload.length
  bounded : c.result.bufsz ≤ c.bufsz
  total : c.result.decoder.totalDecoded = u64 (c.decoder.totalDecoded + c.result.bufsz)
  retained : c.result.buf.take c.result.bufsz = c.payload

/-- The returned value tells whether the body is complete, and how many bytes are behind it. -/
structure Unambiguous : Prop where
  complete : c.result.decoder.state = chunkDone →
    0 ≤ c.result.ret ∧ c.result.ret = (decodeApart c.decoder c.input).rest.length
  incomplete : c.result.ret = Status.incomplete.code ∨ c.result.ret = Status.error.code →
    c.result.decoder.state ≠ chunkDone

/-- Fewer than 2^31 bytes follow the end of the body, and there are some if it came before. -/
structure ShortTail : Prop where
  trailing : ∀ read rest d o, c.input = read ++ rest →
    (chunkMachine false).Path c.decoder read d o → d.state = chunkDone → rest.length < 2 ^ 31
  nonempty : c.decoder.state = chunkDone → c.input ≠ []

end DecodeCall

/-- The calls that a run made, and the decoder they left. -/
inductive ChunkedDecoder.Calls (consumeTrailer : Bool) : List DecodeCall → ChunkedDecoder → Prop where
  | zero : Calls consumeTrailer [] (.zero consumeTrailer)
  | call {calls : List DecodeCall} {c : DecodeCall} (h : Calls consumeTrailer calls c.decoder)
      (hsz : c.bufsz ≤ c.buf.length)
      (hr : decodeChunked c.decoder c.buf c.bufsz = some c.result) :
      Calls consumeTrailer (calls ++ [c]) c.result.decoder

/-- The sum of the reported `*bufsz`. -/
def reported (calls : List DecodeCall) : Nat := (calls.map (fun c => c.result.bufsz)).sum

/-- The decoders of a run in which a call has reported completion. -/
inductive ChunkedDecoder.Completed (consumeTrailer : Bool) : ChunkedDecoder → Prop where
  | report {d : ChunkedDecoder} {buf : Bytes} {bufsz : Nat} {r : DecodeResult}
      (hd : d.Reachable consumeTrailer) (hsz : bufsz ≤ buf.length)
      (hr : decodeChunked d buf bufsz = some r) (hret : 0 ≤ r.ret) :
      Completed consumeTrailer r.decoder
  | call {d : ChunkedDecoder} {buf : Bytes} {bufsz : Nat} {r : DecodeResult}
      (hd : Completed consumeTrailer d) (hsz : bufsz ≤ buf.length)
      (hr : decodeChunked d buf bufsz = some r) : Completed consumeTrailer r.decoder

end IoHttpParser
