import IoHttpParser.Model.BodyDecoder
import IoHttpParser.Lib.Transducer

/-!
# The chunked decoder byte by byte

What `ihtp_decode_chunked` is for: a machine that reads one byte at a time and emits payload,
with no buffer, cursors or bulk copies.
-/

namespace IoHttpParser
open Streaming

/-- The effect of one byte, and the payload it yields. With `requireDigit` a size line needs a
digit before its extension as it does before its CR; `ihtp_decode_chunked` does not ask for it. -/
def ChunkedDecoder.feed (requireDigit : Bool) (d : ChunkedDecoder) (c : UInt8) :
    Option (ChunkedDecoder × Bytes) :=
  match d.state with
  | chunkSize =>
    if isHexDigit c then
      if d.hexCount ≥ 16 then none
      else some ({ d with
        bytesLeftInChunk := u64 (u64 (d.bytesLeftInChunk * 16) + hexDigitToU64 c)
        hexCount := d.hexCount + 1 }, [])
    else if c = semicolon then
      if requireDigit ∧ d.hexCount = 0 then none else some ({ d with state := chunkExt }, [])
    else if c = cr then
      if d.hexCount = 0 then none else some ({ d with state := chunkSizeLf }, [])
    else none
  | chunkExt =>
    if c = cr then some ({ d with state := chunkSizeLf }, [])
    else if c = lf then none
    else some (d, [])
  | chunkSizeLf =>
    if c ≠ lf then none
    else if d.bytesLeftInChunk = 0 then
      if d.consumeTrailer then
        some ({ d with hexCount := trailerLineStart, state := chunkTrailer }, [])
      else some ({ d with state := chunkDone }, [])
    else some ({ d with state := chunkData }, [])
  | chunkData =>
    some ({ d with
      bytesLeftInChunk := d.bytesLeftInChunk - 1
      totalDecoded := u64 (d.totalDecoded + 1)
      state := if d.bytesLeftInChunk - 1 = 0 then chunkDataCr else chunkData }, [c])
  | chunkDataCr => if c ≠ cr then none else some ({ d with state := chunkDataLf }, [])
  | chunkDataLf =>
    if c ≠ lf then none
    else some ({ d with hexCount := 0, bytesLeftInChunk := 0, state := chunkSize }, [])
  | chunkTrailer =>
    match d.hexCount with
    | trailerLineStart =>
      if c = cr then some ({ d with hexCount := trailerDoneLf }, [])
      else if c = lf then none
      else some ({ d with hexCount := trailerLine }, [])
    | trailerDoneLf => if c ≠ lf then none else some ({ d with state := chunkDone }, [])
    | trailerLine =>
      if c = cr then some ({ d with hexCount := trailerLineLf }, [])
      else if c = lf then none
      else some (d, [])
    | trailerLineLf => if c ≠ lf then none else some ({ d with hexCount := trailerLineStart }, [])
    | _ => none
  | _ => none

/-- The machine; it halts without reading on once the last chunk and the trailer are in. -/
def chunkMachine (requireDigit : Bool) : Transducer ChunkedDecoder UInt8 UInt8 where
  step := ChunkedDecoder.feed requireDigit
  halted d := d.state == chunkDone

/-- The decoder out of place: it reads its input byte by byte and appends the payload to an output
of its own. With nothing to read it asks for more, even when it is done. -/
def decodeApart (d : ChunkedDecoder) : Bytes → Run ChunkedDecoder UInt8 UInt8
  | [] => ⟨.more, d, [], []⟩
  | c :: rest =>
    if d.state = chunkDone then ⟨.complete, d, [], c :: rest⟩
    else match d.feed false c with
      | none => ⟨.fail, d, [], c :: rest⟩
      | some (d', o) =>
        if d'.state = chunkDone then ⟨.complete, d', o, rest⟩
        else let r := decodeApart d' rest; { r with out := o ++ r.out }

/-- The transitions of the machine, one constructor each. -/
inductive ChunkStep (requireDigit : Bool) :
    ChunkedDecoder → UInt8 → ChunkedDecoder → Bytes → Prop where
  | digit {b t k : Nat} {ct : Bool} {c : UInt8} (hc : isHexDigit c = true) (hk : k < 16) :
      ChunkStep requireDigit ⟨b, t, k, chunkSize, ct⟩ c
        ⟨u64 (u64 (b * 16) + hexDigitToU64 c), t, k + 1, chunkSize, ct⟩ []
  | extStart {b t k : Nat} {ct : Bool} (hk : requireDigit = true → k ≠ 0) :
      ChunkStep requireDigit ⟨b, t, k, chunkSize, ct⟩ semicolon ⟨b, t, k, chunkExt, ct⟩ []
  | sizeCr {b t k : Nat} {ct : Bool} (hk : k ≠ 0) :
      ChunkStep requireDigit ⟨b, t, k, chunkSize, ct⟩ cr ⟨b, t, k, chunkSizeLf, ct⟩ []
  | extByte {b t k : Nat} {ct : Bool} {c : UInt8} (hcr : c ≠ cr) (hlf : c ≠ lf) :
      ChunkStep requireDigit ⟨b, t, k, chunkExt, ct⟩ c ⟨b, t, k, chunkExt, ct⟩ []
  | extCr {b t k : Nat} {ct : Bool} :
      ChunkStep requireDigit ⟨b, t, k, chunkExt, ct⟩ cr ⟨b, t, k, chunkSizeLf, ct⟩ []
  | sizeData {b t k : Nat} {ct : Bool} (hb : b ≠ 0) :
      ChunkStep requireDigit ⟨b, t, k, chunkSizeLf, ct⟩ lf ⟨b, t, k, chunkData, ct⟩ []
  | sizeTrailer {t k : Nat} :
      ChunkStep requireDigit ⟨0, t, k, chunkSizeLf, true⟩ lf
        ⟨0, t, trailerLineStart, chunkTrailer, true⟩ []
  | sizeDone {t k : Nat} :
      ChunkStep requireDigit ⟨0, t, k, chunkSizeLf, false⟩ lf ⟨0, t, k, chunkDone, false⟩ []
  | dataByte {b t k : Nat} {ct : Bool} {c : UInt8} (hb : b - 1 ≠ 0) :
      ChunkStep requireDigit ⟨b, t, k, chunkData, ct⟩ c ⟨b - 1, u64 (t + 1), k, chunkData, ct⟩ [c]
  | dataLast {b t k : Nat} {ct : Bool} {c : UInt8} (hb : b - 1 = 0) :
      ChunkStep requireDigit ⟨b, t, k, chunkData, ct⟩ c ⟨0, u64 (t + 1), k, chunkDataCr, ct⟩ [c]
  | dataCr {b t k : Nat} {ct : Bool} :
      ChunkStep requireDigit ⟨b, t, k, chunkDataCr, ct⟩ cr ⟨b, t, k, chunkDataLf, ct⟩ []
  | dataLf {b t k : Nat} {ct : Bool} :
      ChunkStep requireDigit ⟨b, t, k, chunkDataLf, ct⟩ lf ⟨0, t, 0, chunkSize, ct⟩ []
  | trailerEnd {b t : Nat} {ct : Bool} :
      ChunkStep requireDigit ⟨b, t, trailerLineStart, chunkTrailer, ct⟩ cr
        ⟨b, t, trailerDoneLf, chunkTrailer, ct⟩ []
  | trailerStart {b t : Nat} {ct : Bool} {c : UInt8} (hcr : c ≠ cr) (hlf : c ≠ lf) :
      ChunkStep requireDigit ⟨b, t, trailerLineStart, chunkTrailer, ct⟩ c
        ⟨b, t, trailerLine, chunkTrailer, ct⟩ []
  | trailerDone {b t : Nat} {ct : Bool} :
      ChunkStep requireDigit ⟨b, t, trailerDoneLf, chunkTrailer, ct⟩ lf
        ⟨b, t, trailerDoneLf, chunkDone, ct⟩ []
  | trailerByte {b t : Nat} {ct : Bool} {c : UInt8} (hcr : c ≠ cr) (hlf : c ≠ lf) :
      ChunkStep requireDigit ⟨b, t, trailerLine, chunkTrailer, ct⟩ c
        ⟨b, t, trailerLine, chunkTrailer, ct⟩ []
  | trailerCr {b t : Nat} {ct : Bool} :
      ChunkStep requireDigit ⟨b, t, trailerLine, chunkTrailer, ct⟩ cr
        ⟨b, t, trailerLineLf, chunkTrailer, ct⟩ []
  | trailerLf {b t : Nat} {ct : Bool} :
      ChunkStep requireDigit ⟨b, t, trailerLineLf, chunkTrailer, ct⟩ lf
        ⟨b, t, trailerLineStart, chunkTrailer, ct⟩ []

/-- The states a decoder gets into from a zero-initialised one. -/
structure ChunkedDecoder.Ok (d : ChunkedDecoder) : Prop where
  state_le : d.state ≤ chunkDone
  data_pos : d.state = chunkData → 0 < d.bytesLeftInChunk

end IoHttpParser
