import IoHttpParser.Model.Types
import IoHttpParser.Lib.Memory

/-!
# Body decoders

`ihtp_decode_chunked` and `ihtp_decode_fixed` of `ihtp_body_decoder.c`. The chunked decoder
works in place on the caller's buffer; its loop is a step function on the local variables,
iterated with fuel, so that a loop that made no progress would run out of it.
-/

namespace IoHttpParser
open Memory

/-- `ihtp_chunked_decoder_t`; the two `char` fields hold small non-negative numbers. -/
structure ChunkedDecoder where
  bytesLeftInChunk : Nat
  totalDecoded : Nat
  hexCount : Nat
  state : Nat
  consumeTrailer : Bool
  deriving DecidableEq, Repr

/-- `CHUNK_SIZE`. -/
@[match_pattern] abbrev chunkSize : Nat := 0
/-- `CHUNK_EXT`. -/
@[match_pattern] abbrev chunkExt : Nat := 1
/-- `CHUNK_SIZE_LF`. -/
@[match_pattern] abbrev chunkSizeLf : Nat := 2
/-- `CHUNK_DATA`. -/
@[match_pattern] abbrev chunkData : Nat := 3
/-- `CHUNK_DATA_CR`. -/
@[match_pattern] abbrev chunkDataCr : Nat := 4
/-- `CHUNK_DATA_LF`. -/
@[match_pattern] abbrev chunkDataLf : Nat := 5
/-- `CHUNK_TRAILER`. -/
@[match_pattern] abbrev chunkTrailer : Nat := 6
/-- `CHUNK_DONE`. -/
@[match_pattern] abbrev chunkDone : Nat := 7

/-- `TRAILER_LINE_START`. -/
@[match_pattern] abbrev trailerLineStart : Nat := 0
/-- `TRAILER_DONE_LF`. -/
@[match_pattern] abbrev trailerDoneLf : Nat := 1
/-- `TRAILER_LINE`. -/
@[match_pattern] abbrev trailerLine : Nat := 2
/-- `TRAILER_LINE_LF`. -/
@[match_pattern] abbrev trailerLineLf : Nat := 3

/-- A zero-initialised decoder. -/
def ChunkedDecoder.zero (consumeTrailer : Bool) : ChunkedDecoder :=
  ⟨0, 0, 0, chunkSize, consumeTrailer⟩

/-- The three digit tests of the `CHUNK_SIZE` case. -/
def isHexDigit (c : UInt8) : Bool :=
  (0x30 ≤ c && c ≤ 0x39) || (0x61 ≤ c && c ≤ 0x66) || (0x41 ≤ c && c ≤ 0x46)

/-- `ihtp_hex_digit_to_u64`. -/
def hexDigitToU64 (c : UInt8) : Nat :=
  if 0x30 ≤ c && c ≤ 0x39 then c.toNat - 0x30
  else if 0x61 ≤ c && c ≤ 0x66 then c.toNat - 0x61 + 10
  else c.toNat - 0x41 + 10

/-- `(ihtp_status_t)n`: the conversion to a 32-bit signed integer. -/
def statusOfCount (n : Nat) : Int := (n : Int).bmod (2 ^ 32)

/-- The variables of `ihtp_decode_chunked`: its decoder and buffer, and `src` and `dst`. -/
structure DecodeLoop where
  decoder : ChunkedDecoder
  buf : Bytes
  src : Nat
  dst : Nat
  deriving DecidableEq, Repr

/-- What a call returns and leaves in its arguments. -/
structure DecodeResult where
  ret : Int
  decoder : ChunkedDecoder
  buf : Bytes
  bufsz : Nat
  deriving DecidableEq, Repr

/-- One iteration goes on or returns. -/
inductive DecodeStep where
  | next (l : DecodeLoop)
  | ret (r : DecodeResult)
  deriving DecidableEq, Repr

namespace DecodeLoop

variable (l : DecodeLoop) (avail : Nat)

/-- `return IHTP_ERROR`, which leaves `*bufsz` as it was passed. -/
def error : DecodeStep := .ret ⟨Status.error.code, l.decoder, l.buf, avail⟩

/-- The exit that moves the trailing bytes up and returns their number. -/
def complete : DecodeStep :=
  let buf := if l.src < avail then memmove l.buf l.dst l.src (avail - l.src) else l.buf
  .ret ⟨statusOfCount (avail - l.src), l.decoder, buf, l.dst⟩

/-- `src++` with the decoder updated. -/
def skip (decoder : ChunkedDecoder) : DecodeLoop := { l with decoder, src := l.src + 1 }

/-- The switch of the loop body, with `c` the byte at `src`. -/
def step (c : UInt8) : DecodeStep :=
  let d := l.decoder
  match d.state with
  | chunkSize =>
    if isHexDigit c then
      if d.hexCount ≥ 16 then l.error avail
      else .next (l.skip { d with
        bytesLeftInChunk := u64 (u64 (d.bytesLeftInChunk * 16) + hexDigitToU64 c)
        hexCount := d.hexCount + 1 })
    else if c == semicolon then .next (l.skip { d with state := chunkExt })
    else if c == cr then
      if d.hexCount == 0 then l.error avail
      else .next (l.skip { d with state := chunkSizeLf })
    else l.error avail
  | chunkExt =>
    if c == cr then .next (l.skip { d with state := chunkSizeLf })
    else if c == lf then l.error avail
    else .next (l.skip d)
  | chunkSizeLf =>
    if c != lf then l.error avail
    else if d.bytesLeftInChunk == 0 then
      if d.consumeTrailer then
        .next (l.skip { d with hexCount := trailerLineStart, state := chunkTrailer })
      else (l.skip { d with state := chunkDone }).complete avail
    else .next (l.skip { d with state := chunkData })
  | chunkData =>
    let toCopy := min (avail - l.src) d.bytesLeftInChunk
    let left := d.bytesLeftInChunk - toCopy
    .next { decoder := { d with
              bytesLeftInChunk := left
              totalDecoded := u64 (d.totalDecoded + toCopy)
              state := if left == 0 then chunkDataCr else chunkData }
            buf := memmove l.buf l.dst l.src toCopy
            src := l.src + toCopy
            dst := l.dst + toCopy }
  | chunkDataCr =>
    if c != cr then l.error avail else .next (l.skip { d with state := chunkDataLf })
  | chunkDataLf =>
    if c != lf then l.error avail
    else .next (l.skip { d with hexCount := 0, bytesLeftInChunk := 0, state := chunkSize })
  | chunkTrailer =>
    match d.hexCount with
    | trailerLineStart =>
      if c == cr then .next (l.skip { d with hexCount := trailerDoneLf })
      else if c == lf then l.error avail
      else .next (l.skip { d with hexCount := trailerLine })
    | trailerDoneLf =>
      if c != lf then l.error avail
      else (l.skip { d with state := chunkDone }).complete avail
    | trailerLine =>
      if c == cr then .next (l.skip { d with hexCount := trailerLineLf })
      else if c == lf then l.error avail
      else .next (l.skip d)
    | trailerLineLf =>
      if c != lf then l.error avail
      else .next (l.skip { d with hexCount := trailerLineStart })
    | _ => l.error avail
  | chunkDone => l.complete avail
  -- the switch has no default: nothing happens and the loop comes round again
  | _ => .next l

/-- `while (src < avail)`; `none` when the fuel runs out first. -/
def loop (avail : Nat) : Nat → DecodeLoop → Option DecodeResult
  | 0, _ => none
  | fuel + 1, l =>
    if l.src < avail then
      match l.step avail (l.buf.getD l.src 0) with
      | .next l => loop avail fuel l
      | .ret r => some r
    else some ⟨Status.incomplete.code, l.decoder, l.buf, l.dst⟩

end DecodeLoop

/-- `ihtp_decode_chunked` on a buffer of which the first `bufsz` bytes are available. No
iteration but an empty `CHUNK_DATA` one leaves `src` where it was, so `bufsz + 2` iterations
are enough whenever the call returns at all. -/
def decodeChunked (decoder : ChunkedDecoder) (buf : Bytes) (bufsz : Nat) : Option DecodeResult :=
  DecodeLoop.loop bufsz (bufsz + 2) ⟨decoder, buf, 0, 0⟩

/-- `ihtp_fixed_decoder_t`. -/
structure FixedDecoder where
  remaining : Nat
  totalDecoded : Nat
  deriving DecidableEq, Repr

/-- `ihtp_fixed_decoder_init`. -/
def fixedDecoderInit (contentLength : Nat) : FixedDecoder := ⟨contentLength, 0⟩

/-- `ihtp_decode_fixed`. -/
def decodeFixed (decoder : FixedDecoder) (len : Nat) : Status × FixedDecoder :=
  if len > decoder.remaining then (.error, decoder) else
  let decoder := ⟨decoder.remaining - len, u64 (decoder.totalDecoded + len)⟩
  if decoder.remaining == 0 then (.ok, decoder) else (.incomplete, decoder)

end IoHttpParser
