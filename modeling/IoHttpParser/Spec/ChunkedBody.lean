import IoHttpParser.Spec.Grammar

/-!
# Chunked bodies as a grammar

The chunked transfer coding, stated on byte strings: what an encoder may write, and what it
encodes.
-/

namespace IoHttpParser

/-- The sixteen digits, in lower case. -/
def hexAlphabet : Bytes := ascii "0123456789abcdef"

/-- `HEXDIG`, in either case. -/
def IsHexDigit (c : UInt8) : Prop := asciiLower c ∈ hexAlphabet

instance : DecidablePred IsHexDigit := fun c => inferInstanceAs (Decidable (asciiLower c ∈ _))

/-- The value of a hex digit. -/
def hexDigitValue (c : UInt8) : Nat := hexAlphabet.idxOf (asciiLower c)

/-- The number that hex digits spell. -/
def hexValue (digits : Bytes) : Nat := digits.foldl (fun n c => n * 16 + hexDigitValue c) 0

/-- `[ chunk-ext ]`: nothing, or `;` and anything up to the line ending. -/
structure IsExtension (ext : Bytes) : Prop where
  start : ext = [] ∨ ∃ rest, ext = semicolon :: rest
  no_cr : cr ∉ ext
  no_lf : lf ∉ ext

/-- `chunk = chunk-size [ chunk-ext ] CRLF chunk-data CRLF`, its size spelled in any way. -/
structure Chunk where
  digits : Bytes
  ext : Bytes
  data : Bytes
  digits_nonempty : digits ≠ []
  digits_hex : ∀ c ∈ digits, IsHexDigit c
  digits_le : digits.length ≤ 16
  size : hexValue digits = data.length
  data_nonempty : data ≠ []
  ext_ok : IsExtension ext

def Chunk.wire (c : Chunk) : Bytes := c.digits ++ (c.ext ++ crlf) ++ (c.data ++ crlf)

/-- `last-chunk = 1*("0") [ chunk-ext ] CRLF`. -/
structure LastChunk where
  digits : Bytes
  ext : Bytes
  digits_nonempty : digits ≠ []
  digits_zero : ∀ c ∈ digits, c = 0x30
  digits_le : digits.length ≤ 16
  ext_ok : IsExtension ext

def LastChunk.wire (c : LastChunk) : Bytes := c.digits ++ (c.ext ++ crlf)

/-- A line of the trailer section. -/
structure TrailerLine where
  line : Bytes
  line_nonempty : line ≠ []
  no_cr : cr ∉ line
  no_lf : lf ∉ line

/-- The chunks of a body. -/
def chunksWire (chunks : List Chunk) : Bytes := chunks.flatMap Chunk.wire

/-- A trailer section with the empty line that ends it. -/
def trailerWire (trailers : List TrailerLine) : Bytes :=
  trailers.flatMap (fun t => t.line ++ crlf) ++ crlf

/-- The data of the chunks. -/
def chunksPayload (chunks : List Chunk) : Bytes := chunks.flatMap Chunk.data

/-- `chunked-body = *chunk last-chunk trailer-section CRLF`. -/
structure ChunkedBody where
  chunks : List Chunk
  last : LastChunk
  trailers : List TrailerLine

namespace ChunkedBody

/-- What a body encodes. -/
def payload (b : ChunkedBody) : Bytes := chunksPayload b.chunks

/-- The chunks, up to and with the last one. -/
def framing (b : ChunkedBody) : Bytes := chunksWire b.chunks ++ b.last.wire

/-- The bytes of a body. -/
def wire (b : ChunkedBody) : Bytes := b.framing ++ trailerWire b.trailers

/-- What a decoder reads of a body: the trailer section only if it is told to. -/
def consumed (b : ChunkedBody) (consumeTrailer : Bool) : Bytes :=
  if consumeTrailer then b.wire else b.framing

end ChunkedBody

end IoHttpParser
