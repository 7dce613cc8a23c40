import IoHttpParser.Model.Chars
import IoHttpParser.Lib.Region
import IoHttpParser.Lib.Words

/-!
# Content-Length over pointers and words

`parse_content_length` of `ihtp_semantics.c` once more, with `value` a position of the caller's
buffer and `uint64_t` words: a byte loaded outside the buffer and a difference, product or sum that
wraps around are faults. `none` is a fault.
-/

namespace IoHttpParser
namespace Pointer
open Region Words

/-- `UINT64_MAX`. -/
abbrev uint64Max : Nat := 2 ^ 64 - 1

/-- The loop of `parse_content_length` at index `i`, with that many bytes left. -/
def contentLengthLoop (mem : Bytes) (value : Nat) : Nat → Nat → Nat → Option (Option Nat)
  | _, 0, result => some (some result)
  | i, left + 1, result => do
    let c ← load mem (value + i)
    if !isDigit c then some none
    else
      let digit ← sub c.toNat 0x30
      let room ← sub uint64Max digit
      if result > room / 10 then some none
      else
        let scaled ← mul uint64Max result 10
        let result ← add uint64Max scaled digit
        contentLengthLoop mem value (i + 1) left result

/-- `parse_content_length`: `*out`, where it returns `true`. -/
def parseContentLength (mem : Bytes) (value len : Nat) : Option (Option Nat) :=
  if len == 0 then some none else contentLengthLoop mem value 0 len 0

end Pointer
end IoHttpParser
