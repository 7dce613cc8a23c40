import IoHttpParser.Model.Types
import Mathlib.Data.UInt

/-!
# Character classes

The byte classes of `ihtp_internal.h` and `ihtp_scanner_scalar.c`.
-/

namespace IoHttpParser

/-- `ihtp_token_table`: the first 128 entries as initialised, the remaining ones zero. -/
def ihtpTokenTable : List Nat :=
  [0,   0,   0,   0,   0,   0,   0,   0,
     0,   0,   0,   0,   0,   0,   0,   0,
     0,   0,   0,   0,   0,   0,   0,   0,
     0,   0,   0,   0,   0,   0,   0,   0,
     0,  33,   0,  35,  36,  37,  38,  39,
     0,   0,  42,  43,   0,  45,  46,   0,
    48,  49,  50,  51,  52,  53,  54,  55,
    56,  57,   0,   0,   0,   0,   0,   0,
     0,  65,  66,  67,  68,  69,  70,  71,
    72,  73,  74,  75,  76,  77,  78,  79,
    80,  81,  82,  83,  84,  85,  86,  87,
    88,  89,  90,   0,   0,   0,  94,  95,
    96,  97,  98,  99, 100, 101, 102, 103,
   104, 105, 106, 107, 108, 109, 110, 111,
   112, 113, 114, 115, 116, 117, 118, 119,
   120, 121, 122,   0, 124,   0, 126,   0] ++
  List.replicate 128 0

/-- `ihtp_is_token_char`. -/
def isTokenChar (c : UInt8) : Bool := ihtpTokenTable.getD c.toNat 0 != 0

/-- `ihtp_is_digit`. -/
def isDigit (c : UInt8) : Bool := 0x30 ≤ c && c ≤ 0x39

/-- `ihtp_is_lws`. -/
def isLws (c : UInt8) : Bool := c == sp || c == htab

/-- `ihtp_scan_is_token_scalar`, the baseline of every `is_token` backend. -/
def scanIsToken (buf : Bytes) : Bool := buf.all isTokenChar

/-- The ASCII lowering inlined in `header_name_eq` and `bytes_eq_ignore_case`. -/
def asciiLower (c : UInt8) : UInt8 := if 0x41 ≤ c && c ≤ 0x5a then c + 0x20 else c

end IoHttpParser
