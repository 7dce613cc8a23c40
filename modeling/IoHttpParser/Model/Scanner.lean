import IoHttpParser.Model.Chars
import IoHttpParser.Lib.Blocks

/-!
# Scanner backends

The scalar, SSE4.2 and AVX2 backends of `ihtp_scanner_scalar.c`, `ihtp_scanner_sse42.c` and
`ihtp_scanner_avx2.c`, and the selection between them. A position is an offset into the buffer; a
delimiter string is the memory from its pointer on, and ends at the first NUL.
-/

namespace IoHttpParser
open Blocks

/-- The bytes of a NUL-terminated string. -/
def cString (s : Bytes) : Bytes := s.takeWhile (· != 0)

/-- `strlen`. -/
def strlen (s : Bytes) : Nat := (cString s).length

/-- `for (d = delims; *d != '\0'; d++) table[(uint8_t)*d] = 1;` -/
def fillTable : List UInt8 → Bytes → List UInt8
  | table, [] => table
  | table, d :: delims => if d == 0 then table else fillTable (table.set d.toNat 1) delims

/-- `table[(uint8_t)c]`, as a condition. -/
def tableHit (table : List UInt8) (c : UInt8) : Bool := table.getD c.toNat 0 != 0

/-- `ihtp_scan_find_char_scalar`. -/
def scanFindCharScalar (buf delims : Bytes) : Nat :=
  let table := fillTable (List.replicate 256 0) delims
  findFrom (tableHit table) 0 buf

/-- `_mm_cmpestri` with the flags of the scanner: the needle and its length, the haystack and its
length. -/
abbrev Cmpestri := Bytes → Nat → Bytes → Nat → Nat

/-- `_SIDD_UBYTE_OPS | _SIDD_CMP_EQUAL_ANY | _SIDD_LEAST_SIGNIFICANT`: the least index of the
haystack whose byte is among the counted bytes of the needle, or 16. -/
def EqualAny (cmpestri : Cmpestri) : Prop :=
  ∀ needle needleLen haystack, needle.length = 16 → needleLen ≤ 16 → haystack.length = 16 →
    cmpestri needle needleLen haystack 16 =
      haystack.findIdx (fun c => (needle.take needleLen).contains c)

/-- A `char` in a comparison: signed, and promoted to `int`. -/
def charValue (c : UInt8) : Int := c.toInt8.toInt

/-- `ihtp_scan_find_char_sse42`. -/
def scanFindCharSse42 (cmpestri : Cmpestri) (buf delims : Bytes) : Nat :=
  let dlen := strlen delims
  if dlen == 0 || dlen > 16 then scanFindCharScalar buf delims else
  let needle := delims.take dlen ++ List.replicate (16 - dlen) 0
  findBlocks 16 (fun haystack => cmpestri needle dlen haystack 16)
    (findFrom (fun c => (delims.take dlen).any (fun d => charValue c == charValue d)))
    buf.length 0 buf

/-- `ihtp_scan_is_token_sse42`. -/
def scanIsTokenSse42 (buf : Bytes) : Bool := scanIsToken buf

/-- `ihtp_scan_find_char_avx2`. -/
def scanFindCharAvx2 (buf delims : Bytes) : Nat :=
  let table := fillTable (List.replicate 256 0) delims
  findBlocks 32 (findFrom (tableHit table) 0) (findFrom (tableHit table)) buf.length 0 buf

/-- `ihtp_scan_is_token_avx2`. -/
def scanIsTokenAvx2 (buf : Bytes) : Bool :=
  allBlocks 32 (fun block => block.all isTokenChar) (fun rest => rest.all isTokenChar) buf.length buf

/-- `ihtp_scanner_vtable_t`. -/
structure ScannerVtable where
  findChar : Bytes → Bytes → Nat
  isToken : Bytes → Bool

/-- The backends that were compiled in: `IOHTTPPARSER_HAVE_AVX2` and `IOHTTPPARSER_HAVE_SSE42`. -/
structure ScannerBuild where
  haveAvx2 : Bool
  haveSse42 : Bool
  deriving DecidableEq, Repr

/-- `ihtp_scanner_select_vtable`. -/
def scannerSelectVtable (build : ScannerBuild) (cmpestri : Cmpestri) (simdLevel : Int32) :
    ScannerVtable :=
  if build.haveAvx2 && simdLevel &&& 0x02 != 0 then ⟨scanFindCharAvx2, scanIsTokenAvx2⟩
  else if build.haveSse42 && simdLevel &&& 0x01 != 0 then
    ⟨scanFindCharSse42 cmpestri, scanIsTokenSse42⟩
  else ⟨scanFindCharScalar, scanIsToken⟩

end IoHttpParser
