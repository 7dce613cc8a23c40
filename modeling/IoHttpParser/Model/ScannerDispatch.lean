import IoHttpParser.Model.Scanner

/-!
# Scanner dispatch

The public scanner functions of `ihtp_scanner_scalar.c` and the static dispatch table behind them,
which the first call that needs it fills in.
-/

namespace IoHttpParser

/-- What `__builtin_cpu_supports` reports. -/
structure Cpu where
  sse42 : Bool
  avx2 : Bool
  deriving DecidableEq, Repr

/-- `ihtp_scanner_simd_level`. -/
def scannerSimdLevel (build : ScannerBuild) (cpu : Cpu) : Int32 :=
  let level := 0
  let level := if build.haveSse42 && cpu.sse42 then level ||| 0x01 else level
  if build.haveAvx2 && cpu.avx2 then level ||| 0x02 else level

/-- `ihtp_scanner_backend_name_for_level`. -/
def scannerBackendNameForLevel (build : ScannerBuild) (simdLevel : Int32) : String :=
  if build.haveAvx2 && simdLevel &&& 0x02 != 0 then "avx2"
  else if build.haveSse42 && simdLevel &&& 0x01 != 0 then "sse42"
  else "scalar"

/-- `ihtp_scanner_active_backend_name`. -/
def scannerActiveBackendName (build : ScannerBuild) (cpu : Cpu) : String :=
  scannerBackendNameForLevel build (scannerSimdLevel build cpu)

/-- `scanner_vtable`, where `none` is a null pointer, and `scanner_initialized`. -/
structure ScannerState where
  findChar : Option (Bytes → Bytes → Nat)
  isToken : Option (Bytes → Bool)
  initialized : Bool

/-- The static variables when the program starts. -/
def ScannerState.zero : ScannerState := ⟨none, none, false⟩

section Calls

variable (build : ScannerBuild) (cmpestri : Cmpestri) (cpu : Cpu)

/-- `ihtp_scanner_init`. -/
def scannerInit (state : ScannerState) : ScannerState :=
  if state.initialized then state else
  let vtable := scannerSelectVtable build cmpestri (scannerSimdLevel build cpu)
  { findChar := some vtable.findChar, isToken := some vtable.isToken, initialized := true }

/-- `ihtp_scanner_get`. -/
def scannerGet (state : ScannerState) : ScannerState :=
  if !state.initialized then scannerInit build cmpestri cpu state else state

/-- `ihtp_scan_find_char`; `none` is a call through a null pointer. -/
def scanFindChar (state : ScannerState) (buf delims : Bytes) : Option (ScannerState × Nat) :=
  let state := scannerGet build cmpestri cpu state
  state.findChar.map fun findChar => (state, findChar buf delims)

/-- `ihtp_scan_is_token`. -/
def scanIsTokenActive (state : ScannerState) (buf : Bytes) : Option (ScannerState × Bool) :=
  let state := scannerGet build cmpestri cpu state
  state.isToken.map fun isToken => (state, isToken buf)

/-- `ihtp_scan_skip_lws`. -/
def scanSkipLws : Bytes → Nat
  | [] => 0
  | c :: buf => if isLws c then scanSkipLws buf + 1 else 0

/-- A call of the scanner. -/
inductive ScannerCall where
  | findChar (buf delims : Bytes)
  | isToken (buf : Bytes)
  | skipLws (buf : Bytes)
  | activeBackendName

/-- What a call of the scanner returns. -/
inductive ScannerResult where
  | offset (i : Nat)
  | token (b : Bool)
  | name (s : String)
  deriving DecidableEq, Repr

/-- A call, on the static variables. -/
def scannerCall (state : ScannerState) : ScannerCall → Option (ScannerState × ScannerResult)
  | .findChar buf delims =>
    (scanFindChar build cmpestri cpu state buf delims).map fun r => (r.1, .offset r.2)
  | .isToken buf => (scanIsTokenActive build cmpestri cpu state buf).map fun r => (r.1, .token r.2)
  | .skipLws buf => some (state, .offset (scanSkipLws buf))
  | .activeBackendName => some (state, .name (scannerActiveBackendName build cpu))

end Calls

end IoHttpParser
