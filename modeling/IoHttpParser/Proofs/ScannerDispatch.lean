import IoHttpParser.Model.ScannerDispatch
import IoHttpParser.Proofs.Scanner
import IoHttpParser.Lib.Clients

/-!
# Scanner dispatch

The dispatch table is filled in by the first call through it, so no call finds a null pointer, and
a client of the scanner sees the same results whatever backend the table holds.
-/

namespace IoHttpParser
open Clients

/-- The scanner by its results: the search and the tests, without a backend. -/
def scannerResult (name : String) : ScannerCall → ScannerResult
  | .findChar buf delims => .offset (buf.findIdx fun c => (cString delims).contains c)
  | .isToken buf => .token (buf.all isTchar)
  | .skipLws buf => .offset (buf.takeWhile isLws).length
  | .activeBackendName => .name name

/-- The calls that go through the dispatch table. -/
def ScannerCall.dispatched : ScannerCall → Bool
  | .findChar _ _ | .isToken _ => true
  | .skipLws _ | .activeBackendName => false

/-- The backend of a name. -/
def backendNamed (cmpestri : Cmpestri) (name : String) : ScannerVtable :=
  if name = "avx2" then ⟨scanFindCharAvx2, scanIsTokenAvx2⟩
  else if name = "sse42" then ⟨scanFindCharSse42 cmpestri, scanIsTokenSse42⟩
  else ⟨scanFindCharScalar, scanIsToken⟩

/-- The static variables after a sequence of calls: the table holds the backend of that name as soon
as a call has gone through it. -/
def scannerAfter (cmpestri : Cmpestri) (name : String) (made : List ScannerCall) : ScannerState :=
  if made.any ScannerCall.dispatched then
    ⟨some (backendNamed cmpestri name).findChar, some (backendNamed cmpestri name).isToken, true⟩
  else .zero

section Table

variable {cmpestri : Cmpestri}

lemma selectVtable_eq (build : ScannerBuild) (simdLevel : Int32) :
    scannerSelectVtable build cmpestri simdLevel =
      backendNamed cmpestri (scannerBackendNameForLevel build simdLevel) := by
  unfold scannerSelectVtable scannerBackendNameForLevel
  split
  · rfl
  · split <;> rfl

lemma backendNamed_findChar (h : EqualAny cmpestri) (name : String) (buf delims : Bytes) :
    (backendNamed cmpestri name).findChar buf delims =
      buf.findIdx fun c => (cString delims).contains c := by
  unfold backendNamed
  split
  · exact scanFindCharAvx2_eq buf delims
  · split
    · exact scanFindCharSse42_eq h buf delims
    · exact scanFindCharScalar_eq buf delims

lemma backendNamed_isToken (name : String) (buf : Bytes) :
    (backendNamed cmpestri name).isToken buf = buf.all isTchar := by
  have hscalar : scanIsToken buf = buf.all isTchar := by
    rw [Bool.eq_iff_iff, scanIsToken_iff, List.all_eq_true]
  unfold backendNamed
  split
  · exact (scanIsTokenAvx2_eq buf).trans hscalar
  · split <;> exact hscalar

lemma scannerAfter_dispatched {c : ScannerCall} (hc : c.dispatched = true) (name : String)
    (made : List ScannerCall) :
    scannerAfter cmpestri name (made ++ [c]) =
      ⟨some (backendNamed cmpestri name).findChar, some (backendNamed cmpestri name).isToken,
        true⟩ := by
  rw [scannerAfter, List.any_append, List.any_cons, hc, Bool.true_or, Bool.or_true, if_pos rfl]

lemma scannerAfter_direct {c : ScannerCall} (hc : c.dispatched = false) (name : String)
    (made : List ScannerCall) :
    scannerAfter cmpestri name (made ++ [c]) = scannerAfter cmpestri name made := by
  rw [scannerAfter, List.any_append, List.any_cons, hc, List.any_nil, Bool.or_false, Bool.or_false,
    scannerAfter]

end Table

lemma scanSkipLws_eq (buf : Bytes) : scanSkipLws buf = (buf.takeWhile isLws).length := by
  induction buf with
  | nil => rfl
  | cons c buf ih =>
    rw [scanSkipLws, List.takeWhile_cons, ih]
    cases isLws c <;> rfl

section Calls

variable {build : ScannerBuild} {cmpestri : Cmpestri} {cpu : Cpu}

lemma scannerGet_after (made : List ScannerCall) (c : ScannerCall) (hc : c.dispatched = true) :
    scannerGet build cmpestri cpu
        (scannerAfter cmpestri (scannerActiveBackendName build cpu) made) =
      scannerAfter cmpestri (scannerActiveBackendName build cpu) (made ++ [c]) := by
  rw [scannerAfter_dispatched hc, scannerActiveBackendName, ← selectVtable_eq, scannerAfter,
    ← selectVtable_eq]
  cases made.any ScannerCall.dispatched <;> rfl

lemma implements_scannerCall (h : EqualAny cmpestri) :
    Implements (scannerCall build cmpestri cpu)
      (scannerResult (scannerActiveBackendName build cpu))
      (scannerAfter cmpestri (scannerActiveBackendName build cpu)) := by
  refine ⟨fun made c => ?_⟩
  cases c with
  | findChar buf delims =>
    rw [scannerResult, scannerCall, scanFindChar, scannerGet_after made (.findChar buf delims) rfl,
      scannerAfter_dispatched rfl, ← backendNamed_findChar h (scannerActiveBackendName build cpu)]
    rfl
  | isToken buf =>
    rw [scannerResult, scannerCall, scanIsTokenActive, scannerGet_after made (.isToken buf) rfl,
      scannerAfter_dispatched rfl, ← backendNamed_isToken (scannerActiveBackendName build cpu)]
    rfl
  | skipLws buf => rw [scannerAfter_direct rfl, scannerResult, scannerCall, scanSkipLws_eq]
  | activeBackendName => rw [scannerAfter_direct rfl, scannerResult, scannerCall]

end Calls

/-- Whatever the processor and the compiled backends, no client of the scanner calls through a null
pointer, and it gets the results of the search and the tests themselves; the table is empty until
the first call through it, and from then on holds the backend that is reported as active. -/
theorem scanner_clients_agree {α : Type} (cmpestri : Cmpestri) (h : EqualAny cmpestri)
    (build : ScannerBuild) (cpu : Cpu) (client : Client ScannerCall ScannerResult α) :
    let name := scannerActiveBackendName build cpu
    client.run (scannerCall build cmpestri cpu) .zero =
      some (scannerAfter cmpestri name (client.calls (scannerResult name)),
        client.value (scannerResult name)) :=
  (implements_scannerCall h).run_after client []

/-- A client that searches a line for its colon and tests the name before it. -/
def nameTest (line : Bytes) : Client ScannerCall ScannerResult ScannerResult :=
  .call (.findChar line (ascii ":" ++ [0])) fun
    | .offset i => .call (.isToken (line.take i)) .done
    | r => .done r

/-- On a processor with SSE4.2 only, with both backends compiled in. -/
theorem scanner_clients_agree_name :
    EqualAny cmpestriEqualAny ∧
    ((nameTest (ascii "Content-Disposition: inline")).run
      (scannerCall ⟨true, true⟩ cmpestriEqualAny ⟨true, false⟩) .zero).map Prod.snd =
      some (.token true) := by
  refine ⟨equalAny_cmpestri, ?_⟩
  rw [scanner_clients_agree cmpestriEqualAny equalAny_cmpestri ⟨true, true⟩ ⟨true, false⟩]
  decide

end IoHttpParser
