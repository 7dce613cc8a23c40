import Mathlib.Data.List.GetD
import IoHttpParser.Model.Scanner
import IoHttpParser.Proofs.Text

/-!
# The scanner backends agree

Table, needle and nested loops are three representations of one delimiter set, and a search in
blocks finds what the search byte by byte finds.
-/

namespace IoHttpParser
open Blocks

section Delims

variable {table : List UInt8} {delims : Bytes}

lemma tableHit_set (hlen : table.length = 256) (d c : UInt8) :
    tableHit (table.set d.toNat 1) c = (c == d || tableHit table c) := by
  have hd := d.toNat_lt
  unfold tableHit
  rw [List.getD_eq_getElem?_getD, List.getElem?_set, List.getD_eq_getElem?_getD]
  by_cases h : c = d
  · rw [h, if_pos rfl, if_pos (by omega), beq_self_eq_true, Bool.true_or]
    rfl
  · have hne : ¬d.toNat = c.toNat := fun he => h (UInt8.toNat_inj.mp he.symm)
    rw [if_neg hne, beq_false_of_ne h, Bool.false_or]

/-- The table holds the bytes of the string, besides what it held. -/
lemma tableHit_fillTable (hlen : table.length = 256) (delims : Bytes) (c : UInt8) :
    tableHit (fillTable table delims) c = ((cString delims).contains c || tableHit table c) := by
  induction delims generalizing table with
  | nil => rfl
  | cons d delims ih =>
    rw [fillTable, cString, List.takeWhile_cons, bne]
    by_cases hd : (d == 0) = true
    · rw [if_pos hd, hd]
      rfl
    · rw [if_neg hd, Bool.eq_false_iff.mpr hd, ih (by rw [List.length_set, hlen]),
        tableHit_set hlen]
      rw [Bool.not_false, if_pos rfl, List.contains_cons, ← cString, Bool.or_left_comm, Bool.or_assoc]

lemma tableHit_delims (delims : Bytes) :
    tableHit (fillTable (List.replicate 256 0) delims) = (cString delims).contains := by
  funext c
  have hempty : tableHit (List.replicate 256 0) c = false := by
    unfold tableHit
    rw [List.getD_eq_getElem?_getD, List.getElem?_replicate_of_lt c.toNat_lt]
    rfl
  rw [tableHit_fillTable List.length_replicate, hempty, Bool.or_false]

lemma take_strlen (delims : Bytes) : delims.take (strlen delims) = cString delims := by
  have h := List.takeWhile_append_dropWhile (p := (· != (0 : UInt8))) (l := delims)
  calc delims.take (strlen delims)
      = (cString delims ++ delims.dropWhile (· != 0)).take (cString delims).length := by
        rw [cString, h]; rfl
    _ = cString delims := List.take_left

/-- Signed comparison tells the same bytes apart. -/
lemma charValue_beq (c d : UInt8) : (charValue c == charValue d) = (c == d) := by
  rw [Bool.eq_iff_iff, beq_iff_eq, beq_iff_eq]
  constructor
  · intro h
    have h8 : c.toInt8 = d.toInt8 := Int8.toInt.inj h
    rw [← c.toUInt8_toInt8, h8, d.toUInt8_toInt8]
  · rintro rfl
    rfl

end Delims

/-! ### The three backends -/

section Backends

variable {cmpestri : Cmpestri}

lemma scanFindCharScalar_eq (buf delims : Bytes) :
    scanFindCharScalar buf delims = buf.findIdx (cString delims).contains := by
  unfold scanFindCharScalar
  dsimp only
  rw [tableHit_delims, findFrom_eq, Nat.zero_add]

lemma scanFindCharAvx2_eq (buf delims : Bytes) :
    scanFindCharAvx2 buf delims = buf.findIdx (cString delims).contains := by
  unfold scanFindCharAvx2
  dsimp only
  rw [tableHit_delims, findBlocks_eq (fun b _ => (findFrom_eq 0 b).trans (Nat.zero_add _))
    findFrom_eq, Nat.zero_add]

/-- The needle holds the whole string, and nothing else counts. -/
lemma take_needle {delims : Bytes} (hlen : (cString delims).length ≤ 16) :
    (cString delims ++ List.replicate (16 - (cString delims).length) 0).length = 16 ∧
      (cString delims ++ List.replicate (16 - (cString delims).length) 0).take
        (cString delims).length = cString delims := by
  rw [List.length_append, List.length_replicate]
  exact ⟨by omega, List.take_left⟩

lemma scanFindCharSse42_eq (h : EqualAny cmpestri) (buf delims : Bytes) :
    scanFindCharSse42 cmpestri buf delims = buf.findIdx (cString delims).contains := by
  unfold scanFindCharSse42
  dsimp only
  by_cases hfallback : (strlen delims == 0 || strlen delims > 16) = true
  · rw [if_pos hfallback, scanFindCharScalar_eq]
  · rw [Bool.or_eq_true, decide_eq_true_eq, not_or] at hfallback
    have hlen : (cString delims).length ≤ 16 := Nat.not_lt.mp hfallback.2
    obtain ⟨hneedle, htake⟩ := take_needle hlen
    have hany : (fun c : UInt8 => (cString delims).any (fun d => charValue c == charValue d)) =
        (cString delims).contains := by
      funext c
      simp only [charValue_beq]
      exact (List.contains_eq_any_beq).symm
    rw [if_neg (by simpa using hfallback), take_strlen, hany]
    rw [findBlocks_eq (p := (cString delims).contains) ?_ findFrom_eq, Nat.zero_add]
    intro b hb
    rw [show strlen delims = (cString delims).length from rfl, h _ _ _ hneedle hlen hb, htake]

lemma scanIsTokenAvx2_eq (buf : Bytes) : scanIsTokenAvx2 buf = scanIsToken buf :=
  allBlocks_eq (fun _ _ => rfl) (fun _ => rfl) _ _

/-- The backends are one search and one test. -/
lemma backends_eq_scalar (h : EqualAny cmpestri) :
    (scanFindCharSse42 cmpestri = scanFindCharScalar ∧ scanFindCharAvx2 = scanFindCharScalar) ∧
      scanIsTokenSse42 = scanIsToken ∧ scanIsTokenAvx2 = scanIsToken := by
  refine ⟨⟨?_, ?_⟩, rfl, funext scanIsTokenAvx2_eq⟩
  · funext buf delims
    rw [scanFindCharSse42_eq h, scanFindCharScalar_eq]
  · funext buf delims
    rw [scanFindCharAvx2_eq, scanFindCharScalar_eq]

end Backends

/-- Whatever backend is selected finds the first byte of the delimiter set, and tells tokens by
their characters; and all the backends agree, selected or not. -/
theorem scanner_backends_agree (cmpestri : Cmpestri) (h : EqualAny cmpestri) (build : ScannerBuild)
    (simdLevel : Int32) :
    (∀ buf delims, (scannerSelectVtable build cmpestri simdLevel).findChar buf delims =
      buf.findIdx (fun c => (cString delims).contains c)) ∧
    (∀ buf, (scannerSelectVtable build cmpestri simdLevel).isToken buf = true ↔
      ∀ c ∈ buf, isTchar c = true) ∧
    scannerSelectVtable build cmpestri simdLevel = ⟨scanFindCharScalar, scanIsToken⟩ ∧
    (scanFindCharSse42 cmpestri = scanFindCharScalar ∧ scanFindCharAvx2 = scanFindCharScalar) ∧
    scanIsTokenSse42 = scanIsToken ∧ scanIsTokenAvx2 = scanIsToken := by
  obtain ⟨⟨hsse, havx⟩, htokenSse, htoken⟩ := backends_eq_scalar h
  have hscalar : scannerSelectVtable build cmpestri simdLevel = ⟨scanFindCharScalar, scanIsToken⟩ := by
    unfold scannerSelectVtable
    rw [havx, hsse, htoken, htokenSse, ite_self, ite_self]
  rw [hscalar]
  exact ⟨scanFindCharScalar_eq, fun buf => scanIsToken_iff, rfl, ⟨hsse, havx⟩, htokenSse, htoken⟩

/-- The comparison as the instruction makes it: every byte of the haystack against the counted bytes
of the needle, and the first that matches. -/
def cmpestriEqualAny : Cmpestri := fun needle needleLen haystack haystackLen =>
  (((List.range haystackLen).find? fun j =>
    (needle.take needleLen).any (fun d => haystack.getD j 0 == d))).getD 16

lemma find?_range_getD (f : UInt8 → Bool) (haystack : Bytes) :
    ((List.range haystack.length).find? fun j => f (haystack.getD j 0)).getD haystack.length =
      haystack.findIdx f := by
  cases hfind : (List.range haystack.length).find? fun j => f (haystack.getD j 0) with
  | none =>
    rw [List.find?_range_eq_none] at hfind
    refine (List.findIdx_eq_length.mpr fun c hc => ?_).symm
    obtain ⟨j, hj, rfl⟩ := List.getElem_of_mem hc
    have hno := hfind j hj
    rwa [List.getD_eq_getElem _ _ hj, Bool.not_eq_true'] at hno
  | some i =>
    obtain ⟨hi, hlt, hbefore⟩ := List.find?_range_eq_some.mp hfind
    have hi' : i < haystack.length := List.mem_range.mp hlt
    rw [List.getD_eq_getElem _ _ hi'] at hi
    refine ((List.findIdx_eq hi').mpr ⟨hi, fun j hj => ?_⟩).symm
    have hno := hbefore j hj
    rwa [List.getD_eq_getElem _ _ (hj.trans hi'), Bool.not_eq_true'] at hno

lemma equalAny_cmpestri : EqualAny cmpestriEqualAny := by
  intro needle needleLen haystack _ _ hlen
  unfold cmpestriEqualAny
  rw [← hlen, find?_range_getD (fun c => (needle.take needleLen).any (fun d => c == d))]
  congr 1
  funext c
  exact (List.contains_eq_any_beq).symm

/-- A delimiter behind the first block of 16 bytes, with the SSE4.2 backend selected. -/
theorem scanner_backends_agree_colon :
    EqualAny cmpestriEqualAny ∧
    (scannerSelectVtable ⟨true, true⟩ cmpestriEqualAny 0x01).findChar
      (ascii "Content-Disposition: inline") (ascii " :" ++ [0]) = 19 := by
  refine ⟨equalAny_cmpestri, ?_⟩
  rw [(scanner_backends_agree cmpestriEqualAny equalAny_cmpestri ⟨true, true⟩ 0x01).1]
  decide

end IoHttpParser
