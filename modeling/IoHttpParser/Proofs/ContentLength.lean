import IoHttpParser.Model.ContentLength
import IoHttpParser.Proofs.FieldLists
import IoHttpParser.Proofs.Pointers

/-!
# Content-Length is exact

The guard of the digit loop lets through the prefixes that fit in 64 bits and no others. So no
product and no sum of the loop wraps around, and the loop finds the number that the digits denote.
-/

namespace IoHttpParser
open Words

lemma decimalValue_eq_ofDigits (value : Bytes) :
    decimalValue value = Nat.ofDigits 10 (digitsOf value) := by
  rw [digitsOf, List.map_reverse, ← foldl_mul_add, List.foldl_map]
  rfl

namespace Pointer
open Region

variable {mem : Bytes} {value : Nat}

lemma mul_add_of_guard {result digit : Nat} (hd : digit ≤ uint64Max)
    (hguard : ¬result > (uint64Max - digit) / 10) :
    (mul uint64Max result 10).bind (fun scaled => add uint64Max scaled digit) =
      some (u64 (u64 (result * 10) + digit)) := by
  have hfits : result * 10 + digit ≤ uint64Max := le_of_guard (by decide) hd hguard
  have hscaled : result * 10 ≤ uint64Max := by omega
  have hlt : result * 10 + digit < 2 ^ 64 := Nat.lt_of_le_of_lt hfits (by decide)
  rw [mul_of_le hscaled, Option.bind_some, add_of_le hfits, u64_add_of_lt hlt]

/-- The loop neither faults nor wraps around on a region of the buffer. -/
lemma contentLengthLoop_eq {i left result : Nat} (h : value + i + left ≤ mem.length) :
    contentLengthLoop mem value i left result =
      some (IoHttpParser.contentLengthLoop result (slice mem (value + i) left)) := by
  induction left generalizing i result with
  | zero => rfl
  | succ left ih =>
    obtain ⟨c, hc⟩ := exists_load (show value + i < mem.length by omega)
    rw [slice_succ hc, contentLengthLoop, hc, bind_some, IoHttpParser.contentLengthLoop]
    cases hd : isDigit c with
    | false => rfl
    | true =>
      have hrange := isDigit_iff.mp hd
      have hroom : c.toNat - 0x30 ≤ uint64Max := by
        unfold uint64Max
        omega
      simp only [Bool.not_true, Bool.false_eq_true, if_false]
      rw [sub_of_le hrange.1, bind_some, sub_of_le hroom, bind_some]
      by_cases hbig : result > (uint64Max - (c.toNat - 0x30)) / 10
      · rw [if_pos hbig, if_pos hbig]
      · have hstep := mul_add_of_guard hroom hbig
        obtain ⟨scaled, hmul, hadd⟩ := Option.bind_eq_some_iff.mp hstep
        rw [if_neg hbig, if_neg hbig, hmul, bind_some, hadd, bind_some, ih (by omega), Nat.add_assoc]

lemma parseContentLength_eq {len : Nat} (h : value + len ≤ mem.length) :
    parseContentLength mem value len = some (IoHttpParser.parseContentLength (slice mem value len)) := by
  unfold parseContentLength IoHttpParser.parseContentLength
  rw [length_slice h, contentLengthLoop_eq (i := 0) h]
  split <;> rfl

end Pointer

/-- Content-Length is exact up to the 64-bit limit: a value is accepted with `n` exactly when it is
digits that denote `n`, which fits in 64 bits. Wherever the value lies in memory, nothing wraps
around on the way and nothing else is read. -/
theorem content_length_exact (value : Bytes) :
    (∀ n, parseContentLength value = some n ↔
      value ≠ [] ∧ (∀ c ∈ value, 0x30 ≤ c.toNat ∧ c.toNat ≤ 0x39) ∧
        n = Nat.ofDigits 10 (digitsOf value) ∧ n ≤ 2 ^ 64 - 1) ∧
    ∀ pre post, Pointer.parseContentLength (pre ++ value ++ post) pre.length value.length =
      some (parseContentLength value) := by
  refine ⟨fun n => ?_, fun pre post => ?_⟩
  · rw [parseContentLength_iff, ← decimalValue_eq_ofDigits]
    constructor
    · rintro ⟨h, rfl⟩
      exact ⟨h.nonempty, h.digits, rfl, h.bounded⟩
    · rintro ⟨hne, hdigits, rfl, hle⟩
      exact ⟨⟨hne, hdigits, hle⟩, rfl⟩
  · have hin : pre.length + value.length ≤ (pre ++ value ++ post).length := by
      rw [List.length_append, List.length_append]
      omega
    rw [Pointer.parseContentLength_eq hin, Region.slice_append]

/-- The largest length, behind leading zeros, and the first one that does not fit. -/
example : parseContentLength (ascii "00018446744073709551615") = some (2 ^ 64 - 1) ∧
    parseContentLength (ascii "18446744073709551616") = none := by
  decide

end IoHttpParser
