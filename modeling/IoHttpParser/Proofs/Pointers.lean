import IoHttpParser.Model.Pointers
import IoHttpParser.Proofs.MessageReader

/-!
# The pointers stay in the buffer

No line reader faults on a region of the buffer, and what it computes is what the reader of
suffixes computes on the bytes of that region.
-/

namespace IoHttpParser
namespace Pointer
open Region Incremental Lanes

lemma bind_some {α β : Type} (a : α) (f : α → Option β) : (some a >>= f) = f a := rfl

section Scan

variable {mem : Bytes} {buf len : Nat} {policy : Policy}

lemma memchr_eq (c : UInt8) (h : buf + len ≤ mem.length) :
    memchr c mem buf len = some ((Memory.memchr c (slice mem buf len)).map (buf + ·)) := by
  unfold memchr
  rw [region_of_le h]
  rfl

lemma memrchr_eq (c : UInt8) (h : buf + len ≤ mem.length) :
    memrchr c mem buf len = some ((Memory.memrchr c (slice mem buf len)).map (buf + ·)) := by
  unfold memrchr
  rw [region_of_le h]
  rfl

lemma memchr_lt {c : UInt8} {xs : Bytes} {i : Nat} (h : Memory.memchr c xs = some i) :
    i < xs.length :=
  (List.idxOf?_eq_some_iff.mp h).1

lemma memrchr_lt {c : UInt8} {xs : Bytes} {i : Nat} (h : Memory.memrchr c xs = some i) :
    i < xs.length := by
  obtain ⟨j, hj, rfl⟩ := Option.map_eq_some_iff.mp h
  have hlt := memchr_lt hj
  rw [List.length_reverse] at hlt
  omega

lemma methodFromStr_eq (h : buf + len ≤ mem.length) :
    methodFromStr mem buf len = some (IoHttpParser.methodFromStr (slice mem buf len)) := by
  unfold methodFromStr
  rw [region_of_le h]
  rfl

lemma findLineEnd_eq (h : buf + len ≤ mem.length) :
    findLineEnd mem buf len policy =
      some ((IoHttpParser.findLineEnd (slice mem buf len) policy).map (fun r => (buf + r.1, r.2))) := by
  unfold findLineEnd IoHttpParser.findLineEnd
  rw [memchr_eq lf h, bind_some]
  cases hm : Memory.memchr lf (slice mem buf len) with
  | none => rfl
  | some i =>
    have hi := memchr_lt hm
    rw [length_slice h] at hi
    dsimp only [Option.map_some]
    cases i with
    | zero =>
      rw [if_neg (by omega)]
      cases policy.rejectBareLf <;> rfl
    | succ j =>
      obtain ⟨c, hc⟩ := exists_load (show buf + j < mem.length by omega)
      have hget : (slice mem buf len)[j]? = some c := by rw [getElem?_slice (by omega), hc]
      rw [if_pos (by omega), ← Nat.add_assoc, sub_of_le (by omega), Nat.add_sub_cancel, bind_some, hc,
        bind_some, Nat.add_sub_cancel, hget]
      by_cases hcr : c = cr
      · rw [hcr]
        rfl
      · have hne : (c == cr) = false := beq_eq_false_iff_ne.mpr hcr
        rw [Option.some_beq_some, hne, Bool.and_false]
        cases policy.rejectBareLf <;> rfl

lemma findHeaderNameColon_eq (h : buf + len ≤ mem.length) :
    findHeaderNameColon mem buf len =
      some (IoHttpParser.findHeaderNameColon (slice mem buf len)) := by
  unfold findHeaderNameColon IoHttpParser.findHeaderNameColon
  rw [memchr_eq colon h, bind_some]
  cases hm : Memory.memchr colon (slice mem buf len) with
  | none => rfl
  | some i =>
    have hi := memchr_lt hm
    rw [length_slice h] at hi
    dsimp only [Option.map_some]
    rw [add_sub, bind_some, allAt_eq (by omega), take_slice (by omega), bind_some]
    split
    · rfl
    · split <;> rfl

lemma findMethodSpaceFrom_eq {i : Nat} (h : buf + i + len ≤ mem.length) :
    findMethodSpaceFrom mem buf i len =
      some (IoHttpParser.findMethodSpaceFrom i (slice mem (buf + i) len)) := by
  induction len generalizing i with
  | zero => rfl
  | succ len ih =>
    obtain ⟨c, hc⟩ := exists_load (show buf + i < mem.length by omega)
    rw [slice_succ hc]
    unfold findMethodSpaceFrom IoHttpParser.findMethodSpaceFrom
    rw [hc, bind_some, Nat.add_assoc, ih (by omega)]
    split
    · split <;> rfl
    · split <;> rfl

lemma findMethodSpace_eq (h : buf + len ≤ mem.length) :
    findMethodSpace mem buf len = some (IoHttpParser.findMethodSpace (slice mem buf len)) :=
  findMethodSpaceFrom_eq (i := 0) h

lemma findLastCharOffset_eq (ch : UInt8) (h : buf + len ≤ mem.length) :
    findLastCharOffset mem buf len ch =
      some (IoHttpParser.findLastCharOffset (slice mem buf len) ch) := by
  unfold findLastCharOffset IoHttpParser.findLastCharOffset
  rw [memrchr_eq ch h, bind_some]
  cases Memory.memrchr ch (slice mem buf len) with
  | none => rfl
  | some i =>
    dsimp only [Option.map_some]
    rw [add_sub]
    rfl

end Scan

section Words

variable {mem : Bytes} {buf len : Nat}

lemma loadWord_eq (h : buf + 8 ≤ mem.length) :
    loadWord mem buf = some (load64 (slice mem buf 8)) := by
  unfold loadWord
  rw [region_of_le h]
  rfl

/-- The skipping loop ends inside its region, in front of what the loop over suffixes leaves. -/
lemma skipWords_eq {guard stride endp : Nat} {stop : Bytes → Bool} {stopAt : Nat → Option Bool}
    (hstride : stride ≤ guard) (hend : endp ≤ mem.length)
    (hstop : ∀ p, p + guard ≤ endp → stopAt p = some (stop (slice mem p (endp - p))))
    (fuel : Nat) {p : Nat} (hp : p ≤ endp) :
    ∃ q, skipWords guard stride stopAt endp fuel p = some q ∧ q ≤ endp ∧
      IoHttpParser.skipWords guard stride stop fuel (slice mem p (endp - p)) =
        slice mem q (endp - q) := by
  induction fuel generalizing p with
  | zero => exact ⟨p, rfl, hp, rfl⟩
  | succ fuel ih =>
    have hlen : (slice mem p (endp - p)).length = endp - p := length_slice (by omega)
    unfold skipWords IoHttpParser.skipWords
    rw [sub_of_le hp, bind_some, hlen]
    by_cases hguard : guard ≤ endp - p
    · rw [if_pos hguard, if_pos hguard, hstop p (by omega), bind_some]
      cases hs : stop (slice mem p (endp - p)) with
      | true => exact ⟨p, rfl, hp, rfl⟩
      | false =>
        obtain ⟨q, hq, hle, hskip⟩ := ih (p := p + stride) (by omega)
        refine ⟨q, hq, hle, ?_⟩
        rw [drop_slice, Nat.sub_sub]
        exact hskip
    · rw [if_neg hguard, if_neg hguard]
      exact ⟨p, rfl, hp, rfl⟩

/-- The stop condition of `request_target_is_valid` on a word. -/
def targetStop (p : Bytes) : Bool :=
  (lowControls (load64 (p.take 8)) 0x21 ||| hasDel (load64 (p.take 8))) != 0

/-- The stop condition of the first loop of `field_text_is_valid`. -/
def pairStop (p : Bytes) : Bool :=
  (lowControls (load64 (p.take 8)) 0x20 ||| hasDel (load64 (p.take 8)) |||
    lowControls (load64 ((p.drop 8).take 8)) 0x20 ||| hasDel (load64 ((p.drop 8).take 8))) != 0

/-- The stop condition of its second loop. -/
def wordStop (p : Bytes) : Bool :=
  (lowControls (load64 (p.take 8)) 0x20 ||| hasDel (load64 (p.take 8))) != 0

lemma requestTargetIsValid_eq (allowSpaces : Bool) (h : buf + len ≤ mem.length) :
    requestTargetIsValid mem buf len allowSpaces =
      some (IoHttpParser.requestTargetIsValid (slice mem buf len) allowSpaces) := by
  have hlen : buf + len - buf = len := Nat.add_sub_cancel_left _ _
  unfold requestTargetIsValid IoHttpParser.requestTargetIsValid
  cases allowSpaces with
  | true =>
    rw [if_neg (by decide), if_neg (by decide), bind_some]
    dsimp only
    rw [add_sub, bind_some, allAt_eq h]
  | false =>
    have hstop (p : Nat) (hp : p + 8 ≤ buf + len) :
        (do
          let chunk ← loadWord mem p
          some ((lowControls chunk 0x21 ||| hasDel chunk) != 0)) =
        some (targetStop (slice mem p (buf + len - p))) := by
      unfold targetStop
      rw [loadWord_eq (by omega), bind_some, take_slice (by omega)]
    obtain ⟨q, hq, hle, hskip⟩ :=
      skipWords_eq (Nat.le_refl 8) h hstop len (Nat.le_add_right buf len)
    rw [hlen] at hskip
    rw [if_pos (by decide), if_pos (by decide), hq, bind_some]
    dsimp only
    rw [sub_of_le hle, bind_some, allAt_eq (by omega), length_slice h, ← hskip]
    rfl

lemma fieldTextIsValid_eq (h : buf + len ≤ mem.length) :
    fieldTextIsValid mem buf len = some (IoHttpParser.fieldTextIsValid (slice mem buf len)) := by
  have hpair (p : Nat) (hp : p + 32 ≤ buf + len) :
      (do
        let chunkA ← loadWord mem p
        let chunkB ← loadWord mem (p + 8)
        some ((lowControls chunkA 0x20 ||| hasDel chunkA ||| lowControls chunkB 0x20 |||
          hasDel chunkB) != 0)) =
      some (pairStop (slice mem p (buf + len - p))) := by
    unfold pairStop
    rw [loadWord_eq (by omega), bind_some, loadWord_eq (by omega), bind_some, take_slice (by omega),
      take_drop_slice (by omega)]
  have hword (p : Nat) (hp : p + 8 ≤ buf + len) :
      (do
        let chunk ← loadWord mem p
        some ((lowControls chunk 0x20 ||| hasDel chunk) != 0)) =
      some (wordStop (slice mem p (buf + len - p))) := by
    unfold wordStop
    rw [loadWord_eq (by omega), bind_some, take_slice (by omega)]
  obtain ⟨q, hq, hqle, hskip⟩ :=
    skipWords_eq (by decide : 16 ≤ 32) h hpair len (Nat.le_add_right buf len)
  obtain ⟨r, hr, hrle, hskip'⟩ := skipWords_eq (Nat.le_refl 8) h hword (buf + len - q) hqle
  have hlen : (slice mem q (buf + len - q)).length = buf + len - q := length_slice (by omega)
  have hlist (xs : Bytes) : IoHttpParser.fieldTextIsValid xs =
      (IoHttpParser.skipWords 8 8 wordStop
        (IoHttpParser.skipWords 32 16 pairStop xs.length xs).length
        (IoHttpParser.skipWords 32 16 pairStop xs.length xs)).all
          (fun c => c == htab || !(c < 0x20 || c == 0x7f)) := rfl
  rw [Nat.add_sub_cancel_left] at hskip
  rw [hlist, length_slice h, hskip, hlen, hskip']
  unfold fieldTextIsValid
  dsimp only
  rw [hq, bind_some, sub_of_le hqle, bind_some, hr, bind_some, sub_of_le hrle, bind_some,
    allAt_eq (by omega)]

/-- A request target may hold SP where the policy allows it: then every byte is SP or above. -/
lemma targetByte_or_sp (c : UInt8) :
    isTargetByte c = true ∨ c = sp ↔ (0x20 ≤ c && c != 0x7f) = true := by
  rw [isTargetByte, Bool.and_eq_true, Bool.and_eq_true, decide_eq_true_eq, decide_eq_true_eq]
  constructor
  · rintro (⟨hlt, hdel⟩ | rfl)
    · exact ⟨UInt8.le_of_lt hlt, hdel⟩
    · decide
  · rintro ⟨hle, hdel⟩
    by_cases heq : c = sp
    · exact .inr heq
    · exact .inl ⟨UInt8.lt_of_le_of_ne hle (Ne.symm heq), hdel⟩

/-- The validators that read words are their tests of single bytes, on every string, and read
nothing but the string. -/
theorem validators_exact (s : Bytes) :
    TestsItems (fun mem buf len => requestTargetIsValid mem buf len false)
      (fun c => 0x20 < c && c != 0x7f) s ∧
    TestsItems (fun mem buf len => requestTargetIsValid mem buf len true)
      (fun c => 0x20 ≤ c && c != 0x7f) s ∧
    TestsItems fieldTextIsValid (fun c => c == htab || (0x20 ≤ c && c != 0x7f)) s := by
  refine ⟨.of_region (fun h => ?_) s, .of_region (fun h => ?_) s, .of_region (fun h => ?_) s⟩
  · rw [requestTargetIsValid_eq false h, Option.some_inj, Bool.eq_iff_iff, List.all_eq_true,
      requestTargetIsValid_iff]
    refine forall₂_congr fun c _ => ⟨?_, .inl⟩
    rintro (hc | ⟨hfalse, -⟩)
    · exact hc
    · cases hfalse
  · rw [requestTargetIsValid_eq true h, Option.some_inj, Bool.eq_iff_iff, List.all_eq_true,
      requestTargetIsValid_iff]
    refine forall₂_congr fun c _ => ?_
    rw [← targetByte_or_sp, eq_self_iff_true, true_and]
  · rw [fieldTextIsValid_eq h, Option.some_inj, Bool.eq_iff_iff, List.all_eq_true,
      fieldTextIsValid_iff]
    rfl

lemma trimAndValidateFieldValue_eq (h : buf + len ≤ mem.length) :
    trimAndValidateFieldValue mem buf len =
      some ((IoHttpParser.trimAndValidateFieldValue (slice mem buf len)).map
        (fun r => (buf + r.1, r.2))) := by
  have hfirst : ((slice mem buf len).takeWhile isLws).length ≤ len := by
    have hle := (List.takeWhile_prefix isLws (l := slice mem buf len)).length_le
    rwa [length_slice h] at hle
  unfold trimAndValidateFieldValue IoHttpParser.trimAndValidateFieldValue
  rw [leadWhile_eq h, bind_some]
  generalize ((slice mem buf len).takeWhile isLws).length = first at hfirst
  have hlast : ((slice mem (buf + first) (len - first)).rdropWhile isLws).length ≤ len - first := by
    have hle := (List.rdropWhile_prefix isLws (l := slice mem (buf + first) (len - first))).length_le
    rwa [length_slice (by omega)] at hle
  rw [sub_of_le hfirst, bind_some, trailWhile_eq (by omega), bind_some, length_slice h]
  dsimp only
  rw [drop_slice]
  generalize ((slice mem (buf + first) (len - first)).rdropWhile isLws).length = kept at hlast
  rw [add_sub, bind_some, fieldTextIsValid_eq (by omega), bind_some, Nat.add_sub_cancel_left,
    take_slice hlast]
  split
  · rfl
  · split <;> rfl

end Words

section StartLine

variable {mem : Bytes} {buf len : Nat} {policy : Policy}

lemma findLineEnd_bound {n k : Nat}
    (h : IoHttpParser.findLineEnd (slice mem buf len) policy = .ok (n, k))
    (hlen : buf + len ≤ mem.length) : n + k ≤ len := by
  obtain ⟨line, e, tail, hbuf, -, rfl, rfl⟩ := exists_of_findLineEnd h
  have hl := congrArg List.length hbuf
  rw [length_slice hlen, List.length_append, List.length_append] at hl
  omega

lemma exists_byte {i : Nat} (hi : i < len) (hlen : buf + len ≤ mem.length) :
    ∃ c, load mem (buf + i) = some c ∧ (slice mem buf len)[i]? = some c := by
  obtain ⟨c, hc⟩ := exists_load (show buf + i < mem.length by omega)
  exact ⟨c, hc, by rw [getElem?_slice hi, hc]⟩

lemma ite_eq_some {α : Type} {c : Prop} [Decidable c] {a b : α} {t : Option α}
    (h : ¬c → t = some b) : (if c then some a else t) = some (if c then a else b) := by
  by_cases hc : c
  · rw [if_pos hc, if_pos hc]
  · rw [if_neg hc, if_neg hc, h hc]

lemma ite_or_eq_some {α : Type} {a b c : Bool} {x y : α} {t : Option α}
    (h : (a || b || c) = false → t = some y) :
    (if a = true then some x else if b = true then some x else if c = true then some x else t) =
      some (if (a || b || c) = true then x else y) := by
  cases a with
  | true => rfl
  | false =>
    cases b with
    | true => rfl
    | false =>
      cases c with
      | true => rfl
      | false => exact h rfl

lemma parseStatusLine_eq (resp : Response Span) (h : buf + len ≤ mem.length) :
    parseStatusLine mem buf len resp policy =
      some (IoHttpParser.parseStatusLine buf (slice mem buf len) resp policy) := by
  unfold parseStatusLine IoHttpParser.parseStatusLine
  rw [findLineEnd_eq h, bind_some]
  cases hf : IoHttpParser.findLineEnd (slice mem buf len) policy with
  | error status => rfl
  | ok r =>
    obtain ⟨n, k⟩ := r
    have hbound := findLineEnd_bound hf h
    dsimp only [Except.map]
    rw [add_sub, bind_some]
    by_cases hshort : n < 13
    · rw [if_pos hshort, if_pos (by simp [hshort])]
    · obtain ⟨b7, hb7, hs7⟩ := exists_byte (i := 7) (by omega) h
      obtain ⟨b8, hb8, hs8⟩ := exists_byte (i := 8) (by omega) h
      obtain ⟨b9, hb9, hs9⟩ := exists_byte (i := 9) (by omega) h
      obtain ⟨b10, hb10, hs10⟩ := exists_byte (i := 10) (by omega) h
      obtain ⟨b11, hb11, hs11⟩ := exists_byte (i := 11) (by omega) h
      obtain ⟨b12, hb12, hs12⟩ := exists_byte (i := 12) (by omega) h
      rw [if_neg hshort, region_of_le (by omega), bind_some, decide_eq_false hshort, Bool.false_or]
      simp only [hb7, hb8, hb9, hb10, hb11, hb12, bind_some, hs7, hs8, hs9, hs10, hs11, hs12,
        List.getD_eq_getElem?_getD, Option.getD_some, take_slice (show 7 ≤ len by omega)]
      refine ite_eq_some fun _ => ?_
      cases versionOfByte (some b7) with
      | none => rfl
      | some version =>
        dsimp only
        refine ite_eq_some fun _ => ?_
        refine ite_or_eq_some fun _ => ?_
        refine ite_eq_some fun _ => ?_
        refine ite_eq_some fun _ => ?_
        by_cases hreason : n > 13
        · rw [if_pos hreason, sub_of_le (by omega), bind_some, Nat.add_sub_add_left,
            fieldTextIsValid_eq (by omega), bind_some, take_drop_slice (by omega),
            decide_eq_true hreason, Bool.true_and]
          cases IoHttpParser.fieldTextIsValid (slice mem (buf + 13) (n - 13)) <;> rfl
        · have hzero : n - 13 = 0 := by omega
          rw [if_neg hreason, decide_eq_false hreason, Bool.false_and, hzero]
          rfl

lemma parseRequestLine_eq (req : Request Span) (h : buf + len ≤ mem.length) :
    parseRequestLine mem buf len req policy =
      some (IoHttpParser.parseRequestLine buf (slice mem buf len) req policy) := by
  unfold parseRequestLine IoHttpParser.parseRequestLine
  rw [findLineEnd_eq h, bind_some, length_slice h]
  cases hf : IoHttpParser.findLineEnd (slice mem buf len) policy with
  | error status =>
    cases status with
    | incomplete =>
      dsimp only [Except.map]
      split <;> rfl
    | ok | error | errorTooLong | errorTooManyHeaders => rfl
  | ok r =>
    obtain ⟨n, k⟩ := r
    have hbound := findLineEnd_bound hf h
    dsimp only [Except.map]
    rw [add_sub, bind_some]
    refine ite_eq_some fun _ => ?_
    rw [findMethodSpace_eq (by omega), bind_some, take_slice (by omega)]
    cases hsp1 : IoHttpParser.findMethodSpace (slice mem buf n) with
    | none => rfl
    | some sp1 =>
      have hsp1n := findMethodSpace_lt hsp1
      rw [length_slice (by omega)] at hsp1n
      dsimp only
      rw [methodFromStr_eq (by omega), bind_some, sub_of_le (by omega), bind_some, sub_of_le (by omega),
        bind_some, findLastCharOffset_eq sp (by omega), bind_some, take_slice (by omega),
        take_drop_slice (by omega)]
      cases hsp2 : IoHttpParser.findLastCharOffset (slice mem (buf + (sp1 + 1)) (n - sp1 - 1)) sp with
      | none => rfl
      | some sp2 =>
        have hsp2n : sp1 + 1 + sp2 < n := by
          have hlt := memrchr_lt hsp2
          rw [length_slice (by omega)] at hlt
          omega
        dsimp only
        refine ite_eq_some fun _ => ?_
        rw [requestTargetIsValid_eq _ (by omega), bind_some, take_drop_slice (by omega)]
        refine ite_eq_some fun _ => ?_
        have hver : buf + n - (buf + sp1 + 1 + sp2 + 1) = n - (sp1 + 1 + sp2 + 1) := by omega
        rw [sub_of_le (by omega), bind_some, hver]
        by_cases hlen8 : n - (sp1 + 1 + sp2 + 1) = 8
        · obtain ⟨b7, hb7, hs7⟩ := exists_byte (i := sp1 + 1 + sp2 + 1 + 7) (by omega) h
          have hpos : buf + sp1 + 1 + sp2 + 1 = buf + (sp1 + 1 + sp2 + 1) := by omega
          rw [hlen8, if_neg (by decide), bne_self_eq_false, Bool.false_or, hpos,
            region_of_le (by omega), bind_some, take_drop_slice (by omega),
            Nat.add_assoc buf (sp1 + 1 + sp2 + 1) 7, hb7, bind_some, hs7]
          refine ite_eq_some fun _ => ?_
          cases versionOfByte (some b7) <;> rfl
        · have hne : (n - (sp1 + 1 + sp2 + 1) != 8) = true := bne_iff_ne.mpr hlen8
          rw [hne, if_pos rfl, Bool.true_or, if_pos rfl]
          rfl

end StartLine

section HeaderBlock

variable {mem : Bytes} {buf len maxHeaders : Nat} {policy : Policy} {headers : List (Header Span)}

/-- The last header that was counted, if there is one, has a value that starts no later than `p`. -/
def LastStarts (headers : List (Header Span)) (p : Nat) : Prop :=
  ∀ h, headers.getLast? = some h → h.value.start ≤ p

lemma headerStep_eq {pos : Nat} (h : buf + len ≤ mem.length) (hpos : pos ≤ len)
    (hlast : LastStarts headers (buf + pos)) :
    headerStep mem maxHeaders policy buf len pos headers =
      some (IoHttpParser.headerStep maxHeaders policy (buf + pos) headers
        (slice mem (buf + pos) (len - pos))) := by
  unfold headerStep
  by_cases hlt : pos < len
  · obtain ⟨c, hc⟩ := exists_load (show buf + pos < mem.length by omega)
    have hcons : slice mem (buf + pos) (len - pos) =
        c :: slice mem (buf + pos + 1) (len - pos - 1) := by
      rw [← slice_succ hc]
      congr 1
      omega
    rw [if_pos hlt, hc, bind_some, IoHttpParser.headerStep.eq_def, hcons]
    dsimp only
    rw [← hcons]
    refine ite_eq_some fun _ => ?_
    rw [sub_of_le hpos, bind_some, findLineEnd_eq (by omega), bind_some, length_slice (by omega)]
    cases hf : IoHttpParser.findLineEnd (slice mem (buf + pos) (len - pos)) policy with
    | error status =>
      cases status with
      | incomplete =>
        dsimp only [Except.map]
        split <;> rfl
      | ok | error | errorTooLong | errorTooManyHeaders => rfl
    | ok r =>
      obtain ⟨n, k⟩ := r
      have hbound := findLineEnd_bound hf (by omega)
      dsimp only [Except.map]
      rw [add_sub, bind_some]
      refine ite_eq_some fun _ => ?_
      refine ite_eq_some fun _ => ?_
      by_cases hlws : isLws c = true
      · rw [if_pos hlws, if_pos hlws]
        cases hl : headers.getLast? with
        | none =>
          obtain rfl := List.getLast?_eq_none_iff.mp hl
          rfl
        | some last =>
          have hstart := hlast last hl
          obtain ⟨init, rfl⟩ := List.getLast?_eq_some_iff.mp hl
          have hset (x : Header Span) : (init ++ [last]).set init.length x = init ++ [x] := by
            rw [List.set_append_right _ _ (Nat.le_refl _), Nat.sub_self]
            rfl
          have hcount : (init ++ [last]).length = init.length + 1 := List.length_append
          dsimp only
          rw [hcount, if_neg (by simp), fieldTextIsValid_eq (by omega), bind_some,
            take_slice (by omega)]
          refine ite_eq_some fun _ => ?_
          rw [sub_of_le (by omega), bind_some, Nat.add_sub_cancel, List.getElem?_concat_length,
            bind_some, sub_of_le (by omega), bind_some, hset, List.dropLast_concat]
      · rw [if_neg hlws, if_neg hlws, findHeaderNameColon_eq (by omega), bind_some,
          take_slice (by omega)]
        cases hcolon : IoHttpParser.findHeaderNameColon (slice mem (buf + pos) n) with
        | none => rfl
        | some colonOffset =>
          dsimp only
          refine ite_eq_some fun _ => ?_
          have hoffset := findHeaderNameColon_lt hcolon
          rw [length_slice (by omega)] at hoffset
          have hval : buf + pos + n - (buf + pos + colonOffset + 1) = n - (colonOffset + 1) := by omega
          rw [sub_of_le (by omega), bind_some, hval, trimAndValidateFieldValue_eq (by omega), bind_some,
            take_drop_slice (by omega)]
          cases IoHttpParser.trimAndValidateFieldValue
            (slice mem (buf + pos + (colonOffset + 1)) (n - (colonOffset + 1))) with
          | none => rfl
          | some r => rfl
  · have hnil : len - pos = 0 := by omega
    rw [if_neg hlt, hnil]
    rfl

/-- An accepted line keeps the last value behind the position it ends at. -/
lemma LastStarts.advance {hs : List (Header Span)} {base n : Nat} {rest : Bytes}
    (hlast : LastStarts headers base)
    (h : IoHttpParser.headerStep maxHeaders policy base headers rest = .advance n hs) :
    LastStarts hs (base + n) := by
  obtain ⟨line, e, tail, -, -, -, hn, hline, -⟩ := exists_of_headerStep_advance h
  obtain ⟨-, -, hkind⟩ := lineDecision_advance hline
  intro last hl
  cases hkind with
  | inl hfield =>
    obtain ⟨f, rfl, -, rfl⟩ := hfield
    rw [List.getLast?_concat] at hl
    obtain rfl := Option.some.inj hl
    have := f.value_end base
    omega
  | inr hfold =>
    obtain ⟨f, -, -, old, hold, rfl⟩ := hfold
    rw [List.getLast?_concat] at hl
    obtain rfl := Option.some.inj hl
    exact (hlast old hold).trans (Nat.le_add_right _ _)

lemma headerLoop_eq {count : Nat} (h : buf + len ≤ mem.length) (fuel : Nat) {pos : Nat}
    (hpos : pos ≤ len) (hlast : LastStarts headers (buf + pos)) :
    headerLoop mem maxHeaders policy buf len count fuel pos headers =
      some (IoHttpParser.headerLoop maxHeaders policy buf count fuel pos headers
        (slice mem (buf + pos) (len - pos))) := by
  induction fuel generalizing pos headers with
  | zero => rfl
  | succ fuel ih =>
    unfold headerLoop IoHttpParser.headerLoop
    rw [headerStep_eq h hpos hlast, bind_some]
    cases hd : IoHttpParser.headerStep maxHeaders policy (buf + pos) headers
        (slice mem (buf + pos) (len - pos)) with
    | more => rfl
    | fail status => rfl
    | finish n hs => rfl
    | advance n hs =>
      obtain ⟨-, hn⟩ := headerStep_advance_le hd
      rw [length_slice (by omega)] at hn
      have hnext := hlast.advance hd
      rw [Nat.add_assoc] at hnext
      dsimp only
      rw [ih (by omega) hnext, drop_slice, Nat.add_assoc, Nat.sub_sub]

lemma parseHeaderBlock_eq (h : buf + len ≤ mem.length) (hlast : LastStarts headers buf) :
    parseHeaderBlock mem buf len headers maxHeaders policy =
      some (IoHttpParser.parseHeaderBlock buf (slice mem buf len) headers maxHeaders policy) := by
  unfold parseHeaderBlock IoHttpParser.parseHeaderBlock
  rw [headerLoop_eq h (len + 1) (Nat.zero_le len) hlast, length_slice h]
  rfl

end HeaderBlock

end Pointer
end IoHttpParser
