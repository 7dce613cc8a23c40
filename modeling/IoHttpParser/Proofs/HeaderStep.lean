import IoHttpParser.Proofs.Text

/-!
# One line at a time

What `find_line_end` and one iteration of `parse_header_block` decide, by the shape of the
unread input: a line that is not terminated yet, a line ended by CRLF, or a line ended by a
bare LF.
-/

namespace IoHttpParser
open Memory Incremental

/-- The three shapes of an unread input. -/
inductive LineView : Bytes → Prop where
  | unterminated {buf : Bytes} (h : lf ∉ buf) : LineView buf
  | crlf (line tail : Bytes) (h : lf ∉ line) : LineView (line ++ cr :: lf :: tail)
  | bareLf (line tail : Bytes) (h : lf ∉ line) (hcr : line.getLast? ≠ some cr) :
      LineView (line ++ lf :: tail)

lemma lineView (buf : Bytes) : LineView buf := by
  by_cases hm : lf ∈ buf
  · obtain ⟨line, tail, rfl, hl⟩ := List.eq_append_cons_of_mem hm
    by_cases hcr : line.getLast? = some cr
    · obtain ⟨init, rfl⟩ := List.getLast?_eq_some_iff.mp hcr
      rw [List.append_assoc]
      exact .crlf init tail (fun h => hl (List.mem_append_left _ h))
    · exact .bareLf line tail hl hcr
  · exact .unterminated hm

section LineEnd

variable {line tail buf : Bytes} {policy : Policy}

lemma findLineEnd_unterminated (h : lf ∉ buf) : findLineEnd buf policy = .error .incomplete := by
  rw [findLineEnd, memchr_eq_none.mpr h]

lemma findLineEnd_crlf (h : lf ∉ line) :
    findLineEnd (line ++ cr :: lf :: tail) policy = .ok (line.length, 2) := by
  have hl : lf ∉ line ++ [cr] := by simp [h, show lf ≠ cr by decide]
  have hm := memchr_append_cons hl tail
  rw [List.append_assoc, List.singleton_append, List.length_append, List.length_singleton] at hm
  rw [findLineEnd, hm]
  simp

lemma findLineEnd_bareLf (h : lf ∉ line) (hcr : line.getLast? ≠ some cr) :
    findLineEnd (line ++ lf :: tail) policy =
      if policy.rejectBareLf then .error .error else .ok (line.length, 1) := by
  rw [findLineEnd, memchr_append_cons h]
  dsimp only
  have hcond : (decide (0 < line.length) && (line ++ lf :: tail)[line.length - 1]? == some cr) = false := by
    cases hn : line.length with
    | zero => simp
    | succ n =>
      have hlt : n < line.length := by omega
      rw [List.getLast?_eq_getElem?, hn, Nat.add_sub_cancel] at hcr
      rw [Nat.add_sub_cancel, List.getElem?_append_left hlt, Bool.and_eq_false_iff]
      exact .inr (beq_eq_false_iff_ne.mpr hcr)
  rw [hcond, if_neg (by simp)]

variable (tail) in
/-- Every line ending the policy admits is found, whatever follows it. -/
lemma findLineEnd_ending {e : Bytes} (he : IsLineEnding policy e) (h : lf ∉ line)
    (hcr : cr ∉ line) : findLineEnd (line ++ e ++ tail) policy = .ok (line.length, e.length) := by
  rcases he with rfl | ⟨hp, rfl⟩
  · rw [List.append_assoc]
    exact findLineEnd_crlf h
  · rw [List.append_assoc, List.singleton_append, findLineEnd_bareLf h, hp]
    · rfl
    · intro hl
      exact hcr (List.mem_of_getLast? hl)

end LineEnd

/-! ### Field values -/

lemma trimAndValidateFieldValue_pad {lead value trail : Bytes}
    (hl : ∀ c ∈ lead, isLws c = true) (ht : ∀ c ∈ trail, isLws c = true)
    (hv : ∀ c ∈ value, isFieldByte c = true) (htrim : Trimmed isLws value) :
    trimAndValidateFieldValue (lead ++ value ++ trail) =
      some (if value = [] then (lead ++ value ++ trail).length else lead.length, value.length) := by
  by_cases hn : value = []
  · subst hn
    have hall : (lead ++ [] ++ trail).takeWhile isLws = lead ++ [] ++ trail := by
      rw [List.takeWhile_eq_self_iff]
      intro c hc
      rcases List.mem_append.mp hc with hc | hc
      · exact hl c (by simpa using hc)
      · exact ht c hc
    simp only [trimAndValidateFieldValue, hall, beq_self_eq_true, if_true, List.length_nil]
  · have hd : (value ++ trail).dropWhile isLws = value ++ trail := by
      obtain ⟨x, xs, rfl⟩ := List.exists_cons_of_ne_nil hn
      rw [List.cons_append, List.dropWhile_cons_of_neg (by simp [htrim.head x rfl])]
    have hw : (lead ++ value ++ trail).takeWhile isLws = lead := by
      have hsplit := List.takeWhile_append_dropWhile (p := isLws) (l := lead ++ value ++ trail)
      rw [List.append_assoc, dropWhile_append_of_all hl, hd] at hsplit
      rw [List.append_assoc]
      exact List.append_cancel_right hsplit
    have hdrop : (lead ++ value ++ trail).drop lead.length = value ++ trail := by
      rw [List.append_assoc, List.drop_left]
    have hlen : (lead.length == (lead ++ value ++ trail).length) = false := by
      have hpos : 0 < value.length := List.length_pos_of_ne_nil hn
      rw [beq_eq_false_iff_ne]
      simp only [List.length_append]
      omega
    simp only [trimAndValidateFieldValue, hw, hdrop, hlen, if_neg hn, rdropWhile_append_of_all ht,
      htrim.rdropWhile, Nat.add_sub_cancel_left, List.take_left', fieldTextIsValid_iff.mpr hv]
    rfl

lemma exists_of_trimAndValidateFieldValue {v : Bytes} {r : Nat × Nat}
    (h : trimAndValidateFieldValue v = some r) :
    ∃ lead value trail, v = lead ++ value ++ trail ∧ (∀ c ∈ lead, isLws c = true) ∧
      (∀ c ∈ trail, isLws c = true) ∧ (∀ c ∈ value, isFieldByte c = true) ∧
      Trimmed isLws value := by
  have hlead : v.drop (v.takeWhile isLws).length = v.dropWhile isLws := by
    conv_lhs => rw [← List.takeWhile_append_dropWhile (p := isLws) (l := v), List.drop_append]
    simp
  have hsplit : v = v.takeWhile isLws ++ trim isLws v ++ (v.dropWhile isLws).rtakeWhile isLws := by
    rw [List.append_assoc, trim, List.rdropWhile_append_rtakeWhile,
      List.takeWhile_append_dropWhile]
  refine ⟨_, _, _, hsplit, fun c => List.mem_takeWhile_imp, fun c => List.mem_rtakeWhile_imp, ?_,
    trimmed_trim v⟩
  simp only [trimAndValidateFieldValue, hlead, Nat.add_sub_cancel_left] at h
  have htake : (v.dropWhile isLws).take ((v.dropWhile isLws).rdropWhile isLws).length =
      trim isLws v :=
    (List.prefix_iff_eq_take.mp (List.rdropWhile_prefix isLws _)).symm
  split at h
  · rename_i hall
    have hnil : trim isLws v = [] := by
      rw [trim_eq_nil_iff]
      rw [beq_iff_eq] at hall
      have hs := List.takeWhile_append_dropWhile (p := isLws) (l := v)
      have hd : v.dropWhile isLws = [] := by
        apply List.eq_nil_of_length_eq_zero
        have hl := congrArg List.length hs
        rw [List.length_append] at hl
        omega
      exact List.dropWhile_eq_nil_iff.mp hd
    rw [hnil]
    simp
  · split at h
    · rename_i hvalid
      rw [htake] at hvalid
      exact fieldTextIsValid_iff.mp hvalid
    · cases h

/-! ### Grammar lines hold no line-ending byte -/

lemma FieldLine.notMem (f : FieldLine) : lf ∉ f.line ∧ cr ∉ f.line := by
  have hn := f.name_token.notMem
  have hpad : ∀ c ∈ f.lead ++ f.value ++ f.trail, c ≠ lf ∧ c ≠ cr := by
    intro c hc
    simp only [List.mem_append] at hc
    rcases hc with (hc | hc) | hc
    · exact (isLws_class (f.lead_ows c hc)).2
    · exact isFieldByte_class (f.value_text c hc)
    · exact (isLws_class (f.trail_ows c hc)).2
  constructor
  · intro hm
    rcases List.mem_append.mp hm with hm | hm
    · exact hn.1 hm
    · rcases List.mem_cons.mp hm with hm | hm
      · exact absurd hm (by decide)
      · exact (hpad _ hm).1 rfl
  · intro hm
    rcases List.mem_append.mp hm with hm | hm
    · exact hn.2.1 hm
    · rcases List.mem_cons.mp hm with hm | hm
      · exact absurd hm (by decide)
      · exact (hpad _ hm).2 rfl

lemma FoldLine.notMem (f : FoldLine) : lf ∉ f.line ∧ cr ∉ f.line :=
  ⟨fun hm => (isFieldByte_class (f.text _ hm)).1 rfl,
    fun hm => (isFieldByte_class (f.text _ hm)).2 rfl⟩

lemma FieldLine.ne_nil (f : FieldLine) : f.line ≠ [] := by simp [FieldLine.line]

lemma FoldLine.ne_nil (f : FoldLine) : f.line ≠ [] := by
  obtain ⟨c, rest, h, _⟩ := f.starts
  simp [h]

/-- The line starts with SP or HTAB. -/
def startsLws (line : Bytes) : Bool := line.head?.any isLws

lemma FieldLine.startsLws (f : FieldLine) : startsLws f.line = false := by
  obtain ⟨c, name, hn⟩ := List.exists_cons_of_ne_nil f.name_token.nonempty
  have hc := isTchar_not_lws (f.name_token.chars c (by simp [hn]))
  simp [IoHttpParser.startsLws, FieldLine.line, hn, hc]

lemma FoldLine.startsLws (f : FoldLine) : startsLws f.line = true := by
  obtain ⟨c, rest, h, hc⟩ := f.starts
  simp [IoHttpParser.startsLws, h, hc]

/-! ### Decisions -/

section Decision

variable {cap base : Nat} {policy : Policy} {hs hs' : List (Header Span)}
  {line tail e rest : Bytes}

/-- The header with its value running to the end of a continuation line. -/
def extendHeader (h : Header Span) (lineEnd : Nat) : Header Span :=
  { h with value := ⟨h.value.start, lineEnd - h.value.start⟩ }

/-- What an iteration decides once it has found a line and its ending. -/
def lineDecision (cap : Nat) (policy : Policy) (base : Nat) (hs : List (Header Span))
    (line : Bytes) (lineEndingLen : Nat) : Decision (List (Header Span)) Status :=
  if policy.rejectObsFold && startsLws line then .fail .error else
  if line.length > ihtpMaxHeaderLine then .fail .errorTooLong else
  if line.length == 0 then .finish lineEndingLen hs else
  if startsLws line then
    match hs.getLast? with
    | none => .fail .error
    | some h =>
      if !fieldTextIsValid line then .fail .error
      else .advance (line.length + lineEndingLen)
        (hs.dropLast ++ [extendHeader h (base + line.length)])
  else
    match findHeaderNameColon line with
    | none => .fail .error
    | some n =>
      if hs.length ≥ cap then .fail .errorTooManyHeaders else
      match trimAndValidateFieldValue (line.drop (n + 1)) with
      | none => .fail .error
      | some (first, valLen) =>
        .advance (line.length + lineEndingLen)
          (hs ++ [⟨⟨base, n⟩, ⟨base + (n + 1) + first, valLen⟩⟩])

/-- The first byte of a terminated line is its own or one of its ending. -/
lemma isLws_head {c d : UInt8} (hd : isLws d = false)
    (hc : (line ++ d :: tail).head? = some c) : isLws c = startsLws line := by
  cases line with
  | nil =>
    obtain rfl : d = c := by simpa using hc
    rw [hd]
    rfl
  | cons b line =>
    obtain rfl : b = c := by simpa using hc
    rfl

/-- An iteration that finds a line decides from that line alone. -/
lemma headerStep_of_line {d : UInt8} {k : Nat} (hd : isLws d = false)
    (hfind : findLineEnd (line ++ d :: tail) policy = .ok (line.length, k)) :
    headerStep cap policy base hs (line ++ d :: tail) = lineDecision cap policy base hs line k := by
  obtain ⟨c, rest, hrest⟩ : ∃ c rest, line ++ d :: tail = c :: rest :=
    List.exists_cons_of_ne_nil (by simp)
  have hc := isLws_head (c := c) hd (by rw [hrest]; rfl)
  have htake : (c :: rest).take line.length = line := by rw [← hrest, List.take_left]
  have hval : ∀ n, ((c :: rest).drop n).take (line.length - n) = line.drop n := by
    intro n
    rw [← List.drop_take, htake]
  rw [hrest] at hfind ⊢
  simp only [headerStep, hc, hfind, htake, hval]
  rfl

lemma headerStep_unterminated (h : lf ∉ rest) :
    headerStep cap policy base hs rest =
      if policy.rejectObsFold && startsLws rest then .fail .error
      else if rest.length > ihtpMaxHeaderLine then .fail .errorTooLong else .more := by
  cases rest with
  | nil => simp [headerStep, startsLws]
  | cons c rest =>
    have hc : startsLws (c :: rest) = isLws c := rfl
    simp only [headerStep, findLineEnd_unterminated h, hc]

lemma headerStep_crlf (h : lf ∉ line) :
    headerStep cap policy base hs (line ++ cr :: lf :: tail) =
      lineDecision cap policy base hs line 2 :=
  headerStep_of_line (by decide) (findLineEnd_crlf h)

lemma headerStep_bareLf (h : lf ∉ line) (hcr : line.getLast? ≠ some cr) :
    headerStep cap policy base hs (line ++ lf :: tail) =
      if policy.rejectBareLf then .fail .error else lineDecision cap policy base hs line 1 := by
  cases hp : policy.rejectBareLf with
  | false =>
    rw [if_neg (by simp)]
    refine headerStep_of_line (by decide) ?_
    rw [findLineEnd_bareLf h hcr, hp]
    rfl
  | true =>
    obtain ⟨c, rest, hrest⟩ : ∃ c rest, line ++ lf :: tail = c :: rest :=
      List.exists_cons_of_ne_nil (by simp)
    have hfind : findLineEnd (line ++ lf :: tail) policy = _ := findLineEnd_bareLf h hcr
    rw [hp, if_pos rfl, hrest] at hfind
    rw [hrest, if_pos rfl]
    simp only [headerStep, hfind]
    split <;> rfl

lemma headerStep_ending (he : IsLineEnding policy e) (h : lf ∉ line) (hcr : cr ∉ line) :
    headerStep cap policy base hs (line ++ e ++ tail) =
      lineDecision cap policy base hs line e.length := by
  rcases he with rfl | ⟨hp, rfl⟩
  · rw [List.append_assoc]
    exact headerStep_crlf h
  · have hlast : line.getLast? ≠ some cr := fun hl => hcr (List.mem_of_getLast? hl)
    rw [List.append_assoc, List.singleton_append, headerStep_bareLf h hlast, hp]
    rfl

variable (rest) in
/-- A decision that accepts something was taken on a terminated line, and stands whatever
follows that line. -/
lemma exists_line_of_accept (hm : headerStep cap policy base hs rest ≠ .more)
    (hf : ∀ st, headerStep cap policy base hs rest ≠ .fail st) :
    ∃ line e tail, rest = line ++ e ++ tail ∧ lf ∉ line ∧ IsLineEnding policy e ∧
      ∀ tail', headerStep cap policy base hs (line ++ e ++ tail') =
        lineDecision cap policy base hs line e.length := by
  cases lineView rest with
  | unterminated h =>
    rw [headerStep_unterminated h] at hm hf
    split at hf
    · exact absurd rfl (hf _)
    · split at hf
      · exact absurd rfl (hf _)
      · simp_all
  | crlf line tail h =>
    refine ⟨line, [cr, lf], tail, by simp, h, .inl rfl, fun tail' => ?_⟩
    rw [List.append_assoc]
    exact headerStep_crlf h
  | bareLf line tail h hcr =>
    rw [headerStep_bareLf h hcr] at hf
    cases hp : policy.rejectBareLf with
    | true => rw [hp] at hf; exact absurd rfl (hf _)
    | false =>
      refine ⟨line, [lf], tail, by simp, h, .inr ⟨hp, rfl⟩, fun tail' => ?_⟩
      rw [List.append_assoc, List.singleton_append, headerStep_bareLf h hcr, hp]
      rfl

lemma lineDecision_finish {n k : Nat} (h : lineDecision cap policy base hs line k = .finish n hs') :
    line = [] ∧ n = k ∧ hs' = hs := by
  rw [lineDecision] at h
  repeat' split at h
  all_goals cases h
  rename_i hlen
  exact ⟨List.eq_nil_of_length_eq_zero (by simpa using hlen), rfl, rfl⟩

lemma lineDecision_nil (k : Nat) : lineDecision cap policy base hs [] k = .finish k hs := by
  simp [lineDecision, startsLws]

lemma lineDecision_field (f : FieldLine) (k : Nat) :
    lineDecision cap policy base hs f.line k =
      if f.line.length > ihtpMaxHeaderLine then .fail .errorTooLong
      else if hs.length ≥ cap then .fail .errorTooManyHeaders
      else .advance (f.line.length + k) (hs ++ [f.header base]) := by
  have hlen : (f.line.length == 0) = false := by
    rw [beq_eq_false_iff_ne, Ne, List.length_eq_zero_iff]
    exact f.ne_nil
  have hdrop : f.line.drop (f.name.length + 1) = f.lead ++ f.value ++ f.trail := by
    simp [FieldLine.line, List.drop_append]
  have hcolon : findHeaderNameColon f.line = some f.name.length :=
    findHeaderNameColon_append f.name_token _
  simp only [lineDecision, f.startsLws, Bool.and_false, hlen, hcolon, hdrop,
    trimAndValidateFieldValue_pad f.lead_ows f.trail_ows f.value_text f.value_trimmed,
    Bool.false_eq_true, if_false]
  by_cases hv : f.value = []
  · have hll : f.line.length = f.name.length + 1 + (f.lead ++ f.value ++ f.trail).length := by
      simp [FieldLine.line]; omega
    simp [FieldLine.header, hv, hll, Nat.add_assoc]
  · simp [FieldLine.header, hv, Nat.add_assoc]

lemma FieldLine.value_end (f : FieldLine) (base : Nat) :
    base + f.name.length + 1 ≤ (f.header base).value.start ∧
      (f.header base).value.start + (f.header base).value.len ≤ base + f.line.length := by
  have hlen : f.line.length = f.name.length + 1 + (f.lead ++ f.value ++ f.trail).length := by
    rw [FieldLine.line, List.length_append, List.length_cons]
    omega
  unfold FieldLine.header
  by_cases hv : f.value = []
  · rw [if_pos hv]
    dsimp only
    omega
  · rw [if_neg hv]
    simp only [List.length_append] at hlen
    dsimp only
    omega

lemma lineDecision_fold (f : FoldLine) (hp : policy.rejectObsFold = false) (k : Nat) :
    lineDecision cap policy base hs f.line k =
      if f.line.length > ihtpMaxHeaderLine then .fail .errorTooLong
      else match hs.getLast? with
        | none => .fail .error
        | some h => .advance (f.line.length + k)
            (hs.dropLast ++ [extendHeader h (base + f.line.length)]) := by
  have hlen : (f.line.length == 0) = false := by
    rw [beq_eq_false_iff_ne, Ne, List.length_eq_zero_iff]
    exact f.ne_nil
  simp [lineDecision, hp, hlen, f.startsLws, fieldTextIsValid_iff.mpr f.text]

/-- An accepted header line is a field line, or a continuation of the last header. -/
lemma lineDecision_advance {n k : Nat}
    (h : lineDecision cap policy base hs line k = .advance n hs') :
    n = line.length + k ∧ line.length ≤ ihtpMaxHeaderLine ∧
      ((∃ f : FieldLine, f.line = line ∧ hs.length < cap ∧ hs' = hs ++ [f.header base]) ∨
       ∃ f : FoldLine, f.line = line ∧ policy.rejectObsFold = false ∧ ∃ last,
         hs.getLast? = some last ∧
           hs' = hs.dropLast ++ [extendHeader last (base + line.length)]) := by
  have h0 := h
  rw [lineDecision] at h
  split at h; · cases h
  rename_i hfold
  split at h; · cases h
  rename_i hmax
  split at h; · cases h
  rename_i hne
  have hne' : line ≠ [] := by rintro rfl; simp at hne
  split at h
  · rename_i hstart
    have hobs : policy.rejectObsFold = false := by simpa [hstart] using hfold
    split at h; · cases h
    rename_i last hlast
    split at h; · cases h
    rename_i htext
    obtain ⟨c, rest, rfl⟩ := List.exists_cons_of_ne_nil hne'
    have htext' : fieldTextIsValid (c :: rest) = true := by simpa using htext
    let f : FoldLine := ⟨c :: rest, ⟨c, rest, rfl, hstart⟩, fieldTextIsValid_iff.mp htext'⟩
    cases h
    exact ⟨rfl, by omega, .inr ⟨f, rfl, hobs, last, hlast, rfl⟩⟩
  · split at h; · cases h
    rename_i m hcolon
    split at h; · cases h
    rename_i hcap
    split at h; · cases h
    rename_i hval
    obtain ⟨name, v, rfl, hname, rfl⟩ := exists_of_findHeaderNameColon hcolon
    have hdrop : (name ++ colon :: v).drop (name.length + 1) = v := by
      simp [List.drop_append]
    rw [hdrop] at hval
    obtain ⟨lead, value, trail, rfl, hl, ht, hv, htrim⟩ := exists_of_trimAndValidateFieldValue hval
    let f : FieldLine := ⟨name, lead, value, trail, hname, hl, ht, hv, htrim⟩
    have hf : f.line = name ++ colon :: (lead ++ value ++ trail) := rfl
    rw [← hf] at h0 hmax ⊢
    rw [lineDecision_field, if_neg hmax, if_neg hcap] at h0
    cases h0
    exact ⟨rfl, by omega, .inl ⟨f, rfl, by omega, rfl⟩⟩

end Decision

end IoHttpParser
