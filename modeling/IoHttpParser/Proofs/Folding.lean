import IoHttpParser.Proofs.RequestGrammar
import IoHttpParser.Proofs.ResponseGrammar

/-!
# Folded values

A value is trimmed when its field line is read, and its end moves with every continuation line
without being trimmed again. Whether the values of an accepted head are trimmed is a matter of the
lines of the buffer.
-/

namespace IoHttpParser
open Memory Incremental

/-- SP, HTAB, CR or LF. -/
def isBlank (c : UInt8) : Bool := isLws c || c == cr || c == lf

/-- A line without the CR in front of its LF. -/
def dropCr (line : Bytes) : Bytes := if line.getLast? = some cr then line.dropLast else line

/-- The lines of a buffer up to its first empty line. -/
def physicalLines (buf : Bytes) : List Bytes :=
  ((buf.splitOn lf).map dropCr).takeWhile (fun line => !line.isEmpty)

/-- The continuation lines in front, and every other line with the continuation lines behind it. -/
def foldedLines : List Bytes → List Bytes × List (Bytes × List Bytes)
  | [] => ([], [])
  | line :: lines =>
    let (folds, fields) := foldedLines lines
    if startsLws line then (line :: folds, fields) else ([], (line, folds) :: fields)

/-- A field without continuation lines, or with a value on its first line and no blank at the end of
its last. -/
def TidyField (line : Bytes) (folds : List Bytes) : Prop :=
  ∀ last, folds.getLast? = some last →
    (∃ c ∈ (line.dropWhile (· != colon)).drop 1, isLws c = false) ∧
      ∀ c, last.getLast? = some c → isLws c = false

/-- All fields of these lines are tidy. -/
def TidyFolds (lines : List Bytes) : Prop :=
  ∀ field ∈ (foldedLines lines).2, TidyField field.1 field.2

/-! ### Lines -/

lemma dropCr_append (line : Bytes) : dropCr (line ++ [cr]) = line := by
  unfold dropCr
  rw [List.getLast?_concat, if_pos rfl, List.dropLast_concat]

lemma dropCr_of_notMem {line : Bytes} (h : cr ∉ line) : dropCr line = line := by
  unfold dropCr
  rw [if_neg (fun hl => h (List.mem_of_getLast? hl))]

lemma physicalLines_cons {a line : Bytes} (tail : Bytes) (ha : lf ∉ a) (hline : dropCr a = line)
    (hne : line ≠ []) : physicalLines (a ++ lf :: tail) = line :: physicalLines tail := by
  have hkeep : (!line.isEmpty) = true := by
    rw [Bool.not_eq_true', List.isEmpty_eq_false_iff]
    exact hne
  unfold physicalLines
  rw [List.splitOn_append_cons_self, List.splitOn_eq_singleton ha, List.singleton_append,
    List.map_cons, hline, List.takeWhile_cons, if_pos hkeep]

section Lines

variable {policy : Policy} {line e : Bytes} (tail : Bytes)

lemma physicalLines_line (he : IsLineEnding policy e) (hne : line ≠ []) (hlf : lf ∉ line)
    (hcr : cr ∉ line) : physicalLines (line ++ e ++ tail) = line :: physicalLines tail := by
  cases he with
  | inl he =>
    have hlf' : lf ∉ line ++ [cr] := by simp [hlf, show lf ≠ cr by decide]
    have h := physicalLines_cons tail hlf' (dropCr_append line) hne
    rw [he, List.append_assoc]
    rw [List.append_assoc] at h
    exact h
  | inr he =>
    have h := physicalLines_cons tail hlf (dropCr_of_notMem hcr) hne
    rw [he.2, List.append_assoc]
    exact h

lemma physicalLines_end (he : IsLineEnding policy e) : physicalLines (e ++ tail) = [] := by
  have hnil {a : Bytes} (ha : lf ∉ a) (hline : dropCr a = []) :
      physicalLines (a ++ lf :: tail) = [] := by
    unfold physicalLines
    rw [List.splitOn_append_cons_self, List.splitOn_eq_singleton ha, List.singleton_append,
      List.map_cons, hline, List.takeWhile_cons]
    rfl
  cases he with
  | inl he => rw [he]; exact hnil (a := [cr]) (by decide) (by decide)
  | inr he => rw [he.2]; exact hnil (a := []) (by decide) (by decide)

end Lines

/-! ### Fields with their continuation lines -/

/-- A field line with the continuation lines behind it. -/
structure FoldedField where
  field : FieldLine
  folds : List FoldLine

/-- Its lines. -/
def FoldedField.lines (g : FoldedField) : List Bytes := g.field.line :: g.folds.map FoldLine.line

/-- Nothing but its last line moves the end of a tidy field. -/
def FoldedField.Tidy (g : FoldedField) : Prop := TidyField g.field.line (g.folds.map FoldLine.line)

lemma foldedLines_folds (folds : List FoldLine) (lines : List Bytes) :
    foldedLines (folds.map FoldLine.line ++ lines) =
      (folds.map FoldLine.line ++ (foldedLines lines).1, (foldedLines lines).2) := by
  induction folds with
  | nil => rfl
  | cons f folds ih =>
    rw [List.map_cons, List.cons_append, foldedLines, ih]
    dsimp only
    rw [if_pos f.startsLws, List.cons_append]

lemma foldedLines_fields (gs : List FoldedField) :
    foldedLines (gs.flatMap FoldedField.lines) =
      ([], gs.map (fun g => (g.field.line, g.folds.map FoldLine.line))) := by
  induction gs with
  | nil => rfl
  | cons g gs ih =>
    rw [List.flatMap_cons, FoldedField.lines, List.cons_append, foldedLines, foldedLines_folds, ih]
    dsimp only
    rw [g.field.startsLws, if_neg Bool.false_ne_true, List.append_nil, List.map_cons]

lemma tidyFolds_fields (gs : List FoldedField) :
    TidyFolds (gs.flatMap FoldedField.lines) ↔ ∀ g ∈ gs, g.Tidy := by
  unfold TidyFolds
  rw [foldedLines_fields, List.forall_mem_map]
  rfl

lemma FieldLine.valuePart (f : FieldLine) :
    (f.line.dropWhile (· != colon)).drop 1 = f.lead ++ f.value ++ f.trail := by
  have hname : ∀ c ∈ f.name, (c != colon) = true := by
    intro c hc
    rw [bne_iff_ne]
    rintro rfl
    exact f.name_token.notMem.2.2.2 hc
  rw [FieldLine.line, dropWhile_append_of_all hname, List.dropWhile_cons_of_neg (by decide),
    List.drop_one, List.tail_cons]

lemma FieldLine.exists_not_lws_iff (f : FieldLine) :
    (∃ c ∈ f.lead ++ f.value ++ f.trail, isLws c = false) ↔ f.value ≠ [] := by
  constructor
  · rintro ⟨c, hc, hno⟩ hnil
    rw [hnil, List.append_nil] at hc
    have hlws : isLws c = true := by
      cases List.mem_append.mp hc with
      | inl hc => exact f.lead_ows c hc
      | inr hc => exact f.trail_ows c hc
    rw [hlws] at hno
    cases hno
  · intro hne
    obtain ⟨c, rest, hv⟩ := List.exists_cons_of_ne_nil hne
    refine ⟨c, ?_, f.value_trimmed.head c (by rw [hv]; rfl)⟩
    rw [hv]
    simp

lemma FoldedField.tidy_single (f : FieldLine) : FoldedField.Tidy ⟨f, []⟩ := by
  intro last hlast
  cases hlast

lemma FoldedField.tidy_concat (f : FieldLine) (folds : List FoldLine) (g : FoldLine) :
    FoldedField.Tidy ⟨f, folds ++ [g]⟩ ↔
      f.value ≠ [] ∧ ∀ c, g.line.getLast? = some c → isLws c = false := by
  unfold FoldedField.Tidy TidyField
  rw [List.map_append, List.map_singleton, List.getLast?_concat, f.valuePart]
  simp only [Option.some.injEq, forall_eq', f.exists_not_lws_iff]

/-! ### Spans of folded fields -/

lemma isBlank_of_fieldByte {c : UInt8} (h : isFieldByte c = true) : isBlank c = isLws c := by
  obtain ⟨hlf, hcr⟩ := isFieldByte_class h
  unfold isBlank
  rw [beq_eq_false_iff_ne.mpr hcr, beq_eq_false_iff_ne.mpr hlf, Bool.or_false, Bool.or_false]

lemma Span.head?_read {s : Span} (h : 0 < s.len) (buf : Bytes) :
    (s.read buf).head? = buf[s.start]? := by
  unfold Span.read
  rw [List.head?_take, if_neg (by omega), List.head?_drop]

/-- The value of a field spans what is tidy of it. -/
structure FieldSpan (buf : Bytes) (h : Header Span) (g : FoldedField) : Prop where
  start : (∀ c, buf[h.value.start]? = some c → isBlank c = false) ↔ g.field.value ≠ []
  trimmed : Trimmed isBlank (h.value.read buf) ↔ g.Tidy

section Span

variable {policy : Policy} {buf e tail : Bytes} {pos : Nat}

lemma fieldSpan_field (f : FieldLine) (he : IsLineEnding policy e)
    (hbuf : buf.drop pos = f.line ++ e ++ tail) (hpos : pos ≤ buf.length) :
    FieldSpan buf (f.header pos) ⟨f, []⟩ := by
  have hlen : (buf.take pos).length = pos := by rw [List.length_take, Nat.min_eq_left hpos]
  have hsplit : buf = buf.take pos ++ (f.line ++ (e ++ tail)) := by
    rw [← List.append_assoc f.line, ← hbuf, List.take_append_drop]
  have hread : (f.header pos).value.read buf = f.value := by
    have h := congrArg Header.value (f.resolve_header (buf.take pos) (e ++ tail))
    rwa [hlen, ← hsplit] at h
  have hclean : Trimmed isBlank f.value := by
    refine ⟨fun c hc => ?_, fun c hc => ?_⟩
    · rw [isBlank_of_fieldByte (f.value_text c (List.mem_of_head? hc))]
      exact f.value_trimmed.head c hc
    · rw [isBlank_of_fieldByte (f.value_text c (List.mem_of_getLast? hc))]
      exact f.value_trimmed.last c hc
  refine ⟨?_, ?_⟩
  · by_cases hv : f.value = []
    · have hstart : (f.header pos).value.start = pos + f.line.length := by
        rw [FieldLine.header, if_pos hv]
      have hbyte : ∃ c, buf[pos + f.line.length]? = some c ∧ isBlank c = true := by
        rw [← List.getElem?_drop, hbuf, List.append_assoc,
          List.getElem?_append_right (Nat.le_refl _), Nat.sub_self]
        cases he with
        | inl he => rw [he]; exact ⟨cr, rfl, rfl⟩
        | inr he => rw [he.2]; exact ⟨lf, rfl, rfl⟩
      obtain ⟨c, hc, hblank⟩ := hbyte
      rw [hstart]
      refine iff_of_false (fun h => ?_) (fun h => h hv)
      rw [h c hc] at hblank
      cases hblank
    · have hpositive : 0 < (f.header pos).value.len := by
        rw [FieldLine.header, if_neg hv]
        exact List.length_pos_of_ne_nil hv
      have hhead := Span.head?_read hpositive buf
      rw [hread] at hhead
      refine iff_of_true (fun c hc => ?_) hv
      rw [← hhead] at hc
      exact hclean.head c hc
  · rw [hread]
    exact iff_of_true hclean (FoldedField.tidy_single f)

/-- A continuation line moves the end of the value to its own end. -/
lemma read_extendHeader {h : Header Span} {line rest : Bytes} (hstart : h.value.start ≤ pos)
    (hbuf : buf.drop pos = line ++ rest) :
    (extendHeader h (pos + line.length)).value.read buf =
      (buf.drop h.value.start).take (pos - h.value.start) ++ line := by
  have hlen : pos + line.length - h.value.start = pos - h.value.start + line.length := by omega
  have htail : (buf.drop h.value.start).drop (pos - h.value.start) = line ++ rest := by
    rw [List.drop_drop, Nat.add_sub_cancel' hstart, hbuf]
  unfold extendHeader Span.read
  rw [hlen, List.take_add, htail, List.take_left]

/-- The extended value is tidy when the field line has a value and the continuation line does not
end in a blank. -/
lemma FieldSpan.fold {h : Header Span} {g : FoldedField} {rest : Bytes} (hg : FieldSpan buf h g)
    (f : FoldLine) (hstart : h.value.start ≤ pos) (hbuf : buf.drop pos = f.line ++ rest) :
    FieldSpan buf (extendHeader h (pos + f.line.length)) ⟨g.field, g.folds ++ [f]⟩ := by
  have hpos : 0 < f.line.length := List.length_pos_of_ne_nil f.ne_nil
  have hlen : 0 < (extendHeader h (pos + f.line.length)).value.len := by
    unfold extendHeader
    dsimp only
    omega
  have hhead := Span.head?_read hlen buf
  have hlast : ((extendHeader h (pos + f.line.length)).value.read buf).getLast? =
      f.line.getLast? := by
    rw [read_extendHeader hstart hbuf, List.getLast?_append_of_ne_nil _ f.ne_nil]
  refine ⟨hg.start, ?_⟩
  rw [FoldedField.tidy_concat, ← hg.start]
  constructor
  · intro ht
    refine ⟨fun c hc => ht.head c (hhead.trans hc), fun c hc => ?_⟩
    rw [← isBlank_of_fieldByte (f.text c (List.mem_of_getLast? hc))]
    exact ht.last c (hlast.trans hc)
  · rintro ⟨hfirst, hend⟩
    refine ⟨fun c hc => hfirst c (hhead.symm.trans hc), fun c hc => ?_⟩
    rw [hlast] at hc
    rw [isBlank_of_fieldByte (f.text c (List.mem_of_getLast? hc))]
    exact hend c hc

end Span

/-! ### Reading folded fields -/

/-- The headers read up to a position are those of folded fields, and the unread lines are the
others. -/
structure FieldsRead (buf : Bytes) (lines : List Bytes) (pos : Nat) (hs : List (Header Span))
    (rest : Bytes) : Prop where
  le : pos ≤ buf.length
  rest_eq : rest = buf.drop pos
  fields : ∃ gs : List FoldedField, lines = gs.flatMap FoldedField.lines ++ physicalLines rest ∧
    List.Forall₂ (fun h g => h.value.start ≤ pos ∧ FieldSpan buf h g) hs gs

section Read

variable {policy : Policy} {buf rest : Bytes} {lines : List Bytes} {cap pos n : Nat}
  {hs hs' : List (Header Span)}

lemma exists_of_forall₂_concat {α β : Type} {R : α → β → Prop} {xs : List α} {x : α} {ys : List β}
    (h : List.Forall₂ R (xs ++ [x]) ys) :
    ∃ init y, ys = init ++ [y] ∧ List.Forall₂ R xs init ∧ R x y := by
  induction xs generalizing ys with
  | nil =>
    cases h with
    | cons hx htail =>
      cases htail
      exact ⟨[], _, rfl, .nil, hx⟩
  | cons a xs ih =>
    cases h with
    | cons ha htail =>
      obtain ⟨init, y, rfl, hinit, hy⟩ := ih htail
      exact ⟨_ :: init, y, rfl, .cons ha hinit, hy⟩

lemma FoldedField.lines_concat (f : FieldLine) (folds : List FoldLine) (g : FoldLine) :
    FoldedField.lines ⟨f, folds ++ [g]⟩ = FoldedField.lines ⟨f, folds⟩ ++ [g.line] := by
  unfold FoldedField.lines
  rw [List.map_append, List.map_singleton, List.cons_append]

lemma fieldsRead_start (h : pos ≤ buf.length) :
    FieldsRead buf (physicalLines (buf.drop pos)) pos [] (buf.drop pos) :=
  ⟨h, rfl, [], rfl, .nil⟩

/-- The header of a field, or of one more continuation line, joins those read. -/
lemma FieldsRead.step (h : FieldsRead buf lines pos hs rest)
    (hd : headerStep cap policy pos hs rest = .advance n hs') :
    FieldsRead buf lines (pos + n) hs' (rest.drop n) := by
  obtain ⟨line, e, tail, hrest, he, -, hn, hline, -⟩ := exists_of_headerStep_advance hd
  obtain ⟨-, -, hkind⟩ := lineDecision_advance hline
  obtain ⟨gs, hlines, hgs⟩ := h.fields
  have hbuf : buf.drop pos = line ++ e ++ tail := by rw [← h.rest_eq, hrest]
  have htail : rest.drop n = tail := by
    rw [hrest, hn, ← List.length_append, List.drop_left]
  have hle : pos + n ≤ buf.length := by
    have hlen := (headerStep_advance_le hd).2
    have := h.le
    rw [h.rest_eq, List.length_drop] at hlen
    omega
  have hfar {hs : List (Header Span)} {gs : List FoldedField}
      (hgs : List.Forall₂ (fun h g => h.value.start ≤ pos ∧ FieldSpan buf h g) hs gs) :
      List.Forall₂ (fun h g => h.value.start ≤ pos + n ∧ FieldSpan buf h g) hs gs :=
    hgs.imp (fun h g hg => ⟨hg.1.trans (Nat.le_add_right _ _), hg.2⟩)
  refine ⟨hle, by rw [h.rest_eq, List.drop_drop], ?_⟩
  rw [htail]
  cases hkind with
  | inl hfield =>
    obtain ⟨f, rfl, -, rfl⟩ := hfield
    refine ⟨gs ++ [⟨f, []⟩], ?_, ?_⟩
    · rw [hlines, hrest, physicalLines_line tail he f.ne_nil f.notMem.1 f.notMem.2,
        List.flatMap_append, List.append_assoc]
      rfl
    · refine List.rel_append (hfar hgs) (.cons ⟨?_, fieldSpan_field f he hbuf h.le⟩ .nil)
      have := f.value_end pos
      omega
  | inr hfold =>
    obtain ⟨f, rfl, -, last, hlast, rfl⟩ := hfold
    obtain ⟨init, rfl⟩ := List.getLast?_eq_some_iff.mp hlast
    obtain ⟨gs, g, rfl, hinit, hstart, hspan⟩ := exists_of_forall₂_concat hgs
    have hbuf' : buf.drop pos = f.line ++ (e ++ tail) := by rw [hbuf, List.append_assoc]
    rw [List.dropLast_concat]
    refine ⟨gs ++ [⟨g.field, g.folds ++ [f]⟩], ?_, ?_⟩
    · rw [hlines, hrest, physicalLines_line tail he f.ne_nil f.notMem.1 f.notMem.2,
        List.flatMap_append, List.flatMap_append, List.flatMap_singleton, List.flatMap_singleton,
        FoldedField.lines_concat]
      simp only [List.append_assoc, List.singleton_append]
    · refine List.rel_append (hfar hinit) (.cons ⟨?_, hspan.fold f hstart hbuf'⟩ .nil)
      exact hstart.trans (Nat.le_add_right _ _)

/-- Once the empty line is read, the headers are those of all lines in front of it. -/
lemma FieldsRead.trimmed_iff {e tail : Bytes} (h : FieldsRead buf lines pos hs rest)
    (he : IsLineEnding policy e) (hrest : rest = e ++ tail) :
    (∀ h ∈ hs, Trimmed isBlank (h.value.read buf)) ↔ TidyFolds lines := by
  obtain ⟨gs, hlines, hgs⟩ := h.fields
  rw [hlines, hrest, physicalLines_end tail he, List.append_nil, tidyFolds_fields]
  clear hlines h
  induction hgs with
  | nil => exact iff_of_true (fun h hh => by cases hh) (fun g hg => by cases hg)
  | cons hg _ ih => rw [List.forall_mem_cons, List.forall_mem_cons, ih, hg.2.trimmed]

end Read

/-! ### Whole heads -/

namespace MessageParser

variable {out : Type} {p : MessageParser out}

/-- The values of the headers a finished header phase has read. -/
lemma trimmed_of_done {policy : Policy} {hp : p.Lawful policy} {buf : Bytes} {pos n : Nat} {o : out}
    {t : ParserPhase × out}
    (h : (p.reader policy hp).read pos (.headers, o) (buf.drop pos) = .done n t)
    (hpos : pos ≤ buf.length) (ho : p.headers o = []) :
    (∀ h ∈ p.headers t.2, Trimmed isBlank (h.value.read buf)) ↔
      TidyFolds (physicalLines (buf.drop pos)) := by
  obtain ⟨q, u, rest, hr, h' | ⟨e, _, h'⟩ | ⟨m, v, hd, h'⟩⟩ :=
    Reader.exists_reach (p.reader policy hp) pos (.headers, o) (buf.drop pos)
  · rw [h] at h'; cases h'.2
  · rw [h] at h'; cases h'
  · rw [h] at h'
    obtain ⟨rfl, rfl⟩ := Outcome.done.inj h'
    have hinv := hr.invariant
      (I := fun q u rest => u.1 = .headers ∧
        FieldsRead buf (physicalLines (buf.drop pos)) q (p.headers u.2) rest) ?_
      ⟨rfl, by rw [ho]; exact fieldsRead_start hpos⟩
    · obtain ⟨e, tail, hrest, he, rfl, rfl⟩ := headerDecision_finish (decide_finish hd).2
      dsimp only
      rw [hp.set_headers]
      exact hinv.2.trimmed_iff he hrest
    · intro pos s xs n t hI hstep
      rw [reader_decide, decide, if_neg (by rw [hI.1]; decide)] at hstep
      obtain ⟨hs, hadv, rfl⟩ := headerDecision_advance hstep
      refine ⟨hI.1, ?_⟩
      rw [hp.headers_set]
      exact hI.2.step hadv

lemma trimmed_of_startLine {policy : Policy} {hp : p.Lawful policy} {line e tail : Bytes} {n : Nat}
    {o : out} {t : ParserPhase × out} (he : IsLineEnding policy e) (hne : line ≠ [])
    (hline : lf ∉ line ∧ cr ∉ line)
    (h : (p.reader policy hp).read (0 + (line.length + e.length)) (.headers, o)
      ((line ++ e ++ tail).drop (line.length + e.length)) = .done n t) (ho : p.headers o = []) :
    (∀ h ∈ p.headers t.2, Trimmed isBlank (h.value.read (line ++ e ++ tail))) ↔
      TidyFolds ((physicalLines (line ++ e ++ tail)).drop 1) := by
  have hle : line.length + e.length ≤ (line ++ e ++ tail).length := by
    simp only [List.length_append]
    omega
  rw [Nat.zero_add] at h
  rw [trimmed_of_done h hle ho, physicalLines_line tail he hne hline.1 hline.2, ← List.length_append,
    List.drop_left, List.drop_one, List.tail_cons]

end MessageParser

lemma RequestLine.ne_nil {a : Bool} (r : RequestLine a) : r.line ≠ [] := by
  simp [RequestLine.line]

lemma StatusLine.ne_nil (s : StatusLine) : s.line ≠ [] := by
  simp [StatusLine.line]

/-- The values of an accepted head are trimmed exactly when its folds are tidy. -/
theorem values_trimmed_iff (policy : Option Policy) (buf : Bytes) :
    (∀ req n, parseRequest buf policy = (.ok, req, n) →
      ((∀ h ∈ req.headers, Trimmed isBlank (h.value.read buf)) ↔
        TidyFolds ((physicalLines buf).drop 1))) ∧
    (∀ resp n, parseResponse buf policy = (.ok, resp, n) →
      ((∀ h ∈ resp.headers, Trimmed isBlank (h.value.read buf)) ↔
        TidyFolds ((physicalLines buf).drop 1))) ∧
    ∀ maxHeaders headers n, parseHeaders buf maxHeaders policy = (.ok, headers, n) →
      ((∀ h ∈ headers, Trimmed isBlank (h.value.read buf)) ↔ TidyFolds (physicalLines buf)) := by
  refine ⟨?_, ?_, ?_⟩
  · intro req n h
    obtain ⟨phase, hdone⟩ := done_of_parseRequest h
    obtain ⟨o, k, hline, hdone⟩ := MessageParser.startLine_of_done hdone
    obtain ⟨r, e, tail, rfl, he, -, rfl, rfl⟩ := exists_of_parseRequestLine hline
    exact MessageParser.trimmed_of_startLine he r.ne_nil r.notMem hdone rfl
  · intro resp n h
    obtain ⟨phase, hdone⟩ := done_of_parseResponse h
    obtain ⟨o, k, hline, hdone⟩ := MessageParser.startLine_of_done hdone
    obtain ⟨s, e, tail, rfl, he, rfl, rfl⟩ := exists_of_parseStatusLine hline
    exact MessageParser.trimmed_of_startLine he s.ne_nil s.notMem hdone rfl
  · intro maxHeaders headers n h
    obtain ⟨phase, hdone⟩ := done_of_parseHeaders h
    exact MessageParser.trimmed_of_done hdone (Nat.zero_le _) rfl

/-- A blank at the end of a continuation line stays in the value. -/
theorem fold_untrimmed :
    parseHeaders (ascii "X: a\r\n b \r\n\r\n") 1 (some .lenient) =
      (.ok, [⟨⟨0, 1⟩, ⟨3, 6⟩⟩], 13) ∧
    Span.read (ascii "X: a\r\n b \r\n\r\n") ⟨3, 6⟩ = ascii "a\r\n b " ∧
    ¬Trimmed isBlank (Span.read (ascii "X: a\r\n b \r\n\r\n") ⟨3, 6⟩) := by
  refine ⟨by decide, by decide, fun h => ?_⟩
  have hlast := h.last sp (by decide)
  cases hlast

/-- Without that blank the value is trimmed, in front of and behind the fold. -/
theorem fold_trimmed :
    ∀ h ∈ ([⟨⟨0, 1⟩, ⟨3, 5⟩⟩] : List (Header Span)),
      Trimmed isBlank (h.value.read (ascii "X: a\r\n b\r\n\r\n")) :=
  ((values_trimmed_iff (some .lenient) (ascii "X: a\r\n b\r\n\r\n")).2.2 1
    [⟨⟨0, 1⟩, ⟨3, 5⟩⟩] 12 (by decide)).mpr (by
      intro field hfield
      obtain rfl : field = (ascii "X: a", [ascii " b"]) := by
        have hlines : (foldedLines (physicalLines (ascii "X: a\r\n b\r\n\r\n"))).2 =
            [(ascii "X: a", [ascii " b"])] := by decide
        rw [hlines, List.mem_singleton] at hfield
        exact hfield
      intro last hlast
      obtain rfl : ascii " b" = last := Option.some.inj hlast
      refine ⟨⟨0x61, by decide, rfl⟩, fun c hc => ?_⟩
      obtain rfl : 0x62 = c := Option.some.inj hc
      rfl)

end IoHttpParser
