import IoHttpParser.Proofs.StartLine

/-!
# The stateful parsers as incremental readers

Each stateful entry point reads a start line and then header lines; both are decisions that
longer input does not revoke. A call is a read of the unread bytes from the saved cursor, so
the general facts about incremental readers apply to it.
-/

namespace IoHttpParser
open Memory Incremental

section HeaderStep

variable {cap base n : Nat} {policy : Policy} {hs hs' : List (Header Span)} {rest : Bytes}

lemma IsLineEnding.length_pos {e : Bytes} (he : IsLineEnding policy e) : 0 < e.length := by
  rcases he with rfl | ⟨_, rfl⟩ <;> simp

lemma exists_of_headerStep_advance (h : headerStep cap policy base hs rest = .advance n hs') :
    ∃ line e tail, rest = line ++ e ++ tail ∧ IsLineEnding policy e ∧ lf ∉ line ∧
      n = line.length + e.length ∧
      lineDecision cap policy base hs line e.length = .advance n hs' ∧
      ∀ tail', headerStep cap policy base hs (line ++ e ++ tail') = .advance n hs' := by
  obtain ⟨line, e, tail, rfl, hl, he, hall⟩ :=
    exists_line_of_accept rest (by rw [h]; simp) (by rw [h]; simp)
  have hd := hall tail
  rw [h] at hd
  exact ⟨line, e, tail, rfl, he, hl, (lineDecision_advance hd.symm).1, hd.symm,
    fun tail' => (hall tail').trans hd.symm⟩

lemma exists_of_headerStep_finish (h : headerStep cap policy base hs rest = .finish n hs') :
    ∃ e tail, rest = e ++ tail ∧ IsLineEnding policy e ∧ n = e.length ∧ hs' = hs := by
  obtain ⟨line, e, tail, rfl, hl, he, hall⟩ :=
    exists_line_of_accept rest (by rw [h]; simp) (by rw [h]; simp)
  have hd := hall tail
  rw [h] at hd
  obtain ⟨rfl, hn, hhs⟩ := lineDecision_finish hd.symm
  exact ⟨e, tail, by simp, he, hn, hhs⟩

lemma headerStep_advance_le (h : headerStep cap policy base hs rest = .advance n hs') :
    0 < n ∧ n ≤ rest.length := by
  obtain ⟨line, e, tail, rfl, he, -, hn, -, -⟩ := exists_of_headerStep_advance h
  have hpos := he.length_pos
  rw [List.length_append, List.length_append]
  omega

lemma headerStep_finish_le (h : headerStep cap policy base hs rest = .finish n hs') :
    n ≤ rest.length ∧ hs' = hs := by
  obtain ⟨e, tail, rfl, -, hn, hhs⟩ := exists_of_headerStep_finish h
  rw [List.length_append]
  exact ⟨by omega, hhs⟩

lemma headerStep_emptyLine {e : Bytes} (he : IsLineEnding policy e) (tail : Bytes) :
    headerStep cap policy base hs (e ++ tail) = .finish e.length hs := by
  have h : headerStep cap policy base hs ([] ++ e ++ tail) =
      lineDecision cap policy base hs [] e.length := headerStep_ending he (by simp) (by simp)
  rwa [List.nil_append, lineDecision_nil] at h

end HeaderStep

/-- What the three instances have in common: accepted start lines are not revoked, waiting
leaves the output alone, every start-line rejection is fatal, and the header array is a field
of the output. -/
structure MessageParser.Lawful {out : Type} (p : MessageParser out) (policy : Policy) : Prop where
  startLine_ok : ∀ {base buf o o' n}, p.startLine base buf o policy = (.ok, o', n) →
    0 < n ∧ n ≤ buf.length ∧ ∀ s, p.startLine base (buf ++ s) o policy = (.ok, o', n)
  startLine_incomplete : ∀ {base buf o o' n}, p.startLine base buf o policy = (.incomplete, o', n) →
    o' = o ∧ p.fatal .incomplete = false
  startLine_error : ∀ {base buf o st o' n}, p.startLine base buf o policy = (st, o', n) →
    st.isError = true → p.fatal st = true
  headers_set : ∀ o hs, p.headers (p.setHeaders o hs) = hs
  set_set : ∀ o hs hs', p.setHeaders (p.setHeaders o hs) hs' = p.setHeaders o hs'
  set_headers : ∀ o, p.setHeaders o (p.headers o) = o

namespace MessageParser

variable {out : Type} (p : MessageParser out) (policy : Policy)

/-- The decision on an unread start line. -/
def startLineDecision (pos : Nat) (o : out) (xs : Bytes) :
    Decision (ParserPhase × out) Status :=
  match p.startLine pos xs o policy with
  | (.ok, o', n) => .advance n (.headers, o')
  | (.incomplete, _, _) => .more
  | (st, _, _) => .fail st

/-- The decision on an unread header line. -/
def headerDecision (pos : Nat) (s : ParserPhase × out) (xs : Bytes) :
    Decision (ParserPhase × out) Status :=
  match headerStep p.capacity policy pos (p.headers s.2) xs with
  | .more => .more
  | .fail st => .fail st
  | .advance n hs => .advance n (s.1, p.setHeaders s.2 hs)
  | .finish n hs => .finish n (s.1, p.setHeaders s.2 hs)

/-- The decision on the unread bytes, in a phase and with an output. -/
def decide (pos : Nat) (s : ParserPhase × out) (xs : Bytes) :
    Decision (ParserPhase × out) Status :=
  if s.1 = .startLine then p.startLineDecision policy pos s.2 xs
  else p.headerDecision policy pos s xs

variable {p policy} {pos n : Nat} {o : out} {s t : ParserPhase × out} {xs : Bytes}

lemma decide_startLine : p.decide policy pos (.startLine, o) xs =
    p.startLineDecision policy pos o xs := rfl

lemma decide_headers : p.decide policy pos (.headers, o) xs =
    p.headerDecision policy pos (.headers, o) xs := rfl

lemma startLineDecision_advance (h : p.startLineDecision policy pos o xs = .advance n t) :
    p.startLine pos xs o policy = (.ok, t.2, n) ∧ t.1 = .headers := by
  rw [startLineDecision] at h
  split at h <;> cases h
  rename_i hs
  exact ⟨hs, rfl⟩

lemma startLineDecision_ne_finish : p.startLineDecision policy pos o xs ≠ .finish n t := by
  intro h
  rw [startLineDecision] at h
  split at h <;> cases h

lemma headerDecision_advance (h : p.headerDecision policy pos s xs = .advance n t) :
    ∃ hs, headerStep p.capacity policy pos (p.headers s.2) xs = .advance n hs ∧
      t = (s.1, p.setHeaders s.2 hs) := by
  rw [headerDecision] at h
  split at h <;> cases h
  rename_i hs heq
  exact ⟨hs, heq, rfl⟩

lemma headerDecision_finish (h : p.headerDecision policy pos s xs = .finish n t) :
    ∃ e tail, xs = e ++ tail ∧ IsLineEnding policy e ∧ n = e.length ∧
      t = (s.1, p.setHeaders s.2 (p.headers s.2)) := by
  rw [headerDecision] at h
  split at h <;> cases h
  rename_i heq
  obtain ⟨e, tail, hx, he, hn, rfl⟩ := exists_of_headerStep_finish heq
  exact ⟨e, tail, hx, he, hn, rfl⟩

lemma decide_finish (h : p.decide policy pos s xs = .finish n t) :
    s.1 ≠ .startLine ∧ p.headerDecision policy pos s xs = .finish n t := by
  rw [decide] at h
  split at h
  · exact absurd h startLineDecision_ne_finish
  · rename_i hne
    exact ⟨hne, h⟩

/-- The reader of a lawful parser. -/
def reader (p : MessageParser out) (policy : Policy) (hp : p.Lawful policy) :
    Reader UInt8 (ParserPhase × out) Status where
  decide := p.decide policy
  advance_le := by
    intro pos s xs n t h
    rw [decide] at h
    split at h
    · have hs := (startLineDecision_advance h).1
      exact ⟨(hp.startLine_ok hs).1, (hp.startLine_ok hs).2.1⟩
    · obtain ⟨hs, heq, _⟩ := headerDecision_advance h
      obtain ⟨line, e, tail, rfl, he, _, hn, _⟩ := exists_of_headerStep_advance heq
      have hpos := he.length_pos
      simp only [List.length_append]
      omega
  finish_le := by
    intro pos s xs n t h
    obtain ⟨e, tail, rfl, _, rfl, _⟩ := headerDecision_finish (decide_finish h).2
    simp
  advance_append := by
    intro pos s xs n t ys h
    rw [decide] at h ⊢
    split at h
    · rename_i hph
      obtain ⟨hs, ht⟩ := startLineDecision_advance h
      rw [if_pos hph, startLineDecision, (hp.startLine_ok hs).2.2 ys, ← ht]
    · rename_i hph
      obtain ⟨hs, heq, rfl⟩ := headerDecision_advance h
      obtain ⟨line, e, tail, rfl, _, _, _, _, hall⟩ := exists_of_headerStep_advance heq
      rw [if_neg hph, headerDecision, List.append_assoc, hall]
  finish_append := by
    intro pos s xs n t ys h
    obtain ⟨hph, h⟩ := decide_finish h
    obtain ⟨e, tail, rfl, he, rfl, rfl⟩ := headerDecision_finish h
    rw [decide, if_neg hph, headerDecision, List.append_assoc, headerStep_emptyLine he]

@[simp] lemma reader_decide (hp : p.Lawful policy) : (p.reader policy hp).decide = p.decide policy :=
  rfl

/-- A call's result says what a read's outcome says; after a failure only the status, the phase
and the zero byte count are determined. -/
def Matches (state : ParserState) (res : ParseResult out) :
    Outcome (ParserPhase × out) Status → Prop
  | .more q (phase, o) => res = ⟨.incomplete, { state with phase, cursor := q }, o, 0⟩
  | .done q (_, o) => res = ⟨.ok, { state with phase := .done, cursor := q }, o, q⟩
  | .fail _ _ st =>
    res.status = st ∧ st.isError = true ∧ res.state.phase = .error ∧ res.bytesConsumed = 0

/-! ### Calls are reads -/

lemma headerStep_fail {cap base : Nat} {hs : List (Header Span)} {st : Status}
    (h : headerStep cap policy base hs xs = .fail st) : st.isError = true := by
  rw [headerStep.eq_def] at h
  split at h
  · cases h
  · dsimp only at h
    split at h
    · cases h; rfl
    · split at h
      · split at h <;> cases h
        rfl
      · rename_i hne hfind
        rcases findLineEnd_cases _ policy with ⟨_, hc⟩ | hc | ⟨_, hc⟩ <;> rw [hc] at hfind <;>
          cases hfind <;> cases h
        · exact absurd rfl hne
        · rfl
      · repeat' split at h
        all_goals cases h
        all_goals rfl

variable {hp : p.Lawful policy}

/-- The header loop and the reader run in lockstep. -/
lemma headerLoop_run (hp : p.Lawful policy) (base count : Nat) (fuel pos : Nat) (o : out)
    (rest : Bytes) :
    (∃ q o', (p.reader policy hp).run fuel (base + pos) (.headers, o) rest =
        .more (base + q) (.headers, o') ∧ o' = p.setHeaders o (p.headers o') ∧
        headerLoop p.capacity policy base count fuel pos (p.headers o) rest =
          (.incomplete, p.headers o', q)) ∨
    (∃ q o', (p.reader policy hp).run fuel (base + pos) (.headers, o) rest =
        .done (base + q) (.headers, o') ∧ o' = p.setHeaders o (p.headers o') ∧
        headerLoop p.capacity policy base count fuel pos (p.headers o) rest =
          (.ok, p.headers o', q)) ∨
    ∃ q s st, (p.reader policy hp).run fuel (base + pos) (.headers, o) rest = .fail q s st ∧
      st.isError = true ∧
      (headerLoop p.capacity policy base count fuel pos (p.headers o) rest).1 = st := by
  induction fuel generalizing pos o rest with
  | zero => exact .inl ⟨pos, o, rfl, (hp.set_headers o).symm, rfl⟩
  | succ fuel ih =>
    simp only [Reader.run, headerLoop, reader_decide, decide_headers, headerDecision]
    cases hd : headerStep p.capacity policy (base + pos) (p.headers o) rest with
    | more => exact .inl ⟨pos, o, rfl, (hp.set_headers o).symm, rfl⟩
    | fail st => exact .inr (.inr ⟨_, _, st, rfl, headerStep_fail hd, rfl⟩)
    | finish n hs =>
      refine .inr (.inl ⟨pos + n, p.setHeaders o hs, by simp only [Nat.add_assoc], ?_, ?_⟩)
      · rw [hp.headers_set]
      · rw [hp.headers_set]
    | advance n hs =>
      have h := ih (pos + n) (p.setHeaders o hs) (rest.drop n)
      simp only [hp.headers_set, hp.set_set, ← Nat.add_assoc] at h
      exact h

lemma parseHeadersPhase_matches (hp : p.Lawful policy) (state : ParserState) (cursor : Nat)
    (buf : Bytes) (o : out) :
    Matches state
      (p.parseHeadersPhase policy { state with phase := .headers, cursor } buf o)
      ((p.reader policy hp).read cursor (.headers, o) (buf.drop cursor)) := by
  simp only [parseHeadersPhase, parseHeaderBlock, Reader.read]
  have h := headerLoop_run hp cursor (p.headers o).length
    ((buf.drop cursor).length + 1) 0 o (buf.drop cursor)
  rcases h with ⟨q, o', hr, ho, hl⟩ | ⟨q, o', hr, ho, hl⟩ | ⟨q, s, st, hr, he, hl⟩
  · simp only [Nat.add_zero] at hr
    rw [hr, hl]
    simp only [Matches, ← ho]
  · simp only [Nat.add_zero] at hr
    rw [hr, hl]
    simp only [Matches, ← ho]
  · simp only [Nat.add_zero] at hr
    rw [hr]
    revert hl
    generalize headerLoop p.capacity policy cursor _ _ 0 (p.headers o) (buf.drop cursor) = r
    obtain ⟨st', hs', n'⟩ := r
    rintro rfl
    cases st' with
    | ok | incomplete => cases he
    | error | errorTooLong | errorTooManyHeaders => exact ⟨rfl, he, rfl, rfl⟩

lemma parserStateInit_phase (mode : ParserMode) :
    (parserStateInit mode).phase = .startLine ∨ (parserStateInit mode).phase = .headers := by
  cases mode with
  | request | response => exact .inl rfl
  | headers => exact .inr rfl

/-- A call in either phase reads from the saved cursor. -/
theorem parseStateful_matches {policy : Option Policy} (hp : p.Lawful (resolvePolicy policy))
    (state : ParserState) (hmode : state.mode = p.mode)
    (hphase : state.phase = .startLine ∨ state.phase = .headers) (buf : Bytes) (o : out)
    (consumed : Nat) :
    Matches state (p.parseStateful state buf o policy consumed)
      ((p.reader (resolvePolicy policy) hp).read state.cursor (state.phase, o)
        (buf.drop state.cursor)) := by
  rw [parseStateful, if_neg (by simp [hmode])]
  dsimp only
  obtain ⟨mode, phase, cursor⟩ := state
  rcases hphase with hph | hph
  · obtain rfl : phase = .startLine := hph
    dsimp only
    rcases hs : p.startLine cursor (buf.drop cursor) o (resolvePolicy policy) with ⟨st, o', n⟩
    have hd : (p.reader _ hp).decide cursor (.startLine, o) (buf.drop cursor) =
        p.startLineDecision (resolvePolicy policy) cursor o (buf.drop cursor) := rfl
    rw [startLineDecision, hs] at hd
    cases st with
    | ok =>
      rw [Reader.read_of_advance hd, List.drop_drop]
      exact parseHeadersPhase_matches hp ⟨mode, .startLine, cursor⟩ (cursor + n) buf o'
    | incomplete =>
      obtain ⟨rfl, hf⟩ := hp.startLine_incomplete hs
      rw [Reader.read_of_more hd]
      simp [Matches, hf]
    | error | errorTooLong | errorTooManyHeaders =>
      have hf := hp.startLine_error hs rfl
      rw [Reader.read_of_fail hd]
      simp [Matches, hf, Status.isError]
  · obtain rfl : phase = .headers := hph
    exact parseHeadersPhase_matches hp ⟨mode, .headers, cursor⟩ cursor buf o

end MessageParser

/-! ### The three instances -/

lemma requestParser_lawful (policy : Policy) : requestParser.Lawful policy where
  startLine_ok := by
    intro base buf o o' n h
    obtain ⟨r, e, tail, rfl, he, hlen, rfl, rfl⟩ := exists_of_parseRequestLine h
    have hpos := he.length_pos
    refine ⟨by omega, by simp only [List.length_append]; omega, fun s => ?_⟩
    have hl := parseRequestLine_line base r he (tail ++ s) o
    rw [if_neg (by omega), ← List.append_assoc] at hl
    exact hl
  startLine_incomplete := by
    intro base buf o o' n h
    refine ⟨?_, rfl⟩
    rcases findLineEnd_cases buf policy with ⟨hl, _⟩ | hc | ⟨_, hc⟩
    · have hu := parseRequestLine_unterminated base policy hl o
      exact (Prod.mk.inj (Prod.mk.inj (h.symm.trans hu)).2).1
    · exact absurd (congrArg Prod.fst h) (parseRequestLine_ne_incomplete (by simp [hc]))
    · exact absurd (congrArg Prod.fst h) (parseRequestLine_ne_incomplete (by simp [hc]))
  startLine_error := by
    intro base buf o st o' n h he
    have hm : (parseRequestLine base buf o policy).1 ≠ .errorTooManyHeaders := by
      rcases findLineEnd_cases buf policy with ⟨_, hc⟩ | hc | ⟨_, hc⟩ <;>
        rw [parseRequestLine, hc] <;> dsimp only <;> repeat' split
      all_goals simp
    rw [show parseRequestLine base buf o policy = _ from h] at hm
    cases st with
    | ok | incomplete => cases he
    | error | errorTooLong => rfl
    | errorTooManyHeaders => exact absurd rfl hm
  headers_set _ _ := rfl
  set_set _ _ _ := rfl
  set_headers _ := rfl

lemma responseParser_lawful (policy : Policy) : responseParser.Lawful policy where
  startLine_ok := by
    intro base buf o o' n h
    obtain ⟨r, e, tail, rfl, he, rfl, rfl⟩ := exists_of_parseStatusLine h
    have hpos := he.length_pos
    refine ⟨by omega, by simp only [List.length_append]; omega, fun s => ?_⟩
    have hl := parseStatusLine_line base r he (tail ++ s) o
    rw [← List.append_assoc] at hl
    exact hl
  startLine_incomplete := by
    intro base buf o o' n h
    refine ⟨?_, rfl⟩
    rcases findLineEnd_cases buf policy with ⟨hl, _⟩ | hc | ⟨_, hc⟩
    · have hu := parseStatusLine_unterminated base policy hl o
      exact (Prod.mk.inj (Prod.mk.inj (h.symm.trans hu)).2).1
    · exact absurd (congrArg Prod.fst h) (parseStatusLine_ne_incomplete (by simp [hc]))
    · exact absurd (congrArg Prod.fst h) (parseStatusLine_ne_incomplete (by simp [hc]))
  startLine_error := by
    intro base buf o st o' n h he
    have hm : ∀ st, st = .errorTooLong ∨ st = .errorTooManyHeaders →
        (parseStatusLine base buf o policy).1 ≠ st := by
      rintro st (rfl | rfl) <;>
        rcases findLineEnd_cases buf policy with ⟨_, hc⟩ | hc | ⟨_, hc⟩ <;>
        rw [parseStatusLine, hc] <;> dsimp only <;> repeat' split
      all_goals simp
    rw [show parseStatusLine base buf o policy = _ from h] at hm
    cases st with
    | ok | incomplete => cases he
    | error => rfl
    | errorTooLong => exact absurd rfl (hm _ (.inl rfl))
    | errorTooManyHeaders => exact absurd rfl (hm _ (.inr rfl))
  headers_set _ _ := rfl
  set_set _ _ _ := rfl
  set_headers _ := rfl

lemma decide_requestLine (policy : Policy) (r : RequestLine policy.allowSpacesInUri) {e : Bytes}
    (he : IsLineEnding policy e) (hlen : r.line.length ≤ ihtpMaxRequestLine) (rest : Bytes) :
    (requestParser.reader policy (requestParser_lawful policy)).decide 0 (.startLine, .zero)
      (r.line ++ e ++ rest) =
        .advance (r.line.length + e.length) (.headers, r.apply 0 .zero) := by
  have hp := parseRequestLine_line 0 r he rest .zero
  rw [if_neg (by omega)] at hp
  rw [MessageParser.reader_decide, MessageParser.decide_startLine, MessageParser.startLineDecision,
    show requestParser.startLine = parseRequestLine from rfl, hp]

lemma decide_statusLine (policy : Policy) (s : StatusLine) {e : Bytes} (he : IsLineEnding policy e)
    (rest : Bytes) :
    (responseParser.reader policy (responseParser_lawful policy)).decide 0 (.startLine, .zero)
      (s.line ++ e ++ rest) =
        .advance (s.line.length + e.length) (.headers, s.apply 0 .zero) := by
  have hp := parseStatusLine_line 0 s he rest .zero
  rw [MessageParser.reader_decide, MessageParser.decide_startLine, MessageParser.startLineDecision,
    show responseParser.startLine = parseStatusLine from rfl, hp]

lemma headersParser_lawful (maxHeaders : Nat) (policy : Policy) :
    (headersParser maxHeaders).Lawful policy where
  startLine_ok h := by cases h
  startLine_incomplete h := by cases h
  startLine_error _ _ := rfl
  headers_set _ _ := rfl
  set_set _ _ _ := rfl
  set_headers _ := rfl

end IoHttpParser
