import IoHttpParser.Proofs.HeaderStep
import IoHttpParser.Proofs.SpanOrder

/-!
# How the three entry points relate

`ihtp_parse_request` and `ihtp_parse_response` read one line and then do what
`ihtp_parse_headers` does on the bytes after it. The capacity that the latter is given is a limit
and nothing else: below the number of field lines it refuses the block, and from there on it is
not seen.
-/

namespace IoHttpParser
open Memory Incremental

/-- A span of the bytes after the first `n`. -/
def Span.shift (n : Nat) (s : Span) : Span := ⟨n + s.start, s.len⟩

/-- A header of the bytes after the first `n`. -/
def Header.shift (n : Nat) (h : Header Span) : Header Span := ⟨h.name.shift n, h.value.shift n⟩

/-! ### Headers of the bytes after a line -/

section Shift

variable {cap : Nat} {policy : Policy}

/-- A decision of the header loop with its spans moved. -/
def shiftDecision (n : Nat) :
    Decision (List (Header Span)) Status → Decision (List (Header Span)) Status
  | .more => .more
  | .fail status => .fail status
  | .advance m hs => .advance m (hs.map (Header.shift n))
  | .finish m hs => .finish m (hs.map (Header.shift n))

lemma lineDecision_shift (n base : Nat) (hs : List (Header Span)) (line : Bytes) (k : Nat) :
    lineDecision cap policy (n + base) (hs.map (Header.shift n)) line k =
      shiftDecision n (lineDecision cap policy base hs line k) := by
  unfold lineDecision
  simp only [List.getLast?_map, List.length_map]
  by_cases hstart : startsLws line = true
  · simp only [if_pos hstart]
    cases hs.getLast? with
    | none => split_ifs <;> rfl
    | some h =>
      have hextend : extendHeader (h.shift n) (n + base + line.length) =
          (extendHeader h (base + line.length)).shift n := by
        simp only [extendHeader, Header.shift, Span.shift]
        congr 2
        omega
      simp only [Option.map_some, hextend]
      split_ifs <;> simp [shiftDecision, List.map_dropLast]
  · simp only [if_neg hstart]
    cases findHeaderNameColon line with
    | none => split_ifs <;> rfl
    | some m =>
      dsimp only
      cases trimAndValidateFieldValue (line.drop (m + 1)) with
      | none => split_ifs <;> rfl
      | some v => split_ifs <;> simp [shiftDecision, Header.shift, Span.shift, Nat.add_assoc]

lemma headerStep_shift (n base : Nat) (hs : List (Header Span)) (rest : Bytes) :
    headerStep cap policy (n + base) (hs.map (Header.shift n)) rest =
      shiftDecision n (headerStep cap policy base hs rest) := by
  cases lineView rest with
  | unterminated h =>
    rw [headerStep_unterminated h, headerStep_unterminated h]
    split_ifs <;> rfl
  | crlf line tail h => rw [headerStep_crlf h, headerStep_crlf h, lineDecision_shift]
  | bareLf line tail h hcr =>
    rw [headerStep_bareLf h hcr, headerStep_bareLf h hcr, lineDecision_shift]
    split_ifs <;> rfl

variable (cap policy) in
lemma headerLoop_shift (n base : Nat) (fuel pos : Nat) (hs : List (Header Span)) (rest : Bytes) :
    headerLoop cap policy (n + base) 0 fuel pos (hs.map (Header.shift n)) rest =
      let r := headerLoop cap policy base 0 fuel pos hs rest
      (r.1, r.2.1.map (Header.shift n), r.2.2) := by
  induction fuel generalizing pos hs rest with
  | zero => rfl
  | succ fuel ih =>
    unfold headerLoop
    rw [Nat.add_assoc, headerStep_shift]
    cases headerStep cap policy (base + pos) hs rest with
    | more => rfl
    | fail status => rfl
    | advance m hs' => exact ih (pos + m) hs' (rest.drop m)
    | finish m hs' => rfl

end Shift

/-! ### A message in two parts -/

/-- The start line of `buf`, and then what `ihtp_parse_headers` makes of the bytes after it. -/
def MessageParser.parseInTwo {out : Type} (p : MessageParser out) (buf : Bytes) (zero : out)
    (policy : Option Policy) : Status × out × Nat :=
  match p.startLine 0 buf zero (resolvePolicy policy) with
  | (.ok, o, n) =>
    let (status, headers, consumed) := parseHeaders (buf.drop n) p.capacity policy
    (status, p.setHeaders o (headers.map (Header.shift n)),
      if status = .ok then n + consumed else 0)
  | (status, o, _) => (status, o, 0)

/-- What `ihtp_parse_headers` returns, from the header loop. -/
lemma parseHeaders_eq (buf : Bytes) (maxHeaders : Nat) (policy : Option Policy) :
    parseHeaders buf maxHeaders policy =
      let r := parseHeaderBlock 0 buf [] maxHeaders (resolvePolicy policy)
      (r.1, r.2.1, if r.1 = .ok then r.2.2 else 0) := by
  have hcall : parseHeadersStateful maxHeaders (parserStateInit .headers) buf [] policy 0 =
      (headersParser maxHeaders).parseHeadersPhase (resolvePolicy policy)
        (parserStateInit .headers) buf [] := rfl
  rw [parseHeaders, hcall, MessageParser.parseHeadersPhase]
  have hblock : parseHeaderBlock (parserStateInit .headers).cursor
      (buf.drop (parserStateInit .headers).cursor) ((headersParser maxHeaders).headers [])
      (headersParser maxHeaders).capacity (resolvePolicy policy) =
        parseHeaderBlock 0 buf [] maxHeaders (resolvePolicy policy) := rfl
  rw [hblock]
  obtain ⟨status, headers, blockEnd⟩ :=
    parseHeaderBlock 0 buf [] maxHeaders (resolvePolicy policy)
  cases status <;> simp [parserStateInit, headersParser]

lemma parseStateful_inTwo {out : Type} {p : MessageParser out} {zero : out}
    (hmode : p.mode ≠ .headers) (buf : Bytes) (policy : Option Policy)
    (hheaders : p.headers (p.startLine 0 buf zero (resolvePolicy policy)).2.1 = []) :
    let r := p.parseStateful (parserStateInit p.mode) buf zero policy 0
    (r.status, r.out, r.bytesConsumed) = p.parseInTwo buf zero policy := by
  have hphase : (parserStateInit p.mode).phase = .startLine := if_neg hmode
  simp only [MessageParser.parseStateful, MessageParser.parseInTwo, parserStateInit, ne_eq,
    not_true_eq_false, if_false, if_neg hmode, List.drop_zero] at hheaders ⊢
  rcases hline : p.startLine 0 buf zero (resolvePolicy policy) with ⟨status, o, n⟩
  rw [hline] at hheaders
  cases status with
  | ok =>
    have hshift := headerLoop_shift p.capacity (resolvePolicy policy) n 0
      ((buf.drop n).length + 1) 0 [] (buf.drop n)
    simp only [MessageParser.parseHeadersPhase, parseHeaders_eq, Nat.zero_add]
    have hblock : parseHeaderBlock n (buf.drop n) (p.headers o) p.capacity (resolvePolicy policy) =
        let r := parseHeaderBlock 0 (buf.drop n) [] p.capacity (resolvePolicy policy)
        (r.1, r.2.1.map (Header.shift n), r.2.2) := by
      rw [hheaders]
      exact hshift
    rw [hblock]
    obtain ⟨status, headers, blockEnd⟩ :=
      parseHeaderBlock 0 (buf.drop n) [] p.capacity (resolvePolicy policy)
    cases status <;> simp
  | _ => rfl

/-- A message is its start line and the header block after it: under every policy and whatever the
bytes are, `ihtp_parse_request` and `ihtp_parse_response` return what `ihtp_parse_headers` returns
on the bytes after the line they have read, with its spans moved past that line, and the line's own
status when it is not accepted. -/
theorem parse_inTwo (buf : Bytes) (policy : Option Policy) :
    parseRequest buf policy = requestParser.parseInTwo buf .zero policy ∧
    parseResponse buf policy = responseParser.parseInTwo buf .zero policy :=
  ⟨parseStateful_inTwo (p := requestParser) nofun buf policy
      (parseRequestLine_headers 0 buf .zero _),
    parseStateful_inTwo (p := responseParser) nofun buf policy
      (parseStatusLine_headers 0 buf .zero _)⟩

/-! ### The capacity -/

section Capacity

variable (policy : Policy) (base : Nat) (hs : List (Header Span))

/-- A decision that stores no field. -/
def StoresNone : Decision (List (Header Span)) Status → Prop
  | .more => True
  | .fail status => status = .error ∨ status = .errorTooLong
  | .advance _ t => t.length = hs.length
  | .finish _ t => t = hs

/-- A decision on a field line of an input of `size` bytes, when there is room for it. -/
def StoresOne (size : Nat) : Decision (List (Header Span)) Status → Prop
  | .fail status => 3 ≤ size ∧ status = .error
  | .advance n t => 3 ≤ n ∧ n ≤ size ∧ t.length = hs.length + 1
  | .more | .finish _ _ => False

/-- What a family of decisions, one for each capacity, does: the same everywhere, or it stores a
field where there is room. -/
def Limited (size : Nat) (decision : Nat → Decision (List (Header Span)) Status) : Prop :=
  (∃ d, StoresNone hs d ∧ ∀ cap, decision cap = d) ∨
    ∃ d, StoresOne hs size d ∧
      ∀ cap, decision cap = if hs.length < cap then d else .fail .errorTooManyHeaders

lemma lineDecision_limited (line : Bytes) {k size : Nat} (hk : 0 < k)
    (hsize : line.length + k ≤ size) :
    Limited hs size fun cap => lineDecision cap policy base hs line k := by
  unfold lineDecision
  by_cases hearly : (policy.rejectObsFold && startsLws line) = true
  · simp only [if_pos hearly]
    exact .inl ⟨.fail .error, .inl rfl, fun _ => rfl⟩
  by_cases hmax : line.length > ihtpMaxHeaderLine
  · simp only [if_neg hearly, if_pos hmax]
    exact .inl ⟨.fail .errorTooLong, .inr rfl, fun _ => rfl⟩
  by_cases hempty : (line.length == 0) = true
  · simp only [if_neg hearly, if_neg hmax, if_pos hempty]
    exact .inl ⟨.finish k hs, rfl, fun _ => rfl⟩
  simp only [if_neg hearly, if_neg hmax, if_neg hempty]
  by_cases hstart : startsLws line = true
  · simp only [if_pos hstart]
    refine .inl ⟨_, ?_, fun _ => rfl⟩
    cases hlast : hs.getLast? with
    | none => exact .inl rfl
    | some h =>
      dsimp only
      split_ifs
      · exact .inl rfl
      · obtain ⟨init, rfl⟩ := List.getLast?_eq_some_iff.mp hlast
        simp [StoresNone]
  · simp only [if_neg hstart]
    cases hcolon : findHeaderNameColon line with
    | none => exact .inl ⟨.fail .error, .inl rfl, fun _ => rfl⟩
    | some m =>
      -- a name of one byte at least, and its colon
      obtain ⟨name, rest, rfl, hname, rfl⟩ := exists_of_findHeaderNameColon hcolon
      have hpos := List.length_pos_of_ne_nil hname.nonempty
      rw [List.length_append, List.length_cons] at hsize
      cases hvalue : trimAndValidateFieldValue ((name ++ colon :: rest).drop (name.length + 1)) with
      | none =>
        refine .inr ⟨.fail .error, ⟨by omega, rfl⟩, fun cap => ?_⟩
        simp only [ge_iff_le, hvalue]
        split_ifs <;> first | rfl | omega
      | some v =>
        refine .inr ⟨.advance ((name ++ colon :: rest).length + k)
          (hs ++ [⟨⟨base, name.length⟩, ⟨base + (name.length + 1) + v.1, v.2⟩⟩]), ?_, fun cap => ?_⟩
        · refine ⟨?_, ?_, ?_⟩ <;> simp only [List.length_append, List.length_cons, List.length_nil]
          all_goals omega
        · simp only [ge_iff_le, hvalue]
          split_ifs <;> first | rfl | omega

lemma headerStep_limited (rest : Bytes) :
    Limited hs rest.length fun cap => headerStep cap policy base hs rest := by
  cases lineView rest with
  | unterminated h =>
    refine .inl ⟨_, ?_, fun _ => headerStep_unterminated h⟩
    split_ifs
    · exact .inl rfl
    · exact .inr rfl
    · trivial
  | crlf line tail h =>
    simp only [headerStep_crlf h]
    exact lineDecision_limited _ _ _ _ (by omega)
      (by rw [List.length_append, List.length_cons, List.length_cons]; omega)
  | bareLf line tail h hcr =>
    simp only [headerStep_bareLf h hcr]
    by_cases hlf : policy.rejectBareLf = true
    · exact .inl ⟨.fail .error, .inl rfl, fun _ => if_pos hlf⟩
    · simp only [if_neg hlf]
      exact lineDecision_limited _ _ _ _ (by omega)
        (by rw [List.length_append, List.length_cons]; omega)

/-- What a run of the loop from `hs` does under every capacity that `hs` fits in: there is a number
of fields below which it is refused, and from which on the capacity is not seen. -/
lemma headerLoop_limited (fuel pos : Nat) (rest : Bytes) :
    ∃ needed r, hs.length ≤ needed ∧ 3 * (needed - hs.length) ≤ rest.length ∧
      r.1 ≠ .errorTooManyHeaders ∧
      (r.1 = .ok ∨ r.1 = .incomplete → r.2.1.length = needed) ∧
      ∀ cap, hs.length ≤ cap → headerLoop cap policy base 0 fuel pos hs rest =
        if cap < needed then (.errorTooManyHeaders, [], 0) else r := by
  induction fuel generalizing pos hs rest with
  | zero =>
    refine ⟨hs.length, (.incomplete, hs, pos), le_rfl, by omega, nofun, fun _ => rfl, ?_⟩
    intro cap hcap
    rw [if_neg (by omega)]
    rfl
  | succ fuel ih =>
    unfold headerLoop
    obtain ⟨d, hnone, hstep⟩ | ⟨d, hone, hstep⟩ := headerStep_limited policy (base + pos) hs rest
    · simp only [hstep]
      cases d with
      | more =>
        refine ⟨hs.length, (.incomplete, hs, pos), le_rfl, by omega, nofun, fun _ => rfl, ?_⟩
        intro cap hcap
        rw [if_neg (by omega)]
      | fail status =>
        refine ⟨hs.length, (status, [], 0), le_rfl, by omega, ?_, ?_, ?_⟩
        · obtain rfl | rfl := hnone <;> nofun
        · obtain rfl | rfl := hnone <;> nofun
        · intro cap hcap
          rw [if_neg (by omega)]
          rfl
      | advance n t =>
        obtain ⟨needed, r, hle, hthree, hr⟩ := ih t (pos + n) (rest.drop n)
        have ht : t.length = hs.length := hnone
        rw [ht] at hle hthree hr
        rw [List.length_drop] at hthree
        exact ⟨needed, r, hle, by omega, hr⟩
      | finish n t =>
        obtain rfl : t = hs := hnone
        refine ⟨t.length, (.ok, t, pos + n), le_rfl, by omega, nofun, fun _ => rfl, ?_⟩
        intro cap hcap
        rw [if_neg (by omega)]
    · simp only [hstep]
      cases d with
      | more => exact hone.elim
      | finish n t => exact hone.elim
      | fail status =>
        obtain ⟨hsize, rfl⟩ := hone
        refine ⟨hs.length + 1, (.error, [], 0), by omega, by omega, nofun, nofun, ?_⟩
        intro cap hcap
        split_ifs <;> first | rfl | omega
      | advance n t =>
        obtain ⟨needed, r, hle, hthree, hne, hlen, hr⟩ := ih t (pos + n) (rest.drop n)
        obtain ⟨hn, hsize, ht⟩ := hone
        rw [ht] at hle hthree hr
        rw [List.length_drop] at hthree
        refine ⟨needed, r, by omega, by omega, hne, hlen, ?_⟩
        intro cap hcap
        by_cases hroom : hs.length < cap
        · simp only [if_pos hroom]
          exact hr cap hroom
        · simp only [if_neg hroom]
          rw [if_pos (by omega)]
          rfl

end Capacity

/-- The capacity that `ihtp_parse_headers` is given only limits: for every input and policy there
is a number of fields, at most a third of the bytes, below which every capacity is refused with no
header counted and nothing consumed, and from which on every capacity gives the same result. That
number is the number of headers returned, whenever the block ends or waits. -/
theorem parseHeaders_capacity (buf : Bytes) (policy : Option Policy) :
    ∃ needed r, 3 * needed ≤ buf.length ∧ r.1 ≠ .errorTooManyHeaders ∧
      (r.1 = .ok ∨ r.1 = .incomplete → r.2.1.length = needed) ∧
      ∀ maxHeaders, parseHeaders buf maxHeaders policy =
        if maxHeaders < needed then (.errorTooManyHeaders, [], 0) else r := by
  obtain ⟨needed, r, -, hthree, hne, hlen, hr⟩ :=
    headerLoop_limited (resolvePolicy policy) 0 [] (buf.length + 1) 0 buf
  refine ⟨needed, (r.1, r.2.1, if r.1 = .ok then r.2.2 else 0), hthree, hne, hlen, ?_⟩
  intro maxHeaders
  simp only [parseHeaders_eq, parseHeaderBlock, List.length_nil, hr maxHeaders (by simp)]
  split_ifs <;> rfl

end IoHttpParser
