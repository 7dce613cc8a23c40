import IoHttpParser.Proofs.Finality
import IoHttpParser.Proofs.RequestGrammar
import IoHttpParser.Proofs.SpanOrder

/-!
# Bounds on what a head takes

A header line waits only while it is short, whether or not its end has arrived, so the unread tail
a caller keeps is bounded. The request line has the same limit; the status line has none while it
is not terminated. Under a policy that rejects folding every line adds a header, so that the lines
of an accepted request head are counted.
-/

namespace IoHttpParser
open Memory Incremental

/-! ### The pending line -/

namespace MessageParser

variable {out : Type} {p : MessageParser out} {policy : Policy} {hp : p.Lawful policy}
  {pos q : Nat} {s t : ParserPhase × out} {xs rest : Bytes}

lemma startLineDecision_more {o : out} (h : p.startLineDecision policy pos o xs = .more) :
    (p.startLine pos xs o policy).1 = .incomplete := by
  rw [startLineDecision] at h
  split at h <;> cases h
  rename_i hs
  rw [hs]

lemma headerDecision_more (h : p.headerDecision policy pos s xs = .more) :
    headerStep p.capacity policy pos (p.headers s.2) xs = .more := by
  rw [headerDecision] at h
  split at h <;> cases h
  assumption

/-- Where a read waits: on a header line that is short, or on the start line it began with. -/
lemma waits_of_reach (h : Reader.Reach (p.reader policy hp) pos s xs q t rest)
    (hmore : (p.reader policy hp).decide q t rest = .more)
    (hs : s.1 = .startLine ∨ s.1 = .headers) :
    (t.1 = .headers ∧ rest.length ≤ ihtpMaxHeaderLine) ∨
      (q = pos ∧ rest = xs ∧ s.1 = .startLine ∧
        (p.startLine pos xs s.2 policy).1 = .incomplete) := by
  have hheaders : t.1 = .headers → rest.length ≤ ihtpMaxHeaderLine := by
    intro ht
    rw [reader_decide, decide, if_neg (by rw [ht]; decide)] at hmore
    exact (headerStep_more (headerDecision_more hmore)).2.2
  cases hs with
  | inr hs =>
    have ht := (headerLines_of_reach h hs).1
    exact .inl ⟨ht, hheaders ht⟩
  | inl hs =>
    cases h with
    | refl =>
      rw [reader_decide, decide, if_pos hs] at hmore
      exact .inr ⟨rfl, rfl, hs, startLineDecision_more hmore⟩
    | advance hd h =>
      rw [reader_decide, decide, if_pos hs] at hd
      have ht := (headerLines_of_reach h (startLineDecision_advance hd).2).1
      exact .inl ⟨ht, hheaders ht⟩

/-- An unterminated line that is too long for its kind ends the read. -/
lemma fails_of_unterminated (hs : s.1 = .startLine ∨ s.1 = .headers) (hl : lf ∉ xs)
    (hlong : ihtpMaxHeaderLine < xs.length)
    (hstart : s.1 = .startLine → (p.startLine pos xs s.2 policy).1.isError = true) :
    ∃ st, (p.reader policy hp).decide pos s xs = .fail st := by
  rw [reader_decide, decide]
  cases hs with
  | inr hs =>
    rw [if_neg (by rw [hs]; decide), headerDecision, headerStep_unterminated hl]
    by_cases hfold : (policy.rejectObsFold && startsLws xs) = true
    · exact ⟨.error, by rw [if_pos hfold]⟩
    · exact ⟨.errorTooLong, by rw [if_neg hfold, if_pos hlong]⟩
  | inl hs =>
    have hbad := hstart hs
    rw [if_pos hs, startLineDecision]
    revert hbad
    rcases p.startLine pos xs s.2 policy with ⟨st, o', n⟩
    intro hbad
    cases st with
    | ok | incomplete => cases hbad
    | error | errorTooLong | errorTooManyHeaders => exact ⟨_, rfl⟩

/-- A call that asks for more comes from a read that waits, at the cursor it leaves. -/
lemma more_of_incomplete {policy : Option Policy} (hp : p.Lawful (resolvePolicy policy))
    (state : ParserState) (hmode : state.mode = p.mode)
    (hphase : state.phase = .startLine ∨ state.phase = .headers) {buf : Bytes} {o : out}
    {consumed : Nat} (h : (p.parseStateful state buf o policy consumed).status = .incomplete) :
    ∃ q t, (p.reader _ hp).read state.cursor (state.phase, o) (buf.drop state.cursor) = .more q t ∧
      (p.parseStateful state buf o policy consumed).state.cursor = q := by
  have hm := parseStateful_matches hp state hmode hphase buf o consumed
  cases hread : (p.reader _ hp).read state.cursor (state.phase, o) (buf.drop state.cursor) with
  | more q t =>
    rw [hread] at hm
    exact ⟨q, t, rfl, congrArg (fun r => r.state.cursor) hm⟩
  | done q t =>
    rw [hread] at hm
    have hok := congrArg ParseResult.status hm
    rw [h] at hok
    cases hok
  | fail q t st =>
    rw [hread] at hm
    obtain ⟨hst, hbad, -⟩ := hm
    rw [← hst, h] at hbad
    cases hbad

end MessageParser

namespace PointerParser

variable {out : Type} {p : PointerParser out} {buf : Bytes} {state : ParserState} {o : out}

lemma Between.reads (h : p.Between buf state o) (policy : Option Policy) (consumed : Nat) :
    (state.phase = .startLine ∨ state.phase = .headers) ∨
      (p.parseStateful state buf o policy consumed).status ≠ .incomplete := by
  cases hph : state.phase with
  | startLine => exact .inl (.inl rfl)
  | headers => exact .inl (.inr rfl)
  | done | error =>
    right
    unfold MessageParser.parseStateful
    rw [if_neg (not_not.mpr h.mode), hph]
    exact nofun

/-- The pending line is bounded where an unterminated start line has its limit. -/
lemma Between.pendingLine {policy : Option Policy} (hp : p.Lawful (resolvePolicy policy))
    (h : p.Between buf state o) (consumed : Nat)
    (hwait : (p.startLine state.cursor (buf.drop state.cursor) o (resolvePolicy policy)).1 =
      .incomplete → lf ∉ buf.drop state.cursor)
    (hstart : LongStartLine state buf → (p.startLine state.cursor (buf.drop state.cursor) o
      (resolvePolicy policy)).1.isError = true) :
    PendingLine state buf (p.parseStateful state buf o policy consumed) := by
  have hlen : (buf.drop state.cursor).length = buf.length - state.cursor := List.length_drop
  constructor
  · intro hinc
    obtain hphase | hne := h.reads policy consumed
    · obtain ⟨q, t, hread, hcursor⟩ :=
        MessageParser.more_of_incomplete hp.toLawful state h.mode hphase hinc
      rw [hcursor]
      obtain ⟨hreach, hmore⟩ := Reader.reach_of_more hread
      have hle := hreach.rest_eq.1
      obtain ⟨-, hshort⟩ | ⟨rfl, -, hph, hstatus⟩ :=
        MessageParser.waits_of_reach hreach hmore hphase
      · rw [List.length_drop, List.length_drop] at hshort
        unfold ihtpMaxHeaderLine at hshort
        omega
      · by_contra hlong
        have hbad := hstart ⟨hph, hwait hstatus, by omega⟩
        rw [hstatus] at hbad
        cases hbad
    · exact absurd hinc hne
  · intro hphase hl hlong
    have hm := MessageParser.parseStateful_matches hp.toLawful state h.mode hphase buf o consumed
    obtain ⟨st, hfail⟩ : ∃ st, (p.reader _ hp.toLawful).decide state.cursor (state.phase, o)
        (buf.drop state.cursor) = .fail st :=
      MessageParser.fails_of_unterminated hphase hl (by rw [hlen]; exact hlong)
        (fun hph => hstart ⟨hph, hl, hlong⟩)
    rw [Reader.read_of_fail hfail] at hm
    obtain ⟨hst, hbad, -⟩ := hm
    rw [hst]
    exact hbad

/-- What a call returns in a run, said of the parser over suffixes. -/
lemma onCalls_of_between (hp : ∀ policy, p.Lawful policy) {zero : out}
    (hzero : p.headers zero = []) (hstart : p.mode = .headers → p.startSpans zero = [])
    {C : ParserState → Bytes → ParseResult out → Prop}
    (hC : ∀ buf state o policy consumed, p.Between buf state o →
      C state buf (p.parseStateful state buf o policy consumed)) : p.OnCalls zero C := by
  intro buf state o h more policy consumed r hr
  have hb := (between_of_run hp hzero hstart h).append more
  obtain rfl : _ = r := Option.some.inj ((hb.call hp policy consumed).1.no_fault.symm.trans hr)
  exact hC _ _ _ _ _ hb

lemma RunWith.run {zero : out} {C : ParserState → Bytes → ParseResult out → Prop}
    (h : p.RunWith zero C buf state o) : p.Run zero buf state o := by
  induction h with
  | init buf => exact .init buf
  | call more policy consumed _ hr _ ih => exact .call more policy consumed ih hr

lemma RunWith.mono {zero : out} {C D : ParserState → Bytes → ParseResult out → Prop}
    (hCD : p.OnCalls zero (fun state buf r => C state buf r → D state buf r))
    (h : p.RunWith zero C buf state o) : p.RunWith zero D buf state o := by
  induction h with
  | init buf => exact .init buf
  | call more policy consumed h hr hc ih =>
    exact .call more policy consumed ih hr (hCD _ _ _ h.run _ _ _ _ hr hc)

lemma OnCalls.runWith_iff {zero : out} {C D : ParserState → Bytes → ParseResult out → Prop}
    (h : p.OnCalls zero (fun state buf r => C state buf r ↔ D state buf r)) :
    p.RunWith zero C buf state o ↔ p.RunWith zero D buf state o :=
  ⟨RunWith.mono fun _ _ _ hrun _ _ _ _ hr => (h _ _ _ hrun _ _ _ _ hr).mp,
    RunWith.mono fun _ _ _ hrun _ _ _ _ hr => (h _ _ _ hrun _ _ _ _ hr).mpr⟩

end PointerParser

lemma notMem_of_waits {buf : Bytes} {policy : Policy}
    (h : findLineEnd buf policy = .error .incomplete) : lf ∉ buf := by
  rcases findLineEnd_cases buf policy with ⟨hl, -⟩ | hc | ⟨r, hc⟩
  · exact hl
  · rw [hc] at h
    cases h
  · rw [hc] at h
    cases h

lemma parseRequestLine_waits {base : Nat} {buf : Bytes} {req : Request Span} {policy : Policy}
    (h : (parseRequestLine base buf req policy).1 = .incomplete) : lf ∉ buf := by
  by_contra hl
  exact parseRequestLine_ne_incomplete (fun hwait => notMem_of_waits hwait hl) h

lemma parseStatusLine_waits {base : Nat} {buf : Bytes} {resp : Response Span} {policy : Policy}
    (h : (parseStatusLine base buf resp policy).1 = .incomplete) : lf ∉ buf := by
  by_contra hl
  exact parseStatusLine_ne_incomplete (fun hwait => notMem_of_waits hwait hl) h

lemma request_pendingLine : requestPointers.OnCalls .zero PendingLine := by
  refine PointerParser.onCalls_of_between requestPointers_lawful rfl (fun h => by cases h) ?_
  intro buf state req policy consumed h
  refine h.pendingLine (requestPointers_lawful _) consumed parseRequestLine_waits ?_
  rintro ⟨-, hl, hlong⟩
  have hline := parseRequestLine_unterminated state.cursor (resolvePolicy policy) hl req
  rw [List.length_drop, if_pos (show _ > ihtpMaxRequestLine from hlong)] at hline
  exact congrArg (fun r => r.1.isError) hline

lemma headers_pendingLine (maxHeaders : Nat) : (headersPointers maxHeaders).OnCalls [] PendingLine := by
  refine PointerParser.onCalls_of_between (headersPointers_lawful maxHeaders) rfl (fun _ => rfl) ?_
  intro buf state hs policy consumed h
  exact h.pendingLine (headersPointers_lawful maxHeaders _) consumed (fun h => by cases h)
    (fun _ => rfl)

lemma parseResponseStateful_unterminated {buf : Bytes} {state : ParserState} {resp : Response Span}
    (h : responsePointers.Between buf state resp) (hph : state.phase = .startLine)
    (hl : lf ∉ buf.drop state.cursor) (policy : Option Policy) (consumed : Nat) :
    responsePointers.parseStateful state buf resp policy consumed = ⟨.incomplete, state, resp, 0⟩ := by
  have hline := parseStatusLine_unterminated state.cursor (resolvePolicy policy) hl resp
  unfold MessageParser.parseStateful
  rw [if_neg (not_not.mpr h.mode), hph]
  dsimp only
  rw [show responsePointers.startLine = parseStatusLine from rfl, hline]
  rfl

lemma response_pendingLine : responsePointers.OnCalls .zero
    (fun state buf r => PendingLine state buf r ↔ ¬LongStartLine state buf) := by
  refine PointerParser.onCalls_of_between responsePointers_lawful rfl (fun h => by cases h) ?_
  intro buf state resp policy consumed h
  constructor
  · rintro hpending ⟨hph, hl, hlong⟩
    have hbad := hpending.rejected (.inl hph) hl hlong
    rw [parseResponseStateful_unterminated h hph hl] at hbad
    cases hbad
  · intro hshort
    exact h.pendingLine (responsePointers_lawful _) consumed parseStatusLine_waits
      (fun hlong => absurd hlong hshort)

/-- In every run of the request and of the header parser the pending line is bounded. A run of the
response parser keeps it bounded exactly when no call is given a status line that is too long and
not terminated. -/
theorem pendingLine_iff (maxHeaders : Nat) (buf : Bytes) (state : ParserState)
    (resp : Response Span) :
    requestPointers.OnCalls .zero PendingLine ∧
    (headersPointers maxHeaders).OnCalls [] PendingLine ∧
    responsePointers.OnCalls .zero
      (fun state buf r => PendingLine state buf r ↔ ¬LongStartLine state buf) ∧
    (responsePointers.RunWith .zero PendingLine buf state resp ↔
      responsePointers.RunWith .zero (fun state buf _ => ¬LongStartLine state buf) buf state resp) :=
  ⟨request_pendingLine, headers_pendingLine maxHeaders, response_pendingLine,
    response_pendingLine.runWith_iff⟩

/-- A request line that has begun. -/
theorem pendingLine_begun :
    requestPointers.parseStatefulAt (parserStateInit .request) ([] ++ ascii "GET /") .zero none 0 =
        some ⟨.incomplete, parserStateInit .request, .zero, 0⟩ ∧
      PendingLine (parserStateInit .request) ([] ++ ascii "GET /")
        ⟨.incomplete, parserStateInit .request, Request.zero, 0⟩ := by
  have hcall : requestPointers.parseStatefulAt (parserStateInit .request) ([] ++ ascii "GET /") .zero
      none 0 = some ⟨.incomplete, parserStateInit .request, .zero, 0⟩ := by decide
  obtain ⟨hrequest, -⟩ := pendingLine_iff 0 [] (parserStateInit .response) .zero
  exact ⟨hcall, hrequest _ _ _ (.init []) _ _ _ _ hcall⟩

lemma response_first_call {buf : Bytes} (hl : lf ∉ buf) :
    responsePointers.parseStatefulAt (parserStateInit .response) ([] ++ buf) .zero none 0 =
      some ⟨.incomplete, parserStateInit .response, .zero, 0⟩ ∧
    (responsePointers.OnCalls .zero PendingLine → buf.length ≤ 8192) := by
  have hb : responsePointers.Between ([] ++ buf) (parserStateInit .response) .zero :=
    (PointerParser.between_init rfl (fun h => by cases h) []).append buf
  have hcall := (hb.call responsePointers_lawful none 0).1.no_fault
  rw [parseResponseStateful_unterminated hb rfl hl] at hcall
  exact ⟨hcall, fun h => (h _ _ _ (.init []) _ _ _ _ hcall).bounded rfl⟩

/-- A reason phrase of 8192 bytes whose line has no end yet: the response parser asks for more. -/
theorem status_line_unlimited :
    responsePointers.parseStatefulAt (parserStateInit .response)
        ([] ++ (ascii "HTTP/1.1 200 " ++ List.replicate 8192 0x61)) .zero none 0 =
      some ⟨.incomplete, parserStateInit .response, .zero, 0⟩ ∧
    ¬responsePointers.OnCalls .zero PendingLine := by
  have hl : lf ∉ ascii "HTTP/1.1 200 " ++ List.replicate 8192 0x61 := by
    rw [List.mem_append, List.mem_replicate]
    decide
  obtain ⟨hcall, hbound⟩ := response_first_call hl
  refine ⟨hcall, fun h => ?_⟩
  have hlen (n : Nat) : (ascii "HTTP/1.1 200 " ++ List.replicate n (0x61 : UInt8)).length = 13 + n := by
    rw [List.length_append, List.length_replicate]
    rfl
  have hle := hbound h
  rw [hlen] at hle
  omega

/-! ### Bounded heads -/

lemma IsLineEnding.length_le {policy : Policy} {e : Bytes} (he : IsLineEnding policy e) :
    e.length ≤ 2 := by
  rcases he with rfl | ⟨-, rfl⟩ <;> simp

/-- Where folding is rejected every line adds a header. -/
lemma HeaderLines.length_le {policy : Policy} {cap k k' : Nat} {w : Bytes}
    (hfold : policy.rejectObsFold = true) (h : HeaderLines policy cap k w k') :
    k ≤ k' ∧ w.length ≤ 8194 * (k' - k) ∧ (k ≤ cap → k' ≤ cap) := by
  induction h with
  | nil k => exact ⟨Nat.le_refl k, by simp, id⟩
  | @field k k' e w f he hlen hk _ ih =>
    obtain ⟨hle, hw, hcap⟩ := ih
    have hend := he.length_le
    unfold ihtpMaxHeaderLine at hlen
    refine ⟨by omega, ?_, fun _ => hcap hk⟩
    rw [List.length_append, List.length_append]
    omega
  | fold f hno _ _ _ _ _ =>
    rw [hfold] at hno
    cases hno

namespace MessageParser

variable {out : Type} {p : MessageParser out} {policy : Policy} {hp : p.Lawful policy}
  {pos q : Nat} {s t : ParserPhase × out} {xs rest : Bytes}

lemma pos_le_of_reach (hfold : policy.rejectObsFold = true)
    (h : Reader.Reach (p.reader policy hp) pos s xs q t rest) (hs : s.1 = .headers)
    (hcap : (p.headers s.2).length ≤ p.capacity) :
    t.1 = .headers ∧ xs.length ≤ rest.length + 8194 * p.capacity ∧
      q ≤ pos + 8194 * p.capacity := by
  obtain ⟨ht, w, rfl, hlines⟩ := headerLines_of_reach h hs
  obtain ⟨hle, hw, hk⟩ := hlines.length_le hfold
  obtain ⟨hpos, hq, hrest⟩ := h.rest_eq
  have hlen := congrArg List.length hrest
  have := hk hcap
  rw [List.length_append] at hq
  rw [List.length_drop, List.length_append] at hlen
  rw [List.length_append]
  have hmul : 8194 * ((p.headers t.2).length - (p.headers s.2).length) ≤ 8194 * p.capacity :=
    Nat.mul_le_mul_left _ (by omega)
  exact ⟨ht, by omega, by omega⟩

end MessageParser

/-- What the request line takes of a head, and what it leaves to the headers. -/
lemma length_le_of_parseRequestLine {base n : Nat} {policy : Policy} {buf : Bytes}
    {req : Request Span} (h : parseRequestLine base buf .zero policy = (.ok, req, n)) :
    n ≤ 8194 ∧ (requestParser.headers req).length ≤ requestParser.capacity := by
  obtain ⟨r, e, tail, -, he, hlen, rfl, rfl⟩ := exists_of_parseRequestLine h
  have hend := he.length_le
  unfold ihtpMaxRequestLine at hlen
  exact ⟨by omega, Nat.zero_le _⟩

lemma length_le_of_parseRequest {policy : Option Policy}
    (hfold : (resolvePolicy policy).rejectObsFold = true) {buf : Bytes} {req : Request Span} {n : Nat}
    (h : parseRequest buf policy = (.ok, req, n)) : n ≤ 8194 + 64 * 8194 + 2 := by
  obtain ⟨phase, hdone⟩ := done_of_parseRequest h
  obtain ⟨req', k, hline, hdone⟩ := MessageParser.startLine_of_done hdone
  obtain ⟨hk, hcap⟩ := length_le_of_parseRequestLine hline
  obtain ⟨q, t, rest, hreach, ⟨-, hread⟩ | ⟨e, -, hread⟩ | ⟨m, u, hd, hread⟩⟩ :=
    Reader.exists_reach (requestParser.reader _ (requestParser_lawful (resolvePolicy policy)))
      (0 + k) (.headers, req') (buf.drop k)
  · rw [hdone] at hread
    cases hread
  · rw [hdone] at hread
    cases hread
  · rw [hdone] at hread
    obtain ⟨rfl, -⟩ := Outcome.done.inj hread
    have hq := (MessageParser.pos_le_of_reach hfold hreach rfl hcap).2.2
    obtain ⟨e, tail, -, he, rfl, -⟩ := MessageParser.headerDecision_finish
      (MessageParser.decide_finish hd).2
    have hend := he.length_le
    have hmax : requestParser.capacity = 64 := rfl
    rw [hmax] at hq
    omega

lemma length_le_of_incomplete {policy : Option Policy}
    (hfold : (resolvePolicy policy).rejectObsFold = true) {buf : Bytes}
    (h : (parseRequest buf policy).1 = .incomplete) : buf.length ≤ 65 * 8194 + 8192 := by
  obtain ⟨q, t, hread, -⟩ := MessageParser.more_of_incomplete
    (requestParser_lawful (resolvePolicy policy)) (parserStateInit .request) rfl (.inl rfl) h
  obtain ⟨hreach, hmore⟩ := Reader.reach_of_more hread
  rw [show (parserStateInit .request).cursor = 0 from rfl, List.drop_zero] at hreach hmore
  cases hreach with
  | refl =>
    have hstatus := MessageParser.startLineDecision_more hmore
    have hline := parseRequestLine_unterminated 0 (resolvePolicy policy)
      (parseRequestLine_waits hstatus) .zero
    have hlen : (buf.drop (0 - 0)).length = buf.length := by rw [Nat.sub_zero, List.drop_zero]
    by_contra hlong
    rw [if_pos (show _ > ihtpMaxRequestLine by unfold ihtpMaxRequestLine; omega)] at hline
    have hbad := hstatus.symm.trans (congrArg Prod.fst hline)
    cases hbad
  | @advance _ k _ _ u _ _ _ hd hreach =>
    rw [MessageParser.reader_decide] at hd
    obtain ⟨hline, hu⟩ := MessageParser.startLineDecision_advance hd
    obtain ⟨hk, hcap⟩ := length_le_of_parseRequestLine hline
    obtain ⟨ht, hlen, -⟩ := MessageParser.pos_le_of_reach hfold hreach hu hcap
    obtain ⟨-, hshort⟩ | ⟨-, -, hbad, -⟩ := MessageParser.waits_of_reach hreach hmore (.inr hu)
    · have hmax : requestParser.capacity = 64 := rfl
      unfold ihtpMaxHeaderLine at hshort
      rw [hmax, List.length_drop] at hlen
      omega
    · rw [hu] at hbad
      cases hbad

/-- Where folding is rejected, a request head is decided within a fixed number of bytes. -/
theorem parseRequest_decided (policy : Option Policy)
    (hfold : (resolvePolicy policy).rejectObsFold = true) (buf : Bytes) :
    (∀ req n, parseRequest buf policy = (.ok, req, n) → n ≤ 8194 + 64 * 8194 + 2) ∧
    (65 * 8194 + 8192 < buf.length →
      (parseRequest buf policy).1 = .ok ∨ (parseRequest buf policy).1.isError = true) := by
  refine ⟨fun req n h => length_le_of_parseRequest hfold h, fun hlong => ?_⟩
  cases hst : (parseRequest buf policy).1 with
  | ok => exact .inl rfl
  | incomplete =>
    have hle := length_le_of_incomplete hfold hst
    omega
  | error | errorTooLong | errorTooManyHeaders => exact .inr rfl

/-- A head with one header, under the strict policy. -/
theorem parseRequest_decided_host :
    (parseRequest (ascii "GET / HTTP/1.1\r\nHost: a\r\n\r\n") none).1 = .ok ∧
      (parseRequest (ascii "GET / HTTP/1.1\r\nHost: a\r\n\r\n") none).2.2 ≤
        8194 + 64 * 8194 + 2 := by
  have hok : (parseRequest (ascii "GET / HTTP/1.1\r\nHost: a\r\n\r\n") none).1 = .ok := by decide
  exact ⟨hok, (parseRequest_decided none rfl _).1 _ _ (Prod.ext hok rfl)⟩

end IoHttpParser
