import IoHttpParser.Proofs.Perf

/-!
# The work of a run

A stateful call returns what it returns without the counters, and reads each byte that it has not
read before once, more or less: no counter grows by more than the bytes from the cursor on, and one.
Since a call that waits leaves a short line, the work of a whole run is linear in the bytes and the
calls, where the line that it waits for has a limit.
-/

namespace IoHttpParser
open Memory Counting Perf

/-- One call adds to each counter one more, at most, than the bytes from the cursor to where it stops,
if it accepts, and else to the end of the input. -/
structure Paid {out : Type} (state : ParserState) (size : Nat) (r : ParseResult out)
    (count : PerfCounters) : Prop where
  balanced : Balanced count
  count_le : ∀ k, count k ≤ reach r.status r.state.cursor size - state.cursor + 1

lemma paid_zero {out : Type} (state : ParserState) (size : Nat) (r : ParseResult out) :
    Paid state size r 0 :=
  ⟨⟨le_rfl, le_rfl⟩, fun _ => Nat.zero_le _⟩

namespace PerfParser

variable {out : Type}

/-- What the calls rely on in the start line that counts. -/
structure Lawful (p : PerfParser out) : Prop where
  val_startLine : ∀ base buf o policy,
    (p.startLinePerf base buf o policy).val = p.startLine base buf o policy
  balanced : ∀ base buf o policy, Balanced (p.startLinePerf base buf o policy).count
  count_le : ∀ base buf o policy k, (p.startLinePerf base buf o policy).count k ≤
    max 1 (reach (p.startLine base buf o policy).1 (p.startLine base buf o policy).2.2 buf.length)
  stop : ∀ base buf o policy, (p.startLine base buf o policy).1 = .ok →
    0 < (p.startLine base buf o policy).2.2 ∧ (p.startLine base buf o policy).2.2 ≤ buf.length

variable {p : PerfParser out}

lemma val_parseHeadersPhasePerf (policy : Policy) (state : ParserState) (buf : Bytes) (o : out) :
    (p.parseHeadersPhasePerf policy state buf o).val = p.parseHeadersPhase policy state buf o := by
  rw [parseHeadersPhasePerf, MessageParser.parseHeadersPhase, val_bind, val_parseHeaderBlock]
  rfl

lemma val_parseStatefulPerf (hp : p.Lawful) (state : ParserState) (buf : Bytes) (o : out)
    (policy : Option Policy) (consumed : Nat) :
    (p.parseStatefulPerf state buf o policy consumed).val =
      p.parseStateful state buf o policy consumed := by
  unfold parseStatefulPerf MessageParser.parseStateful
  by_cases hmode : state.mode ≠ p.mode
  · rw [if_pos hmode, if_pos hmode]
    rfl
  rw [if_neg hmode, if_neg hmode]
  cases state.phase with
  | error => rfl
  | done => rfl
  | headers => exact val_parseHeadersPhasePerf _ _ _ _
  | startLine =>
    dsimp only
    rw [val_bind, hp.val_startLine]
    obtain ⟨status, o', n⟩ := p.startLine state.cursor (buf.drop state.cursor) o (resolvePolicy policy)
    cases status with
    | ok => exact val_parseHeadersPhasePerf _ _ _ _
    | _ => rfl

/-- The header phase from `state`, after a start line that was paid for with the bytes that lie
between. -/
lemma paid_headersPhase (policy : Policy) (state start : ParserState) (buf : Bytes) (o : out)
    {count : PerfCounters} (hb : Balanced count)
    (hcount : ∀ k, count k ≤ state.cursor - start.cursor) (hle : start.cursor ≤ state.cursor)
    (hin : state.cursor = start.cursor ∨ state.cursor ≤ buf.length) :
    Paid start buf.length (p.parseHeadersPhase policy state buf o)
      (count + (p.parseHeadersPhasePerf policy state buf o).count) := by
  obtain ⟨hwithin, -⟩ := parseHeaderBlock_within p.capacity policy state.cursor
    (buf.drop state.cursor) (p.headers o)
  rw [val_parseHeaderBlock, List.length_drop] at hwithin
  rw [parseHeadersPhasePerf, count_bind, count_pure, add_zero]
  refine ⟨hb.add hwithin.balanced, fun k => ?_⟩
  have hk := hwithin.confined.le k
  have hpaid := hcount k
  rw [Pi.add_apply, MessageParser.parseHeadersPhase]
  rcases hr : IoHttpParser.parseHeaderBlock state.cursor (buf.drop state.cursor) (p.headers o)
    p.capacity policy with ⟨status, headers, blockEnd⟩
  rw [hr] at hk
  cases status with
  | ok =>
    simp only [reach, if_true] at hk ⊢
    omega
  | incomplete | error | errorTooLong | errorTooManyHeaders =>
    simp only [reach, reduceCtorEq, if_false] at hk ⊢
    omega

/-- One call, from any state. -/
lemma paid_parseStateful (hp : p.Lawful) (state : ParserState) (buf : Bytes) (o : out)
    (policy : Option Policy) (consumed : Nat) :
    Paid state buf.length (p.parseStateful state buf o policy consumed)
      (p.parseStatefulPerf state buf o policy consumed).count := by
  unfold parseStatefulPerf MessageParser.parseStateful
  by_cases hmode : state.mode ≠ p.mode
  · rw [if_pos hmode, if_pos hmode]
    exact paid_zero _ _ _
  rw [if_neg hmode, if_neg hmode]
  cases state.phase with
  | error => exact paid_zero _ _ _
  | done => exact paid_zero _ _ _
  | headers =>
    dsimp only
    rw [← zero_add (p.parseHeadersPhasePerf (resolvePolicy policy) state buf o).count]
    exact paid_headersPhase _ state state buf o ⟨le_rfl, le_rfl⟩ (fun _ => Nat.zero_le _) le_rfl
      (.inl rfl)
  | startLine =>
    dsimp only
    have hb := hp.balanced state.cursor (buf.drop state.cursor) o (resolvePolicy policy)
    have hcount := hp.count_le state.cursor (buf.drop state.cursor) o (resolvePolicy policy)
    have hstop := hp.stop state.cursor (buf.drop state.cursor) o (resolvePolicy policy)
    rw [count_bind, hp.val_startLine]
    rcases hs : p.startLine state.cursor (buf.drop state.cursor) o (resolvePolicy policy) with
      ⟨status, o', n⟩
    rw [hs, List.length_drop] at hcount hstop
    cases status with
    | ok =>
      obtain ⟨hpos, hn⟩ : 0 < n ∧ n ≤ buf.length - state.cursor := hstop rfl
      apply paid_headersPhase _ { state with cursor := state.cursor + n, phase := .headers } state
        buf o' hb
      · intro k
        have hk := hcount k
        simp only [reach, if_true] at hk ⊢
        omega
      · exact Nat.le_add_right _ _
      · right
        dsimp only
        omega
    | incomplete | error | errorTooLong | errorTooManyHeaders =>
      dsimp only
      rw [count_pure, add_zero]
      refine ⟨hb, fun k => ?_⟩
      have hk := hcount k
      simp only [reach, reduceCtorEq, if_false] at hk ⊢
      omega

end PerfParser

lemma requestPerf_lawful : requestPerf.Lawful where
  val_startLine := val_parseRequestLine
  balanced base buf req policy := (parseRequestLine_within base buf req policy).1.balanced
  count_le base buf req policy k := by
    have h := (parseRequestLine_within base buf req policy).1.confined.le k
    rwa [val_parseRequestLine] at h
  stop base buf req policy := by
    have h := (parseRequestLine_within base buf req policy).2
    rwa [val_parseRequestLine] at h

lemma responsePerf_lawful : responsePerf.Lawful where
  val_startLine := val_parseStatusLine
  balanced base buf resp policy := (parseStatusLine_within base buf resp policy).1.balanced
  count_le base buf resp policy k := by
    have h := (parseStatusLine_within base buf resp policy).1.confined.le k
    rwa [val_parseStatusLine] at h
  stop base buf resp policy := by
    have h := (parseStatusLine_within base buf resp policy).2
    rwa [val_parseStatusLine] at h

lemma headersPerf_lawful (maxHeaders : Nat) : (headersPerf maxHeaders).Lawful where
  val_startLine _ _ _ _ := rfl
  balanced _ _ _ _ := ⟨le_rfl, le_rfl⟩
  count_le _ _ _ _ _ := Nat.zero_le _
  stop _ _ _ _ := nofun

/-- The counters change nothing that the three stateful entry points do, and no call makes a counter
run ahead: from any state, on any input and under any policy, it adds to each of them one more, at
most, than the bytes from the cursor to where it stops, if it accepts, and else to the end of the
input, and the loops of the validators get through no more bytes than these were given. The state of
a caller has its cursor inside the input: behind the end of it the length that the code computes
would wrap around, where this model has no bytes left to read. -/
theorem parseStateful_counted (maxHeaders : Nat) (state : ParserState) (buf : Bytes)
    (policy : Option Policy) (consumed : Nat) :
    (∀ req, let r := requestPerf.parseStatefulPerf state buf req policy consumed
      r.val = parseRequestStateful state buf req policy consumed ∧
        Paid state buf.length r.val r.count) ∧
    (∀ resp, let r := responsePerf.parseStatefulPerf state buf resp policy consumed
      r.val = parseResponseStateful state buf resp policy consumed ∧
        Paid state buf.length r.val r.count) ∧
    ∀ headers, let r := (headersPerf maxHeaders).parseStatefulPerf state buf headers policy consumed
      r.val = parseHeadersStateful maxHeaders state buf headers policy consumed ∧
        Paid state buf.length r.val r.count := by
  have hcall {out : Type} {p : PerfParser out} (hp : p.Lawful) (o : out) :
      (p.parseStatefulPerf state buf o policy consumed).val =
          p.parseStateful state buf o policy consumed ∧
        Paid state buf.length (p.parseStatefulPerf state buf o policy consumed).val
          (p.parseStatefulPerf state buf o policy consumed).count := by
    rw [PerfParser.val_parseStatefulPerf hp]
    exact ⟨rfl, PerfParser.paid_parseStateful hp _ _ _ _ _⟩
  exact ⟨hcall requestPerf_lawful, hcall responsePerf_lawful, hcall (headersPerf_lawful maxHeaders)⟩

/-! ### Runs -/

namespace PerfParser

variable {out : Type}

/-- Calls on ever longer buffers, as in `PointerParser.Run`, each under the condition `C` on the state,
the buffer so far and the bytes that the call brings: their number, and what the counters have come
to. -/
inductive Run (p : PerfParser out) (zero : out) (C : ParserState → Bytes → Bytes → Prop) :
    Bytes → ParserState → out → Nat → PerfCounters → Prop where
  | init (buf : Bytes) : Run p zero C buf (parserStateInit p.mode) zero 0 0
  | call {buf : Bytes} {state : ParserState} {o : out} {calls : Nat} {total : PerfCounters}
      {r : Perf (ParseResult out)} (more : Bytes) (policy : Option Policy) (consumed : Nat)
      (h : Run p zero C buf state o calls total) (hc : C state buf more)
      (hr : p.parseStatefulPerf state (buf ++ more) o policy consumed = r) :
      Run p zero C (buf ++ more) r.val.state r.val.out (calls + 1) (total + r.count)

/-- In every run no counter exceeds the bytes by more than a line and one for each call. -/
def Linear (p : PerfParser out) (zero : out) (C : ParserState → Bytes → Bytes → Prop) : Prop :=
  ∀ buf state o calls total, p.Run zero C buf state o calls total → Balanced total ∧
    ∀ k, total k ≤ buf.length + calls * (ihtpMaxHeaderLine + 1)

variable {p : PerfParser out}

/-- A call that neither accepts nor waits ends the run. -/
lemma phase_of_call {policy : Option Policy} (hp : p.toMessageParser.Lawful (resolvePolicy policy))
    {state : ParserState} (hmode : state.mode = p.mode)
    (hphase : state.phase = .startLine ∨ state.phase = .headers) (buf : Bytes) (o : out)
    (consumed : Nat) :
    let r := p.parseStateful state buf o policy consumed
    r.status = .ok ∨ r.status = .incomplete ∨ r.state.phase = .error := by
  have hm := MessageParser.parseStateful_matches hp state hmode hphase buf o consumed
  revert hm
  cases (p.reader _ hp).read state.cursor (state.phase, o) (buf.drop state.cursor) with
  | more q t =>
    intro hm
    exact .inr (.inl (congrArg ParseResult.status hm))
  | done q t =>
    intro hm
    exact .inl (congrArg ParseResult.status hm)
  | fail q t e =>
    intro hm
    exact .inr (.inr hm.2.2.1)

/-- A call that is over before it reads. -/
lemma count_of_stopped {state : ParserState} (hphase : state.phase = .error ∨ state.phase = .done)
    (hmode : state.mode = p.mode) (buf : Bytes) (o : out) (policy : Option Policy)
    (consumed : Nat) :
    (p.parseStatefulPerf state buf o policy consumed).count = 0 ∧
      (p.parseStatefulPerf state buf o policy consumed).val.state = state := by
  unfold parseStatefulPerf
  rw [if_neg (not_not.mpr hmode)]
  obtain hphase | hphase := hphase <;> rw [hphase] <;> exact ⟨rfl, rfl⟩

section Linear

variable {q : PointerParser out} {f : Nat → Bytes → out → Policy → Perf (Status × out × Nat)}
  {zero : out} {C : ParserState → Bytes → Prop}

/-- The state of a run: it is one of the parser, and its work is paid for by the bytes up to the
cursor, or by all of them once it has failed. -/
structure Tracked (q : PointerParser out) (zero : out) (buf : Bytes) (state : ParserState) (o : out)
    (calls : Nat) (total : PerfCounters) : Prop where
  run : q.Run zero buf state o
  balanced : Balanced total
  paid : ∀ k, total k ≤ (if state.phase = .error then buf.length else state.cursor) +
    calls * (ihtpMaxHeaderLine + 1)

lemma Tracked.call (hq : ∀ policy, q.Lawful policy) (hzero : q.headers zero = [])
    (hstart : q.mode = .headers → q.startSpans zero = [])
    (hp : (⟨q.toMessageParser, f⟩ : PerfParser out).Lawful)
    (hpending : q.OnCalls zero fun state buf r => C state buf → PendingLine state buf r)
    {buf : Bytes} {state : ParserState} {o : out} {calls : Nat} {total : PerfCounters}
    (h : Tracked q zero buf state o calls total) (more : Bytes) (policy : Option Policy)
    (consumed : Nat) (hc : C state (buf ++ more)) :
    let r := (⟨q.toMessageParser, f⟩ : PerfParser out).parseStatefulPerf state (buf ++ more) o
      policy consumed
    Tracked q zero (buf ++ more) r.val.state r.val.out (calls + 1) (total + r.count) := by
  have hbetween := (PointerParser.between_of_run hq hzero hstart h.run).append more
  obtain ⟨hsafe, hafter⟩ := hbetween.call hq policy consumed
  have hval := val_parseStatefulPerf hp state (buf ++ more) o policy consumed
  have hrun := PointerParser.Run.call more policy consumed h.run hsafe.no_fault
  have hcount := paid_parseStateful hp state (buf ++ more) o policy consumed
  have hpend := hpending _ _ _ h.run more policy consumed _ hsafe.no_fault hc
  dsimp only at hval hcount ⊢
  rw [hval]
  refine ⟨hrun, h.balanced.add hcount.balanced, fun k => ?_⟩
  have hpaid := h.paid k
  have hk := hcount.count_le k
  have hadvance := hsafe.cursor_le
  have hin := hafter.cursor_le
  have hlen : buf.length ≤ (buf ++ more).length := by
    rw [List.length_append]
    exact Nat.le_add_right _ _
  have hmax : ihtpMaxHeaderLine = 8192 := rfl
  rw [Pi.add_apply, Nat.add_mul, Nat.one_mul]
  by_cases hstopped : state.phase = .error ∨ state.phase = .done
  · obtain ⟨hzero, hsame⟩ := count_of_stopped (p := ⟨q.toMessageParser, f⟩) hstopped hbetween.mode
      (buf ++ more) o policy consumed
    rw [hval] at hsame
    rw [hzero, hsame, Pi.zero_apply]
    split_ifs at hpaid ⊢ <;> omega
  · rw [not_or] at hstopped
    rw [if_neg hstopped.1] at hpaid
    have hreads : state.phase = .startLine ∨ state.phase = .headers := by
      cases hphase : state.phase with
      | startLine => exact .inl rfl
      | headers => exact .inr rfl
      | done => exact absurd hphase hstopped.2
      | error => exact absurd hphase hstopped.1
    obtain hok | hwait | hbad := phase_of_call (p := ⟨q.toMessageParser, f⟩)
      (hq (resolvePolicy policy)).toLawful hbetween.mode hreads (buf ++ more) o consumed
    · rw [reach, if_pos hok] at hk
      split_ifs <;> omega
    · have hshort := hpend.bounded hwait
      rw [reach, hwait, if_neg (by decide)] at hk
      split_ifs <;> omega
    · rw [if_pos hbad]
      rw [reach] at hk
      split_ifs at hk <;> omega

/-- Where every call that waits leaves a short line, the work is linear. -/
lemma linear_of_pendingLine (hq : ∀ policy, q.Lawful policy) (hzero : q.headers zero = [])
    (hstart : q.mode = .headers → q.startSpans zero = [])
    (hp : (⟨q.toMessageParser, f⟩ : PerfParser out).Lawful)
    (hpending : q.OnCalls zero fun state buf r => C state buf → PendingLine state buf r) :
    Linear ⟨q.toMessageParser, f⟩ zero fun state buf more => C state (buf ++ more) := by
  intro buf state o calls total h
  have ht : Tracked q zero buf state o calls total := by
    induction h with
    | init buf => exact ⟨.init buf, ⟨le_rfl, le_rfl⟩, fun _ => Nat.zero_le _⟩
    | call more policy consumed _ hc hr ih =>
      subst hr
      exact ih.call hq hzero hstart hp hpending more policy consumed hc
  have hcursor := (PointerParser.between_of_run hq hzero hstart ht.run).cursor_le
  refine ⟨ht.balanced, fun k => ?_⟩
  have hk := ht.paid k
  split_ifs at hk <;> omega

end Linear

end PerfParser

lemma findLineEnd_unterminated_count {buf : Bytes} (hl : lf ∉ buf) (policy : Policy) :
    (Perf.findLineEnd buf policy).count .findLineEndBytes = buf.length := by
  rw [Perf.findLineEnd, count_bind, memchr_eq_none.mpr hl]
  simp [perfAdd]

/-- A call on a status line that has not ended looks at all of it. -/
lemma responsePerf_unterminated {buf : Bytes} (hl : lf ∉ buf) (policy : Option Policy)
    (consumed : Nat) :
    let r := responsePerf.parseStatefulPerf (parserStateInit .response) buf .zero policy consumed
    r.val.state = parserStateInit .response ∧ r.val.out = .zero ∧
      r.count .findLineEndBytes = buf.length := by
  have hval : (Perf.findLineEnd buf (resolvePolicy policy)).val = .error .incomplete := by
    rw [val_findLineEnd, findLineEnd_unterminated hl]
  have hline : Perf.parseStatusLine 0 buf .zero (resolvePolicy policy) =
      ⟨(.incomplete, .zero, 0), (Perf.findLineEnd buf (resolvePolicy policy)).count⟩ := by
    rw [Perf.parseStatusLine]
    apply Counted.ext
    · rw [val_bind, hval]
      rfl
    · rw [count_bind, hval]
      rfl
  have hcall : responsePerf.parseStatefulPerf (parserStateInit .response) buf .zero policy consumed =
      ⟨⟨.incomplete, parserStateInit .response, .zero, 0⟩,
        (Perf.findLineEnd buf (resolvePolicy policy)).count⟩ := by
    have hmode : ¬(parserStateInit .response).mode ≠ responsePerf.mode := not_not.mpr rfl
    have hphase : (parserStateInit .response).phase = .startLine := rfl
    have hstart : responsePerf.startLinePerf (parserStateInit .response).cursor
        (buf.drop (parserStateInit .response).cursor) .zero (resolvePolicy policy) = _ := hline
    unfold PerfParser.parseStatefulPerf
    rw [if_neg hmode, hphase]
    dsimp only
    rw [hstart]
    apply Counted.ext
    · rfl
    · exact add_zero _
  rw [hcall]
  exact ⟨rfl, rfl, findLineEnd_unterminated_count hl _⟩

/-! ### A byte at a time -/

/-- Runs of the response parser whose calls bring one byte each. A run with as many calls as bytes
began on an empty buffer. -/
abbrev BytewiseRun := responsePerf.Run .zero (fun _ _ more => more.length = 1)

/-- A bytewise run on a status line without an end: the parser stands where it began, and each call
has looked at all the bytes there were. -/
structure Dripped (buf : Bytes) (state : ParserState) (resp : Response Span) (calls : Nat)
    (total : PerfCounters) : Prop where
  state_eq : state = parserStateInit .response
  out_eq : resp = .zero
  calls_le : calls ≤ buf.length
  work : 2 * total .findLineEndBytes + calls * calls = calls * (2 * buf.length + 1)

lemma dripped_of_run {buf : Bytes} {state : ParserState} {resp : Response Span} {calls : Nat}
    {total : PerfCounters} (h : BytewiseRun buf state resp calls total) (hl : lf ∉ buf) :
    Dripped buf state resp calls total := by
  induction h with
  | init buf => exact ⟨rfl, rfl, Nat.zero_le _, by simp⟩
  | @call buf state resp calls total r more policy consumed _ hone hr ih =>
    obtain ⟨rfl, rfl, hle, hwork⟩ := ih fun hm => hl (List.mem_append_left _ hm)
    subst hr
    obtain ⟨hstate, hout, hcount⟩ := responsePerf_unterminated hl policy consumed
    have hlen : (buf ++ more).length = buf.length + 1 := by rw [List.length_append, hone]
    refine ⟨hstate, hout, by omega, ?_⟩
    rw [Pi.add_apply, hcount, hlen]
    calc 2 * (total .findLineEndBytes + (buf.length + 1)) + (calls + 1) * (calls + 1)
        = (2 * total .findLineEndBytes + calls * calls) + (2 * buf.length + 2 * calls + 3) := by ring
      _ = calls * (2 * buf.length + 1) + (2 * buf.length + 2 * calls + 3) := by rw [hwork]
      _ = (calls + 1) * (2 * (buf.length + 1) + 1) := by ring

/-- Any bytes can come one at a time. -/
lemma exists_bytewiseRun (buf : Bytes) : ∃ state resp total,
    BytewiseRun buf state resp buf.length total := by
  induction buf using List.reverseRecOn with
  | nil => exact ⟨_, _, _, .init []⟩
  | append_singleton buf b ih =>
    obtain ⟨state, resp, total, hrun⟩ := ih
    have hnext := hrun.call [b] none 0 rfl rfl
    rw [List.length_append, List.length_singleton]
    exact ⟨_, _, _, hnext⟩

/-- The work of the parser over a whole run, in bytes looked at by any of its scanners and in calls
of any of them, is linear: no counter exceeds the bytes of the input by more than `8193` for each
call, however the input is cut and whatever the policies are, in every run of the request and of the
header parser, and in those of the response parser that are never given a status line that is too
long and not terminated. A status line that does not end costs the square of its length in every run
that brings it one byte a call, and there is such a run. -/
theorem perf_linear (maxHeaders : Nat) :
    requestPerf.Linear .zero (fun _ _ _ => True) ∧
    (headersPerf maxHeaders).Linear [] (fun _ _ _ => True) ∧
    responsePerf.Linear .zero (fun state buf more => ¬LongStartLine state (buf ++ more)) ∧
    ∀ buf, lf ∉ buf →
      (∃ total, BytewiseRun buf (parserStateInit .response) .zero buf.length total) ∧
      ∀ state resp total, BytewiseRun buf state resp buf.length total →
        2 * total .findLineEndBytes = buf.length * (buf.length + 1) := by
  refine ⟨?_, ?_, ?_, ?_⟩
  · apply PerfParser.linear_of_pendingLine (C := fun _ _ => True) requestPointers_lawful rfl nofun
      requestPerf_lawful
    intro buf state req h more policy consumed r hr _
    exact request_pendingLine _ _ _ h _ _ _ _ hr
  · apply PerfParser.linear_of_pendingLine (C := fun _ _ => True)
      (headersPointers_lawful maxHeaders) rfl (fun _ => rfl) (headersPerf_lawful maxHeaders)
    intro buf state headers h more policy consumed r hr _
    exact headers_pendingLine maxHeaders _ _ _ h _ _ _ _ hr
  · apply PerfParser.linear_of_pendingLine (C := fun state buf => ¬LongStartLine state buf)
      responsePointers_lawful rfl nofun responsePerf_lawful
    intro buf state resp h more policy consumed r hr hshort
    exact (response_pendingLine _ _ _ h _ _ _ _ hr).mpr hshort
  · intro buf hl
    constructor
    · obtain ⟨state, resp, total, hrun⟩ := exists_bytewiseRun buf
      obtain ⟨rfl, rfl, -, -⟩ := dripped_of_run hrun hl
      exact ⟨total, hrun⟩
    · intro state resp total hrun
      have hwork := (dripped_of_run hrun hl).work
      rw [Nat.mul_succ] at hwork ⊢
      rw [Nat.mul_left_comm] at hwork
      omega

end IoHttpParser
