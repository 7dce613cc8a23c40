import IoHttpParser.Proofs.MessageReader

/-!
# Incremental parsing

A consumer that gets its input piece by piece calls a stateful entry point on ever longer
prefixes, with the state and the output the call before left. As long as every call asked for
more, the next one ends as a single call on its prefix would.
-/

namespace IoHttpParser
open Memory Incremental

/-- The signature of the stateful entry points. -/
abbrev StatefulCall (out : Type) :=
  ParserState → Bytes → out → Option Policy → Nat → ParseResult out

/-- Calls on the prefixes of the given lengths in turn, with the state, output and byte count
of the call before; `none` once a call returns something other than `INCOMPLETE`. -/
def feedPrefixes {out : Type} (call : StatefulCall out) (policy : Option Policy) (buf : Bytes) :
    List Nat → ParserState × out × Nat → Option (ParserState × out × Nat)
  | [], s => some s
  | l :: ls, (state, o, consumed) =>
    let r := call state (buf.take l) o policy consumed
    if r.status = .incomplete then feedPrefixes call policy buf ls (r.state, r.out, r.bytesConsumed)
    else none

/-- What a consumer can rely on after a call. -/
structure SameVerdict {out : Type} (r r' : ParseResult out) : Prop where
  status : r.status = r'.status
  bytesConsumed : r.bytesConsumed = r'.bytesConsumed
  phase : r.state.phase = r'.state.phase
  progress : r.status = .ok ∨ r.status = .incomplete →
    r.state.cursor = r'.state.cursor ∧ r.out = r'.out

/-- Resuming after waits ends as one fresh call on the last prefix does. -/
def ResumesAsOneShot {out : Type} (call : StatefulCall out) (mode : ParserMode) (zero : out) :
    Prop :=
  ∀ (policy : Option Policy) (buf : Bytes) (ls : List Nat) (l consumed : Nat)
    (state : ParserState) (o : out) (c : Nat),
    (ls ++ [l]).Pairwise (· ≤ ·) →
    feedPrefixes call policy buf ls (parserStateInit mode, zero, consumed) = some (state, o, c) →
    SameVerdict (call state (buf.take l) o policy c)
      (call (parserStateInit mode) (buf.take l) zero policy consumed)

namespace MessageParser

variable {out : Type} {p : MessageParser out} {policy : Policy}

/-- A reader that has not finished is in one of the two reading phases. -/
lemma reader_phase {hp : p.Lawful policy} {pos q : Nat} {s t : ParserPhase × out}
    {xs rest : Bytes} (h : Reader.Reach (p.reader policy hp) pos s xs q t rest)
    (hs : s.1 = .startLine ∨ s.1 = .headers) : t.1 = .startLine ∨ t.1 = .headers := by
  refine h.invariant (I := fun _ s _ => s.1 = .startLine ∨ s.1 = .headers) ?_ hs
  intro pos s xs n t hI hd
  rw [reader_decide, decide] at hd
  split at hd
  · exact .inr (startLineDecision_advance hd).2
  · obtain ⟨hs, _, rfl⟩ := headerDecision_advance hd
    exact hI

lemma Matches.same {state state' : ParserState} {r r' : ParseResult out}
    {oc : Outcome (ParserPhase × out) Status} (h : Matches state r oc) (h' : Matches state' r' oc) :
    SameVerdict r r' := by
  cases oc with
  | more q s =>
    obtain ⟨phase, o⟩ := s
    obtain rfl : r = _ := h
    obtain rfl : r' = _ := h'
    exact ⟨rfl, rfl, rfl, fun _ => ⟨rfl, rfl⟩⟩
  | done q s =>
    obtain ⟨phase, o⟩ := s
    obtain rfl : r = _ := h
    obtain rfl : r' = _ := h'
    exact ⟨rfl, rfl, rfl, fun _ => ⟨rfl, rfl⟩⟩
  | fail q s st =>
    obtain ⟨rfl, he, hph, hb⟩ := h
    obtain ⟨hst, _, hph', hb'⟩ := h'
    refine ⟨hst.symm, hb.trans hb'.symm, hph.trans hph'.symm, ?_⟩
    rintro (hok | hok) <;> rw [hok] at he <;> cases he

lemma Matches.incomplete {state : ParserState} {r : ParseResult out}
    {oc : Outcome (ParserPhase × out) Status} (h : Matches state r oc)
    (hr : r.status = .incomplete) :
    oc = .more r.state.cursor (r.state.phase, r.out) ∧ r.state.mode = state.mode := by
  cases oc with
  | more q s =>
    obtain ⟨phase, o⟩ := s
    obtain rfl : r = _ := h
    exact ⟨rfl, rfl⟩
  | done q s =>
    obtain ⟨phase, o⟩ := s
    obtain rfl : r = _ := h
    cases hr
  | fail q s st =>
    obtain ⟨rfl, he, _, _⟩ := h
    rw [hr] at he
    cases he

/-- Calls that all wait leave the position and state at which a fed reader waits. -/
lemma feedPrefixes_feed {policy : Option Policy} (hp : p.Lawful (resolvePolicy policy))
    {buf : Bytes} {ls : List Nat} {state state' : ParserState} {o o' : out} {c c' : Nat}
    (hmode : state.mode = p.mode) (hphase : state.phase = .startLine ∨ state.phase = .headers)
    (h : feedPrefixes p.parseStateful policy buf ls (state, o, c) = some (state', o', c')) :
    Reader.feed (p.reader _ hp) buf ls state.cursor (state.phase, o) =
        some (state'.cursor, (state'.phase, o')) ∧
      state'.mode = p.mode ∧ (state'.phase = .startLine ∨ state'.phase = .headers) := by
  induction ls generalizing state o c with
  | nil =>
    obtain ⟨rfl, rfl, _⟩ : state = state' ∧ o = o' ∧ c = c' := by simpa [feedPrefixes] using h
    exact ⟨rfl, hmode, hphase⟩
  | cons l ls ih =>
    rw [feedPrefixes] at h
    split at h
    · rename_i hinc
      have hm := parseStateful_matches hp _ hmode hphase (buf.take l) o c
      obtain ⟨hread, hmode'⟩ := hm.incomplete hinc
      have hphase' := reader_phase (Reader.reach_of_more hread).1 hphase
      rw [Reader.feed, hread]
      exact ih (hmode'.trans hmode) hphase' h
    · cases h

lemma resumes (hp : ∀ policy, p.Lawful policy) (zero : out) :
    ResumesAsOneShot p.parseStateful p.mode zero := by
  intro policy buf ls l consumed state o c hsort hfeed
  have hinit := parserStateInit_phase p.mode
  obtain ⟨hread, hmode, hphase⟩ := feedPrefixes_feed (hp _) rfl hinit hfeed
  have hlast := parseStateful_matches (hp (resolvePolicy policy)) _ hmode hphase (buf.take l) o c
  have hfresh := parseStateful_matches (hp (resolvePolicy policy)) (parserStateInit p.mode) rfl
    hinit (buf.take l) zero consumed
  rw [Reader.feed_read hsort hread] at hlast
  exact hlast.same hfresh

end MessageParser

/-- Incremental parsing is one-shot parsing, for each of the stateful entry points. -/
theorem parse_resumes_as_oneShot :
    ResumesAsOneShot parseRequestStateful .request .zero ∧
    ResumesAsOneShot parseResponseStateful .response .zero ∧
    ∀ maxHeaders, ResumesAsOneShot (parseHeadersStateful maxHeaders) .headers [] :=
  ⟨MessageParser.resumes requestParser_lawful .zero,
    MessageParser.resumes responseParser_lawful .zero,
    fun maxHeaders => MessageParser.resumes (headersParser_lawful maxHeaders) []⟩

/-- A header block cut inside CRLF and before a continuation line. -/
theorem parse_resumes_across_fold :
    SameVerdict
      (parseHeadersStateful 4 ⟨.headers, .headers, 5⟩ (ascii "a:b\r\n c\r\n\r\n") [⟨⟨0, 1⟩, ⟨2, 1⟩⟩]
        (some .lenient) 0)
      (parseHeadersStateful 4 (parserStateInit .headers) (ascii "a:b\r\n c\r\n\r\n") []
        (some .lenient) 0) :=
  parse_resumes_as_oneShot.2.2 4 (some .lenient) (ascii "a:b\r\n c\r\n\r\n") [4, 5] 11 0
    ⟨.headers, .headers, 5⟩ [⟨⟨0, 1⟩, ⟨2, 1⟩⟩] 0 (by decide) (by decide)

end IoHttpParser
