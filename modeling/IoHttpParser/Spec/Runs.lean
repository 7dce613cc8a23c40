import Mathlib.Logic.Relation
import IoHttpParser.Model.Pointers
import IoHttpParser.Spec.Grammar

/-!
# Runs of the stateful parsers

A caller appends to one buffer and calls a stateful entry point again and again, with the state and
the output that the call before left. What such a run may rely on is stated on the state, the buffer
and the output between two calls.
-/

namespace IoHttpParser

/-- The moves of the phase. -/
inductive PhaseStep : ParserPhase → ParserPhase → Prop where
  | startLine : PhaseStep .startLine .headers
  | headers : PhaseStep .headers .done
  | badStartLine : PhaseStep .startLine .error
  | badHeaders : PhaseStep .headers .error

/-- Spans that follow one another with bytes between them, and end in front of `limit`. -/
structure WireOrder (spans : List Span) (limit : Nat) : Prop where
  ordered : spans.Pairwise (fun a b => a.start + a.len < b.start)
  below : ∀ s ∈ spans, s.start + s.len < limit

/-- The name and the value of every header. -/
def headerSpans (headers : List (Header Span)) : List Span :=
  headers.flatMap (fun h => [h.name, h.value])

namespace PointerParser

variable {out : Type} (p : PointerParser out)

/-- The spans of an output: those of the start line, once it is accepted, and the headers'. -/
def spans (phase : ParserPhase) (o : out) : List Span :=
  (if phase = .startLine then [] else p.startSpans o) ++ headerSpans (p.headers o)

/-- Calls on ever longer buffers, from the initial state and a zeroed output on. -/
inductive Run (zero : out) : Bytes → ParserState → out → Prop where
  | init (buf : Bytes) : Run zero buf (parserStateInit p.mode) zero
  | call {buf : Bytes} {state : ParserState} {o : out} {r : ParseResult out} (more : Bytes)
      (policy : Option Policy) (consumed : Nat) (h : Run zero buf state o)
      (hr : p.parseStatefulAt state (buf ++ more) o policy consumed = some r) :
      Run zero (buf ++ more) r.state r.out

/-- What a caller may rely on between two calls. -/
structure InOrder (buf : Bytes) (state : ParserState) (o : out) : Prop where
  cursor_le : state.cursor ≤ buf.length
  count_le : (p.headers o).length ≤ p.capacity
  spans : state.phase ≠ .error → WireOrder (p.spans state.phase o) state.cursor
  names : state.phase ≠ .error → ∀ h ∈ p.headers o, IsToken (h.name.read buf)

/-- A call that does not fault, returns what the parser over suffixes returns, and moves on. -/
structure SafeCall (state : ParserState) (buf : Bytes) (o : out) (policy : Option Policy)
    (consumed : Nat) : Prop where
  no_fault : p.parseStatefulAt state buf o policy consumed =
    some (p.parseStateful state buf o policy consumed)
  cursor_le : state.cursor ≤ (p.parseStateful state buf o policy consumed).state.cursor
  phase : Relation.ReflTransGen PhaseStep state.phase
    (p.parseStateful state buf o policy consumed).state.phase

/-- Runs all of whose calls meet a condition on the state before the call, the buffer and the
result. -/
inductive RunWith (zero : out) (C : ParserState → Bytes → ParseResult out → Prop) :
    Bytes → ParserState → out → Prop where
  | init (buf : Bytes) : RunWith zero C buf (parserStateInit p.mode) zero
  | call {buf : Bytes} {state : ParserState} {o : out} {r : ParseResult out} (more : Bytes)
      (policy : Option Policy) (consumed : Nat) (h : RunWith zero C buf state o)
      (hr : p.parseStatefulAt state (buf ++ more) o policy consumed = some r)
      (hc : C state (buf ++ more) r) : RunWith zero C (buf ++ more) r.state r.out

/-- A property of every call that a run can make next. -/
def OnCalls (zero : out) (C : ParserState → Bytes → ParseResult out → Prop) : Prop :=
  ∀ buf state o, p.Run zero buf state o → ∀ more policy consumed r,
    p.parseStatefulAt state (buf ++ more) o policy consumed = some r → C state (buf ++ more) r

/-- At every point of every run the spans are in order, and the next call is safe. -/
def RunsInOrder (zero : out) : Prop :=
  ∀ buf state o, p.Run zero buf state o → p.InOrder buf state o ∧
    ∀ more policy consumed, p.SafeCall state (buf ++ more) o policy consumed

end PointerParser

/-- The line a caller has to keep is bounded: a call that waits has at most that much left unread,
and an unterminated line that is longer is rejected. -/
structure PendingLine {out : Type} (state : ParserState) (buf : Bytes) (r : ParseResult out) :
    Prop where
  bounded : r.status = .incomplete → buf.length - r.state.cursor ≤ 8192
  rejected : state.phase = .startLine ∨ state.phase = .headers → lf ∉ buf.drop state.cursor →
    8192 < buf.length - state.cursor → r.status.isError = true

/-- A start line that is not terminated and longer than a line may be. -/
def LongStartLine (state : ParserState) (buf : Bytes) : Prop :=
  state.phase = .startLine ∧ lf ∉ buf.drop state.cursor ∧ 8192 < buf.length - state.cursor

end IoHttpParser
