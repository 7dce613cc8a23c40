import IoHttpParser.Model.Connection
import IoHttpParser.Proofs.ChunkSlices
import IoHttpParser.Proofs.HeadReader
import IoHttpParser.Proofs.Incremental
import IoHttpParser.Proofs.SpanOrder

/-!
# Connections in pieces

Whatever pieces the bytes of a connection arrive in, as long as no piece makes the parser reject
what it would accept in whole, the consumer delivers the same messages and comes to stand at the
same place.
-/

namespace IoHttpParser
open Resumable Incremental Streaming Region

namespace Endpoint

variable {msg : Type → Type} {e : Endpoint msg} {policy : Option Policy}

/-- What the two directions have in common: a lawful parser that waits at its start, and strings
that stay as they are when more bytes arrive behind an accepted head. -/
structure Lawful (e : Endpoint msg) : Prop where
  parser : ∀ policy, e.parser.Lawful policy
  has_startLine : e.parser.mode ≠ .headers
  startLine_nil : ∀ policy, e.parser.startLine 0 [] e.zero policy = (.incomplete, e.zero, 0)
  resolve_append : ∀ {policy buf consumed},
    (e.parser.parseStateful (parserStateInit e.parser.mode) buf e.zero policy consumed).status = .ok →
    ∀ more, e.resolve (buf ++ more)
        (e.parser.parseStateful (parserStateInit e.parser.mode) buf e.zero policy consumed).out =
      e.resolve buf
        (e.parser.parseStateful (parserStateInit e.parser.mode) buf e.zero policy consumed).out

section Head

variable (he : e.Lawful) (policy)

/-- The reader of a head. -/
abbrev headReader : Reader UInt8 (ParserPhase × msg Span) Status :=
  e.parser.reader (resolvePolicy policy) (he.parser _)

/-- The read of a head from its first byte on. -/
def readHead (buf : Bytes) : Outcome (ParserPhase × msg Span) Status :=
  (e.headReader policy he).read 0 (.startLine, e.zero) buf

/-- A parser state and output that a read of the bytes so far waits with. -/
structure Waits (buf : Bytes) (state : ParserState) (m : msg Span) : Prop where
  mode : state.mode = e.parser.mode
  read : e.readHead policy he buf = .more state.cursor (state.phase, m)

end Head

variable {he : e.Lawful}

lemma init_phase (he : e.Lawful) : (parserStateInit e.parser.mode).phase = .startLine :=
  if_neg he.has_startLine

lemma waits_start (he : e.Lawful) (policy : Option Policy) :
    Waits policy he [] (parserStateInit e.parser.mode) e.zero where
  mode := rfl
  read := by
    rw [init_phase he]
    apply Reader.read_of_more
    rw [MessageParser.reader_decide, MessageParser.decide_startLine, MessageParser.startLineDecision,
      he.startLine_nil]

/-- A call on a head goes on where the read of the bytes so far waits. -/
lemma Waits.matches {buf : Bytes} {state : ParserState} {m : msg Span}
    (h : Waits policy he buf state m) (arrived : Bytes) (consumed : Nat) :
    MessageParser.Matches (parserStateInit e.parser.mode)
      (e.parser.parseStateful state (buf ++ arrived) m policy consumed)
      (e.readHead policy he (buf ++ arrived)) := by
  obtain ⟨hreach, -⟩ := Reader.reach_of_more h.read
  obtain ⟨-, hle, -⟩ := hreach.rest_eq
  have hphase := MessageParser.reader_phase hreach (.inl rfl)
  have hcall := MessageParser.parseStateful_matches (he.parser (resolvePolicy policy)) state h.mode
    hphase (buf ++ arrived) m consumed
  have hread := (hreach.append arrived).read_eq
  rw [Nat.sub_zero] at hle
  rw [Nat.sub_zero, ← List.drop_append_of_le_length hle] at hread
  have hinit {phase : ParserPhase} {cursor : Nat} : ({ state with phase, cursor } : ParserState) =
      { parserStateInit e.parser.mode with phase, cursor } := by
    rw [h.mode]
    rfl
  rw [readHead, hread]
  revert hcall
  cases (e.parser.reader (resolvePolicy policy) (he.parser _)).read state.cursor (state.phase, m)
      ((buf ++ arrived).drop state.cursor) with
  | more q t =>
    intro hcall
    exact hcall.trans (congrArg (ParseResult.mk .incomplete · t.2 0) hinit)
  | done q t =>
    intro hcall
    exact hcall.trans (congrArg (ParseResult.mk .ok · t.2 q) hinit)
  | fail q t st => exact id

variable (policy he) in
/-- What a step makes of the read of all the bytes of a head. -/
def headProgress (buf : Bytes) : Progress (Stage msg) UInt8 (Delivery msg) :=
  let state := parserStateInit e.parser.mode
  match e.readHead policy he buf with
  | .more q (phase, m) => .wait (.head buf { state with phase, cursor := q } m)
  | .done q (_, m) =>
    match e.applySemantics (e.resolve buf m) policy with
    | (.ok, m) => e.enterBody { state with phase := .done, cursor := q } m (buf.drop q)
    | _ => .wait .closed
  | .fail _ _ _ => .wait .closed

/-- A step in a head depends on all the bytes of the head, not on the pieces they arrived in. -/
lemma Waits.step {buf : Bytes} {state : ParserState} {m : msg Span} (h : Waits policy he buf state m)
    (arrived : Bytes) :
    (e.connection policy).step (.head buf state m) arrived =
      headProgress policy he (buf ++ arrived) := by
  have hm := h.matches arrived 0
  simp only [connection, Endpoint.step, headProgress]
  revert hm
  cases e.readHead policy he (buf ++ arrived) with
  | more q t =>
    intro hm
    obtain ⟨phase, o⟩ := t
    rw [show e.parser.parseStateful state (buf ++ arrived) m policy 0 = _ from hm]
  | done q t =>
    intro hm
    obtain ⟨phase, o⟩ := t
    rewrite [show e.parser.parseStateful state (buf ++ arrived) m policy 0 = _ from hm]
    rfl
  | fail q t st =>
    rintro ⟨hst, herr, -, -⟩
    rw [hst]
    cases st with
    | ok | incomplete => cases herr
    | error | errorTooLong | errorTooManyHeaders => rfl

/-- A head that is read ends inside its bytes, is not empty, and reads the same with more behind
it. -/
lemma readHead_done {buf : Bytes} {q : Nat} {t : ParserPhase × msg Span}
    (h : e.readHead policy he buf = .done q t) :
    0 < q ∧ q ≤ buf.length ∧ ∀ more, e.readHead policy he (buf ++ more) = .done q t ∧
      e.resolve (buf ++ more) t.2 = e.resolve buf t.2 := by
  have hcall : e.parser.parseStateful (parserStateInit e.parser.mode) buf e.zero policy 0 = _ :=
    MessageParser.parseStateful_of_done policy (he.parser _) (parserStateInit e.parser.mode) rfl
      (.inl (init_phase he)) 0 (by rw [init_phase he]; exact h)
  have hle := (Reader.done_append h []).1
  refine ⟨?_, by omega, fun more => ⟨(Reader.done_append h more).2, ?_⟩⟩
  · obtain ⟨p, u, rest, -, h' | ⟨st, -, h'⟩ | ⟨n, v, hd, h'⟩⟩ := Reader.exists_reach
      (e.parser.reader (resolvePolicy policy) (he.parser _)) 0 (.startLine, e.zero) buf
    · rw [readHead, h'.2] at h
      cases h
    · rw [readHead, h'] at h
      cases h
    · obtain ⟨ending, -, -, hending, rfl, -⟩ :=
        MessageParser.headerDecision_finish (MessageParser.decide_finish hd).2
      have hpos := hending.length_pos
      rw [readHead, h'] at h
      obtain ⟨rfl, -⟩ := Outcome.done.inj h
      omega
  · have hres := he.resolve_append (show (e.parser.parseStateful (parserStateInit e.parser.mode) buf
      e.zero policy 0).status = .ok by rw [hcall]) more
    rwa [hcall] at hres

/-- A slice of a chunked body, by the machine's run on it. -/
lemma step_chunked {state : ParserState} {m : msg Bytes} {d : ChunkedDecoder} {payload arrived : Bytes}
    (hok : d.Ok) (hdone : d.state ≠ chunkDone) (hlen : arrived.length < 2 ^ 31) :
    (e.connection policy).step (.chunked state m d payload) arrived =
      let r := (chunkMachine false).run d arrived
      match r.verdict with
      | .complete => .next (e.next state) r.rest [⟨m, payload ++ r.out⟩]
      | .more => .wait (.chunked state m r.state (payload ++ r.out))
      | .fail => .wait .closed := by
  obtain ⟨a, ha, hsame⟩ := decodeSlice_run hok hdone hlen
  obtain ⟨r, hr, rfl⟩ := Option.map_eq_some_iff.mp ha
  have hverdict := hsame.verdict
  simp only [connection, Endpoint.step, hr]
  unfold DecodeResult.observe at hsame hverdict
  by_cases hret : 0 ≤ r.ret
  · rw [if_pos hret] at hsame hverdict
    have hpayload := hsame.payload nofun
    have htrailing := hsame.trailing rfl
    rw [if_pos hret, ← hverdict, ← hpayload, ← htrailing]
  · rw [if_neg hret] at hsame hverdict
    rw [if_neg hret]
    by_cases hinc : r.ret = Status.incomplete.code
    · rw [if_pos hinc] at hsame hverdict
      have hpayload := hsame.payload nofun
      have hdecoder := hsame.decoder
      rw [if_pos hinc, ← hverdict, ← hpayload, ← hdecoder]
    · rw [if_neg hinc] at hverdict
      rw [if_neg hinc, ← hverdict]

/-- The part of a fixed body that has not arrived. -/
lemma decodeFixed_of_lt {d : FixedDecoder} {n : Nat} (h : n < d.remaining) :
    decodeFixed d n = (.incomplete, ⟨d.remaining - n, u64 (d.totalDecoded + n)⟩) := by
  have hne : (d.remaining - n == 0) = false := beq_eq_false_iff_ne.mpr (by omega)
  unfold decodeFixed
  rw [if_neg (by omega)]
  dsimp only
  rw [hne]
  rfl

lemma decodeFixed_remaining (d : FixedDecoder) :
    decodeFixed d d.remaining = (.ok, ⟨0, u64 (d.totalDecoded + d.remaining)⟩) := by
  unfold decodeFixed
  rw [if_neg (by omega), Nat.sub_self]
  rfl

/-- A slice of a fixed body waits for the rest of it, or leaves what is behind it. -/
lemma step_fixed (state : ParserState) (m : msg Bytes) (d : FixedDecoder) (payload arrived : Bytes) :
    (e.connection policy).step (.fixed state m d payload) arrived =
      if arrived.length < d.remaining then
        .wait (.fixed state m ⟨d.remaining - arrived.length, u64 (d.totalDecoded + arrived.length)⟩
          (payload ++ arrived))
      else .next (e.next state) (arrived.drop d.remaining) [⟨m, payload ++ arrived.take d.remaining⟩] := by
  simp only [connection, Endpoint.step]
  by_cases hlt : arrived.length < d.remaining
  · rw [if_pos hlt, Nat.min_eq_left hlt.le, decodeFixed_of_lt hlt, List.take_length]
  · rw [if_neg hlt, Nat.min_eq_right (Nat.le_of_not_lt hlt), decodeFixed_remaining]

/-! ### The process resumes -/

variable (policy he) in
/-- What holds of the stage between two steps. -/
def StageOk : Stage msg → Prop
  | .head buf state m => Waits policy he buf state m
  | .fixed state _ _ _ => state.mode = e.parser.mode
  | .chunked state _ d _ => state.mode = e.parser.mode ∧ d.Ok ∧ d.state ≠ chunkDone
  | .handedOver _ _ | .closed => True
  | .hung => False

/-- The bytes of a head are kept until it is complete. -/
def held : Stage msg → Nat
  | .head buf _ _ => buf.length
  | _ => 0

lemma stageOk_next {state : ParserState} (he : e.Lawful) (policy : Option Policy)
    (hmode : state.mode = e.parser.mode) : StageOk policy he (e.next state) := by
  have hreset : parserStateReset state = parserStateInit e.parser.mode := by
    unfold parserStateReset parserStateInit
    rw [hmode]
  unfold next
  rw [hreset]
  exact waits_start he policy

/-- Every way into a body takes the head, and leaves a stage that is good. -/
lemma enterBody_cases (he : e.Lawful) (policy : Option Policy) (state : ParserState)
    (hmode : state.mode = e.parser.mode) (m : msg Bytes) (rest : Bytes) :
    ∃ s out, (∀ rest, e.enterBody state m rest = .next s rest out) ∧ StageOk policy he s ∧
      held s = 0 ∧ (e.connection policy).fuel s rest ≤ 2 * rest.length + 2 := by
  have hnext : (e.connection policy).fuel (e.next state) rest ≤ 2 * rest.length + 2 := by
    change 2 * ([] ++ rest).length + 1 ≤ _
    rw [List.nil_append]
    omega
  unfold enterBody
  by_cases hup : e.upgraded m = true
  · exact ⟨.handedOver m [], [], fun rest => if_pos hup, trivial, rfl, Nat.le_refl _⟩
  · simp only [if_neg hup]
    cases e.bodyMode m with
    | none => exact ⟨e.next state, _, fun _ => rfl, stageOk_next he policy hmode, rfl, hnext⟩
    | fixed => exact ⟨_, _, fun _ => rfl, hmode, rfl, Nat.le_refl _⟩
    | chunked => exact ⟨_, _, fun _ => rfl, ⟨hmode, ok_zero true, nofun⟩, rfl, Nat.le_refl _⟩
    | eof => exact ⟨_, _, fun _ => rfl, trivial, rfl, Nat.le_refl _⟩

section Head

variable {buf arrived rest : Bytes} {s : Stage msg} {out : List (Delivery msg)}

/-- A head that waits keeps all its bytes. -/
lemma headProgress_wait (h : headProgress policy he buf = .wait s) :
    (∃ q phase m, e.readHead policy he buf = .more q (phase, m) ∧
      s = .head buf ⟨e.parser.mode, phase, q⟩ m) ∨ s = .closed := by
  unfold headProgress at h
  cases hread : e.readHead policy he buf with
  | more q t =>
    rw [hread] at h
    exact .inl ⟨q, t.1, t.2, rfl, (Progress.wait.inj h).symm⟩
  | done q t =>
    rw [hread] at h
    dsimp only at h
    cases happly : e.applySemantics (e.resolve buf t.2) policy with
    | mk st m =>
      rw [happly] at h
      cases st with
      | ok =>
        obtain ⟨s', o, henter, -⟩ :=
          enterBody_cases he policy ⟨e.parser.mode, .done, q⟩ rfl m []
        have hnext := (henter (buf.drop q)).symm.trans h
        cases hnext
      | incomplete | error | errorTooLong | errorTooManyHeaders =>
        exact .inr (Progress.wait.inj h).symm
  | fail q t st =>
    rw [hread] at h
    exact .inr (Progress.wait.inj h).symm

/-- A head that is complete is read, accepted, and left for its body. -/
lemma headProgress_next (h : headProgress policy he buf = .next s rest out) :
    ∃ q t m, e.readHead policy he buf = .done q t ∧
      e.applySemantics (e.resolve buf t.2) policy = (.ok, m) ∧
      e.enterBody ⟨e.parser.mode, .done, q⟩ m (buf.drop q) = .next s rest out := by
  unfold headProgress at h
  cases hread : e.readHead policy he buf with
  | more q t =>
    rw [hread] at h
    cases h
  | done q t =>
    rw [hread] at h
    dsimp only at h
    cases happly : e.applySemantics (e.resolve buf t.2) policy with
    | mk st m =>
      rw [happly] at h
      cases st with
      | ok => exact ⟨q, t, m, rfl, happly, h⟩
      | incomplete | error | errorTooLong | errorTooManyHeaders => cases h
  | fail q t st =>
    rw [hread] at h
    cases h

lemma headProgress_append (h : headProgress policy he buf = .next s rest out) (more : Bytes) :
    headProgress policy he (buf ++ more) = .next s (rest ++ more) out := by
  obtain ⟨q, t, m, hread, happly, henter⟩ := headProgress_next h
  obtain ⟨-, hq, hmore⟩ := readHead_done hread
  obtain ⟨hread', hres⟩ := hmore more
  obtain ⟨s', o, hall, -⟩ := enterBody_cases he policy ⟨e.parser.mode, .done, q⟩ rfl m []
  rw [hall] at henter
  obtain ⟨rfl, rfl, rfl⟩ := Progress.next.inj henter
  unfold headProgress
  rw [hread']
  dsimp only
  rw [hres, happly, List.drop_append_of_le_length hq]
  exact hall _

end Head

/-- A connection closed by a rejection. -/
def Failed (s : Stage msg) : Prop := s = .closed

section Stages

variable {state : ParserState}

lemma head_resumesAt {buf : Bytes} {m : msg Span} (hs : Waits policy he buf state m) :
    (e.connection policy).ResumesAt (StageOk policy he) Failed held (2 ^ 31) (.head buf state m) where
  wait_inv := by
    intro xs s' _ hstep
    obtain ⟨q, phase, m', hread, rfl⟩ | rfl := headProgress_wait (by rwa [← hs.step])
    · exact ⟨⟨rfl, hread⟩, List.length_append.le⟩
    · exact ⟨trivial, Nat.zero_le _⟩
  next_inv := by
    intro xs s' rest out _ hstep
    obtain ⟨q, t, m', hread, -, henter⟩ := headProgress_next (by rwa [← hs.step])
    obtain ⟨hpos, hq, -⟩ := readHead_done hread
    obtain ⟨s, o, hall, hok, hheld, hfuel⟩ := enterBody_cases he policy
      ⟨e.parser.mode, .done, q⟩ rfl m' rest
    rw [hall] at henter
    obtain ⟨rfl, rfl, rfl⟩ := Progress.next.inj henter
    have hbytes : (buf ++ xs).length = buf.length + xs.length := List.length_append
    have hrest : ((buf ++ xs).drop q).length = (buf ++ xs).length - q := List.length_drop
    have hlast : (e.connection policy).fuel (.head buf state m) xs = 2 * (buf ++ xs).length + 1 := rfl
    have hkept : held (.head buf state m) = buf.length := rfl
    refine ⟨hok, ?_, ?_⟩ <;> omega
  next_append := by
    intro xs s' rest out hstep ys _
    have hnext := headProgress_append ((hs.step xs).symm.trans hstep) ys
    rw [List.append_assoc] at hnext
    exact (hs.step (xs ++ ys)).trans hnext
  wait_append := by
    intro xs s' hstep hs' ys _
    obtain ⟨q, phase, m', hread, rfl⟩ | rfl := headProgress_wait (by rwa [← hs.step])
    · have hwaits : Waits policy he (buf ++ xs) ⟨e.parser.mode, phase, q⟩ m' := ⟨rfl, hread⟩
      have hmore := hwaits.step ys
      rw [List.append_assoc] at hmore
      exact (hs.step (xs ++ ys)).trans hmore.symm
    · exact absurd rfl hs'

lemma fuel_next (xs : Bytes) : (e.connection policy).fuel (e.next state) xs = 2 * xs.length + 1 := by
  change 2 * ([] ++ xs).length + 1 = _
  rw [List.nil_append]

lemma fixed_resumesAt (hmode : state.mode = e.parser.mode) (m : msg Bytes) (d : FixedDecoder)
    (payload : Bytes) :
    (e.connection policy).ResumesAt (StageOk policy he) Failed held (2 ^ 31)
      (.fixed state m d payload) where
  wait_inv := by
    intro xs s' _ hstep
    rw [step_fixed] at hstep
    split at hstep <;> cases hstep
    exact ⟨hmode, Nat.zero_le _⟩
  next_inv := by
    intro xs s' rest out _ hstep
    rw [step_fixed] at hstep
    split at hstep <;> cases hstep
    have hdrop : (xs.drop d.remaining).length = xs.length - d.remaining := List.length_drop
    have hlast : (e.connection policy).fuel (.fixed state m d payload) xs = 2 * xs.length + 2 := rfl
    refine ⟨stageOk_next he policy hmode, ?_, by rw [fuel_next]; omega⟩
    change 0 + _ ≤ 0 + _
    omega
  next_append := by
    intro xs s' rest out hstep ys _
    rw [step_fixed] at hstep
    split at hstep <;> cases hstep
    rename_i hge
    have hle : d.remaining ≤ xs.length := Nat.le_of_not_lt hge
    rw [step_fixed, if_neg (by rw [List.length_append]; omega), List.drop_append_of_le_length hle,
      List.take_append_of_le_length hle]
  wait_append := by
    intro xs s' hstep hs' ys _
    rw [step_fixed] at hstep
    split at hstep <;> cases hstep
    rename_i hlt
    clear hs'
    have happ : (xs ++ ys).length = xs.length + ys.length := List.length_append
    have hrest : d.remaining - (xs ++ ys).length = d.remaining - xs.length - ys.length := by omega
    rw [step_fixed, step_fixed]
    dsimp only
    by_cases hall : (xs ++ ys).length < d.remaining
    · rw [if_pos hall, if_pos (by omega), u64_add_u64, Nat.add_assoc, ← happ, ← hrest,
        List.append_assoc]
    · rw [if_neg hall, if_neg (by omega), List.drop_append, List.drop_eq_nil_of_le hlt.le,
        List.take_append, List.take_of_length_le hlt.le, List.nil_append, List.append_assoc]

lemma chunked_resumesAt (hmode : state.mode = e.parser.mode) (m : msg Bytes) {d : ChunkedDecoder}
    (hok : d.Ok) (hdone : d.state ≠ chunkDone) (payload : Bytes) :
    (e.connection policy).ResumesAt (StageOk policy he) Failed held (2 ^ 31)
      (.chunked state m d payload) where
  wait_inv := by
    intro xs s' hlen hstep
    have hlen : xs.length < 2 ^ 31 := (Nat.zero_add _).symm.trans_lt hlen
    rw [step_chunked hok hdone hlen] at hstep
    dsimp only at hstep
    cases hv : ((chunkMachine false).run d xs).verdict with
    | complete =>
      rw [hv] at hstep
      cases hstep
    | more =>
      rw [hv] at hstep
      obtain rfl := Progress.wait.inj hstep
      exact ⟨⟨hmode, resumable hok hv⟩, Nat.zero_le _⟩
    | fail =>
      rw [hv] at hstep
      obtain rfl := Progress.wait.inj hstep
      exact ⟨trivial, Nat.zero_le _⟩
  next_inv := by
    intro xs s' rest out hlen hstep
    have hlen : xs.length < 2 ^ 31 := (Nat.zero_add _).symm.trans_lt hlen
    rw [step_chunked hok hdone hlen] at hstep
    dsimp only at hstep
    cases hv : ((chunkMachine false).run d xs).verdict with
    | complete =>
      rw [hv] at hstep
      obtain ⟨rfl, rfl, rfl⟩ := Progress.next.inj hstep
      have hsuffix := (Transducer.rest_suffix (m := chunkMachine false) d xs).length_le
      have hlast : (e.connection policy).fuel (.chunked state m d payload) xs = 2 * xs.length + 2 := rfl
      refine ⟨stageOk_next he policy hmode, ?_, by rw [fuel_next]; omega⟩
      change 0 + _ ≤ 0 + _
      omega
    | more | fail =>
      rw [hv] at hstep
      cases hstep
  next_append := by
    intro xs s' rest out hstep ys hlen
    have hlen : (xs ++ ys).length < 2 ^ 31 := (Nat.zero_add _).symm.trans_lt hlen
    have happ : (xs ++ ys).length = xs.length + ys.length := List.length_append
    rw [step_chunked hok hdone (by omega)] at hstep
    rw [step_chunked hok hdone hlen]
    dsimp only at hstep ⊢
    cases hv : ((chunkMachine false).run d xs).verdict with
    | complete =>
      rw [hv] at hstep
      obtain ⟨rfl, rfl, rfl⟩ := Progress.next.inj hstep
      rw [Transducer.run_append_of_not_more (by rw [hv]; decide)]
      dsimp only
      rw [hv]
    | more | fail =>
      rw [hv] at hstep
      cases hstep
  wait_append := by
    intro xs s' hstep hs' ys hlen
    have hlen : (xs ++ ys).length < 2 ^ 31 := (Nat.zero_add _).symm.trans_lt hlen
    have happ : (xs ++ ys).length = xs.length + ys.length := List.length_append
    rw [step_chunked hok hdone (by omega)] at hstep
    rw [step_chunked hok hdone hlen]
    dsimp only at hstep ⊢
    cases hv : ((chunkMachine false).run d xs).verdict with
    | complete =>
      rw [hv] at hstep
      cases hstep
    | more =>
      rw [hv] at hstep
      obtain rfl := Progress.wait.inj hstep
      obtain ⟨hok', hdone'⟩ := resumable hok hv
      rw [step_chunked hok' hdone' (by omega), Transducer.run_append_of_more hv]
      dsimp only
      rw [List.append_assoc]
    | fail =>
      rw [hv] at hstep
      exact absurd (Progress.wait.inj hstep).symm hs'

lemma handedOver_resumesAt (m : msg Bytes) (bytes : Bytes) :
    (e.connection policy).ResumesAt (StageOk policy he) Failed held (2 ^ 31)
      (.handedOver m bytes) where
  wait_inv := by
    intro xs s' _ hstep
    obtain rfl := Progress.wait.inj hstep
    exact ⟨trivial, Nat.zero_le _⟩
  next_inv := by
    intro xs s' rest out _ hstep
    cases hstep
  next_append := by
    intro xs s' rest out hstep
    cases hstep
  wait_append := by
    intro xs s' hstep _ ys _
    obtain rfl := Progress.wait.inj hstep
    change Progress.wait (Stage.handedOver m (bytes ++ (xs ++ ys))) =
      Progress.wait (Stage.handedOver m (bytes ++ xs ++ ys))
    rw [List.append_assoc]

lemma closed_resumesAt :
    (e.connection policy).ResumesAt (StageOk policy he) Failed held (2 ^ 31) .closed where
  wait_inv := by
    intro xs s' _ hstep
    obtain rfl := Progress.wait.inj hstep
    exact ⟨trivial, Nat.zero_le _⟩
  next_inv := by
    intro xs s' rest out _ hstep
    cases hstep
  next_append := by
    intro xs s' rest out hstep
    cases hstep
  wait_append := by
    intro xs s' hstep hs'
    exact absurd (Progress.wait.inj hstep).symm hs'

end Stages

variable (policy) in
/-- A connection resumes at every stage: its pieces may be cut anywhere. -/
theorem connection_resumes (he : e.Lawful) :
    (e.connection policy).Resumes (StageOk policy he) Failed held (2 ^ 31) where
  fuel_pos s xs := by
    cases s <;> exact Nat.succ_pos _
  resumesAt s hs := by
    cases s with
    | head buf state m => exact head_resumesAt hs
    | fixed state m d payload => exact fixed_resumesAt hs m d payload
    | chunked state m d payload => exact chunked_resumesAt hs.1 m hs.2.1 hs.2.2 payload
    | handedOver m bytes => exact handedOver_resumesAt m bytes
    | closed => exact closed_resumesAt
    | hung => exact hs.elim
  failed_step := by
    rintro s rfl xs
    rfl

end Endpoint

/-! ### The two directions -/

/-- After an accepted head every span of the output lies in the buffer. -/
lemma read_of_accepted {out : Type} {p : PointerParser out} (hp : ∀ policy, p.Lawful policy)
    {zero : out} (hzero : p.headers zero = []) (hmode : p.mode ≠ .headers) {policy : Option Policy}
    {buf : Bytes} {consumed : Nat}
    (h : (p.parseStateful (parserStateInit p.mode) buf zero policy consumed).status = .ok)
    (more : Bytes) :
    ∀ s ∈ p.spans .done (p.parseStateful (parserStateInit p.mode) buf zero policy consumed).out,
      s.read (buf ++ more) = s.read buf := by
  have hbetween := (PointerParser.between_init hzero (fun h => absurd h hmode) buf).call hp policy
    consumed
  have hm := MessageParser.parseStateful_matches (hp (resolvePolicy policy)).toLawful
    (parserStateInit p.mode) rfl (MessageParser.parserStateInit_phase p.mode) buf zero consumed
  revert h hm hbetween
  generalize p.parseStateful (parserStateInit p.mode) buf zero policy consumed = r
  intro h hbetween hm s hs
  have hphase : r.state.phase = .done := by
    rcases ho : (p.toMessageParser.reader (resolvePolicy policy)
      (hp (resolvePolicy policy)).toLawful).read (parserStateInit p.mode).cursor
      ((parserStateInit p.mode).phase, zero) (buf.drop (parserStateInit p.mode).cursor) with
      ⟨q, t⟩ | ⟨q, t, st⟩ | ⟨q, t⟩
    · rw [ho] at hm
      obtain rfl : r = _ := hm
      cases h
    · rw [ho] at hm
      obtain ⟨hst, herr, -⟩ := hm
      rw [← hst, h] at herr
      cases herr
    · rw [ho] at hm
      obtain rfl : r = _ := hm
      rfl
  have horder := hbetween.2.inOrder
  have hspans := horder.spans (by rw [hphase]; decide)
  rw [hphase] at hspans
  have hlt := hspans.below s hs
  have hcursor := horder.cursor_le
  exact Span.read_append (by omega) more

lemma resolve_headers_append {hs : List (Header Span)} {buf more : Bytes}
    (h : ∀ s ∈ headerSpans hs, s.read (buf ++ more) = s.read buf) :
    hs.map (Header.resolve (buf ++ more)) = hs.map (Header.resolve buf) := by
  apply List.map_congr_left
  intro g hg
  have hname := h g.name (List.mem_flatMap.mpr ⟨g, hg, by simp⟩)
  have hvalue := h g.value (List.mem_flatMap.mpr ⟨g, hg, by simp⟩)
  unfold Header.resolve
  rw [hname, hvalue]

lemma Request.resolve_append {req : Request Span} {buf more : Bytes}
    (h : ∀ s ∈ requestPointers.spans .done req, s.read (buf ++ more) = s.read buf) :
    req.resolve (buf ++ more) = req.resolve buf := by
  have hheaders := resolve_headers_append fun s hs => h s (List.mem_append_right _ hs)
  have hmethod := h req.methodStr (List.mem_append_left _ (List.mem_cons_self ..))
  have hpath := h req.path (List.mem_append_left _ (List.mem_cons_of_mem _ (List.mem_cons_self ..)))
  change req.headers.map _ = req.headers.map _ at hheaders
  unfold Request.resolve
  rw [hmethod, hpath, hheaders]

lemma Response.resolve_append {resp : Response Span} {buf more : Bytes}
    (h : ∀ s ∈ responsePointers.spans .done resp, s.read (buf ++ more) = s.read buf) :
    resp.resolve (buf ++ more) = resp.resolve buf := by
  have hheaders := resolve_headers_append fun s hs => h s (List.mem_append_right _ hs)
  have hreason := h resp.reason (List.mem_append_left _ (List.mem_cons_self ..))
  change resp.headers.map _ = resp.headers.map _ at hheaders
  unfold Response.resolve
  rw [hreason, hheaders]

lemma requestEndpoint_lawful : requestEndpoint.Lawful where
  parser := requestParser_lawful
  has_startLine := nofun
  startLine_nil _ := rfl
  resolve_append h more := Request.resolve_append
    (read_of_accepted (p := requestPointers) requestPointers_lawful rfl nofun h more)

lemma responseEndpoint_lawful : responseEndpoint.Lawful where
  parser := responseParser_lawful
  has_startLine := nofun
  startLine_nil _ := rfl
  resolve_append h more := Response.resolve_append
    (read_of_accepted (p := responsePointers) responsePointers_lawful rfl nofun h more)

end IoHttpParser
