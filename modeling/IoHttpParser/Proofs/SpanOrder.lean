import IoHttpParser.Proofs.Pointers
import IoHttpParser.Spec.Runs

/-!
# Spans over incremental runs

A header line puts its spans behind all the spans in front of it, and a continuation line moves the
end of the last one to its own end. So the spans stay in wire order, which is also why no pointer
difference of the next call wraps around.
-/

namespace IoHttpParser
open Memory Incremental Region

/-! ### Spans in order -/

section Order

variable {spans : List Span} {s t : Span} {limit upto : Nat}

lemma WireOrder.nil (limit : Nat) : WireOrder [] limit :=
  ⟨.nil, fun s hs => by cases hs⟩

lemma WireOrder.concat (h : WireOrder spans limit) (hs : limit ≤ s.start)
    (hend : s.start + s.len < upto) : WireOrder (spans ++ [s]) upto := by
  refine ⟨List.pairwise_append.mpr ⟨h.ordered, List.pairwise_singleton _ _, ?_⟩, ?_⟩
  · intro a ha b hb
    obtain rfl := List.mem_singleton.mp hb
    exact (h.below a ha).trans_le hs
  · intro a ha
    cases List.mem_append.mp ha with
    | inl ha =>
      have := h.below a ha
      omega
    | inr ha =>
      obtain rfl := List.mem_singleton.mp ha
      exact hend

lemma WireOrder.grow (h : WireOrder (spans ++ [s]) limit) (hstart : t.start = s.start)
    (hend : t.start + t.len < upto) (hle : limit ≤ upto) : WireOrder (spans ++ [t]) upto := by
  obtain ⟨hspans, -, hlast⟩ := List.pairwise_append.mp h.ordered
  refine ⟨List.pairwise_append.mpr ⟨hspans, List.pairwise_singleton _ _, ?_⟩, ?_⟩
  · intro a ha b hb
    obtain rfl := List.mem_singleton.mp hb
    rw [hstart]
    exact hlast a ha s (List.mem_singleton_self s)
  · intro a ha
    cases List.mem_append.mp ha with
    | inl ha => exact (h.below a (List.mem_append_left _ ha)).trans_le hle
    | inr ha =>
      obtain rfl := List.mem_singleton.mp ha
      exact hend

lemma headerSpans_concat (hs : List (Header Span)) (h : Header Span) :
    headerSpans (hs ++ [h]) = headerSpans hs ++ [h.name] ++ [h.value] := by
  unfold headerSpans
  rw [List.flatMap_append, List.flatMap_singleton, List.append_assoc]
  rfl

lemma Span.read_append {buf : Bytes} {s : Span} (h : s.start + s.len ≤ buf.length) (more : Bytes) :
    s.read (buf ++ more) = s.read buf := by
  unfold Span.read
  rw [List.drop_append_of_le_length (by omega),
    List.take_append_of_le_length (by rw [List.length_drop]; omega)]

end Order

/-! ### Header lines -/

/-- The headers read up to `pos`, behind the spans of a start line. -/
structure Placed (buf : Bytes) (before : List Span) (capacity pos : Nat)
    (headers : List (Header Span)) : Prop where
  pos_le : pos ≤ buf.length
  count_le : headers.length ≤ capacity
  order : WireOrder (before ++ headerSpans headers) pos
  names : ∀ h ∈ headers, IsToken (h.name.read buf)

section Lines

variable {before : List Span} {buf : Bytes} {cap pos n : Nat} {policy : Policy}
  {hs hs' : List (Header Span)}

lemma FieldLine.read_name (f : FieldLine) {tail : Bytes} (h : buf.drop pos = f.line ++ tail) :
    (f.header pos).name.read buf = f.name := by
  have hname : (f.header pos).name = ⟨pos, f.name.length⟩ := rfl
  rw [hname, Span.read, h, FieldLine.line, List.append_assoc, List.take_left]

/-- The spans of an accepted line fall behind those in front of it. -/
lemma Placed.step (h : Placed buf before cap pos hs)
    (hd : headerStep cap policy pos hs (buf.drop pos) = .advance n hs') :
    Placed buf before cap (pos + n) hs' := by
  obtain ⟨line, e, tail, hrest, he, -, hn, hline, -⟩ := exists_of_headerStep_advance hd
  obtain ⟨-, -, hkind⟩ := lineDecision_advance hline
  have hpos := he.length_pos
  have hle : pos + n ≤ buf.length := by
    have hlen := (headerStep_advance_le hd).2
    have := h.pos_le
    rw [List.length_drop] at hlen
    omega
  cases hkind with
  | inl hfield =>
    obtain ⟨f, rfl, hcap, rfl⟩ := hfield
    obtain ⟨hstart, hend⟩ := f.value_end pos
    refine ⟨hle, ?_, ?_, ?_⟩
    · rw [List.length_append, List.length_singleton]
      exact hcap
    · have hname : WireOrder (before ++ headerSpans hs ++ [(f.header pos).name])
          (pos + f.name.length + 1) := h.order.concat (Nat.le_refl pos) (Nat.lt_succ_self _)
      rw [headerSpans_concat, ← List.append_assoc, ← List.append_assoc]
      exact hname.concat hstart (by omega)
    · intro g hg
      cases List.mem_append.mp hg with
      | inl hg => exact h.names g hg
      | inr hg =>
        obtain rfl := List.mem_singleton.mp hg
        rw [f.read_name (hrest.trans (List.append_assoc _ _ _))]
        exact f.name_token
  | inr hfold =>
    obtain ⟨f, rfl, -, last, hlast, rfl⟩ := hfold
    obtain ⟨init, rfl⟩ := List.getLast?_eq_some_iff.mp hlast
    have horder := h.order
    have hnames := h.names
    rw [headerSpans_concat, ← List.append_assoc, ← List.append_assoc] at horder
    rw [List.dropLast_concat]
    refine ⟨hle, ?_, ?_, ?_⟩
    · have hcount := h.count_le
      rw [List.length_append] at hcount ⊢
      exact hcount
    · have hbelow := horder.below last.value (by simp)
      rw [headerSpans_concat, ← List.append_assoc, ← List.append_assoc]
      refine horder.grow rfl ?_ (Nat.le_add_right _ _)
      unfold extendHeader
      dsimp only
      omega
    · intro g hg
      cases List.mem_append.mp hg with
      | inl hg => exact hnames g (List.mem_append_left _ hg)
      | inr hg =>
        obtain rfl := List.mem_singleton.mp hg
        exact hnames last (List.mem_append_right _ (List.mem_singleton_self last))

lemma mem_headerSpans {h : Header Span} (hh : h ∈ hs) : h.name ∈ headerSpans hs :=
  List.mem_flatMap.mpr ⟨h, hh, by simp⟩

lemma Placed.append (h : Placed buf before cap pos hs) (more : Bytes) :
    Placed (buf ++ more) before cap pos hs := by
  have hle := h.pos_le
  refine ⟨?_, h.count_le, h.order, ?_⟩
  · rw [List.length_append]
    omega
  · intro g hg
    have hend := h.order.below g.name (List.mem_append_right _ (mem_headerSpans hg))
    rw [Span.read_append (by omega)]
    exact h.names g hg

lemma Placed.lastStarts (h : Placed buf before cap pos hs) : Pointer.LastStarts hs pos := by
  intro last hlast
  have hmem : last.value ∈ headerSpans hs :=
    List.mem_flatMap.mpr ⟨last, List.mem_of_getLast? hlast, by simp⟩
  have hend := h.order.below last.value (List.mem_append_right _ hmem)
  omega

lemma headerLoop_placed {base count : Nat} (fuel : Nat) {st : Status} {q : Nat}
    (h : Placed buf before cap (base + pos) hs)
    (hl : headerLoop cap policy base count fuel pos hs (buf.drop (base + pos)) = (st, hs', q)) :
    (st.isError = false ∧ Placed buf before cap (base + q) hs' ∧ pos ≤ q) ∨
      (st.isError = true ∧ hs'.length ≤ cap ∧ q = 0) := by
  induction fuel generalizing pos hs with
  | zero =>
    cases hl
    exact .inl ⟨rfl, h, Nat.le_refl _⟩
  | succ fuel ih =>
    unfold headerLoop at hl
    cases hd : headerStep cap policy (base + pos) hs (buf.drop (base + pos)) with
    | more =>
      rw [hd] at hl
      cases hl
      exact .inl ⟨rfl, h, Nat.le_refl _⟩
    | fail status =>
      rw [hd] at hl
      cases hl
      refine .inr ⟨MessageParser.headerStep_fail hd, ?_, rfl⟩
      exact (List.length_take_le' _ _).trans h.count_le
    | finish n hs' =>
      obtain ⟨hlen, rfl⟩ := headerStep_finish_le hd
      have hle := h.pos_le
      rw [List.length_drop] at hlen
      rw [hd] at hl
      cases hl
      refine .inl ⟨rfl, ⟨by omega, h.count_le, ⟨h.order.ordered, ?_⟩, h.names⟩, by omega⟩
      intro s hs
      have := h.order.below s hs
      omega
    | advance n hs' =>
      rw [hd] at hl
      dsimp only at hl
      rw [List.drop_drop, Nat.add_assoc] at hl
      have hstep := h.step hd
      rw [Nat.add_assoc] at hstep
      cases ih hstep hl with
      | inl hok => exact .inl ⟨hok.1, hok.2.1, by omega⟩
      | inr hbad => exact .inr hbad

end Lines

/-! ### Calls -/

namespace PointerParser

variable {out : Type} {p : PointerParser out} {policy : Policy} {buf : Bytes} {o : out}
  {state : ParserState}

/-- What the start-line readers of the three entry points have in common. -/
structure Lawful (p : PointerParser out) (policy : Policy) : Prop
    extends p.toMessageParser.Lawful policy where
  startLineAt_eq : ∀ {mem base len}, base + len ≤ mem.length → ∀ o,
    p.startLineAt mem base len o policy = some (p.startLine base (slice mem base len) o policy)
  startLine_headers : ∀ {base buf o st o' n}, p.startLine base buf o policy = (st, o', n) →
    p.headers o' = p.headers o
  startLine_order : ∀ {base buf o o' n}, p.startLine base buf o policy = (.ok, o', n) →
    WireOrder (p.startSpans o') (base + n)
  startSpans_set : ∀ o hs, p.startSpans (p.setHeaders o hs) = p.startSpans o

/-- The invariant between two calls. -/
structure Between (p : PointerParser out) (buf : Bytes) (state : ParserState) (o : out) : Prop where
  mode : state.mode = p.mode
  cursor_le : state.cursor ≤ buf.length
  count_le : (p.headers o).length ≤ p.capacity
  fresh : state.phase = .startLine → p.headers o = []
  placed : state.phase ≠ .error → Placed buf
    (if state.phase = .startLine then [] else p.startSpans o) p.capacity state.cursor (p.headers o)

lemma Between.of_placed (hmode : state.mode = p.mode) (hphase : state.phase ≠ .startLine)
    (h : Placed buf (p.startSpans o) p.capacity state.cursor (p.headers o)) :
    p.Between buf state o where
  mode := hmode
  cursor_le := h.pos_le
  count_le := h.count_le
  fresh hstart := absurd hstart hphase
  placed _ := by rwa [if_neg hphase]

lemma Between.of_error (hmode : state.mode = p.mode) (hphase : state.phase = .error)
    (hcursor : state.cursor ≤ buf.length) (hcount : (p.headers o).length ≤ p.capacity) :
    p.Between buf state o where
  mode := hmode
  cursor_le := hcursor
  count_le := hcount
  fresh hstart := by rw [hphase] at hstart; cases hstart
  placed hne := absurd hphase hne

/-- The header phase does not fault, and leaves the invariant. -/
lemma headersPhase_safe (state : ParserState) (hp : p.Lawful policy) (hmode : state.mode = p.mode)
    (hphase : state.phase = .headers)
    (h : Placed buf (p.startSpans o) p.capacity state.cursor (p.headers o)) :
    p.parseHeadersPhaseAt policy state buf o = some (p.parseHeadersPhase policy state buf o) ∧
    state.cursor ≤ (p.parseHeadersPhase policy state buf o).state.cursor ∧
    Relation.ReflTransGen PhaseStep .headers (p.parseHeadersPhase policy state buf o).state.phase ∧
    p.Between buf (p.parseHeadersPhase policy state buf o).state
      (p.parseHeadersPhase policy state buf o).out := by
  have hle := h.pos_le
  have hblock : Pointer.parseHeaderBlock buf state.cursor (buf.length - state.cursor) (p.headers o)
      p.capacity policy =
        some (parseHeaderBlock state.cursor (buf.drop state.cursor) (p.headers o) p.capacity policy) := by
    rw [Pointer.parseHeaderBlock_eq (by omega) h.lastStarts, slice_rest]
  unfold parseHeadersPhaseAt MessageParser.parseHeadersPhase
  rw [sub_of_le hle, Pointer.bind_some, hblock, Pointer.bind_some]
  rcases hr : parseHeaderBlock state.cursor (buf.drop state.cursor) (p.headers o) p.capacity policy with
    ⟨st, hs, q⟩
  have hset := hp.headers_set o hs
  have hstart := hp.startSpans_set o hs
  have hzero : Placed buf (p.startSpans o) p.capacity (state.cursor + 0) (p.headers o) := h
  obtain ⟨hok, hplaced, -⟩ | ⟨hbad, hcount, hq⟩ := headerLoop_placed _ hzero hr
  · rw [← hset, ← hstart] at hplaced
    cases st with
    | incomplete =>
      exact ⟨rfl, Nat.le_add_right _ _, by rw [hphase],
        .of_placed hmode (by rw [hphase]; decide) hplaced⟩
    | ok =>
      refine ⟨rfl, Nat.le_add_right _ _, .single .headers, .of_placed hmode ?_ hplaced⟩
      intro hdone
      cases hdone
    | error | errorTooLong | errorTooManyHeaders => cases hok
  · rw [← hset] at hcount
    have hcursor : state.cursor + q ≤ buf.length := by omega
    cases st with
    | incomplete | ok => cases hbad
    | error | errorTooLong | errorTooManyHeaders =>
      exact ⟨rfl, Nat.le_add_right _ _, .single .badHeaders, .of_error hmode rfl hcursor hcount⟩

lemma safe_of_eq {policy : Option Policy} {consumed : Nat} {r : ParseResult out}
    (hat : p.parseStatefulAt state buf o policy consumed = some r)
    (hcall : p.parseStateful state buf o policy consumed = r)
    (hcursor : state.cursor ≤ r.state.cursor)
    (hphase : Relation.ReflTransGen PhaseStep state.phase r.state.phase)
    (hb : p.Between buf r.state r.out) :
    p.SafeCall state buf o policy consumed ∧
      p.Between buf (p.parseStateful state buf o policy consumed).state
        (p.parseStateful state buf o policy consumed).out := by
  subst hcall
  exact ⟨⟨hat, hcursor, hphase⟩, hb⟩

/-- A call that does not accept its start line stops there. -/
lemma stopped_of_startLine {policy : Option Policy} (consumed : Nat) {n : Nat} {st : Status} {o' : out}
    (hmode : ¬state.mode ≠ p.mode) (hph : state.phase = .startLine) (hle : state.cursor ≤ buf.length)
    (hs : p.startLine state.cursor (buf.drop state.cursor) o (resolvePolicy policy) = (st, o', n))
    (hat : p.startLineAt buf state.cursor (buf.length - state.cursor) o (resolvePolicy policy) =
      some (st, o', n)) (hst : st ≠ .ok) :
    p.parseStatefulAt state buf o policy consumed =
      some ⟨st, if p.fatal st then { state with phase := .error } else state, o', 0⟩ ∧
    p.parseStateful state buf o policy consumed =
      ⟨st, if p.fatal st then { state with phase := .error } else state, o', 0⟩ := by
  unfold parseStatefulAt MessageParser.parseStateful
  rw [if_neg hmode, if_neg hmode, hph]
  dsimp only
  rw [sub_of_le hle, Pointer.bind_some, hat, Pointer.bind_some, hs]
  cases st with
  | ok => exact absurd rfl hst
  | incomplete | error | errorTooLong | errorTooManyHeaders => exact ⟨rfl, rfl⟩

/-- An accepted start line leaves its own spans, and no headers yet. -/
lemma Between.placed_startLine (h : p.Between buf state o) (hp : p.Lawful policy)
    (hph : state.phase = .startLine) {n : Nat} {o' : out}
    (hs : p.startLine state.cursor (buf.drop state.cursor) o policy = (.ok, o', n)) :
    Placed buf (p.startSpans o') p.capacity (state.cursor + n) (p.headers o') := by
  have hle := h.cursor_le
  obtain ⟨-, hn, -⟩ := hp.startLine_ok hs
  rw [List.length_drop] at hn
  rw [hp.startLine_headers hs, h.fresh hph]
  refine ⟨by omega, Nat.zero_le _, ?_, fun g hg => by cases hg⟩
  rw [headerSpans, List.flatMap_nil, List.append_nil]
  exact hp.startLine_order hs

/-- Every call is safe and keeps the invariant. -/
lemma Between.call (hp : ∀ policy, p.Lawful policy) (h : p.Between buf state o)
    (policy : Option Policy) (consumed : Nat) :
    p.SafeCall state buf o policy consumed ∧
      p.Between buf (p.parseStateful state buf o policy consumed).state
        (p.parseStateful state buf o policy consumed).out := by
  have hlaw := hp (resolvePolicy policy)
  have hmode : ¬state.mode ≠ p.mode := not_not.mpr h.mode
  cases hph : state.phase with
  | error =>
    refine safe_of_eq (r := ⟨.error, state, o, 0⟩) ?_ ?_ (Nat.le_refl _) .refl h
    · unfold parseStatefulAt
      rw [if_neg hmode, hph]
    · unfold MessageParser.parseStateful
      rw [if_neg hmode, hph]
  | done =>
    refine safe_of_eq (r := ⟨.ok, state, o, state.cursor⟩) ?_ ?_ (Nat.le_refl _) .refl h
    · unfold parseStatefulAt
      rw [if_neg hmode, hph]
    · unfold MessageParser.parseStateful
      rw [if_neg hmode, hph]
  | headers =>
    have hplaced := h.placed (by rw [hph]; decide)
    rw [if_neg (by rw [hph]; decide)] at hplaced
    obtain ⟨hat, hcursor, hphase, hb⟩ := headersPhase_safe state hlaw h.mode hph hplaced
    refine safe_of_eq (r := p.parseHeadersPhase (resolvePolicy policy) state buf o) ?_ ?_ hcursor
      (by rw [hph]; exact hphase) hb
    · unfold parseStatefulAt
      rw [if_neg hmode, hph, ← hat]
    · unfold MessageParser.parseStateful
      rw [if_neg hmode, hph]
  | startLine =>
    have hle := h.cursor_le
    rcases hs : p.startLine state.cursor (buf.drop state.cursor) o (resolvePolicy policy) with
      ⟨st, o', n⟩
    have hstart := hlaw.startLineAt_eq
      (show state.cursor + (buf.length - state.cursor) ≤ buf.length by omega) o
    rw [slice_rest, hs] at hstart
    have hheaders : p.headers o' = p.headers o := hlaw.startLine_headers hs
    cases st with
    | ok =>
      obtain ⟨hat, hcursor, hphase, hb⟩ := headersPhase_safe
        { state with cursor := state.cursor + n, phase := .headers } hlaw h.mode rfl
        (h.placed_startLine hlaw hph hs)
      refine safe_of_eq ?_ ?_ ((Nat.le_add_right _ n).trans hcursor) ?_ hb
      · unfold parseStatefulAt
        rw [if_neg hmode, hph]
        dsimp only
        rw [sub_of_le hle, Pointer.bind_some, hstart, ← hat]
        rfl
      · unfold MessageParser.parseStateful
        rw [if_neg hmode, hph]
        dsimp only
        rw [hs]
      · rw [hph]
        exact .head .startLine hphase
    | incomplete =>
      obtain ⟨rfl, hfatal⟩ := hlaw.startLine_incomplete hs
      obtain ⟨hat, hcall⟩ := stopped_of_startLine consumed hmode hph hle hs hstart (by decide)
      rw [hfatal] at hat hcall
      exact safe_of_eq hat hcall (Nat.le_refl _) .refl h
    | error | errorTooLong | errorTooManyHeaders =>
      have hfatal := hlaw.startLine_error hs rfl
      obtain ⟨hat, hcall⟩ := stopped_of_startLine consumed hmode hph hle hs hstart (by decide)
      rw [hfatal] at hat hcall
      refine safe_of_eq hat hcall (Nat.le_refl _) ?_
        (.of_error h.mode rfl hle (by rw [hheaders]; exact h.count_le))
      rw [hph]
      exact .single .badStartLine

lemma Between.append (h : p.Between buf state o) (more : Bytes) :
    p.Between (buf ++ more) state o where
  mode := h.mode
  cursor_le := by
    rw [List.length_append]
    exact h.cursor_le.trans (Nat.le_add_right _ _)
  count_le := h.count_le
  fresh := h.fresh
  placed hne := (h.placed hne).append more

lemma Between.inOrder (h : p.Between buf state o) : p.InOrder buf state o where
  cursor_le := h.cursor_le
  count_le := h.count_le
  spans hne := (h.placed hne).order
  names hne := (h.placed hne).names

lemma between_init {zero : out} (hzero : p.headers zero = [])
    (hstart : p.mode = .headers → p.startSpans zero = []) (buf : Bytes) :
    p.Between buf (parserStateInit p.mode) zero := by
  have hspans : (if (parserStateInit p.mode).phase = .startLine then [] else p.startSpans zero) =
      [] := by
    unfold parserStateInit
    by_cases hmode : p.mode = .headers
    · rw [if_pos hmode, hstart hmode, ite_self]
    · rw [if_neg hmode, if_pos rfl]
  refine ⟨rfl, Nat.zero_le _, by rw [hzero]; exact Nat.zero_le _, fun _ => hzero, fun _ => ?_⟩
  rw [hspans, hzero]
  exact ⟨Nat.zero_le _, Nat.zero_le _, WireOrder.nil 0, fun h hh => by cases hh⟩

/-- The invariant holds at every point of every run. -/
lemma between_of_run (hp : ∀ policy, p.Lawful policy) {zero : out} (hzero : p.headers zero = [])
    (hstart : p.mode = .headers → p.startSpans zero = [])
    (h : p.Run zero buf state o) : p.Between buf state o := by
  induction h with
  | init buf => exact between_init hzero hstart buf
  | @call buf state o r more policy consumed _ hr ih =>
    obtain ⟨hsafe, hb⟩ := (ih.append more).call hp policy consumed
    obtain rfl : _ = r := Option.some.inj (hsafe.no_fault.symm.trans hr)
    exact hb

lemma runsInOrder (hp : ∀ policy, p.Lawful policy) {zero : out} (hzero : p.headers zero = [])
    (hstart : p.mode = .headers → p.startSpans zero = []) : p.RunsInOrder zero := by
  intro buf state o h
  have hb := between_of_run hp hzero hstart h
  exact ⟨hb.inOrder, fun more policy consumed => ((hb.append more).call hp policy consumed).1⟩

end PointerParser

/-! ### The three entry points -/

lemma parseRequestLine_headers (base : Nat) (buf : Bytes) (req : Request Span) (policy : Policy) :
    (parseRequestLine base buf req policy).2.1.headers = req.headers := by
  unfold parseRequestLine
  dsimp only
  repeat' split
  all_goals rfl

lemma parseStatusLine_headers (base : Nat) (buf : Bytes) (resp : Response Span) (policy : Policy) :
    (parseStatusLine base buf resp policy).2.1.headers = resp.headers := by
  unfold parseStatusLine
  dsimp only
  repeat' split
  all_goals rfl

lemma requestPointers_lawful (policy : Policy) : requestPointers.Lawful policy where
  toLawful := requestParser_lawful policy
  startLineAt_eq h req := Pointer.parseRequestLine_eq req h
  startLine_headers := by
    intro base buf req st req' n h
    have hh := parseRequestLine_headers base buf req policy
    rw [show parseRequestLine base buf req policy = _ from h] at hh
    exact hh
  startLine_order := by
    intro base buf req req' n h
    obtain ⟨r, e, tail, -, he, -, rfl, rfl⟩ := exists_of_parseRequestLine h
    have hpos := he.length_pos
    have hlen := r.length_line
    have hmethod : WireOrder ([] ++ [⟨base, r.method.length⟩]) (base + (r.method.length + 1)) :=
      (WireOrder.nil base).concat (Nat.le_refl _) (Nat.lt_succ_self _)
    exact hmethod.concat (s := ⟨base + (r.method.length + 1), r.target.length⟩) (Nat.le_refl _)
      (by dsimp only; omega)
  startSpans_set _ _ := rfl

lemma responsePointers_lawful (policy : Policy) : responsePointers.Lawful policy where
  toLawful := responseParser_lawful policy
  startLineAt_eq h resp := Pointer.parseStatusLine_eq resp h
  startLine_headers := by
    intro base buf resp st resp' n h
    have hh := parseStatusLine_headers base buf resp policy
    rw [show parseStatusLine base buf resp policy = _ from h] at hh
    exact hh
  startLine_order := by
    intro base buf resp resp' n h
    obtain ⟨s, e, tail, -, he, rfl, rfl⟩ := exists_of_parseStatusLine h
    have hpos := he.length_pos
    have hlen := s.length_line
    exact (WireOrder.nil base).concat (s := ⟨base + 13, s.reason.length⟩) (Nat.le_add_right _ _)
      (by dsimp only; omega)
  startSpans_set _ _ := rfl

lemma headersPointers_lawful (maxHeaders : Nat) (policy : Policy) :
    (headersPointers maxHeaders).Lawful policy where
  toLawful := headersParser_lawful maxHeaders policy
  startLineAt_eq _ _ := rfl
  startLine_headers h := by cases h; rfl
  startLine_order h := by cases h
  startSpans_set _ _ := rfl

/-- In every run of the stateful parsers the spans stay in the part of the buffer that was read, in
wire order, and no call reads outside the buffer or takes a difference below zero. -/
theorem runs_in_order :
    requestPointers.RunsInOrder .zero ∧ responsePointers.RunsInOrder .zero ∧
      ∀ maxHeaders, (headersPointers maxHeaders).RunsInOrder [] :=
  ⟨PointerParser.runsInOrder requestPointers_lawful rfl (fun h => by cases h),
    PointerParser.runsInOrder responsePointers_lawful rfl (fun h => by cases h),
    fun maxHeaders => PointerParser.runsInOrder (headersPointers_lawful maxHeaders) rfl (fun _ => rfl)⟩

/-- A value that a continuation line extends in a later call. -/
theorem runs_in_order_fold :
    (headersPointers 4).InOrder ([] ++ ascii "a:b\r\n c" ++ ascii "\r\nd:") ⟨.headers, .headers, 9⟩
      [⟨⟨0, 1⟩, ⟨2, 5⟩⟩] := by
  have hfirst : (headersPointers 4).parseStatefulAt ⟨.headers, .headers, 0⟩
      ([] ++ ascii "a:b\r\n c") [] (some .lenient) 0 =
        some ⟨.incomplete, ⟨.headers, .headers, 5⟩, [⟨⟨0, 1⟩, ⟨2, 1⟩⟩], 0⟩ := by decide
  have hsecond : (headersPointers 4).parseStatefulAt ⟨.headers, .headers, 5⟩
      ([] ++ ascii "a:b\r\n c" ++ ascii "\r\nd:") [⟨⟨0, 1⟩, ⟨2, 1⟩⟩] (some .lenient) 0 =
        some ⟨.incomplete, ⟨.headers, .headers, 9⟩, [⟨⟨0, 1⟩, ⟨2, 5⟩⟩], 0⟩ := by decide
  exact (runs_in_order.2.2 4 _ _ _ (.call _ _ _ (.call _ _ _ (.init []) hfirst) hsecond)).1

end IoHttpParser
