import IoHttpParser.Proofs.HeaderLines

/-!
# Heads as the reader takes them

Field lines and the empty line behind them, read from any start line on: what a header phase
under the strict policy accepts, the headers it produces, and the bytes their spans denote.
-/

namespace IoHttpParser
open Memory Incremental

/-! ### Spans -/

lemma Span.read_middle (pre mid post : Bytes) :
    Span.read (pre ++ (mid ++ post)) ⟨pre.length, mid.length⟩ = mid := by
  rw [Span.read, List.drop_left, List.take_left]

lemma Span.read_zero (buf : Bytes) (start : Nat) : Span.read buf ⟨start, 0⟩ = [] := by
  rw [Span.read, List.take_zero]

/-- The header of a field line denotes its name and its trimmed value. -/
lemma FieldLine.resolve_header (f : FieldLine) (pre post : Bytes) :
    (f.header pre.length).resolve (pre ++ (f.line ++ post)) = ⟨f.name, f.value⟩ := by
  have hname : Span.read (pre ++ (f.line ++ post)) ⟨pre.length, f.name.length⟩ = f.name := by
    rw [FieldLine.line, List.append_assoc]
    exact Span.read_middle pre f.name _
  have hvalue : ((f.header pre.length).value).read (pre ++ (f.line ++ post)) = f.value := by
    by_cases hv : f.value = []
    · rw [FieldLine.header, if_pos hv, Span.read_zero, hv]
    · have hm := Span.read_middle (pre ++ f.name ++ colon :: f.lead) f.value (f.trail ++ post)
      have hbuf : pre ++ f.name ++ colon :: f.lead ++ (f.value ++ (f.trail ++ post)) =
          pre ++ (f.line ++ post) := by
        simp only [FieldLine.line, List.append_assoc, List.cons_append]
      have hlen : (pre ++ f.name ++ colon :: f.lead).length =
          pre.length + f.name.length + 1 + f.lead.length := by
        simp only [List.length_append, List.length_cons]
        omega
      rw [hbuf, hlen] at hm
      simp only [FieldLine.header, if_neg hv, hm]
  rw [Header.resolve, hvalue]
  exact congrArg (Header.mk · f.value) hname

/-- The headers of field lines that start at offset `base`. -/
def fieldHeaders : Nat → List FieldLine → List (Header Span)
  | _, [] => []
  | base, f :: fs => f.header base :: fieldHeaders (base + (f.line.length + 2)) fs

lemma fieldsWire_cons (f : FieldLine) (fs : List FieldLine) :
    fieldsWire (f :: fs) = f.line ++ crlf ++ fieldsWire fs := by
  rw [fieldsWire, List.flatMap_cons, fieldsWire]

lemma resolve_fieldHeaders (pre : Bytes) (fs : List FieldLine) (post : Bytes) :
    (fieldHeaders pre.length fs).map (Header.resolve (pre ++ (fieldsWire fs ++ post))) =
      fs.map (fun f => ⟨f.name, f.value⟩) := by
  induction fs generalizing pre with
  | nil => rfl
  | cons f fs ih =>
    have hbuf : pre ++ (fieldsWire (f :: fs) ++ post) =
        pre ++ (f.line ++ (crlf ++ (fieldsWire fs ++ post))) := by
      rw [fieldsWire_cons, List.append_assoc, List.append_assoc]
    have hbuf' : pre ++ (fieldsWire (f :: fs) ++ post) =
        pre ++ (f.line ++ crlf) ++ (fieldsWire fs ++ post) := by
      rw [fieldsWire_cons, List.append_assoc, List.append_assoc, List.append_assoc,
        List.append_assoc]
    have hlen : (pre ++ (f.line ++ crlf)).length = pre.length + (f.line.length + 2) := by
      rw [List.length_append, List.length_append]
      rfl
    have htail := ih (pre ++ (f.line ++ crlf))
    rw [hlen, ← hbuf'] at htail
    rw [fieldHeaders, List.map_cons, List.map_cons, htail, hbuf, f.resolve_header]

/-! ### Field lines under the strict policy -/

lemma isLineEnding_strict {e : Bytes} : IsLineEnding .strict e ↔ e = crlf := by
  simp [IsLineEnding, Policy.strict]

lemma exists_fields_of_headerLines {cap k k' : Nat} {w : Bytes}
    (h : HeaderLines .strict cap k w k') :
    ∃ fs : List FieldLine, w = fieldsWire fs ∧ (∀ f ∈ fs, f.line.length ≤ ihtpMaxHeaderLine) ∧
      (k ≤ cap → k + fs.length ≤ cap) := by
  induction h with
  | nil k => exact ⟨[], rfl, by simp, by simp⟩
  | @field k k' e w f he hlen hk _ ih =>
    obtain ⟨fs, rfl, hle, hcount⟩ := ih
    obtain rfl := isLineEnding_strict.mp he
    refine ⟨f :: fs, (fieldsWire_cons f fs).symm, by simpa [hlen] using hle, fun _ => ?_⟩
    have h1 := hcount hk
    rw [List.length_cons]
    omega
  | fold f hfold _ _ _ _ _ => cases hfold

namespace MessageParser

variable {out : Type} {p : MessageParser out}

lemma parseStateful_of_done (policy : Option Policy) (hp : p.Lawful (resolvePolicy policy))
    (state : ParserState) (hmode : state.mode = p.mode)
    (hphase : state.phase = .startLine ∨ state.phase = .headers) {buf : Bytes} {o : out} {n : Nat}
    {s : ParserPhase × out} (consumed : Nat)
    (h : (p.reader _ hp).read state.cursor (state.phase, o) (buf.drop state.cursor) = .done n s) :
    p.parseStateful state buf o policy consumed =
      ⟨.ok, { state with phase := .done, cursor := n }, s.2, n⟩ := by
  have hm := parseStateful_matches hp state hmode hphase buf o consumed
  rw [h] at hm
  exact hm

/-- A one-shot call that accepts comes from a read that is done. -/
lemma done_of_oneShot {policy : Option Policy} (hp : p.Lawful (resolvePolicy policy)) {zero o : out}
    {buf : Bytes} {n : Nat}
    (h : (let r := p.parseStateful (parserStateInit p.mode) buf zero policy 0
          (r.status, r.out, r.bytesConsumed)) = (.ok, o, n)) :
    ∃ phase, (p.reader _ hp).read 0 ((parserStateInit p.mode).phase, zero) buf =
      .done n (phase, o) := by
  have hm := parseStateful_matches hp (parserStateInit p.mode) rfl (parserStateInit_phase p.mode) buf
    zero 0
  revert h hm
  generalize p.parseStateful (parserStateInit p.mode) buf zero policy 0 = r
  intro h hm
  obtain ⟨hstatus, hrest⟩ := Prod.mk.inj h
  obtain ⟨hout, hconsumed⟩ := Prod.mk.inj hrest
  change Matches _ r ((p.reader _ hp).read 0 ((parserStateInit p.mode).phase, zero) buf) at hm
  cases hread : (p.reader _ hp).read 0 ((parserStateInit p.mode).phase, zero) buf with
  | more q s =>
    rw [hread] at hm
    obtain rfl : r = _ := hm
    cases hstatus
  | done q s =>
    rw [hread] at hm
    obtain rfl : r = _ := hm
    exact ⟨s.1, by rw [← hconsumed, ← hout]⟩
  | fail q s st =>
    rw [hread] at hm
    rw [← hm.1, hstatus] at hm
    cases hm.2.1

lemma startLine_of_done {policy : Policy} {hp : p.Lawful policy} {pos n : Nat} {o : out}
    {xs : Bytes} {t : ParserPhase × out}
    (h : (p.reader policy hp).read pos (.startLine, o) xs = .done n t) :
    ∃ o' k, p.startLine pos xs o policy = (.ok, o', k) ∧
      (p.reader policy hp).read (pos + k) (.headers, o') (xs.drop k) = .done n t := by
  cases hd : (p.reader policy hp).decide pos (.startLine, o) xs with
  | more => rw [Reader.read_of_more hd] at h; cases h
  | fail e => rw [Reader.read_of_fail hd] at h; cases h
  | finish k u =>
    rw [reader_decide, decide_startLine] at hd
    exact absurd hd startLineDecision_ne_finish
  | advance k u =>
    rw [Reader.read_of_advance hd] at h
    rw [reader_decide, decide_startLine] at hd
    obtain ⟨hline, hu⟩ := startLineDecision_advance hd
    obtain ⟨phase, o'⟩ := u
    obtain rfl : phase = .headers := hu
    exact ⟨o', k, hline, h⟩

variable {hp : p.Lawful .strict}

variable (hp) in
lemma reach_fields (fs : List FieldLine) (pos : Nat) (o : out) (rest : Bytes)
    (hle : ∀ f ∈ fs, f.line.length ≤ ihtpMaxHeaderLine)
    (hcap : (p.headers o).length + fs.length ≤ p.capacity) :
    Reader.Reach (p.reader .strict hp) pos (.headers, o) (fieldsWire fs ++ rest)
      (pos + (fieldsWire fs).length)
      (.headers, p.setHeaders o (p.headers o ++ fieldHeaders pos fs)) rest := by
  induction fs generalizing pos o with
  | nil =>
    rw [fieldHeaders, List.append_nil, hp.set_headers]
    exact .refl _ _ _
  | cons f fs ih =>
    rw [List.length_cons] at hcap
    have hstep := headerStep_field p.capacity pos (p.headers o) (fieldsWire fs ++ rest) f
      (isLineEnding_strict.mpr rfl) (hle f (by simp)) (by omega)
    have hr := ih (pos + (f.line.length + 2)) (p.setHeaders o (p.headers o ++ [f.header pos]))
      (fun g hg => hle g (by simp [hg]))
      (by rw [hp.headers_set, List.length_append, List.length_singleton]; omega)
    rw [hp.headers_set, hp.set_set, List.append_assoc] at hr
    rw [fieldsWire_cons]
    exact reach_line (decide_of_headerStep hstep) hr

variable (hp) in
lemma read_fields (fs : List FieldLine) (pos : Nat) (o : out) (post : Bytes)
    (hle : ∀ f ∈ fs, f.line.length ≤ ihtpMaxHeaderLine)
    (hcap : (p.headers o).length + fs.length ≤ p.capacity) :
    (p.reader .strict hp).read pos (.headers, o) (fieldsWire fs ++ (crlf ++ post)) =
      .done (pos + (fieldsWire fs ++ crlf).length)
        (.headers, p.setHeaders o (p.headers o ++ fieldHeaders pos fs)) := by
  have hfields := reach_fields hp fs pos o (crlf ++ post) hle hcap
  have hend := decide_emptyLine hp (pos + (fieldsWire fs).length)
    (p.setHeaders o (p.headers o ++ fieldHeaders pos fs)) (isLineEnding_strict.mpr rfl) post
  rw [hfields.read_eq, Reader.read_of_finish hend, List.length_append, Nat.add_assoc]

lemma exists_fields_of_done {pos n : Nat} {o : out} {xs : Bytes} {t : ParserPhase × out}
    (h : (p.reader .strict hp).read pos (.headers, o) xs = .done n t)
    (hcap : (p.headers o).length ≤ p.capacity) :
    ∃ (fs : List FieldLine) (post : Bytes), xs = fieldsWire fs ++ (crlf ++ post) ∧
      (∀ f ∈ fs, f.line.length ≤ ihtpMaxHeaderLine) ∧
      (p.headers o).length + fs.length ≤ p.capacity := by
  obtain ⟨q, t', rest, hr, h' | ⟨e, _, h'⟩ | ⟨m, u, hd, h'⟩⟩ :=
    Reader.exists_reach (p.reader .strict hp) pos (.headers, o) xs
  · rw [h] at h'; cases h'.2
  · rw [h] at h'; cases h'
  · obtain ⟨_, w, hw, hlines⟩ := headerLines_of_reach hr rfl
    obtain ⟨fs, rfl, hle, hcount⟩ := exists_fields_of_headerLines hlines
    obtain ⟨e, post, rfl, he, _, _⟩ := headerDecision_finish (decide_finish hd).2
    obtain rfl := isLineEnding_strict.mp he
    exact ⟨fs, post, hw, hle, hcount hcap⟩

variable (hp) in
/-- A start line that is read, with field lines and the empty line behind it, is a head that is
read. -/
lemma read_head {line post : Bytes} {fs : List FieldLine} {zero o : out}
    (hstart : (p.reader .strict hp).decide 0 (.startLine, zero)
      (line ++ crlf ++ (fieldsWire fs ++ (crlf ++ post))) =
        .advance (line.length + crlf.length) (.headers, o))
    (hle : ∀ f ∈ fs, f.line.length ≤ ihtpMaxHeaderLine)
    (hcap : (p.headers o).length + fs.length ≤ p.capacity) :
    (p.reader .strict hp).read 0 (.startLine, zero)
      (line ++ crlf ++ (fieldsWire fs ++ crlf) ++ post) =
        .done (line ++ crlf ++ (fieldsWire fs ++ crlf)).length
          (.headers, p.setHeaders o
            (p.headers o ++ fieldHeaders (line.length + crlf.length) fs)) := by
  have hbuf : line ++ crlf ++ (fieldsWire fs ++ crlf) ++ post =
      line ++ crlf ++ (fieldsWire fs ++ (crlf ++ post)) := by
    simp only [List.append_assoc]
  have hlen : (line ++ crlf ++ (fieldsWire fs ++ crlf)).length =
      (line ++ crlf).length + (fieldsWire fs ++ crlf).length := List.length_append
  rw [hbuf, Reader.read_of_advance hstart, ← List.length_append, List.drop_left,
    read_fields hp fs _ o post hle hcap, Nat.zero_add, hlen]

/-- What stands behind a start line that leaves no headers, once the head is read. -/
lemma exists_fields_of_head {line tail : Bytes} {n : Nat} {o : out} {t : ParserPhase × out}
    (h : (p.reader .strict hp).read (0 + (line.length + crlf.length)) (.headers, o)
      ((line ++ crlf ++ tail).drop (line.length + crlf.length)) = .done n t)
    (hnil : p.headers o = []) :
    ∃ (fs : List FieldLine) (post : Bytes),
      line ++ crlf ++ tail = line ++ crlf ++ (fieldsWire fs ++ crlf) ++ post ∧
      (∀ f ∈ fs, f.line.length ≤ ihtpMaxHeaderLine) ∧ fs.length ≤ p.capacity := by
  rw [← List.length_append, List.drop_left] at h
  have hzero : (p.headers o).length = 0 := by rw [hnil, List.length_nil]
  obtain ⟨fs, post, rfl, hle, hcount⟩ :=
    exists_fields_of_done h (by rw [hzero]; exact Nat.zero_le _)
  rw [hzero, Nat.zero_add] at hcount
  refine ⟨fs, post, ?_, hle, hcount⟩
  simp only [List.append_assoc]

end MessageParser

lemma done_of_parseHeaders {buf : Bytes} {maxHeaders n : Nat} {policy : Option Policy}
    {headers : List (Header Span)} (h : parseHeaders buf maxHeaders policy = (.ok, headers, n)) :
    ∃ phase, ((headersParser maxHeaders).reader _
      (headersParser_lawful maxHeaders (resolvePolicy policy))).read 0 (.headers, []) buf =
        .done n (phase, headers) :=
  MessageParser.done_of_oneShot (headersParser_lawful maxHeaders (resolvePolicy policy)) h

/-- A parser that reads every head to its end, and nothing else, accepts exactly the heads, whatever
follows them. -/
lemma exact_of_wire {H out msg : Type} {wire : H → Bytes} {spans : H → out} {meaning : H → msg}
    (resolve : Bytes → out → msg) (parse : Bytes → Status × out × Nat)
    (hwire : ∀ h post, parse (wire h ++ post) = (.ok, spans h, (wire h).length))
    (hread : ∀ buf o n, parse buf = (.ok, o, n) →
      ∃ h post, buf = wire h ++ post ∧ n = (wire h).length)
    (hres : ∀ h post, resolve (wire h ++ post) (spans h) = meaning h) (buf : Bytes) (n : Nat) :
    ((∃ o, parse buf = (.ok, o, n)) ↔ n ≤ buf.length ∧ ∃ h, buf.take n = wire h) ∧
    ∀ o, parse buf = (.ok, o, n) →
      (∀ h, buf.take n = wire h → resolve buf o = meaning h) ∧
      ∀ buf', n ≤ buf'.length → buf'.take n = buf.take n → parse buf' = (.ok, o, n) := by
  have hcomplete {buf' : Bytes} {h : H} (hn : n ≤ buf'.length) (htake : buf'.take n = wire h) :
      parse buf' = (.ok, spans h, n) := by
    have hp := hwire h (buf'.drop n)
    have hlen : (wire h).length = n := by rw [← htake, List.length_take, Nat.min_eq_left hn]
    rwa [hlen, ← htake, List.take_append_drop] at hp
  have hsound {o : out} (h : parse buf = (.ok, o, n)) :
      n ≤ buf.length ∧ ∃ h, buf.take n = wire h := by
    obtain ⟨head, post, rfl, rfl⟩ := hread buf o n h
    exact ⟨by simp, head, List.take_left⟩
  refine ⟨⟨fun ⟨o, h⟩ => hsound h, fun ⟨hn, head, h⟩ => ⟨_, hcomplete hn h⟩⟩, ?_⟩
  intro o h
  obtain ⟨hn, head, hhead⟩ := hsound h
  constructor
  · intro head' hhead'
    have hp := hcomplete hn hhead'
    rw [h] at hp
    obtain rfl : o = spans head' := (Prod.mk.inj (Prod.mk.inj hp).2).1
    rw [← List.take_append_drop n buf, hhead']
    exact hres head' _
  · intro buf' hn' htake
    rw [hcomplete hn' (htake.trans hhead), ← hcomplete hn hhead, h]

end IoHttpParser
