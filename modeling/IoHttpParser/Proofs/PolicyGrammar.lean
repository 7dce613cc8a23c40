import IoHttpParser.Spec.PolicyGrammar
import IoHttpParser.Proofs.RequestGrammar
import IoHttpParser.Proofs.ResponseGrammar

/-!
# What each policy accepts

The three parsers accept exactly the heads that the policy admits, and the plain way to write what
they returned is read back as the same message.
-/

namespace IoHttpParser
open Memory Incremental

/-! ### Texts and their spans -/

lemma foldsWire_cons (f : Bytes × FoldLine) (folds : List (Bytes × FoldLine)) :
    foldsWire (f :: folds) = f.1 ++ f.2.line ++ foldsWire folds := by
  rw [foldsWire, List.flatMap_cons, foldsWire]

/-- The header that a text at offset `base` is read as. -/
def HeaderText.span {policy : Policy} (g : HeaderText policy) (base : Nat) : Header Span :=
  if g.folds = [] then g.field.header base
  else extendHeader (g.field.header base) (base + (g.field.line ++ foldsWire g.folds).length)

/-- The headers of texts that start at offset `base`. -/
def textSpans {policy : Policy} : Nat → List (HeaderText policy) → List (Header Span)
  | _, [] => []
  | base, g :: gs => g.span base :: textSpans (base + g.wire.length) gs

lemma extendHeader_extend (h : Header Span) (a b : Nat) :
    extendHeader (extendHeader h a) b = extendHeader h b := rfl

section Resolve

variable {policy : Policy}

/-- The value of a header that goes on runs from its first byte to the end of its last line. -/
lemma HeaderText.read_open (g : HeaderText policy) (pre post : Bytes) :
    Span.read (pre ++ (g.field.line ++ foldsWire g.folds ++ post))
      ⟨(g.field.header pre.length).value.start,
        pre.length + (g.field.line ++ foldsWire g.folds).length -
          (g.field.header pre.length).value.start⟩ =
      g.field.openValue ++ foldsWire g.folds := by
  unfold FieldLine.openValue FieldLine.header
  have hline : (g.field.line ++ foldsWire g.folds).length =
      g.field.line.length + (foldsWire g.folds).length := List.length_append
  by_cases hv : g.field.value = []
  · rw [if_pos hv, if_pos hv, List.nil_append]
    have hread := Span.read_middle (pre ++ g.field.line) (foldsWire g.folds) post
    have hlen : pre.length + (g.field.line ++ foldsWire g.folds).length -
        (pre.length + g.field.line.length) = (foldsWire g.folds).length := by omega
    rw [List.length_append, List.append_assoc, ← List.append_assoc g.field.line] at hread
    dsimp only
    rw [hlen]
    exact hread
  · rw [if_neg hv, if_neg hv]
    have hread := Span.read_middle (pre ++ g.field.name ++ colon :: g.field.lead)
      (g.field.value ++ g.field.trail ++ foldsWire g.folds) post
    have hpre : (pre ++ g.field.name ++ colon :: g.field.lead).length =
        pre.length + g.field.name.length + 1 + g.field.lead.length := by
      simp only [List.length_append, List.length_cons]
      omega
    have hfield : g.field.line.length = g.field.name.length + 1 +
        (g.field.lead.length + g.field.value.length + g.field.trail.length) := by
      simp only [FieldLine.line, List.length_append, List.length_cons]
      omega
    have hmid : (g.field.value ++ g.field.trail ++ foldsWire g.folds).length =
        g.field.value.length + g.field.trail.length + (foldsWire g.folds).length := by
      simp only [List.length_append]
    have hlen : pre.length + (g.field.line ++ foldsWire g.folds).length -
        (pre.length + g.field.name.length + 1 + g.field.lead.length) =
          (g.field.value ++ g.field.trail ++ foldsWire g.folds).length := by omega
    have hbuf : pre ++ g.field.name ++ colon :: g.field.lead ++
        (g.field.value ++ g.field.trail ++ foldsWire g.folds ++ post) =
          pre ++ (g.field.line ++ foldsWire g.folds ++ post) := by
      simp only [FieldLine.line, List.append_assoc, List.cons_append]
    rw [hbuf, hpre] at hread
    dsimp only
    rw [hlen]
    exact hread

/-- The header that a text is read as denotes what the text does. -/
lemma HeaderText.resolve_span (g : HeaderText policy) (pre post : Bytes) :
    (g.span pre.length).resolve (pre ++ (g.wire ++ post)) = g.header := by
  unfold span wire header value
  by_cases hfolds : g.folds = []
  · have hfield := g.field.resolve_header pre (g.ending ++ post)
    rw [if_pos hfolds, if_pos hfolds, hfolds, List.append_assoc, List.append_assoc]
    exact hfield
  · have hname : Span.read (pre ++ (g.field.line ++ foldsWire g.folds ++ g.ending ++ post))
        ⟨pre.length, g.field.name.length⟩ = g.field.name := by
      rw [FieldLine.line]
      simp only [List.append_assoc]
      exact Span.read_middle pre g.field.name _
    have hvalue := g.read_open pre (g.ending ++ post)
    rw [← List.append_assoc _ g.ending post] at hvalue
    rw [if_neg hfolds, if_neg hfolds]
    unfold Header.resolve extendHeader
    dsimp only
    rw [hvalue]
    exact congrArg (Header.mk · (g.field.openValue ++ foldsWire g.folds)) hname

lemma resolve_textSpans (pre : Bytes) (gs : List (HeaderText policy)) (post : Bytes) :
    (textSpans pre.length gs).map (Header.resolve (pre ++ (gs.flatMap HeaderText.wire ++ post))) =
      gs.map HeaderText.header := by
  induction gs generalizing pre with
  | nil => rfl
  | cons g gs ih =>
    have hhead := g.resolve_span pre (gs.flatMap HeaderText.wire ++ post)
    have htail := ih (pre ++ g.wire)
    rw [List.length_append, List.append_assoc] at htail
    rw [textSpans, List.map_cons, List.map_cons, List.flatMap_cons, List.append_assoc, hhead, htail]

end Resolve

/-! ### Reading a block -/

namespace MessageParser

variable {out : Type} {p : MessageParser out} {policy : Policy} (hp : p.Lawful policy)

variable {hp} in
/-- A line that is read, and the lines that continue the header it leaves. -/
lemma reach_folds {folds : List (Bytes × FoldLine)} {ending line rest : Bytes} {pos : Nat}
    {s : ParserPhase × out} {o : out} {hs : List (Header Span)} {h : Header Span}
    (hfolds : ∀ f ∈ folds, policy.rejectObsFold = false ∧ IsLineEnding policy f.1 ∧
      f.2.line.length ≤ ihtpMaxHeaderLine)
    (hending : IsLineEnding policy ending)
    (hstep : ∀ e tail, IsLineEnding policy e →
      (p.reader policy hp).decide pos s (line ++ e ++ tail) =
        .advance (line.length + e.length) (.headers, p.setHeaders o (hs ++ [h]))) :
    Reader.Reach (p.reader policy hp) pos s (line ++ foldsWire folds ++ ending ++ rest)
      (pos + (line ++ foldsWire folds ++ ending).length)
      (.headers, p.setHeaders o (hs ++ [if folds = [] then h
        else extendHeader h (pos + (line ++ foldsWire folds).length)])) rest := by
  induction folds generalizing pos s h line with
  | nil =>
    have hdecide : (p.reader policy hp).decide pos s (line ++ ending ++ ([] ++ rest)) = _ :=
      hstep ending rest hending
    have hline := reach_line hdecide (.refl _ _ _)
    rw [if_pos rfl, foldsWire, List.flatMap_nil, List.append_nil]
    rwa [List.append_nil] at hline
  | cons f folds ih =>
    obtain ⟨⟨hallowed, he, hlen⟩, hmore⟩ := List.forall_mem_cons.mp hfolds
    obtain ⟨e, f⟩ := f
    have hnext : ∀ e' tail, IsLineEnding policy e' →
        (p.reader policy hp).decide (pos + (line.length + e.length))
          (.headers, p.setHeaders o (hs ++ [h])) (f.line ++ e' ++ tail) =
            .advance (f.line.length + e'.length) (.headers, p.setHeaders o
              (hs ++ [extendHeader h (pos + (line.length + e.length) + f.line.length)])) := by
      intro e' tail he'
      have hlast : (p.headers (p.setHeaders o (hs ++ [h]))).getLast? = some h := by
        rw [hp.headers_set, List.getLast?_concat]
      have hfold := headerStep_fold p.capacity (pos + (line.length + e.length)) tail f hallowed he'
        hlen hlast
      rw [decide_of_headerStep hfold, hp.headers_set, hp.set_set, List.dropLast_concat]
    have hwire : line ++ foldsWire ((e, f) :: folds) ++ ending =
        line ++ e ++ (f.line ++ foldsWire folds ++ ending) := by
      rw [foldsWire_cons]
      simp only [List.append_assoc]
    have hlength : (line ++ foldsWire ((e, f) :: folds)).length =
        line.length + e.length + (f.line.length + (foldsWire folds).length) := by
      rw [foldsWire_cons]
      simp only [List.length_append]
      omega
    have hheader : extendHeader h (pos + (line ++ foldsWire ((e, f) :: folds)).length) =
        if folds = [] then extendHeader h (pos + (line.length + e.length) + f.line.length)
        else extendHeader (extendHeader h (pos + (line.length + e.length) + f.line.length))
          (pos + (line.length + e.length) + (f.line ++ foldsWire folds).length) := by
      rw [hlength]
      by_cases hnil : folds = []
      · rw [if_pos hnil, hnil]
        congr 1
        simp only [foldsWire, List.flatMap_nil, List.length_nil]
        omega
      · rw [if_neg hnil, extendHeader_extend, List.length_append]
        congr 1
        omega
    rw [if_neg (List.cons_ne_nil _ _), hwire, hheader]
    exact reach_line (hstep e _ he) (ih hmore hnext)

lemma reach_text (g : HeaderText policy) (pos : Nat) (o : out) (rest : Bytes)
    (hcap : (p.headers o).length < p.capacity) :
    Reader.Reach (p.reader policy hp) pos (.headers, o) (g.wire ++ rest) (pos + g.wire.length)
      (.headers, p.setHeaders o (p.headers o ++ [g.span pos])) rest :=
  reach_folds g.folds_ok g.ending_ok fun _ tail he => decide_of_headerStep
    (headerStep_field p.capacity pos (p.headers o) tail g.field he g.field_le hcap)

lemma reach_texts (gs : List (HeaderText policy)) (pos : Nat) (o : out) (rest : Bytes)
    (hcap : (p.headers o).length + gs.length ≤ p.capacity) :
    Reader.Reach (p.reader policy hp) pos (.headers, o) (gs.flatMap HeaderText.wire ++ rest)
      (pos + (gs.flatMap HeaderText.wire).length)
      (.headers, p.setHeaders o (p.headers o ++ textSpans pos gs)) rest := by
  induction gs generalizing pos o with
  | nil =>
    rw [textSpans, List.append_nil, hp.set_headers]
    exact .refl _ _ _
  | cons g gs ih =>
    rw [List.length_cons] at hcap
    have hhead := reach_text hp g pos o (gs.flatMap HeaderText.wire ++ rest) (by omega)
    have htail := ih (pos + g.wire.length) (p.setHeaders o (p.headers o ++ [g.span pos]))
      (by rw [hp.headers_set, List.length_append, List.length_singleton]; omega)
    rw [hp.headers_set, hp.set_set, List.append_assoc, Nat.add_assoc, ← List.length_append] at htail
    rw [List.flatMap_cons, List.append_assoc]
    exact hhead.trans htail

/-- A block is read to its end, whatever follows it. -/
lemma read_block (b : BlockText policy p.capacity) (pos : Nat) (o : out) (post : Bytes)
    (hnil : p.headers o = []) :
    (p.reader policy hp).read pos (.headers, o) (b.wire ++ post) =
      .done (pos + b.wire.length) (.headers, p.setHeaders o (textSpans pos b.headers)) := by
  have hreach := reach_texts hp b.headers pos o (b.last ++ post)
    (by rw [hnil, List.length_nil, Nat.zero_add]; exact b.count_le)
  have hend := decide_emptyLine hp (pos + (b.headers.flatMap HeaderText.wire).length)
    (p.setHeaders o (p.headers o ++ textSpans pos b.headers)) b.last_ok post
  rw [BlockText.wire, List.append_assoc, hreach.read_eq, Reader.read_of_finish hend, hnil,
    List.nil_append, List.length_append, Nat.add_assoc]

/-- A start line that is read, with a block behind it, is a head that is read. -/
lemma read_text {line e post : Bytes} (b : BlockText policy p.capacity) {zero o : out}
    (hstart : (p.reader policy hp).decide 0 (.startLine, zero) (line ++ e ++ (b.wire ++ post)) =
      .advance (line.length + e.length) (.headers, o))
    (hnil : p.headers o = []) :
    (p.reader policy hp).read 0 (.startLine, zero) (line ++ e ++ b.wire ++ post) =
      .done (line ++ e ++ b.wire).length
        (.headers, p.setHeaders o (textSpans (line.length + e.length) b.headers)) := by
  rw [List.append_assoc, Reader.read_of_advance hstart, ← List.length_append, List.drop_left,
    read_block hp b _ o post hnil, Nat.zero_add, ← List.length_append]

variable {hp} in
/-- Header lines behind a line that has its ending are the lines that continue it, and headers. -/
lemma exists_texts_of_headerLines {cap k k' : Nat} {w : Bytes} (h : HeaderLines policy cap k w k')
    {e : Bytes} (he : IsLineEnding policy e) :
    ∃ (folds : List (Bytes × FoldLine)) (ending : Bytes) (gs : List (HeaderText policy)),
      e ++ w = foldsWire folds ++ ending ++ gs.flatMap HeaderText.wire ∧
      (∀ f ∈ folds, policy.rejectObsFold = false ∧ IsLineEnding policy f.1 ∧
        f.2.line.length ≤ ihtpMaxHeaderLine) ∧
      IsLineEnding policy ending ∧ (k ≤ cap → k + gs.length ≤ cap) := by
  induction h generalizing e with
  | nil k => exact ⟨[], e, [], by simp [foldsWire], by simp, he, by simp⟩
  | @field k k' e' w f he' hlen hk _ ih =>
    obtain ⟨folds, ending, gs, hw, hfolds, hending, hcount⟩ := ih he'
    let g : HeaderText policy := ⟨f, folds, ending, hlen, hfolds, hending⟩
    refine ⟨[], e, g :: gs, ?_, by simp, he, fun _ => ?_⟩
    · have hg : g.wire = f.line ++ foldsWire folds ++ ending := rfl
      rw [List.append_assoc f.line, hw, List.flatMap_cons, hg]
      simp only [foldsWire, List.flatMap_nil, List.nil_append, List.append_assoc]
    · have hle := hcount hk
      rw [List.length_cons]
      omega
  | @fold k k' e' w f hfold he' hlen hk _ ih =>
    obtain ⟨folds, ending, gs, hw, hfolds, hending, hcount⟩ := ih he'
    refine ⟨(e, f) :: folds, ending, gs, ?_, ?_, hending, hcount⟩
    · rw [List.append_assoc f.line, hw, foldsWire_cons]
      simp only [List.append_assoc]
    · exact List.forall_mem_cons.mpr ⟨⟨hfold, he, hlen⟩, hfolds⟩

/-- What a reader that has no headers yet reads to the end is a block. -/
lemma exists_block_of_done {pos n : Nat} {o : out} {xs : Bytes} {t : ParserPhase × out}
    (h : (p.reader policy hp).read pos (.headers, o) xs = .done n t) (hnil : p.headers o = []) :
    ∃ (b : BlockText policy p.capacity) (post : Bytes), xs = b.wire ++ post := by
  obtain ⟨q, t', rest, hr, h' | ⟨e, _, h'⟩ | ⟨m, u, hd, h'⟩⟩ :=
    Reader.exists_reach (p.reader policy hp) pos (.headers, o) xs
  · rw [h] at h'; cases h'.2
  · rw [h] at h'; cases h'
  · obtain ⟨_, w, rfl, hlines⟩ := headerLines_of_reach hr rfl
    obtain ⟨e, post, rfl, he, _, _⟩ := headerDecision_finish (decide_finish hd).2
    rw [hnil, List.length_nil] at hlines
    generalize (p.headers t'.2).length = k at hlines
    cases hlines with
    | nil => exact ⟨⟨[], e, Nat.zero_le _, he⟩, post, rfl⟩
    | field f he' hlen hk hlines =>
      obtain ⟨folds, ending, gs, hw, hfolds, hending, hcount⟩ :=
        exists_texts_of_headerLines hlines he'
      let g : HeaderText policy := ⟨f, folds, ending, hlen, hfolds, hending⟩
      have hg : g.wire = f.line ++ foldsWire folds ++ ending := rfl
      refine ⟨⟨g :: gs, e, ?_, he⟩, post, ?_⟩
      · have hle := hcount hk
        rw [List.length_cons]
        omega
      · rw [BlockText.wire, List.flatMap_cons, hg, List.append_assoc f.line, hw]
        simp only [List.append_assoc]
    | fold _ _ _ _ hk _ => exact absurd hk (Nat.lt_irrefl 0)

end MessageParser

/-- A parser that reads every text to its end, and nothing else, reads exactly the texts. -/
lemma readsExactly_of_wire {text out msg : Type} {parse : Bytes → Status × out × Nat}
    {resolve : Bytes → out → msg} {wire : text → Bytes} {spans : text → out} {meaning : text → msg}
    (hwire : ∀ t post, parse (wire t ++ post) = (.ok, spans t, (wire t).length))
    (hread : ∀ buf o n, parse buf = (.ok, o, n) → ∃ t post, buf = wire t ++ post)
    (hres : ∀ t post, resolve (wire t ++ post) (spans t) = meaning t) :
    ReadsExactly parse resolve wire meaning := by
  have hexact (buf : Bytes) (n : Nat) := exact_of_wire resolve parse hwire (fun buf o n h => by
    obtain ⟨t, post, rfl⟩ := hread buf o n h
    rw [hwire] at h
    exact ⟨t, post, rfl, (Prod.mk.inj (Prod.mk.inj h).2).2.symm⟩) hres buf n
  exact ⟨fun buf n => (hexact buf n).1, fun buf o n h => ((hexact buf n).2 o h).1⟩

section Heads

variable {policy : Policy}

/-- The request a head is read as. -/
def RequestText.spans (t : RequestText policy) : Request Span :=
  { t.requestLine.apply 0 .zero with
    headers := textSpans (t.requestLine.line.length + t.ending.length) t.block.headers }

/-- The response a head is read as. -/
def ResponseText.spans (t : ResponseText policy) : Response Span :=
  { t.statusLine.apply 0 .zero with
    headers := textSpans (t.statusLine.line.length + t.ending.length) t.block.headers }

/-- The headers behind a start line. -/
lemma resolve_block (line ending : Bytes) {cap : Nat} (b : BlockText policy cap) (post : Bytes) :
    (textSpans (line.length + ending.length) b.headers).map
        (Header.resolve (line ++ ending ++ b.wire ++ post)) =
      b.headers.map HeaderText.header := by
  have hresolve := resolve_textSpans (line ++ ending) b.headers (b.last ++ post)
  rw [List.length_append, ← List.append_assoc (b.headers.flatMap _), ← List.append_assoc] at hresolve
  exact hresolve

lemma RequestText.resolve_spans (t : RequestText policy) (post : Bytes) :
    t.spans.resolve (t.wire ++ post) = t.request := by
  have hbuf : t.wire ++ post = t.requestLine.method ++ (sp :: (t.requestLine.target ++
      sp :: (t.requestLine.version.bytes ++ (t.ending ++ (t.block.wire ++ post))))) := by
    simp only [wire, RequestLine.line, List.append_assoc, List.cons_append]
  have hmethod : Span.read (t.wire ++ post) ⟨0, t.requestLine.method.length⟩ =
      t.requestLine.method := by
    rw [hbuf]
    exact Span.read_middle [] _ _
  have hpath : Span.read (t.wire ++ post)
      ⟨0 + (t.requestLine.method.length + 1), t.requestLine.target.length⟩ =
        t.requestLine.target := by
    have hread := Span.read_middle (t.requestLine.method ++ [sp]) t.requestLine.target
      (sp :: (t.requestLine.version.bytes ++ (t.ending ++ (t.block.wire ++ post))))
    rw [List.length_append, List.append_assoc] at hread
    rw [hbuf, Nat.zero_add]
    exact hread
  have hheaders := resolve_block t.requestLine.line t.ending t.block post
  unfold spans Request.resolve RequestLine.apply
  rw [wire] at hmethod hpath ⊢
  rw [hheaders, hmethod, hpath]
  rfl

lemma ResponseText.resolve_spans (t : ResponseText policy) (post : Bytes) :
    t.spans.resolve (t.wire ++ post) = t.response := by
  have hreason : Span.read (t.wire ++ post) ⟨0 + 13, t.statusLine.reason.length⟩ =
      t.statusLine.reason := by
    have hread := Span.read_middle
      (t.statusLine.version.bytes ++ sp :: (statusDigits t.statusLine.code ++ [sp]))
      t.statusLine.reason (t.ending ++ (t.block.wire ++ post))
    have hlen : (t.statusLine.version.bytes ++ sp ::
        (statusDigits t.statusLine.code ++ [sp])).length = 0 + 13 := by
      rw [List.length_append, t.statusLine.version.length_bytes]
      rfl
    have hbuf : t.wire ++ post = t.statusLine.version.bytes ++ sp ::
        (statusDigits t.statusLine.code ++ [sp]) ++
          (t.statusLine.reason ++ (t.ending ++ (t.block.wire ++ post))) := by
      simp only [wire, StatusLine.line, List.append_assoc, List.cons_append, List.nil_append]
    rw [hbuf, ← hlen]
    exact hread
  have hheaders := resolve_block t.statusLine.line t.ending t.block post
  unfold spans Response.resolve StatusLine.apply
  rw [wire] at hreason ⊢
  rw [hheaders, hreason]
  rfl

end Heads

section Parsers

variable (policy : Option Policy)

lemma parseRequest_text (t : RequestText (resolvePolicy policy)) (post : Bytes) :
    parseRequest (t.wire ++ post) policy = (.ok, t.spans, t.wire.length) := by
  have hp := requestParser_lawful (resolvePolicy policy)
  have hstart := decide_requestLine (resolvePolicy policy) t.requestLine t.ending_ok
    t.requestLine_le (t.block.wire ++ post)
  have hread : (requestParser.reader _ hp).read 0 (.startLine, .zero) (t.wire ++ post) =
      .done t.wire.length (.headers, t.spans) := MessageParser.read_text hp t.block hstart rfl
  have hcall := MessageParser.parseStateful_of_done policy hp (parserStateInit .request) rfl
    (.inl rfl) 0 hread
  unfold parseRequest parseRequestStateful
  rw [hcall]

lemma exists_text_of_parseRequest {buf : Bytes} {req : Request Span} {n : Nat}
    (h : parseRequest buf policy = (.ok, req, n)) :
    ∃ (t : RequestText (resolvePolicy policy)) (post : Bytes), buf = t.wire ++ post := by
  obtain ⟨phase, hdone⟩ := done_of_parseRequest h
  obtain ⟨o, k, hline, hdone⟩ := MessageParser.startLine_of_done hdone
  obtain ⟨r, e, tail, rfl, he, hmax, hreq, rfl⟩ := exists_of_parseRequestLine hline
  rw [← List.length_append, List.drop_left] at hdone
  obtain ⟨b, post, rfl⟩ := MessageParser.exists_block_of_done _ hdone (by rw [hreq]; rfl)
  exact ⟨⟨r, e, b, hmax, he⟩, post, (List.append_assoc _ _ _).symm⟩

lemma parseResponse_text (t : ResponseText (resolvePolicy policy)) (post : Bytes) :
    parseResponse (t.wire ++ post) policy = (.ok, t.spans, t.wire.length) := by
  have hp := responseParser_lawful (resolvePolicy policy)
  have hstart := decide_statusLine (resolvePolicy policy) t.statusLine t.ending_ok
    (t.block.wire ++ post)
  have hread : (responseParser.reader _ hp).read 0 (.startLine, .zero) (t.wire ++ post) =
      .done t.wire.length (.headers, t.spans) := MessageParser.read_text hp t.block hstart rfl
  have hcall := MessageParser.parseStateful_of_done policy hp (parserStateInit .response) rfl
    (.inl rfl) 0 hread
  unfold parseResponse parseResponseStateful
  rw [hcall]

lemma exists_text_of_parseResponse {buf : Bytes} {resp : Response Span} {n : Nat}
    (h : parseResponse buf policy = (.ok, resp, n)) :
    ∃ (t : ResponseText (resolvePolicy policy)) (post : Bytes), buf = t.wire ++ post := by
  obtain ⟨phase, hdone⟩ := done_of_parseResponse h
  obtain ⟨o, k, hline, hdone⟩ := MessageParser.startLine_of_done hdone
  obtain ⟨s, e, tail, rfl, he, hresp, rfl⟩ := exists_of_parseStatusLine hline
  rw [← List.length_append, List.drop_left] at hdone
  obtain ⟨b, post, rfl⟩ := MessageParser.exists_block_of_done _ hdone (by rw [hresp]; rfl)
  exact ⟨⟨s, e, b, he⟩, post, (List.append_assoc _ _ _).symm⟩

lemma parseHeaders_text {capacity : Nat} (b : BlockText (resolvePolicy policy) capacity)
    (post : Bytes) : parseHeaders (b.wire ++ post) capacity policy =
      (.ok, textSpans 0 b.headers, b.wire.length) := by
  have hp := headersParser_lawful capacity (resolvePolicy policy)
  have hread : ((headersParser capacity).reader _ hp).read 0 (.headers, []) (b.wire ++ post) =
      .done b.wire.length (.headers, textSpans 0 b.headers) := by
    have hblock := MessageParser.read_block hp b 0 [] post rfl
    rwa [Nat.zero_add] at hblock
  have hcall := MessageParser.parseStateful_of_done policy hp (parserStateInit .headers) rfl
    (.inr rfl) 0 hread
  exact congrArg (fun r => (r.status, r.out, r.bytesConsumed)) hcall

lemma exists_text_of_parseHeaders {capacity : Nat} {buf : Bytes} {headers : List (Header Span)}
    {n : Nat} (h : parseHeaders buf capacity policy = (.ok, headers, n)) :
    ∃ (b : BlockText (resolvePolicy policy) capacity) (post : Bytes), buf = b.wire ++ post := by
  obtain ⟨phase, hdone⟩ := done_of_parseHeaders h
  exact MessageParser.exists_block_of_done _ hdone rfl

/-- Under every policy the parsers accept exactly the heads and header blocks that the policy
admits, continued values included, and return exactly what they denote, whatever follows them. -/
theorem parse_policy_exact :
    ReadsExactly (parseRequest · policy) (fun buf req => req.resolve buf)
      (fun t : RequestText (resolvePolicy policy) => t.wire) RequestText.request ∧
    ReadsExactly (parseResponse · policy) (fun buf resp => resp.resolve buf)
      (fun t : ResponseText (resolvePolicy policy) => t.wire) ResponseText.response ∧
    ∀ capacity, ReadsExactly (parseHeaders · capacity policy)
      (fun buf headers => headers.map (Header.resolve buf))
      (fun b : BlockText (resolvePolicy policy) capacity => b.wire)
      (fun b => b.headers.map HeaderText.header) := by
  refine ⟨readsExactly_of_wire (parseRequest_text policy)
      (fun _ _ _ => exists_text_of_parseRequest policy) RequestText.resolve_spans,
    readsExactly_of_wire (parseResponse_text policy)
      (fun _ _ _ => exists_text_of_parseResponse policy) ResponseText.resolve_spans,
    fun capacity => readsExactly_of_wire (parseHeaders_text policy)
      (fun _ _ _ => exists_text_of_parseHeaders policy) fun b post => ?_⟩
  exact resolve_block [] [] b post

end Parsers

/-! ### Plain texts -/

section Plain

variable {policy : Policy}

lemma isLineEnding_crlf (policy : Policy) : IsLineEnding policy crlf := .inl rfl

/-- A field line without the whitespace that is not part of its value. -/
def FieldLine.plain (f : FieldLine) (keepTrail : Bool) : FieldLine :=
  { f with
    lead := []
    trail := if keepTrail then f.trail else []
    lead_ows := nofun
    trail_ows := by
      cases keepTrail with
      | true => exact f.trail_ows
      | false => exact nofun }

lemma FieldLine.plain_line (f : FieldLine) (keepTrail : Bool) :
    (f.plain keepTrail).line =
      f.name ++ colon :: (f.value ++ if keepTrail then f.trail else []) := rfl

lemma FieldLine.plain_le (f : FieldLine) (keepTrail : Bool) :
    (f.plain keepTrail).line.length ≤ f.line.length := by
  have htrail : (if keepTrail then f.trail else []).length ≤ f.trail.length := by
    cases keepTrail with
    | true => exact Nat.le_refl _
    | false => exact Nat.zero_le _
  rw [FieldLine.plain_line, FieldLine.line]
  simp only [List.length_append, List.length_cons]
  omega

/-- The plain text of a header. Whitespace behind the first line of a value that goes on belongs to
the value, unless that line holds none of it. -/
def HeaderText.plain (g : HeaderText policy) : HeaderText policy where
  field := g.field.plain (!g.folds.isEmpty && !g.field.value.isEmpty)
  folds := g.folds
  ending := crlf
  field_le := (g.field.plain_le _).trans g.field_le
  folds_ok := g.folds_ok
  ending_ok := isLineEnding_crlf policy

lemma HeaderText.plain_wire (g : HeaderText policy) :
    g.plain.wire = g.header.name ++ colon :: g.header.value ++ crlf := by
  change (g.field.plain _).line ++ foldsWire g.folds ++ crlf = g.field.name ++ colon :: g.value ++ crlf
  rw [FieldLine.plain_line, HeaderText.value, FieldLine.openValue]
  by_cases hfolds : g.folds = []
  · rw [if_pos hfolds, hfolds]
    simp only [List.isEmpty_nil, Bool.not_true, Bool.false_and, Bool.false_eq_true, if_false,
      foldsWire, List.flatMap_nil, List.append_nil]
  · have hempty : g.folds.isEmpty = false := List.isEmpty_eq_false_iff.mpr hfolds
    rw [if_neg hfolds, hempty, Bool.not_false, Bool.true_and]
    by_cases hvalue : g.field.value = []
    · rw [if_pos hvalue, hvalue]
      simp only [List.isEmpty_nil, Bool.not_true, Bool.false_eq_true, if_false, List.nil_append,
        List.append_assoc, List.cons_append]
    · have hsome : g.field.value.isEmpty = false := List.isEmpty_eq_false_iff.mpr hvalue
      rw [if_neg hvalue, hsome, Bool.not_false, if_pos rfl]
      simp only [List.append_assoc, List.cons_append]

lemma HeaderText.plain_header (g : HeaderText policy) : g.plain.header = g.header := by
  have hvalue : g.plain.value = g.value := by
    change (if g.folds = [] then g.field.value
      else (g.field.plain (!g.folds.isEmpty && !g.field.value.isEmpty)).openValue ++
        foldsWire g.folds) = g.value
    rw [HeaderText.value]
    by_cases hfolds : g.folds = []
    · rw [if_pos hfolds, if_pos hfolds]
    · rw [if_neg hfolds, if_neg hfolds]
      congr 1
      have hempty : g.folds.isEmpty = false := List.isEmpty_eq_false_iff.mpr hfolds
      by_cases hv : g.field.value = []
      · have hplain : (g.field.plain (!g.folds.isEmpty && !g.field.value.isEmpty)).value = [] := hv
        rw [FieldLine.openValue, FieldLine.openValue, if_pos hv, if_pos hplain]
      · have hsome : g.field.value.isEmpty = false := List.isEmpty_eq_false_iff.mpr hv
        rw [hempty, hsome]
        rfl
  exact congrArg (Header.mk g.field.name) hvalue

/-- The plain text of a block. -/
def BlockText.plain {capacity : Nat} (b : BlockText policy capacity) : BlockText policy capacity where
  headers := b.headers.map HeaderText.plain
  last := crlf
  count_le := by
    rw [List.length_map]
    exact b.count_le
  last_ok := isLineEnding_crlf policy

lemma BlockText.plain_headers {capacity : Nat} (b : BlockText policy capacity) :
    b.plain.headers.map HeaderText.header = b.headers.map HeaderText.header := by
  change (b.headers.map HeaderText.plain).map HeaderText.header = _
  rw [List.map_map]
  exact List.map_congr_left fun g _ => g.plain_header

lemma BlockText.plain_wire {capacity : Nat} (b : BlockText policy capacity) :
    b.plain.wire = printHeaders (b.headers.map HeaderText.header) := by
  change (b.headers.map HeaderText.plain).flatMap HeaderText.wire ++ crlf = _
  rw [printHeaders, List.flatMap_map, List.flatMap_map]
  simp only [HeaderText.plain_wire]

/-- The plain text of a request. -/
def RequestText.plain (t : RequestText policy) : RequestText policy :=
  { t with ending := crlf, block := t.block.plain, ending_ok := isLineEnding_crlf policy }

lemma RequestText.plain_wire (t : RequestText policy) : t.plain.wire = printRequest t.request := by
  have hblock := t.block.plain_wire
  unfold RequestText.wire printRequest
  exact congrArg (t.requestLine.line ++ crlf ++ ·) hblock

lemma RequestText.plain_request (t : RequestText policy) : t.plain.request = t.request := by
  have hheaders := t.block.plain_headers
  unfold RequestText.request
  rw [← hheaders]
  rfl

/-- The plain text of a response. -/
def ResponseText.plain (t : ResponseText policy) : ResponseText policy :=
  { t with ending := crlf, block := t.block.plain, ending_ok := isLineEnding_crlf policy }

lemma ResponseText.plain_wire (t : ResponseText policy) :
    t.plain.wire = printResponse t.response := by
  have hblock := t.block.plain_wire
  unfold ResponseText.wire printResponse
  exact congrArg (t.statusLine.line ++ crlf ++ ·) hblock

lemma ResponseText.plain_response (t : ResponseText policy) : t.plain.response = t.response := by
  have hheaders := t.block.plain_headers
  unfold ResponseText.response
  rw [← hheaders]
  rfl

/-- A parser that reads texts, among them the plain text of each, prints back. -/
lemma printsBack_of_wire {text out msg : Type} {parse : Bytes → Status × out × Nat}
    {resolve : Bytes → out → msg} {print : msg → Bytes} {wire : text → Bytes} {spans : text → out}
    {meaning : text → msg} (plain : text → text)
    (hwire : ∀ t post, parse (wire t ++ post) = (.ok, spans t, (wire t).length))
    (hread : ∀ buf o n, parse buf = (.ok, o, n) → ∃ t post, buf = wire t ++ post)
    (hres : ∀ t post, resolve (wire t ++ post) (spans t) = meaning t)
    (hplain : ∀ t, wire (plain t) = print (meaning t)) (hsame : ∀ t, meaning (plain t) = meaning t) :
    PrintsBack parse resolve print := by
  intro buf o n h post
  obtain ⟨t, rest, rfl⟩ := hread buf o n h
  rw [hwire] at h
  obtain ⟨rfl, -⟩ := Prod.mk.inj (Prod.mk.inj h).2
  rw [hres, ← hplain]
  exact ⟨spans (plain t), hwire _ post, (hres _ post).trans (hsame t)⟩

end Plain

/-- A message that one of the parsers returned, under any policy, is read back the same from the
plain way to write it, whatever follows it. -/
theorem parse_prints_back (policy : Option Policy) :
    PrintsBack (parseRequest · policy) (fun buf req => req.resolve buf) printRequest ∧
    PrintsBack (parseResponse · policy) (fun buf resp => resp.resolve buf) printResponse ∧
    ∀ capacity, PrintsBack (parseHeaders · capacity policy)
      (fun buf headers => headers.map (Header.resolve buf)) printHeaders := by
  refine ⟨printsBack_of_wire RequestText.plain (parseRequest_text policy)
      (fun _ _ _ => exists_text_of_parseRequest policy) RequestText.resolve_spans
      RequestText.plain_wire RequestText.plain_request,
    printsBack_of_wire ResponseText.plain (parseResponse_text policy)
      (fun _ _ _ => exists_text_of_parseResponse policy) ResponseText.resolve_spans
      ResponseText.plain_wire ResponseText.plain_response,
    fun capacity => printsBack_of_wire BlockText.plain (parseHeaders_text policy)
      (fun _ _ _ => exists_text_of_parseHeaders policy) (fun b post => ?_)
      BlockText.plain_wire BlockText.plain_headers⟩
  exact resolve_block [] [] b post

/-! ### Method names -/

lemma methodFromStr_toStr (m : Method) : methodFromStr (methodToStr m) = m := by
  cases m <;> rfl

lemma methodToStr_fromStr {method : Bytes} (h : methodFromStr method ≠ .unknown) :
    methodToStr (methodFromStr method) = method := by
  unfold methodFromStr at h ⊢
  split at h <;> grind [methodToStr]

/-- A request has a known method exactly if its method is one of the names, and then prints it. -/
theorem method_prints_back {policy : Option Policy} {buf : Bytes} {req : Request Span} {n : Nat}
    (h : parseRequest buf policy = (.ok, req, n)) :
    (req.method ≠ .unknown ↔ ∃ m, m ≠ .unknown ∧ req.methodStr.read buf = methodToStr m) ∧
    (req.method ≠ .unknown → methodToStr req.method = req.methodStr.read buf) := by
  obtain ⟨t, post, rfl⟩ := exists_text_of_parseRequest policy h
  rw [parseRequest_text] at h
  obtain ⟨rfl, -⟩ := Prod.mk.inj (Prod.mk.inj h).2
  have hname : t.spans.methodStr.read (t.wire ++ post) = t.requestLine.method :=
    congrArg Request.methodStr (t.resolve_spans post)
  have hmethod : t.spans.method = methodFromStr t.requestLine.method := rfl
  rw [hname, hmethod]
  refine ⟨⟨fun hknown => ⟨_, hknown, (methodToStr_fromStr hknown).symm⟩, ?_⟩, methodToStr_fromStr⟩
  rintro ⟨m, hm, htext⟩
  rwa [htext, methodFromStr_toStr]

end IoHttpParser
