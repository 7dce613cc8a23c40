import IoHttpParser.Proofs.HeadReader

/-!
# The strict request grammar

`ihtp_parse_request` under the strict policy accepts exactly the heads of the grammar, and its
spans denote exactly their components.
-/

namespace IoHttpParser
open Memory Incremental

/-- The request a head is parsed into. -/
def RequestHead.spans (h : RequestHead) : Request Span :=
  { h.requestLine.apply 0 .zero with
    headers := fieldHeaders (h.requestLine.line.length + 2) h.fields }

/-- The spans of a parsed head denote its components. -/
lemma RequestHead.resolve_spans (h : RequestHead) (post : Bytes) :
    h.spans.resolve (h.wire ++ post) = h.request := by
  have hr : h.wire ++ post = h.requestLine.method ++ (sp :: (h.requestLine.target ++
      sp :: (h.requestLine.version.bytes ++ (crlf ++ (fieldsWire h.fields ++ crlf ++ post))))) := by
    simp only [wire, RequestLine.line, List.append_assoc, List.cons_append]
  have hmethod : Span.read (h.wire ++ post) ⟨0, h.requestLine.method.length⟩ =
      h.requestLine.method := by
    rw [hr]
    exact Span.read_middle [] _ _
  have hpath : Span.read (h.wire ++ post)
      ⟨0 + (h.requestLine.method.length + 1), h.requestLine.target.length⟩ =
        h.requestLine.target := by
    have hm := Span.read_middle (h.requestLine.method ++ [sp]) h.requestLine.target
      (sp :: (h.requestLine.version.bytes ++ (crlf ++ (fieldsWire h.fields ++ crlf ++ post))))
    rw [List.length_append, List.append_assoc] at hm
    rw [hr, Nat.zero_add]
    exact hm
  have hheaders : (fieldHeaders (h.requestLine.line.length + 2) h.fields).map
      (Header.resolve (h.wire ++ post)) = h.fields.map (fun f => ⟨f.name, f.value⟩) := by
    have hm := resolve_fieldHeaders (h.requestLine.line ++ crlf) h.fields (crlf ++ post)
    rw [List.length_append, show crlf.length = 2 from rfl, ← List.append_assoc (fieldsWire _),
      ← List.append_assoc] at hm
    exact hm
  simp only [spans, Request.resolve, RequestLine.apply, hmethod, hpath, hheaders]
  rfl

lemma done_of_parseRequest {buf : Bytes} {policy : Option Policy} {n : Nat} {req : Request Span}
    (h : parseRequest buf policy = (.ok, req, n)) :
    ∃ phase, (requestParser.reader _ (requestParser_lawful (resolvePolicy policy))).read 0
      (.startLine, .zero) buf = .done n (phase, req) :=
  MessageParser.done_of_oneShot (requestParser_lawful (resolvePolicy policy)) h

lemma parseRequest_wire (h : RequestHead) (post : Bytes) :
    parseRequest (h.wire ++ post) none = (.ok, h.spans, h.wire.length) := by
  have hread : (requestParser.reader .strict (requestParser_lawful .strict)).read 0
      (.startLine, .zero) (h.wire ++ post) = .done h.wire.length (.headers, h.spans) :=
    MessageParser.read_head (requestParser_lawful .strict)
      (decide_requestLine .strict h.requestLine (isLineEnding_strict.mpr rfl) h.requestLine_le
        (fieldsWire h.fields ++ (crlf ++ post)))
      h.fields_le (by simpa [requestParser, RequestLine.apply, Request.zero] using h.count_le)
  have hcall := MessageParser.parseStateful_of_done none (requestParser_lawful .strict)
    (parserStateInit .request) rfl (.inl rfl) 0 hread
  unfold parseRequest parseRequestStateful
  rw [hcall]

lemma exists_head_of_parseRequest {buf : Bytes} {n : Nat} {req : Request Span}
    (h : parseRequest buf none = (.ok, req, n)) :
    ∃ (head : RequestHead) (post : Bytes), buf = head.wire ++ post ∧ n = head.wire.length := by
  obtain ⟨phase, hdone⟩ := done_of_parseRequest h
  obtain ⟨t, k, hline, hdone⟩ := MessageParser.startLine_of_done hdone
  obtain ⟨r, e, tail, rfl, he, hmax, hreq, rfl⟩ := exists_of_parseRequestLine hline
  obtain rfl := isLineEnding_strict.mp he
  obtain ⟨fs, post, hbuf, hle, hcount⟩ :=
    MessageParser.exists_fields_of_head hdone (by rw [hreq]; rfl)
  let head : RequestHead := ⟨r, fs, hmax, hle, hcount⟩
  have hwire : r.line ++ crlf ++ tail = head.wire ++ post := hbuf
  refine ⟨head, post, hwire, ?_⟩
  have hdet := parseRequest_wire head post
  rw [← hwire, h] at hdet
  exact (Prod.mk.inj (Prod.mk.inj hdet).2).2

/-- The strict request parser accepts exactly the heads of the grammar and returns exactly their
components, whatever follows them. -/
theorem parseRequest_strict_iff (buf : Bytes) (n : Nat) :
    ((∃ req, parseRequest buf none = (.ok, req, n)) ↔
      n ≤ buf.length ∧ ∃ head : RequestHead, buf.take n = head.wire) ∧
    ∀ req, parseRequest buf none = (.ok, req, n) →
      (∀ head : RequestHead, buf.take n = head.wire → req.resolve buf = head.request) ∧
      ∀ buf', n ≤ buf'.length → buf'.take n = buf.take n →
        parseRequest buf' none = (.ok, req, n) :=
  exact_of_wire (fun buf req => req.resolve buf) (fun buf => parseRequest buf none) parseRequest_wire
    (fun _ _ _ => exists_head_of_parseRequest) RequestHead.resolve_spans buf n

end IoHttpParser
