import IoHttpParser.Proofs.HeadReader

/-!
# The strict response grammar

`ihtp_parse_response` under the strict policy accepts exactly the response heads of the grammar,
and its spans denote exactly their components.
-/

namespace IoHttpParser
open Memory Incremental

def ResponseHead.spans (h : ResponseHead) : Response Span :=
  { h.statusLine.apply 0 .zero with
    headers := fieldHeaders (h.statusLine.line.length + 2) h.fields }

lemma ResponseHead.resolve_spans (h : ResponseHead) (post : Bytes) :
    h.spans.resolve (h.wire ++ post) = h.response := by
  have hreason : Span.read (h.wire ++ post) ⟨0 + 13, h.statusLine.reason.length⟩ =
      h.statusLine.reason := by
    have hm := Span.read_middle
      (h.statusLine.version.bytes ++ sp :: (statusDigits h.statusLine.code ++ [sp]))
      h.statusLine.reason (crlf ++ (fieldsWire h.fields ++ crlf ++ post))
    have hlen : (h.statusLine.version.bytes ++ sp ::
        (statusDigits h.statusLine.code ++ [sp])).length = 0 + 13 := by
      rw [List.length_append, h.statusLine.version.length_bytes]
      rfl
    have hbuf : h.wire ++ post = h.statusLine.version.bytes ++ sp ::
        (statusDigits h.statusLine.code ++ [sp]) ++
          (h.statusLine.reason ++ (crlf ++ (fieldsWire h.fields ++ crlf ++ post))) := by
      simp only [wire, StatusLine.line, List.append_assoc, List.cons_append, List.nil_append]
    rw [hbuf, ← hlen]
    exact hm
  have hheaders : (fieldHeaders (h.statusLine.line.length + 2) h.fields).map
      (Header.resolve (h.wire ++ post)) = h.fields.map (fun f => ⟨f.name, f.value⟩) := by
    have hm := resolve_fieldHeaders (h.statusLine.line ++ crlf) h.fields (crlf ++ post)
    rw [List.length_append, show crlf.length = 2 from rfl, ← List.append_assoc (fieldsWire _),
      ← List.append_assoc] at hm
    exact hm
  unfold spans Response.resolve StatusLine.apply
  rw [hheaders, hreason]
  rfl

lemma done_of_parseResponse {buf : Bytes} {policy : Option Policy} {n : Nat} {resp : Response Span}
    (h : parseResponse buf policy = (.ok, resp, n)) :
    ∃ phase, (responseParser.reader _ (responseParser_lawful (resolvePolicy policy))).read 0
      (.startLine, .zero) buf = .done n (phase, resp) :=
  MessageParser.done_of_oneShot (responseParser_lawful (resolvePolicy policy)) h

lemma parseResponse_wire (h : ResponseHead) (post : Bytes) :
    parseResponse (h.wire ++ post) none = (.ok, h.spans, h.wire.length) := by
  have hread : (responseParser.reader .strict (responseParser_lawful .strict)).read 0
      (.startLine, .zero) (h.wire ++ post) = .done h.wire.length (.headers, h.spans) :=
    MessageParser.read_head (responseParser_lawful .strict)
      (decide_statusLine .strict h.statusLine (isLineEnding_strict.mpr rfl)
        (fieldsWire h.fields ++ (crlf ++ post)))
      h.fields_le (by simpa [responseParser, StatusLine.apply, Response.zero] using h.count_le)
  have hcall := MessageParser.parseStateful_of_done none (responseParser_lawful .strict)
    (parserStateInit .response) rfl (.inl rfl) 0 hread
  unfold parseResponse parseResponseStateful
  rw [hcall]

lemma exists_head_of_parseResponse {buf : Bytes} {n : Nat} {resp : Response Span}
    (h : parseResponse buf none = (.ok, resp, n)) :
    ∃ (head : ResponseHead) (post : Bytes), buf = head.wire ++ post ∧ n = head.wire.length := by
  obtain ⟨phase, hdone⟩ := done_of_parseResponse h
  obtain ⟨t, k, hline, hdone⟩ := MessageParser.startLine_of_done hdone
  obtain ⟨s, e, tail, rfl, he, hresp, rfl⟩ := exists_of_parseStatusLine hline
  obtain rfl := isLineEnding_strict.mp he
  obtain ⟨fs, post, hbuf, hle, hcount⟩ :=
    MessageParser.exists_fields_of_head hdone (by rw [hresp]; rfl)
  let head : ResponseHead := ⟨s, fs, hle, hcount⟩
  have hwire : s.line ++ crlf ++ tail = head.wire ++ post := hbuf
  refine ⟨head, post, hwire, ?_⟩
  have hdet := parseResponse_wire head post
  rw [← hwire, h] at hdet
  exact (Prod.mk.inj (Prod.mk.inj hdet).2).2

/-- The strict response parser accepts exactly the heads of the grammar and returns exactly their
components, whatever follows them. -/
theorem parseResponse_strict_iff (buf : Bytes) (n : Nat) :
    ((∃ resp, parseResponse buf none = (.ok, resp, n)) ↔
      n ≤ buf.length ∧ ∃ head : ResponseHead, buf.take n = head.wire) ∧
    ∀ resp, parseResponse buf none = (.ok, resp, n) →
      (∀ head : ResponseHead, buf.take n = head.wire → resp.resolve buf = head.response) ∧
      ∀ buf', n ≤ buf'.length → buf'.take n = buf.take n →
        parseResponse buf' none = (.ok, resp, n) :=
  exact_of_wire (fun buf resp => resp.resolve buf) (fun buf => parseResponse buf none) parseResponse_wire
    (fun _ _ _ => exists_head_of_parseResponse) ResponseHead.resolve_spans buf n

end IoHttpParser
