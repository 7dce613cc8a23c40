import IoHttpParser.Model.Consumer
import IoHttpParser.Spec.Connection
import IoHttpParser.Proofs.RequestGrammar
import IoHttpParser.Proofs.RequestFraming
import IoHttpParser.Proofs.ChunkedBody

/-!
# Pipelined messages

Parser, framing decision and body decoders agree on every boundary: a consumer recovers each
message of a stream and leaves exactly what follows the last.
-/

namespace IoHttpParser
open Framed

/-- What the consumer should make of a request on the wire. -/
def Endpoint.Wire.consumed (w : requestEndpoint.Wire none) : Message :=
  ⟨w.message, w.payload, w.wire.length⟩

/-- A head that is accepted on its own is read the same with anything behind it. -/
lemma parseRequest_head {head : Bytes} {spans : Request Span}
    (h : parseRequest head none = (.ok, spans, head.length)) (post : Bytes) :
    parseRequest (head ++ post) none = (.ok, spans, head.length) ∧
      spans.resolve (head ++ post) = spans.resolve head := by
  obtain ⟨g, tail, hbuf, hlen⟩ := exists_head_of_parseRequest h
  have htail : tail = [] := by
    apply List.eq_nil_of_length_eq_zero
    have hl := congrArg List.length hbuf
    rw [List.length_append] at hl
    omega
  rw [htail, List.append_nil] at hbuf
  subst hbuf
  have hself := parseRequest_wire g []
  rw [List.append_nil] at hself
  obtain rfl : spans = g.spans := by
    rw [h] at hself
    exact (Prod.mk.inj (Prod.mk.inj hself).2).1
  refine ⟨parseRequest_wire g post, ?_⟩
  have hres := g.resolve_spans []
  rw [List.append_nil] at hres
  rw [g.resolve_spans, hres]

lemma decodeFixed_all (n : Nat) :
    ∃ d, decodeFixed (fixedDecoderInit n) n = (.ok, d) := by
  unfold decodeFixed fixedDecoderInit
  simp

/-- The decoder of the declared mode stops right behind the body. -/
lemma consumeBody_body {req : Request Bytes} {body payload : Bytes}
    (h : requestEndpoint.IsBodyOf req body payload) (post : Bytes)
    (hlen : (body ++ post).length < 2 ^ 31) :
    consumeBody req (body ++ post) = some (payload, post) := by
  unfold Endpoint.IsBodyOf at h
  unfold consumeBody
  have hendpoint : requestEndpoint.bodyMode req = req.bodyMode := rfl
  rw [hendpoint] at h
  cases hmode : req.bodyMode with
  | none =>
    rw [hmode] at h
    obtain ⟨rfl, rfl⟩ := h
    rfl
  | fixed =>
    rw [hmode] at h
    obtain ⟨hbody, rfl⟩ := h
    have hlength : payload.length = req.contentLength := hbody
    have hmin : min (payload ++ post).length req.contentLength = payload.length := by
      rw [List.length_append]
      omega
    obtain ⟨d, hd⟩ := decodeFixed_all payload.length
    dsimp only
    rw [hmin, ← hlength, hd]
    simp
  | chunked =>
    rw [hmode] at h
    obtain ⟨b, rfl, rfl⟩ := h
    obtain ⟨d, -, -, hrun⟩ := run_body (q := false) b true post
    obtain ⟨r, hr, -, hret, -, htake, hdrop, -⟩ :=
      decodeChunked_of_complete (ok_zero true) nofun hlen hrun
    dsimp only
    rw [hr]
    dsimp only
    rw [hret, if_neg (by omega), htake, Int.toNat_natCast, hdrop]
  | eof =>
    rw [hmode] at h
    exact h.elim

/-- One message is consumed up to its last byte. -/
lemma consumeMessage_delimits (w : requestEndpoint.Wire none) :
    Delimits consumeMessage (fun buf => buf.length < 2 ^ 31) w.wire w.consumed := by
  intro post hlen
  obtain ⟨hparse, hresolve⟩ := parseRequest_head w.parsed (w.body ++ post)
  have hbody := consumeBody_body w.framed post (by
    simp only [Endpoint.Wire.wire, List.length_append] at hlen ⊢
    omega)
  have haccepted : requestApplySemantics (w.spans.resolve w.head) none = (.ok, w.message) :=
    w.accepted
  unfold consumeMessage Endpoint.Wire.wire
  rw [List.append_assoc, hparse]
  dsimp only
  rw [hresolve, haccepted]
  dsimp only
  rw [List.drop_left, hbody]
  have hlength : (w.head ++ (w.body ++ post)).length - post.length = w.wire.length := by
    simp only [Endpoint.Wire.wire, List.length_append]
    omega
  dsimp only
  rw [hlength]
  rfl

/-- The consumer recovers every message of a stream, with its framing, its payload and its
boundaries, and leaves exactly the bytes behind the last. -/
theorem consumeMessages_wire (ws : List (requestEndpoint.Wire none)) (s : Bytes)
    (hlen : (ws.flatMap Endpoint.Wire.wire ++ s).length < 2 ^ 31) :
    consumeMessages ws.length (ws.flatMap Endpoint.Wire.wire ++ s) =
      some (ws.map Endpoint.Wire.consumed, s) := by
  apply readMany_flatMap (fun buf => buf.length < 2 ^ 31)
  · intro xs ys hxs
    rw [List.length_append] at hxs
    omega
  · intro w _
    exact consumeMessage_delimits w
  · exact hlen

/-- A chunked upload. -/
def chunkedUpload : requestEndpoint.Wire none where
  head := ascii "POST /a HTTP/1.1\r\nHost: h\r\nTransfer-Encoding: chunked\r\n\r\n"
  body := endLookalike.wire
  spans := { Request.zero with
    method := .post, methodStr := ⟨0, 4⟩, path := ⟨5, 2⟩, version := .http11
    headers := [⟨⟨18, 4⟩, ⟨24, 1⟩⟩, ⟨⟨27, 17⟩, ⟨46, 7⟩⟩] }
  message :=
    { method := .post, methodStr := ascii "POST", path := ascii "/a", version := .http11
      headers := [⟨ascii "Host", ascii "h"⟩, ⟨ascii "Transfer-Encoding", ascii "chunked"⟩]
      bodyMode := .chunked, contentLength := 0, keepAlive := true, protocolUpgrade := false
      expectsContinue := false, hasTrailerFields := false }
  payload := endLookalike.payload
  parsed := by decide
  accepted := by decide
  stays := rfl
  framed := ⟨endLookalike, rfl, rfl⟩

/-- An upload of declared length, whose body looks like a head. -/
def fixedUpload : requestEndpoint.Wire none where
  head := ascii "PUT /b HTTP/1.0\r\nContent-Length: 18\r\n\r\n"
  body := ascii "GET / HTTP/1.0\r\n\r\n"
  spans := { Request.zero with
    method := .put, methodStr := ⟨0, 3⟩, path := ⟨4, 2⟩, version := .http10
    headers := [⟨⟨17, 14⟩, ⟨33, 2⟩⟩] }
  message :=
    { method := .put, methodStr := ascii "PUT", path := ascii "/b", version := .http10
      headers := [⟨ascii "Content-Length", ascii "18"⟩]
      bodyMode := .fixed, contentLength := 18, keepAlive := false, protocolUpgrade := false
      expectsContinue := false, hasTrailerFields := false }
  payload := ascii "GET / HTTP/1.0\r\n\r\n"
  parsed := by decide
  accepted := by decide
  stays := rfl
  framed := ⟨rfl, rfl⟩

theorem consumeMessages_wire_uploads :
    consumeMessages 2 ([chunkedUpload, fixedUpload].flatMap Endpoint.Wire.wire ++ ascii "GET") =
      some ([chunkedUpload.consumed, fixedUpload.consumed], ascii "GET") :=
  consumeMessages_wire [chunkedUpload, fixedUpload] (ascii "GET") (by decide +kernel)

end IoHttpParser
