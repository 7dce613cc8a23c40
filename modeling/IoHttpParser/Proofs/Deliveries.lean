import IoHttpParser.Proofs.Pieces
import IoHttpParser.Proofs.Pipeline

/-!
# Deliveries

What an encoder wrote is what a consumer is delivered, in any pieces: every message of a stream
once, in order, with its payload, and the connection waits for the next head.
-/

namespace IoHttpParser
open Resumable Incremental Streaming

namespace Endpoint

variable {msg : Type → Type} {e : Endpoint msg} {policy : Option Policy}

/-- A one-shot call that accepts all of its buffer reads it to its end. -/
lemma readHead_of_oneShot (he : e.Lawful) {head : Bytes} {spans : msg Span}
    (h : e.oneShot policy head = (.ok, spans, head.length)) :
    ∃ phase, e.readHead policy he head = .done head.length (phase, spans) := by
  obtain ⟨phase, hread⟩ := MessageParser.done_of_oneShot (he.parser (resolvePolicy policy)) h
  rw [init_phase he] at hread
  exact ⟨phase, hread⟩

/-- A step on a message takes its head. -/
lemma step_wire_head (he : e.Lawful) (w : e.Wire policy) (s : Bytes) :
    (e.connection policy).step e.start (w.wire ++ s) =
      e.enterBody ⟨e.parser.mode, .done, w.head.length⟩ w.message (w.body ++ s) := by
  obtain ⟨phase, hread⟩ := readHead_of_oneShot he w.parsed
  obtain ⟨-, -, hmore⟩ := readHead_done hread
  obtain ⟨hread', hres⟩ := hmore (w.body ++ s)
  rw [start, (waits_start he policy).step, List.nil_append, Wire.wire, List.append_assoc,
    headProgress, hread']
  dsimp only
  rw [hres, w.accepted, List.drop_left]
  rfl

/-- A message is taken in one step or two, and delivered with the last. -/
lemma step_wire (he : e.Lawful) (w : e.Wire policy) (s : Bytes)
    (hlen : (w.wire ++ s).length < 2 ^ 31) :
    (e.connection policy).step e.start (w.wire ++ s) = .next e.start s [w.delivery] ∨
      ∃ b, b ≠ e.start ∧
        (e.connection policy).step e.start (w.wire ++ s) = .next b (w.body ++ s) [] ∧
        (e.connection policy).step b (w.body ++ s) = .next e.start s [w.delivery] := by
  have hframed := w.framed
  have hbody : (w.body ++ s).length < 2 ^ 31 := by
    rw [Wire.wire, List.append_assoc, List.length_append] at hlen
    omega
  unfold IsBodyOf at hframed
  rw [step_wire_head he, enterBody, if_neg (by rw [w.stays]; exact Bool.false_ne_true)]
  cases hmode : e.bodyMode w.message with
  | none =>
    rw [hmode] at hframed
    obtain ⟨hnil, hpayload⟩ := hframed
    refine .inl ?_
    rw [hnil, List.nil_append, Wire.delivery, hpayload]
    rfl
  | fixed =>
    rw [hmode] at hframed
    obtain ⟨hlength, hpayload⟩ := hframed
    refine .inr ⟨.fixed ⟨e.parser.mode, .done, w.head.length⟩ w.message _ [],
      fun h => (by cases h), rfl, ?_⟩
    have hremaining : (fixedDecoderInit (e.contentLength w.message)).remaining = w.body.length :=
      hlength.symm
    rw [step_fixed, hremaining, if_neg (by rw [List.length_append]; omega), List.drop_left,
      List.take_left, Wire.delivery, hpayload]
    rfl
  | chunked =>
    rw [hmode] at hframed
    obtain ⟨b, hwire, hpayload⟩ := hframed
    refine .inr ⟨.chunked ⟨e.parser.mode, .done, w.head.length⟩ w.message _ [],
      fun h => (by cases h), rfl, ?_⟩
    obtain ⟨d, -, -, hrun⟩ := run_body (q := false) b true s
    have hconsumed : b.consumed true = w.body := hwire.symm
    rw [hconsumed] at hrun
    rw [step_chunked (ok_zero true) (fun h => by cases h) hbody, hrun, Wire.delivery, hpayload]
    rfl
  | eof =>
    rw [hmode] at hframed
    exact hframed.elim

/-- The messages of a stream are taken in turn. -/
lemma reaches_stream (he : e.Lawful) (ws : List (e.Wire policy)) (s : Bytes)
    (hlen : (ws.flatMap Wire.wire ++ s).length < 2 ^ 31) :
    (e.connection policy).Reaches e.start (ws.flatMap Wire.wire ++ s) e.start s
      (ws.map Wire.delivery) := by
  induction ws with
  | nil => exact .refl _ _
  | cons w ws ih =>
    rw [List.flatMap_cons, List.append_assoc] at hlen ⊢
    have hrest := ih (by rw [List.length_append] at hlen; omega)
    obtain h | ⟨b, -, hhead, hbody⟩ := step_wire he w _ hlen
    · exact .next h hrest
    · exact .next hhead (.next hbody hrest)

variable (policy) in
/-- A part of a head at which the read fails, and takes that back with more bytes. -/
abbrev Revoked (he : e.Lawful) (b : Bytes) : Prop :=
  Reader.Revocable (e.headReader policy he) 0 (.startLine, e.zero) b

/-- A head that is accepted is not cut behind its end. -/
lemma Revoked.prefix_head {he : e.Lawful} {b head s : Bytes} {spans : msg Span}
    (h : Revoked policy he b) (hparsed : e.oneShot policy head = (.ok, spans, head.length))
    (hb : b <+: head ++ s) : b <+: head := by
  obtain hle | ⟨more, rfl⟩ := List.prefix_or_prefix_of_prefix hb (List.prefix_append head s)
  · exact hle
  · obtain ⟨phase, hread⟩ := readHead_of_oneShot he hparsed
    obtain ⟨hread', -⟩ := (readHead_done hread).2.2 more
    obtain ⟨q, t, left, st, zs, hreach, hfail, -⟩ := h
    have hread'' : e.readHead policy he (head ++ more) = .fail q t st :=
      hreach.read_eq.trans (Reader.read_of_fail hfail)
    cases hread'.symm.trans hread''

lemma not_revoked_nil (he : e.Lawful) : ¬Revoked policy he [] := by
  intro h
  have hclosed := closed_of_revocable he h
  rw [step_start_nil he] at hclosed
  cases hclosed

/-- What may stand behind the messages of a stream: bytes that take the connection to a stage
without delivering a message, and are rejected in pieces only where their head is. -/
structure Tail (he : e.Lawful) (policy : Option Policy) (tail last : Bytes) (t : Stage msg) :
    Prop where
  steps : (e.connection policy).Steps e.start tail t []
  not_closed : t ≠ .closed
  only_start : ∀ {left out}, (e.connection policy).Reaches e.start tail e.start left out →
    left = tail
  last_prefix : last <+: tail
  revoked_prefix : ∀ {b}, b <+: tail → Revoked policy he b → b <+: last

lemma tail_nil (he : e.Lawful) : Tail he policy [] [] e.start where
  steps := .wait (step_start_nil he policy)
  not_closed := nofun
  only_start h := by
    cases h with
    | refl => rfl
    | next hstep _ => cases (step_start_nil he policy).symm.trans hstep
  last_prefix := List.prefix_rfl
  revoked_prefix hb _ := hb

lemma tail_handOver (he : e.Lawful) (h : e.HandOver policy) (s : Bytes) :
    Tail he policy (h.head ++ s) h.head (.handedOver h.message s) := by
  obtain ⟨phase, hread⟩ := readHead_of_oneShot he h.parsed
  obtain ⟨hread', hres⟩ := (readHead_done hread).2.2 s
  have hstep : (e.connection policy).step e.start (h.head ++ s) =
      .next (.handedOver h.message []) s [] := by
    rw [start, (waits_start he policy).step, List.nil_append, headProgress, hread']
    dsimp only
    rw [hres, h.accepted, List.drop_left]
    dsimp only
    unfold enterBody
    by_cases hup : e.upgraded h.message = true
    · rw [if_pos hup]
    · rw [if_neg hup, h.leaves.resolve_left hup]
  exact {
    steps := .next hstep (.wait rfl)
    not_closed := fun hclosed => by cases hclosed
    only_start := fun hreach => by
      cases hreach with
      | refl => rfl
      | next hnext hmore =>
        obtain ⟨rfl, rfl, rfl⟩ := Progress.next.inj (hstep.symm.trans hnext)
        cases hmore with
        | next hnext' _ => cases hnext'
    last_prefix := List.prefix_append _ _
    revoked_prefix := fun hb hrev => hrev.prefix_head h.parsed hb }

section Stream

variable {he : e.Lawful} {ws : List (e.Wire policy)} {tail last : Bytes} {t : Stage msg}
  (ht : Tail he policy tail last t) (hlen : (ws.flatMap Wire.wire ++ tail).length < 2 ^ 31)

include ht hlen

/-- In a stream the process comes to its start only behind a message. -/
lemma Tail.exists_suffix {left : Bytes} {out : List (Delivery msg)}
    (h : (e.connection policy).Reaches e.start (ws.flatMap Wire.wire ++ tail) e.start left out) :
    ∃ ws', ws' <:+ ws ∧ left = ws'.flatMap Wire.wire ++ tail := by
  induction ws generalizing out with
  | nil => exact ⟨[], List.suffix_rfl, ht.only_start h⟩
  | cons w ws ih =>
    rw [List.flatMap_cons, List.append_assoc] at hlen h
    have hrest : (ws.flatMap Wire.wire ++ tail).length < 2 ^ 31 := by
      rw [List.length_append] at hlen
      omega
    cases h with
    | refl => exact ⟨w :: ws, List.suffix_rfl, by rw [List.flatMap_cons, List.append_assoc]⟩
    | next hstep hmore =>
      obtain hone | ⟨b, hb, hhead, hbody⟩ := step_wire he w _ hlen
      · obtain ⟨rfl, rfl, rfl⟩ := Progress.next.inj (hone.symm.trans hstep)
        obtain ⟨ws', hsuf, hleft⟩ := ih hrest hmore
        exact ⟨ws', hsuf.trans (List.suffix_cons w ws), hleft⟩
      · obtain ⟨rfl, rfl, rfl⟩ := Progress.next.inj (hhead.symm.trans hstep)
        cases hmore with
        | refl => exact absurd rfl hb
        | next hstep' hmore' =>
          obtain ⟨rfl, rfl, rfl⟩ := Progress.next.inj (hbody.symm.trans hstep')
          obtain ⟨ws', hsuf, hleft⟩ := ih hrest hmore'
          exact ⟨ws', hsuf.trans (List.suffix_cons w ws), hleft⟩

/-- A part of a stream that ends in a cut ends in a cut head. -/
lemma Tail.exists_cut_head {xs ys : Bytes} (hstream : xs ++ ys = ws.flatMap Wire.wire ++ tail)
    (h : e.EndsInCut policy (Revoked policy he) xs) :
    ∃ head ∈ last :: ws.map Wire.head, ∃ b, b <+: head ∧ Revoked policy he b := by
  obtain ⟨rest, out, hreach, hcut⟩ := h
  have hlong := hreach.append ys (connection_resumes policy he) (stageOk_start he policy)
    (by rw [held_start, hstream]; exact hlen)
  rw [hstream] at hlong
  obtain ⟨ws', hsuf, hleft⟩ := ht.exists_suffix hlen hlong
  cases ws' with
  | nil => exact ⟨last, List.mem_cons_self .., rest, ht.revoked_prefix ⟨ys, hleft⟩ hcut, hcut⟩
  | cons w ws' =>
    have hw : w ∈ ws := hsuf.subset (List.mem_cons_self ..)
    refine ⟨w.head, List.mem_cons_of_mem _ (List.mem_map_of_mem hw), rest, ?_, hcut⟩
    apply hcut.prefix_head w.parsed (s := w.body ++ (ws'.flatMap Wire.wire ++ tail))
    rw [List.flatMap_cons, Wire.wire, List.append_assoc, List.append_assoc] at hleft
    exact ⟨ys, hleft⟩

/-- All pieces of a stream deliver its messages unless one of its heads can be cut. -/
lemma Tail.delivers_iff :
    (∀ pieces, pieces.flatten = ws.flatMap Wire.wire ++ tail →
      (e.connection policy).receiveAll e.start pieces = some (t, ws.map Wire.delivery)) ↔
      ∀ head ∈ last :: ws.map Wire.head, ∀ b, b <+: head → ¬Revoked policy he b := by
  have hp := connection_resumes policy he
  have hstart := stageOk_start he policy
  constructor
  · intro hall head hmem b hb hrev
    -- the stream up to the cut, and what is behind it
    obtain ⟨before, after, hstream, hprefix⟩ : ∃ before after,
        before.flatMap Wire.wire ++ b ++ after = ws.flatMap Wire.wire ++ tail ∧ before <+: ws := by
      obtain rfl | hhead := List.mem_cons.mp hmem
      · obtain ⟨after, hafter⟩ := hb.trans ht.last_prefix
        exact ⟨ws, after, by rw [List.append_assoc, hafter], List.prefix_rfl⟩
      · obtain ⟨w, hw, rfl⟩ := List.mem_map.mp hhead
        obtain ⟨before, after, rfl⟩ := List.append_of_mem hw
        obtain ⟨rest, hrest⟩ := hb
        refine ⟨before, rest ++ (w.body ++ (after.flatMap Wire.wire ++ tail)), ?_,
          List.prefix_append _ _⟩
        rw [List.flatMap_append, List.flatMap_cons, Wire.wire, ← hrest]
        simp only [List.append_assoc]
    have hflat : [before.flatMap Wire.wire ++ b, after].flatten =
        ws.flatMap Wire.wire ++ tail := by
      rw [List.flatten_cons, List.flatten_singleton, hstream]
    have hfirst : e.EndsInCut policy (Revoked policy he)
        [before.flatMap Wire.wire ++ b].flatten := by
      rw [List.flatten_singleton]
      refine ⟨b, _, reaches_stream he before b ?_, hrev⟩
      rw [← hstream, List.length_append] at hlen
      omega
    rw [← hflat] at hlen
    have hpre : [before.flatMap Wire.wire ++ b] <+: [before.flatMap Wire.wire ++ b, after] :=
      List.prefix_append [_] [_]
    obtain ⟨out, hclosed⟩ := (closes_iff he (fun _ => Iff.rfl) hlen).mpr (.inr ⟨_, hpre, hfirst⟩)
    rw [hall _ hflat] at hclosed
    exact ht.not_closed (Prod.mk.inj (Option.some.inj hclosed)).1
  · intro hwhole pieces hpieces
    have hsteps := (reaches_stream he ws tail hlen).steps ht.steps
    rw [List.append_nil, ← hpieces] at hsteps
    have hlen' := hlen
    rw [← hpieces] at hlen'
    obtain ⟨stage, out, whole, all, hreceive, hat, -, -, -, hsame⟩ := takesPieces he policy hlen'
    have hdelivered := hsteps.receive hp hstart (by rwa [held_start])
    obtain ⟨rfl, rfl⟩ := Prod.mk.inj (Option.some.inj (hat.symm.trans hdelivered))
    have hopen : stage ≠ .closed := by
      rintro rfl
      obtain ⟨out', hclosed⟩ | ⟨pre, ⟨suf, hsuf⟩, hends⟩ :=
        (closes_iff he (fun _ => Iff.rfl) hlen').mp ⟨out, hreceive⟩
      · rw [Process.receiveAll_singleton, hat] at hclosed
        exact ht.not_closed (Prod.mk.inj (Option.some.inj hclosed)).1
      · have hstream : pre.flatten ++ suf.flatten = ws.flatMap Wire.wire ++ tail := by
          rw [← List.flatten_append, hsuf, hpieces]
        obtain ⟨head, hmem, b, hb, hrev⟩ := ht.exists_cut_head hlen hstream hends
        exact hwhole head hmem b hb hrev
    obtain ⟨rfl, rfl⟩ := hsame hopen
    exact hreceive

end Stream

/-- A stream of messages and nothing else. -/
lemma delivers_iff (he : e.Lawful) {cut : Bytes → Prop} (hcut : ∀ b, Revoked policy he b ↔ cut b)
    {ws : List (e.Wire policy)} (hlen : (ws.flatMap Wire.wire).length < 2 ^ 31) :
    (∀ pieces, pieces.flatten = ws.flatMap Wire.wire →
      (e.connection policy).receiveAll e.start pieces = some (e.start, ws.map Wire.delivery)) ↔
      ∀ w ∈ ws, ∀ b, b <+: w.head → ¬cut b := by
  rw [← List.append_nil (ws.flatMap Wire.wire)] at hlen ⊢
  rw [(tail_nil he).delivers_iff hlen]
  simp only [hcut, List.forall_mem_cons, List.forall_mem_map]
  refine ⟨And.right, fun h => ⟨fun b hb => ?_, h⟩⟩
  rw [List.prefix_nil.mp hb, ← hcut]
  exact not_revoked_nil he

/-- A stream of messages, a head that hands the connection over, and bytes behind it. -/
lemma handsOver_iff (he : e.Lawful) {cut : Bytes → Prop} (hcut : ∀ b, Revoked policy he b ↔ cut b)
    {ws : List (e.Wire policy)} {h : e.HandOver policy} {s : Bytes}
    (hlen : (ws.flatMap Wire.wire ++ (h.head ++ s)).length < 2 ^ 31) :
    (∀ pieces, pieces.flatten = ws.flatMap Wire.wire ++ (h.head ++ s) →
      (e.connection policy).receiveAll e.start pieces =
        some (.handedOver h.message s, ws.map Wire.delivery)) ↔
      ∀ head ∈ h.head :: ws.map Wire.head, ∀ b, b <+: head → ¬cut b := by
  rw [(tail_handOver he h s).delivers_iff hlen]
  simp only [hcut]

end Endpoint

/-- Every message of a stream is delivered once, in order and with its payload, and the connection
waits for the next head, in whatever pieces the stream arrives: exactly if no head of the stream has
a line of maximal length that a piece can end in, between its CR and its LF. -/
theorem connection_delivers_iff (policy : Option Policy) :
    (∀ ws : List (requestEndpoint.Wire policy), (ws.flatMap Endpoint.Wire.wire).length < 2 ^ 31 →
      ((∀ pieces, pieces.flatten = ws.flatMap Endpoint.Wire.wire →
          (requestEndpoint.connection policy).receiveAll requestEndpoint.start pieces =
            some (requestEndpoint.start, ws.map Endpoint.Wire.delivery)) ↔
        ∀ w ∈ ws, ∀ b, b <+: w.head → ¬RequestCut (resolvePolicy policy) b)) ∧
    (∀ ws : List (responseEndpoint.Wire policy), (ws.flatMap Endpoint.Wire.wire).length < 2 ^ 31 →
      ((∀ pieces, pieces.flatten = ws.flatMap Endpoint.Wire.wire →
          (responseEndpoint.connection policy).receiveAll responseEndpoint.start pieces =
            some (responseEndpoint.start, ws.map Endpoint.Wire.delivery)) ↔
        ∀ w ∈ ws, ∀ b, b <+: w.head → ¬ResponseCut (resolvePolicy policy) b)) :=
  ⟨fun _ hlen => Endpoint.delivers_iff requestEndpoint_lawful
      (MessageParser.revocable_request_iff _) hlen,
    fun _ hlen => Endpoint.delivers_iff responseEndpoint_lawful
      (MessageParser.revocable_response_iff _) hlen⟩

/-- A response that switches protocols, or whose body ends with the connection, leaves the consumer
every byte behind its head and no other, behind any messages and in any pieces: under the same
condition. -/
theorem connection_handsOver_iff (policy : Option Policy) (ws : List (responseEndpoint.Wire policy))
    (h : responseEndpoint.HandOver policy) (s : Bytes)
    (hlen : (ws.flatMap Endpoint.Wire.wire ++ (h.head ++ s)).length < 2 ^ 31) :
    (∀ pieces, pieces.flatten = ws.flatMap Endpoint.Wire.wire ++ (h.head ++ s) →
      (responseEndpoint.connection policy).receiveAll responseEndpoint.start pieces =
        some (.handedOver h.message s, ws.map Endpoint.Wire.delivery)) ↔
      ∀ head ∈ h.head :: ws.map Endpoint.Wire.head, ∀ b, b <+: head →
        ¬ResponseCut (resolvePolicy policy) b :=
  Endpoint.handsOver_iff responseEndpoint_lawful (MessageParser.revocable_response_iff _) hlen

/-- A head that can be cut is longer than a line may be. -/
lemma RequestCut.length_gt {policy : Policy} {b : Bytes} (h : RequestCut policy b) :
    8192 < b.length := by
  obtain ⟨r, hlen, rfl⟩ | ⟨r, e, w, -, -, rfl, w', line, k, rfl, -, hlen, -⟩ := h
  · rw [List.length_append, hlen]
    exact Nat.lt_succ_self _
  · simp only [List.length_append, hlen, ihtpMaxHeaderLine, List.length_singleton]
    omega

lemma ResponseCut.length_gt {policy : Policy} {b : Bytes} (h : ResponseCut policy b) :
    8192 < b.length := by
  obtain ⟨r, e, w, -, rfl, w', line, k, rfl, -, hlen, -⟩ := h
  simp only [List.length_append, hlen, ihtpMaxHeaderLine, List.length_singleton]
  omega

/-- Two uploads, cut inside the head of the second. -/
theorem connection_delivers_uploads :
    (requestEndpoint.connection none).receiveAll requestEndpoint.start
        [chunkedUpload.wire ++ chunkedUpload.wire.take 30, chunkedUpload.wire.drop 30] =
      some (requestEndpoint.start, [chunkedUpload.delivery, chunkedUpload.delivery]) := by
  refine ((connection_delivers_iff none).1 [chunkedUpload, chunkedUpload] (by decide +kernel)).mpr
    ?_ _ (by decide +kernel)
  intro w hw b hb hcut
  obtain rfl : w = chunkedUpload := by simpa using hw
  have hle := hb.length_le
  have hshort : chunkedUpload.head.length ≤ 8192 := by decide
  have hlong := hcut.length_gt
  omega

/-- A response without a body. -/
def continueWire : responseEndpoint.Wire none where
  head := ascii "HTTP/1.1 100 Continue\r\n\r\n"
  body := []
  spans := { Response.zero with version := .http11, statusCode := 100, reason := ⟨13, 8⟩ }
  message :=
    { version := .http11, statusCode := 100, reason := ascii "Continue", headers := []
      bodyMode := .none, contentLength := 0, keepAlive := true, protocolUpgrade := false
      hasTrailerFields := false }
  payload := []
  parsed := by decide
  accepted := by decide
  stays := rfl
  framed := ⟨rfl, rfl⟩

/-- A response that switches protocols. -/
def switchHead : responseEndpoint.HandOver none where
  head := ascii "HTTP/1.1 101 \r\nConnection: Upgrade\r\nUpgrade: websocket\r\n\r\n"
  spans := { Response.zero with
    version := .http11, statusCode := 101, reason := ⟨13, 0⟩
    headers := [⟨⟨15, 10⟩, ⟨27, 7⟩⟩, ⟨⟨36, 7⟩, ⟨45, 9⟩⟩] }
  message :=
    { version := .http11, statusCode := 101, reason := []
      headers := [⟨ascii "Connection", ascii "Upgrade"⟩, ⟨ascii "Upgrade", ascii "websocket"⟩]
      bodyMode := .none, contentLength := 0, keepAlive := false, protocolUpgrade := true
      hasTrailerFields := false }
  parsed := by decide
  accepted := by decide
  leaves := .inl rfl

/-- A frame behind a switch of protocols, cut inside it and inside the head. -/
theorem connection_handsOver_frame :
    (responseEndpoint.connection none).receiveAll responseEndpoint.start
        [continueWire.wire ++ ascii "HTTP/1.1 1",
          ascii "01 \r\nConnection: Upgrade\r\nUpgrade: websocket\r\n\r\n" ++ [0x81], [0x00]] =
      some (.handedOver switchHead.message [0x81, 0x00], [continueWire.delivery]) := by
  refine (connection_handsOver_iff none [continueWire] switchHead [0x81, 0x00]
    (by decide)).mpr ?_ _ (by decide +kernel)
  intro head hmem b hb hcut
  have hshort : head.length ≤ 8192 := by
    obtain rfl | rfl : head = switchHead.head ∨ head = continueWire.head := by simpa using hmem
    all_goals decide
  have hle := hb.length_le
  have hlong := hcut.length_gt
  omega

end IoHttpParser
