import IoHttpParser.Model.Consumer
import IoHttpParser.Proofs.Pieces

/-!
# A whole buffer against a connection

The pipelining consumer has all its bytes in one buffer and starts every parse afresh. It takes the
messages that a connection delivers of the same bytes, and no others.
-/

namespace IoHttpParser
open Resumable Incremental Framed

/-- What a connection delivers of a message that the pipelining consumer takes. -/
def Message.delivery (m : Message) : Delivery Request := ⟨m.request, m.payload⟩

/-- The pipelining consumer takes a number of messages exactly when the connection delivers as many.
They are the first of those, and what is left is received like the rest. -/
def AgreesWith (buf : Bytes) (stage : Stage Request) (out : List (Delivery Request)) (n : Nat) :
    Prop :=
  match consumeMessages n buf with
  | some (ms, rest) =>
    n ≤ out.length ∧ ms.map Message.delivery = out.take n ∧
      (requestEndpoint.connection none).receive requestEndpoint.start rest =
        some (stage, out.drop n)
  | none => out.length < n

lemma consumeMessage_of_status {buf : Bytes} (h : (parseRequest buf none).1 ≠ .ok) :
    consumeMessage buf = none := by
  unfold consumeMessage
  rcases hp : parseRequest buf none with ⟨st, req, n⟩
  rw [hp] at h
  cases st with
  | ok => exact absurd rfl h
  | incomplete | error | errorTooLong | errorTooManyHeaders => rfl

namespace Endpoint

/-- Both consumers begin with the same call. -/
lemma consume_head (buf : Bytes) :
    (consumeMessage buf = none ∧
      ∃ t, (requestEndpoint.connection none).step requestEndpoint.start buf = .wait t) ∨
    ∃ cursor m body, body.length ≤ buf.length ∧
      consumeMessage buf = (consumeBody m body).map
        (fun r => (⟨m, r.1, buf.length - r.2.length⟩, r.2)) ∧
      (requestEndpoint.connection none).step requestEndpoint.start buf =
        requestEndpoint.enterBody ⟨.request, .done, cursor⟩ m body := by
  have hstatus : (parseRequest buf none).1 = _ :=
    ((waits_start requestEndpoint_lawful none).matches buf 0).status
  rw [start, (waits_start requestEndpoint_lawful none).step, List.nil_append, headProgress]
  cases hread : requestEndpoint.readHead none requestEndpoint_lawful buf with
  | more q t =>
    rw [List.nil_append, hread] at hstatus
    exact .inl ⟨consumeMessage_of_status (by rw [hstatus]; exact fun hok => by cases hok), _, rfl⟩
  | fail q t st =>
    have hm := (waits_start requestEndpoint_lawful none).matches buf 0
    rw [List.nil_append, hread] at hm
    refine .inl ⟨consumeMessage_of_status ?_, _, rfl⟩
    intro hok
    have hst : st = .ok := hm.1.symm.trans hok
    rw [hst] at hm
    cases hm.2.1
  | done q t =>
    have hcall : parseRequest buf none = (.ok, t.2, q) := by
      have hparse : requestParser.parseStateful (parserStateInit .request) buf .zero none 0 = _ :=
        MessageParser.parseStateful_of_done none (requestParser_lawful _)
          (parserStateInit .request) rfl (.inl rfl) 0 hread
      unfold parseRequest parseRequestStateful
      rw [hparse]
    unfold consumeMessage
    rw [hcall]
    dsimp only
    have happly : requestEndpoint.applySemantics (requestEndpoint.resolve buf t.2) none =
        requestApplySemantics (t.2.resolve buf) none := rfl
    rw [happly]
    rcases requestApplySemantics (t.2.resolve buf) none with ⟨st, m⟩
    cases st with
    | ok =>
      refine .inr ⟨q, m, buf.drop q, by rw [List.length_drop]; omega, ?_, rfl⟩
      dsimp only
      cases consumeBody m (buf.drop q) with
      | none => rfl
      | some r => rfl
    | incomplete | error | errorTooLong | errorTooManyHeaders => exact .inl ⟨rfl, _, rfl⟩

/-- Both consumers decode the body that the request declares. -/
lemma consume_body (cursor : Nat) (m : Request Bytes) (body : Bytes) :
    (∃ payload rest, consumeBody m body = some (payload, rest) ∧
      (requestEndpoint.enterBody ⟨.request, .done, cursor⟩ m body =
          .next requestEndpoint.start rest [⟨m, payload⟩] ∨
        ∃ b, requestEndpoint.enterBody ⟨.request, .done, cursor⟩ m body = .next b body [] ∧
          (requestEndpoint.connection none).step b body =
            .next requestEndpoint.start rest [⟨m, payload⟩])) ∨
    (consumeBody m body = none ∧
      ∃ b t, requestEndpoint.enterBody ⟨.request, .done, cursor⟩ m body = .next b body [] ∧
        (requestEndpoint.connection none).step b body = .wait t) := by
  have hmode' : requestEndpoint.bodyMode m = m.bodyMode := rfl
  unfold consumeBody enterBody
  rw [if_neg (show ¬requestEndpoint.upgraded m = true from nofun), hmode']
  cases hmode : m.bodyMode with
  | none => exact .inl ⟨[], body, rfl, .inl rfl⟩
  | fixed =>
    dsimp only
    have hremaining : (fixedDecoderInit m.contentLength).remaining = m.contentLength := rfl
    have hstep : (requestEndpoint.connection none).step (.fixed ⟨.request, .done, cursor⟩ m
        (fixedDecoderInit m.contentLength) []) body = _ := step_fixed _ _ _ _ _
    rw [hremaining] at hstep
    by_cases hlt : body.length < m.contentLength
    · rw [if_pos hlt] at hstep
      rw [Nat.min_eq_left hlt.le, decodeFixed_of_lt (by rwa [hremaining])]
      exact .inr ⟨rfl, _, _, rfl, hstep⟩
    · rw [if_neg hlt] at hstep
      have hall := decodeFixed_remaining (fixedDecoderInit m.contentLength)
      rw [hremaining] at hall
      rw [Nat.min_eq_right (Nat.le_of_not_lt hlt), hall]
      exact .inl ⟨_, _, rfl, .inr ⟨_, rfl, hstep⟩⟩
  | chunked =>
    dsimp only
    cases hr : decodeChunked (.zero true) body body.length with
    | none =>
      refine .inr ⟨rfl, .chunked ⟨.request, .done, cursor⟩ m (.zero true) [], .hung, rfl, ?_⟩
      simp only [connection, Endpoint.step, hr]
    | some r =>
      have hbody : (requestEndpoint.connection none).step
          (.chunked ⟨.request, .done, cursor⟩ m (.zero true) []) body =
            if 0 ≤ r.ret then
              .next requestEndpoint.start ((r.buf.drop r.bufsz).take r.ret.toNat)
                [⟨m, r.buf.take r.bufsz⟩]
            else if r.ret = Status.incomplete.code then
              .wait (.chunked ⟨.request, .done, cursor⟩ m r.decoder (r.buf.take r.bufsz))
            else .wait .closed := by
        simp only [connection, Endpoint.step, hr, List.nil_append]
        rfl
      dsimp only
      by_cases hret : 0 ≤ r.ret
      · rw [if_pos hret] at hbody
        rw [if_neg (by omega)]
        exact .inl ⟨_, _, rfl, .inr ⟨_, rfl, hbody⟩⟩
      · rw [if_neg hret] at hbody
        rw [if_pos (by omega)]
        by_cases hinc : r.ret = Status.incomplete.code
        · rw [if_pos hinc] at hbody
          exact .inr ⟨rfl, _, _, rfl, hbody⟩
        · rw [if_neg hinc] at hbody
          exact .inr ⟨rfl, _, _, rfl, hbody⟩
  | eof => exact .inr ⟨rfl, _, _, rfl, rfl⟩

/-- The message that the pipelining consumer takes is delivered next. -/
lemma reaches_consume {buf rest : Bytes} {m : Message} (h : consumeMessage buf = some (m, rest)) :
    (requestEndpoint.connection none).Reaches requestEndpoint.start buf requestEndpoint.start rest
      [m.delivery] := by
  obtain ⟨hnone, -⟩ | ⟨cursor, req, body, -, hmessage, hhead⟩ := consume_head buf
  · cases hnone.symm.trans h
  · rw [hmessage] at h
    obtain ⟨payload, rest', hbody, hnext⟩ | ⟨hbody, -⟩ := consume_body cursor req body
    · rw [hbody] at h
      obtain ⟨rfl, rfl⟩ := Prod.mk.inj (Option.some.inj h)
      obtain hnext | ⟨b, hnext, hdeliver⟩ := hnext
      · exact .next (hhead.trans hnext) (.refl _ _)
      · exact .next (hhead.trans hnext) (.next hdeliver (.refl _ _))
    · rw [hbody] at h
      cases h

/-- Where it takes none, none is delivered. -/
lemma steps_consume_none {buf : Bytes} {stage : Stage Request} {out : List (Delivery Request)}
    (h : consumeMessage buf = none)
    (hsteps : (requestEndpoint.connection none).Steps requestEndpoint.start buf stage out) :
    out = [] := by
  obtain ⟨-, t, hwait⟩ | ⟨cursor, req, body, -, hmessage, hhead⟩ := consume_head buf
  · exact hsteps.out_nil hwait
  · rw [hmessage] at h
    obtain ⟨payload, rest', hbody, -⟩ | ⟨-, b, t, hnext, hwait⟩ := consume_body cursor req body
    · rw [hbody] at h
      cases h
    · obtain ⟨out', rfl, hmore⟩ :=
        (Process.Reaches.next (hhead.trans hnext) (.refl _ _)).of_steps hsteps
      exact hmore.out_nil hwait

end Endpoint

/-- The consumer that has the whole buffer takes the messages that a connection delivers, one for
one, and leaves what the connection receives as the rest. -/
theorem consumeMessages_agrees (buf : Bytes) (hlen : buf.length < 2 ^ 31) :
    ∃ stage out, (requestEndpoint.connection none).receive requestEndpoint.start buf =
      some (stage, out) ∧ ∀ n, AgreesWith buf stage out n := by
  have hp := Endpoint.connection_resumes none requestEndpoint_lawful
  have hstart := Endpoint.stageOk_start requestEndpoint_lawful none
  rw [← Endpoint.held_start (e := requestEndpoint) buf.length] at hlen
  obtain ⟨stage, out, hsteps⟩ := Process.exists_steps hp hstart hlen
  refine ⟨stage, out, hsteps.receive hp hstart hlen, fun n => ?_⟩
  unfold AgreesWith consumeMessages
  induction n generalizing buf out with
  | zero => exact ⟨Nat.zero_le _, rfl, hsteps.receive hp hstart hlen⟩
  | succ n ih =>
    rw [readMany]
    cases hm : consumeMessage buf with
    | none =>
      obtain rfl := Endpoint.steps_consume_none hm hsteps
      exact Nat.succ_pos n
    | some r =>
      obtain ⟨m, rest⟩ := r
      have hreach := Endpoint.reaches_consume hm
      obtain ⟨out', rfl, hmore⟩ := hreach.of_steps hsteps
      obtain ⟨-, hle⟩ := hreach.invariant hp hstart hlen
      have hrest := ih rest (by omega) out' hmore
      dsimp only
      cases hmany : readMany consumeMessage n rest with
      | none =>
        rw [hmany] at hrest
        exact Nat.succ_lt_succ hrest
      | some r =>
        rw [hmany] at hrest
        obtain ⟨hn, hms, hleft⟩ := hrest
        exact ⟨Nat.succ_le_succ hn, congrArg (m.delivery :: ·) hms, hleft⟩

/-- Two requests and a part of a third. -/
theorem consumeMessages_agrees_three :
    ∃ stage out, (requestEndpoint.connection none).receive requestEndpoint.start
        (ascii "GET / HTTP/1.0\r\n\r\nPUT / HTTP/1.0\r\nContent-Length: 1\r\n\r\n1GET") =
          some (stage, out) ∧
      ∀ n, AgreesWith (ascii "GET / HTTP/1.0\r\n\r\nPUT / HTTP/1.0\r\nContent-Length: 1\r\n\r\n1GET")
        stage out n :=
  consumeMessages_agrees _ (by decide)

end IoHttpParser
