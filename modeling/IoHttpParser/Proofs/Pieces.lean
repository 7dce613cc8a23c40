import IoHttpParser.Spec.Connection
import IoHttpParser.Proofs.Connection
import IoHttpParser.Proofs.Finality

/-!
# Pieces

Connections in pieces against connections at once. A piece that ends between the CR and the LF of a
line of maximal length is rejected with the head it is in; no other cut makes a difference.
-/

namespace IoHttpParser
open Resumable Incremental Streaming

namespace Endpoint

variable {msg : Type → Type} {e : Endpoint msg}

lemma stageOk_start (he : e.Lawful) (policy : Option Policy) : StageOk policy he e.start :=
  waits_start he policy

lemma step_start_nil (he : e.Lawful) (policy : Option Policy) :
    (e.connection policy).step e.start [] = .wait e.start := by
  have hwaits := waits_start he policy
  rw [start, hwaits.step, headProgress, List.nil_append, hwaits.read]

lemma held_start (n : Nat) : held e.start + n = n := Nat.zero_add n

lemma StageOk.not_hung {he : e.Lawful} {policy : Option Policy} {s : Stage msg}
    (h : StageOk policy he s) : s ≠ .hung := by
  rintro rfl
  exact h

lemma takesPieces (he : e.Lawful) (policy : Option Policy) {pieces : List Bytes}
    (hlen : pieces.flatten.length < 2 ^ 31) : e.TakesPieces policy pieces := by
  have hp := connection_resumes policy he
  have hstart := stageOk_start he policy
  rw [← held_start (e := e) pieces.flatten.length] at hlen
  obtain ⟨stage, out, hpieces, hok⟩ := Process.exists_receiveAll hp pieces hstart hlen
  obtain ⟨whole, all, hwhole⟩ := Process.exists_steps hp hstart hlen
  obtain ⟨hsteps, hprefix⟩ :=
    Process.receiveAll_steps hp hstart (step_start_nil he policy) hlen hpieces
  refine ⟨stage, out, whole, all, hpieces, hwhole.receive hp hstart hlen, hok.not_hung,
    StageOk.not_hung (hwhole.invariant hp hstart hlen).1, hprefix whole all hwhole, ?_⟩
  intro hopen
  exact (hsteps hopen).unique hp hwhole hstart hlen

end Endpoint

/-- However the bytes of a connection are cut into pieces, the consumer delivers the same messages,
with the same payloads, and comes to stand at the same place, unless a piece is rejected; then it
has delivered the first of those messages. -/
theorem connection_takesPieces (policy : Option Policy) (pieces : List Bytes)
    (hlen : pieces.flatten.length < 2 ^ 31) :
    requestEndpoint.TakesPieces policy pieces ∧ responseEndpoint.TakesPieces policy pieces :=
  ⟨Endpoint.takesPieces requestEndpoint_lawful policy hlen,
    Endpoint.takesPieces responseEndpoint_lawful policy hlen⟩

/-- A chunked upload cut inside its head, a chunk size and a chunk. -/
theorem connection_takesPieces_upload :
    requestEndpoint.TakesPieces none [ascii "PUT / HTTP/1.1\r\nHost: h\r\nTransfer-Enco",
      ascii "ding: chunked\r\n\r\n1", ascii "0\r\n01234567", ascii "89abcdef\r\n0\r\n\r\nGET"] :=
  (connection_takesPieces none _ (by decide)).1

/-! ### Where a cut is rejected -/

namespace Endpoint

variable {msg : Type → Type} {e : Endpoint msg} {policy : Option Policy} {he : e.Lawful}

/-- A step that goes on leaves no part of a head behind. -/
lemma held_of_next {s s' : Stage msg} {xs rest : Bytes} {out : List (Delivery msg)}
    (hs : StageOk policy he s) (hlen : xs.length < 2 ^ 31)
    (h : (e.connection policy).step s xs = .next s' rest out) : held s' = 0 := by
  cases s with
  | head buf state m =>
    rw [Waits.step hs] at h
    obtain ⟨q, t, m', -, -, henter⟩ := headProgress_next h
    obtain ⟨s, o, hall, -, hheld, -⟩ := enterBody_cases he policy
      ⟨e.parser.mode, .done, q⟩ rfl m' rest
    rw [hall] at henter
    obtain ⟨rfl, -, -⟩ := Progress.next.inj henter
    exact hheld
  | fixed state m d payload =>
    rw [step_fixed] at h
    split at h <;> cases h
    rfl
  | chunked state m d payload =>
    rw [step_chunked hs.2.1 hs.2.2 hlen] at h
    dsimp only at h
    split at h <;> cases h
    rfl
  | handedOver m bytes => cases h
  | closed => cases h
  | hung => exact hs.elim

/-- A head of which nothing has arrived is at its start. -/
lemma Waits.eq_start {state : ParserState} {m : msg Span} (h : Waits policy he [] state m) :
    Stage.head [] state m = e.start := by
  obtain ⟨mode, phase, cursor⟩ := state
  have hread := h.read.symm.trans (waits_start he policy).read
  obtain ⟨rfl, hpair⟩ := Outcome.more.inj hread
  obtain ⟨rfl, rfl⟩ := Prod.mk.inj hpair
  obtain rfl : mode = e.parser.mode := h.mode
  rfl

/-- The process comes to a head only at its start. -/
lemma held_of_reaches (he : e.Lawful) {s : Stage msg} {xs rest : Bytes} {out : List (Delivery msg)}
    (h : (e.connection policy).Reaches e.start xs s rest out) (hlen : xs.length < 2 ^ 31) :
    held s = 0 := by
  have hp := connection_resumes policy he
  suffices hgen : ∀ {s₀ : Stage msg}, (e.connection policy).Reaches s₀ xs s rest out →
      StageOk policy he s₀ → held s₀ = 0 → held s = 0 from
    hgen h (stageOk_start he policy) rfl
  clear h
  intro s₀ h hs hheld
  induction h with
  | refl => exact hheld
  | next hstep _ ih =>
    obtain ⟨hs', hle, -⟩ := (hp.resumesAt _ hs).next_inv (by omega) hstep
    exact ih (by omega) hs' (held_of_next hs hlen hstep)

/-- A connection that is closed on a part of its bytes, and not on all of them, is closed in a head
that the read takes back. -/
lemma exists_revocable (he : e.Lawful) {xs ys : Bytes} {u : Stage msg} {o o' : List (Delivery msg)}
    (hlen : (xs ++ ys).length < 2 ^ 31) (h : (e.connection policy).Steps e.start xs .closed o)
    (h' : (e.connection policy).Steps e.start (xs ++ ys) u o') (hu : u ≠ .closed) :
    ∃ rest out, (e.connection policy).Reaches e.start xs e.start rest out ∧
      Reader.Revocable (e.parser.reader (resolvePolicy policy) (he.parser _)) 0
        (.startLine, e.zero) rest := by
  have hp := connection_resumes policy he
  have hstart := stageOk_start he policy
  have hle : xs.length ≤ (xs ++ ys).length := by
    rw [List.length_append]
    exact Nat.le_add_right _ _
  obtain ⟨s, rest, hreach, hwait⟩ := h.exists_reaches
  have hheld := held_of_reaches he hreach (by omega)
  obtain ⟨hok, hrest⟩ := hreach.invariant hp hstart (by rw [held_start]; omega)
  rw [held_start] at hrest
  have hlong := hreach.append ys hp hstart (by rwa [held_start])
  -- with more bytes the step does not close the connection
  have hopen : (e.connection policy).step s (rest ++ ys) ≠ .wait .closed := by
    intro hclosed
    obtain ⟨rfl, -⟩ := h'.unique hp (hlong.steps (.wait hclosed)) hstart (by rwa [held_start])
    exact hu rfl
  rw [List.length_append] at hlen
  cases s with
  | head buf state m =>
    obtain rfl : buf = [] := List.eq_nil_of_length_eq_zero hheld
    have hs := Waits.eq_start hok
    rw [hs] at hreach
    refine ⟨rest, o, hreach, ?_⟩
    rw [Waits.step hok, List.nil_append] at hwait hopen
    by_contra hfinal
    have hstays := Reader.fail_final_iff.mpr hfinal
    cases hread : e.readHead policy he rest with
    | more q t =>
      rw [headProgress, hread] at hwait
      cases hwait
    | done q t =>
      obtain ⟨-, -, hmore⟩ := readHead_done hread
      obtain ⟨hread', hres⟩ := hmore ys
      rw [headProgress, hread] at hwait
      rw [headProgress, hread'] at hopen
      dsimp only at hwait hopen
      rw [hres] at hopen
      cases happly : e.applySemantics (e.resolve rest t.2) policy with
      | mk st m' =>
        rw [happly] at hwait hopen
        cases st with
        | ok =>
          obtain ⟨s', o', hall, -⟩ := enterBody_cases he policy
            ⟨e.parser.mode, .done, q⟩ rfl m' []
          cases hwait.symm.trans (hall _)
        | incomplete | error | errorTooLong | errorTooManyHeaders => exact hopen rfl
    | fail q t st =>
      have hrest : (e.readHead policy he rest).isFail = true := by
        rw [hread]
        rfl
      have hfail : (e.readHead policy he (rest ++ ys)).isFail = true := hstays hrest ys
      cases hread' : e.readHead policy he (rest ++ ys) with
      | more q' t' => rw [hread'] at hfail; cases hfail
      | done q' t' => rw [hread'] at hfail; cases hfail
      | fail q' t' st' =>
        rw [headProgress, hread'] at hopen
        exact hopen rfl
  | fixed state m d payload =>
    rw [step_fixed] at hwait
    split at hwait <;> cases hwait
  | chunked state m d payload =>
    rw [step_chunked hok.2.1 hok.2.2 (by omega)] at hwait
    rw [step_chunked hok.2.1 hok.2.2 (by rw [List.length_append]; omega)] at hopen
    dsimp only at hwait hopen
    cases hv : ((chunkMachine false).run d rest).verdict with
    | complete | more =>
      rw [hv] at hwait
      cases hwait
    | fail =>
      rw [Transducer.run_append_of_not_more (by rw [hv]; decide)] at hopen
      dsimp only at hopen
      rw [hv] at hopen
      exact absurd rfl hopen
  | handedOver m bytes => cases hwait
  | closed => exact absurd rfl hopen
  | hung => exact hok.elim

/-- A head that the read may take back closes the connection. -/
lemma closed_of_revocable (he : e.Lawful) {rest : Bytes}
    (h : Reader.Revocable (e.parser.reader (resolvePolicy policy) (he.parser _)) 0
      (.startLine, e.zero) rest) :
    (e.connection policy).step e.start rest = .wait .closed := by
  obtain ⟨q, t, left, st, ys, hreach, hfail, -⟩ := h
  have hread : e.readHead policy he rest = .fail q t st :=
    hreach.read_eq.trans (Reader.read_of_fail hfail)
  rw [start, (waits_start he policy).step, List.nil_append, headProgress, hread]

lemma closes_iff (he : e.Lawful) {cut : Bytes → Prop}
    (hcut : ∀ b, Reader.Revocable (e.parser.reader (resolvePolicy policy) (he.parser _)) 0
      (.startLine, e.zero) b ↔ cut b) {pieces : List Bytes}
    (hlen : pieces.flatten.length < 2 ^ 31) :
    e.Closes policy pieces ↔ e.Closes policy [pieces.flatten] ∨
      ∃ pre, pre <+: pieces ∧ e.EndsInCut policy cut pre.flatten := by
  have hp := connection_resumes policy he
  have hstart := stageOk_start he policy
  have hidle := step_start_nil he policy
  rw [← held_start (e := e) pieces.flatten.length] at hlen
  have hpieces : e.Closes policy pieces ↔
      ∃ pre o, pre <+: pieces ∧ (e.connection policy).Steps e.start pre.flatten .closed o := by
    obtain ⟨stage, out, hall, -⟩ := Process.exists_receiveAll hp pieces hstart hlen
    have hfailed := Process.receiveAll_failed_iff hp hstart hidle hlen hall
    constructor
    · rintro ⟨out', hclosed⟩
      obtain ⟨rfl, -⟩ := Prod.mk.inj (Option.some.inj (hall.symm.trans hclosed))
      obtain ⟨pre, u, o, hpre, hsteps, rfl⟩ := hfailed.mp rfl
      exact ⟨pre, o, hpre, hsteps⟩
    · rintro ⟨pre, o, hpre, hsteps⟩
      obtain rfl : stage = .closed := hfailed.mpr ⟨pre, .closed, o, hpre, hsteps, rfl⟩
      exact ⟨out, hall⟩
  have hwhole : e.Closes policy [pieces.flatten] ↔
      ∃ o, (e.connection policy).Steps e.start pieces.flatten .closed o := by
    unfold Closes
    simp only [Process.receiveAll_singleton]
    exact ⟨fun ⟨o, h⟩ => ⟨o, Process.receive_steps h⟩, fun ⟨o, h⟩ => ⟨o, h.receive hp hstart hlen⟩⟩
  rw [hpieces, hwhole]
  constructor
  · rintro ⟨pre, o, ⟨suf, rfl⟩, hsteps⟩
    obtain ⟨u, o', hall⟩ := Process.exists_steps hp hstart hlen
    by_cases hu : u = .closed
    · subst hu
      exact .inl ⟨o', hall⟩
    · rw [List.flatten_append] at hall hlen
      rw [held_start] at hlen
      obtain ⟨rest, out, hreach, hrev⟩ := exists_revocable he hlen hsteps hall hu
      exact .inr ⟨pre, List.prefix_append pre suf, rest, out, hreach, (hcut rest).mp hrev⟩
  · rintro (⟨o, hall⟩ | ⟨pre, hpre, rest, out, hreach, hrest⟩)
    · exact ⟨pieces, o, List.prefix_rfl, hall⟩
    · exact ⟨pre, _, hpre, hreach.steps (.wait (closed_of_revocable he ((hcut rest).mpr hrest)))⟩

end Endpoint

/-- The pieces of a connection make a difference in one case: a piece ends between the CR and the LF
of a start line or header line of maximal length. Otherwise a connection in pieces is closed exactly
when it is closed at once. -/
theorem connection_closes_iff (policy : Option Policy) (pieces : List Bytes)
    (hlen : pieces.flatten.length < 2 ^ 31) :
    (requestEndpoint.Closes policy pieces ↔ requestEndpoint.Closes policy [pieces.flatten] ∨
      ∃ pre, pre <+: pieces ∧
        requestEndpoint.EndsInCut policy (RequestCut (resolvePolicy policy)) pre.flatten) ∧
    (responseEndpoint.Closes policy pieces ↔ responseEndpoint.Closes policy [pieces.flatten] ∨
      ∃ pre, pre <+: pieces ∧
        responseEndpoint.EndsInCut policy (ResponseCut (resolvePolicy policy)) pre.flatten) :=
  ⟨Endpoint.closes_iff requestEndpoint_lawful (MessageParser.revocable_request_iff _) hlen,
    Endpoint.closes_iff responseEndpoint_lawful (MessageParser.revocable_response_iff _) hlen⟩

/-- A request line of maximal length. -/
def longestLine : RequestLine false where
  method := ascii "GET"
  target := List.replicate 8179 0x61
  version := .http11
  method_token := ⟨by decide, List.all_eq_true.mp (by decide)⟩
  target_nonempty := List.ne_nil_of_length_pos (by rw [List.length_replicate]; exact Nat.succ_pos _)
  target_bytes c hc := by
    rw [List.eq_of_mem_replicate hc]
    decide

lemma longestLine_length : longestLine.line.length = ihtpMaxRequestLine := by
  have htarget : longestLine.target.length = 8179 := List.length_replicate
  unfold RequestLine.line
  rw [List.length_append, List.length_cons, List.length_append, htarget]
  rfl

/-- The line is rejected when its LF comes in a piece of its own. -/
theorem connection_closes_longestLine :
    requestEndpoint.Closes none [longestLine.line ++ [cr], lf :: ascii "Host: h\r\n\r\n"] := by
  apply (connection_closes_iff none _ _).1.mpr
  · have hcut : RequestCut (resolvePolicy none) (longestLine.line ++ [cr]) :=
      .inl ⟨longestLine, longestLine_length, rfl⟩
    refine .inr ⟨[longestLine.line ++ [cr]], List.prefix_append [_] [_], ?_⟩
    rw [List.flatten_singleton]
    exact ⟨_, [], .refl _ _, hcut⟩
  · rw [List.flatten_cons, List.flatten_singleton, List.length_append, List.length_append,
      longestLine_length]
    decide

end IoHttpParser
