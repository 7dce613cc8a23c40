import IoHttpParser.Proofs.Pieces
import IoHttpParser.Proofs.PolicyOrder

/-!
# Connections under two policies

A stricter policy closes connections earlier, and does nothing else: until then the consumer gets
the same messages and stands at the same place.
-/

namespace IoHttpParser
open Resumable

namespace Endpoint

variable {msg : Type → Type} {e : Endpoint msg} {p q : Option Policy}

/-- Both entry points take under `q` what they take under `p`. -/
structure Relaxes (e : Endpoint msg) (p q : Option Policy) : Prop where
  parse : ∀ {state buf m consumed},
    (e.parser.parseStateful state buf m p consumed).status.isError = false →
    e.parser.parseStateful state buf m q consumed = e.parser.parseStateful state buf m p consumed
  apply : ∀ {m}, (e.applySemantics m p).1 = .ok → e.applySemantics m q = e.applySemantics m p

lemma step_relax (h : e.Relaxes p q) (s : Stage msg) (arrived : Bytes) :
    e.step q s arrived = e.step p s arrived ∨ e.step p s arrived = .wait .closed := by
  cases s with
  | head buf state m =>
    simp only [Endpoint.step]
    cases hst : (e.parser.parseStateful state (buf ++ arrived) m p 0).status with
    | error | errorTooLong | errorTooManyHeaders => exact .inr rfl
    | incomplete =>
      rw [h.parse (by rw [hst]; rfl), hst]
      exact .inl rfl
    | ok =>
      rw [h.parse (by rw [hst]; rfl), hst]
      dsimp only
      generalize (e.parser.parseStateful state (buf ++ arrived) m p 0) = r
      rcases happly : e.applySemantics (e.resolve (buf ++ arrived) r.out) p with ⟨st, m'⟩
      cases st with
      | ok =>
        rw [h.apply (by rw [happly]), happly]
        exact .inl rfl
      | incomplete | error | errorTooLong | errorTooManyHeaders => exact .inr rfl
  | fixed state m d payload => exact .inl rfl
  | chunked state m d payload => exact .inl rfl
  | handedOver m bytes => exact .inl rfl
  | closed => exact .inr rfl
  | hung => exact .inl rfl

lemma connection_extends (h : e.Relaxes p q) :
    (e.connection q).Extends (e.connection p) (· = .closed) where
  fuel s xs := by
    cases s <;> rfl
  step s xs := (step_relax h s xs).imp_right fun hclosed => ⟨.closed, rfl, hclosed⟩
  failed_step := by
    rintro s rfl xs
    rfl

end Endpoint

lemma requestEndpoint_relaxes {p q : Option Policy}
    (h : (resolvePolicy q).AtMostAsStrict (resolvePolicy p)) : requestEndpoint.Relaxes p q where
  parse := requestParser.parseStateful_relax h fun _ _ _ => parseRequestLine_relax h
  apply {m} hp := by
    change requestApplySemantics m q = requestApplySemantics m p
    obtain ⟨hr, hc, hout⟩ := requestApplySemantics_ok_iff.mp (Prod.ext hp rfl)
    rw [requestApplySemantics_ok_iff.mpr ⟨hr, hc.relax h, hout⟩]
    exact Prod.ext hp.symm rfl

lemma responseEndpoint_relaxes {p q : Option Policy}
    (h : (resolvePolicy q).AtMostAsStrict (resolvePolicy p)) : responseEndpoint.Relaxes p q where
  parse := responseParser.parseStateful_relax h fun _ _ _ => parseStatusLine_relax h
  apply {m} hp := by
    change responseApplySemantics m q = responseApplySemantics m p
    obtain ⟨hw, hc, hout⟩ := responseApplySemantics_ok_iff.mp (Prod.ext hp rfl)
    rw [responseApplySemantics_ok_iff.mpr ⟨hw, hc.relax h, hout⟩]
    exact Prod.ext hp.symm rfl

/-- A connection under a relaxed policy does what it does under a stricter one until that one closes
it: the same messages in the same pieces, and the same place to stand at. The messages delivered
before a stricter policy closes the connection are the first that a relaxed one delivers. -/
theorem connection_relax {p q : Option Policy}
    (h : (resolvePolicy q).AtMostAsStrict (resolvePolicy p)) (pieces : List Bytes) :
    (∀ stage out, (requestEndpoint.connection p).receiveAll requestEndpoint.start pieces =
        some (stage, out) →
      (stage ≠ .closed → (requestEndpoint.connection q).receiveAll requestEndpoint.start pieces =
        some (stage, out)) ∧
      ∀ stage' out', (requestEndpoint.connection q).receiveAll requestEndpoint.start pieces =
        some (stage', out') → out <+: out') ∧
    (∀ stage out, (responseEndpoint.connection p).receiveAll responseEndpoint.start pieces =
        some (stage, out) →
      (stage ≠ .closed → (responseEndpoint.connection q).receiveAll responseEndpoint.start pieces =
        some (stage, out)) ∧
      ∀ stage' out', (responseEndpoint.connection q).receiveAll responseEndpoint.start pieces =
        some (stage', out') → out <+: out') :=
  ⟨fun _ _ hp => (Endpoint.connection_extends (requestEndpoint_relaxes h)).receiveAll hp,
    fun _ _ hp => (Endpoint.connection_extends (responseEndpoint_relaxes h)).receiveAll hp⟩

/-- A request and the start of another, under the strict and the lenient policy. -/
theorem connection_relax_get :
    (requestEndpoint.connection (some .lenient)).receiveAll requestEndpoint.start
        [ascii "GET / HTTP/1.1\r\nHo", ascii "st: h\r\n\r\nGET"] =
      some (.head (ascii "GET") ⟨.request, .startLine, 0⟩ .zero,
        [⟨{ method := .get, methodStr := ascii "GET", path := ascii "/", version := .http11
            headers := [⟨ascii "Host", ascii "h"⟩], bodyMode := .none, contentLength := 0
            keepAlive := true, protocolUpgrade := false, expectsContinue := false
            hasTrailerFields := false }, []⟩]) := by
  have hle : Policy.lenient.AtMostAsStrict .strict := ⟨nofun, nofun, nofun, nofun⟩
  exact ((connection_relax (p := none) (q := some .lenient) hle _).1 _ _ rfl).1 nofun

/-! ### Two consumers -/

/-- The policy that takes what either of two takes. -/
def Policy.either (p q : Policy) : Policy where
  rejectObsFold := p.rejectObsFold && q.rejectObsFold
  rejectBareLf := p.rejectBareLf && q.rejectBareLf
  rejectTeCl := p.rejectTeCl && q.rejectTeCl
  allowSpacesInUri := p.allowSpacesInUri || q.allowSpacesInUri

lemma Policy.either_left (p q : Policy) : (p.either q).AtMostAsStrict p where
  obsFold h := (Bool.and_eq_true_iff.mp h).1
  bareLf h := (Bool.and_eq_true_iff.mp h).1
  teCl h := (Bool.and_eq_true_iff.mp h).1
  spaces h := Bool.or_eq_true_iff.mpr (.inl h)

lemma Policy.either_right (p q : Policy) : (p.either q).AtMostAsStrict q where
  obsFold h := (Bool.and_eq_true_iff.mp h).2
  bareLf h := (Bool.and_eq_true_iff.mp h).2
  teCl h := (Bool.and_eq_true_iff.mp h).2
  spaces h := Bool.or_eq_true_iff.mpr (.inr h)

namespace Endpoint

variable {msg : Type → Type}

/-- Two consumers of the same bytes, each with its policy and its pieces. What one is delivered, the
other is delivered first or has been; and if neither rejects a piece they stand at the same place. -/
def Agree (e : Endpoint msg) (p q : Option Policy) (pieces pieces' : List Bytes) : Prop :=
  ∃ stage out stage' out',
    (e.connection p).receiveAll e.start pieces = some (stage, out) ∧
    (e.connection q).receiveAll e.start pieces' = some (stage', out') ∧
    (out <+: out' ∨ out' <+: out) ∧
    (stage ≠ .closed → stage' ≠ .closed → stage = stage' ∧ out = out')

variable {e : Endpoint msg} {p q : Option Policy} {pieces pieces' : List Bytes}

/-- A consumer against one with a relaxed policy that has all the bytes at once. -/
lemma takesPieces_relax (he : e.Lawful) (h : e.Relaxes p q) (hlen : pieces.flatten.length < 2 ^ 31)
    {whole : Stage msg} {all : List (Delivery msg)}
    (hall : (e.connection q).receive e.start pieces.flatten = some (whole, all)) :
    ∃ stage out, (e.connection p).receiveAll e.start pieces = some (stage, out) ∧ out <+: all ∧
      (stage ≠ .closed → stage = whole ∧ out = all) := by
  obtain ⟨stage, out, whole', all', hpieces, hat, -, -, hprefix, hsame⟩ := takesPieces he p hlen
  rw [← Process.receiveAll_singleton] at hall hat
  obtain ⟨hopen, hfirst⟩ := (connection_extends h).receiveAll hat
  refine ⟨stage, out, hpieces, hprefix.trans (hfirst whole all hall), fun hstage => ?_⟩
  obtain ⟨rfl, rfl⟩ := hsame hstage
  exact Prod.mk.inj (Option.some.inj ((hopen hstage).symm.trans hall))

lemma agree (he : e.Lawful) {r : Option Policy} (hp : e.Relaxes p r) (hq : e.Relaxes q r)
    (hlen : pieces.flatten.length < 2 ^ 31) (hsame : pieces'.flatten = pieces.flatten) :
    e.Agree p q pieces pieces' := by
  obtain ⟨-, -, whole, all, -, hall, -⟩ := takesPieces he r hlen
  obtain ⟨stage, out, hpieces, hout, hstage⟩ := takesPieces_relax he hp hlen hall
  rw [← hsame] at hall hlen
  obtain ⟨stage', out', hpieces', hout', hstage'⟩ := takesPieces_relax he hq hlen hall
  refine ⟨stage, out, stage', out', hpieces, hpieces',
    List.prefix_or_prefix_of_prefix hout hout', fun hopen hopen' => ?_⟩
  obtain ⟨rfl, rfl⟩ := hstage hopen
  obtain ⟨rfl, rfl⟩ := hstage' hopen'
  exact ⟨rfl, rfl⟩

end Endpoint

/-- Two consumers of one connection never come to see different messages in it, whatever their
policies, and however the bytes are cut for each: one of them is delivered the first messages that
the other is, and if neither rejects a piece they are delivered the same and stand at the same
place. -/
theorem connections_agree (p q : Option Policy) (pieces pieces' : List Bytes)
    (hsame : pieces'.flatten = pieces.flatten) (hlen : pieces.flatten.length < 2 ^ 31) :
    requestEndpoint.Agree p q pieces pieces' ∧ responseEndpoint.Agree p q pieces pieces' := by
  have hp : (resolvePolicy (some ((resolvePolicy p).either (resolvePolicy q)))).AtMostAsStrict
      (resolvePolicy p) := Policy.either_left _ _
  have hq : (resolvePolicy (some ((resolvePolicy p).either (resolvePolicy q)))).AtMostAsStrict
      (resolvePolicy q) := Policy.either_right _ _
  exact ⟨Endpoint.agree requestEndpoint_lawful (requestEndpoint_relaxes hp)
      (requestEndpoint_relaxes hq) hlen hsame,
    Endpoint.agree responseEndpoint_lawful (responseEndpoint_relaxes hp)
      (responseEndpoint_relaxes hq) hlen hsame⟩

/-- A strict consumer behind a lenient one, on a request with both framings. -/
theorem connections_agree_smuggled :
    requestEndpoint.Agree (some .lenient) none
      [ascii "POST / HTTP/1.1\r\nHost: h\r\nContent-Length: 4\r\nTransfer-Encoding: chunked\r\n\r\n",
        ascii "0\r\n\r\nGET"]
      [ascii "POST / HTTP/1.1\r\nHost: h\r\nContent-Length: 4\r\nTransfer-Encoding: chunked\r\n\r\n0\r",
        ascii "\n\r\nGET"] :=
  (connections_agree (some .lenient) none _ _ (by decide) (by decide)).1

end IoHttpParser
