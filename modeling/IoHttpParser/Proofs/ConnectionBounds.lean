import IoHttpParser.Proofs.HeadBounds
import IoHttpParser.Proofs.Pieces

/-!
# What a connection has to keep

Between two pieces a consumer keeps the bytes of a head that is not complete, and nothing else. Where
the policy rejects continuation lines these are bounded, however long the connection lasts.
-/

namespace IoHttpParser
open Resumable

namespace Endpoint

/-- A head that waits has a length at which the parser waits. -/
lemma Waits.length_le {policy : Option Policy} {buf : Bytes} {state : ParserState}
    {m : Request Span} (h : Waits policy requestEndpoint_lawful buf state m)
    (hfold : (resolvePolicy policy).rejectObsFold = true) : buf.length ≤ 65 * 8194 + 8192 := by
  have hm := (waits_start requestEndpoint_lawful policy).matches buf 0
  rw [List.nil_append, h.read] at hm
  exact length_le_of_incomplete hfold hm.status

/-- Any stage keeps as little. -/
lemma StageOk.held_le {policy : Option Policy} {s : Stage Request}
    (h : StageOk policy requestEndpoint_lawful s)
    (hfold : (resolvePolicy policy).rejectObsFold = true) : held s ≤ 65 * 8194 + 8192 := by
  cases s with
  | head buf state m => exact Waits.length_le h hfold
  | fixed state m d payload => exact Nat.zero_le _
  | chunked state m d payload => exact Nat.zero_le _
  | handedOver m bytes => exact Nat.zero_le _
  | closed => exact Nat.zero_le _
  | hung => exact h.elim

end Endpoint

/-- A request connection that rejects continuation lines keeps at most `65 * 8194 + 8192` bytes of a
head between two pieces, over any number of messages and bytes, and every decoder call returns. -/
theorem connection_held_le (policy : Option Policy)
    (hfold : (resolvePolicy policy).rejectObsFold = true) (pieces : List Bytes)
    (hlen : ∀ piece ∈ pieces, piece.length ≤ 2 ^ 30) :
    ∃ stage out, (requestEndpoint.connection policy).receiveAll requestEndpoint.start pieces =
      some (stage, out) ∧ stage ≠ .hung ∧
        ∀ buf state m, stage = .head buf state m → buf.length ≤ 65 * 8194 + 8192 := by
  have hp := Endpoint.connection_resumes policy requestEndpoint_lawful
  have hkept (s : Stage Request) (hs : Endpoint.StageOk policy requestEndpoint_lawful s) :
      Endpoint.held s ≤ 65 * 8194 + 8192 := hs.held_le hfold
  obtain ⟨stage, out, hall, hok⟩ := Process.exists_receiveAll_kept hp hkept pieces
    (Endpoint.stageOk_start requestEndpoint_lawful policy) fun piece hpiece => by
      have hle := hlen piece hpiece
      omega
  refine ⟨stage, out, hall, Endpoint.StageOk.not_hung hok, ?_⟩
  rintro buf state m rfl
  exact hkept _ hok

/-- Three pieces under the strict policy. -/
theorem connection_held_le_pieces :
    ∃ stage out, (requestEndpoint.connection none).receiveAll requestEndpoint.start
        [ascii "GET / HTTP/1.0\r\n", ascii "\r\nGET /", ascii " HTTP/1.0\r\nHost"] =
      some (stage, out) ∧ stage ≠ .hung ∧
        ∀ buf state m, stage = .head buf state m → buf.length ≤ 65 * 8194 + 8192 :=
  connection_held_le none rfl _ (by decide)

end IoHttpParser
