import IoHttpParser.Proofs.RequestFraming
import IoHttpParser.Proofs.ResponseFraming

/-!
# Applying the semantics again

A consumer may apply the semantics to a message that it has applied them to, accepted or rejected:
the second call finds what the first one wrote, and writes the same.
-/

namespace IoHttpParser

/-- What a call under `second` returns after one under `first` left `left` (`again`), beside what it
returns without that (`alone`). -/
def Agrees {M : Type} (first second : Policy) (left : M) (alone again : Status × M) : Prop :=
  again = alone ∨
    second.rejectTeCl = true ∧ first.rejectTeCl = false ∧ alone.1 = .error ∧ again = (.error, left)

/-- A call that leaves the message as it is changes nothing for the next one. -/
lemma Agrees.of_untouched {M : Type} {call : Policy → M → Status × M} {first : Policy} {m : M}
    (h : (call first m).2 = m) (second : Policy) :
    Agrees first second (call first m).2 (call second m) (call second (call first m).2) := by
  rw [h]
  exact .inl rfl

/-- Only the second policy refuses both codings, and it reads nothing else. -/
lemma Agrees.of_refused {M : Type} {f : Framing} {first second : Policy}
    (haccepts : ¬(f.hasTe && f.hasCl && first.rejectTeCl) = true)
    (hrefuses : (f.hasTe && f.hasCl && second.rejectTeCl) = true) (left m : M) :
    Agrees first second left (.error, m) (.error, left) := by
  simp only [Bool.and_eq_true] at haccepts hrefuses
  exact .inr ⟨hrefuses.2, Bool.eq_false_iff.2 fun h => haccepts ⟨hrefuses.1, h⟩, rfl, rfl⟩

/-! ### Requests -/

lemma Framing.requestOutcome_headers (f : Framing) (policy : Policy) (req : Request Bytes) :
    (f.requestOutcome policy req).2.headers = req.headers := by
  rw [requestOutcome]
  dsimp only
  by_cases hlast : (f.hasTe && !f.chunked) = true
  · split_ifs <;> rfl
  · rw [f.requestBodyMode_eq _ hlast, requestConnection_eq, requestPersistence_eq]
    split_ifs <;> rfl

/-- The expectation is the one the loop has left, or that of a message without an Expect field. -/
lemma Framing.requestOutcome_expectsContinue (f : Framing) (policy : Policy) (req : Request Bytes) :
    (f.requestOutcome policy req).2.expectsContinue = req.expectsContinue ∨
      (f.requestOutcome policy req).2.expectsContinue = (f.hasExpect && req.expectsContinue) := by
  rw [requestOutcome]
  dsimp only
  by_cases hlast : (f.hasTe && !f.chunked) = true
  · left
    split_ifs <;> rfl
  · rw [f.requestBodyMode_eq _ hlast, requestConnection_eq, requestPersistence_eq]
    split_ifs <;> simp

/-- The outcome under another policy for what the outcome under one has left. -/
lemma Framing.requestOutcome_again (f : Framing) (first second : Policy) (req : Request Bytes) :
    Agrees first second (f.requestOutcome first req).2 (f.requestOutcome second req)
      (f.requestOutcome second (f.requestOutcome first req).2) := by
  by_cases hteCl : (f.hasTe && f.hasCl && first.rejectTeCl) = true
  · exact .of_untouched (by rw [requestOutcome, if_pos hteCl]) second
  by_cases hstrict : (f.hasTe && f.hasCl && second.rejectTeCl) = true
  · have hrefused (req : Request Bytes) : f.requestOutcome second req = (.error, req) :=
      if_pos hstrict
    rw [hrefused, hrefused]
    exact .of_refused hteCl hstrict _ _
  by_cases hhost : (req.version == .http11 && !f.hasHost) = true
  · exact .of_untouched (by rw [requestOutcome, if_neg hteCl, if_pos hhost]) second
  by_cases hcount : f.chunkedCount > 1
  · exact .of_untouched (by rw [requestOutcome, if_neg hteCl, if_neg hhost, if_pos hcount]) second
  by_cases hlast : (f.hasTe && !f.chunked) = true
  · have huntouched : (f.requestOutcome first req).2 = req := by
      rw [requestOutcome, if_neg hteCl, if_neg hhost, if_neg hcount, if_pos hlast]
    exact .of_untouched huntouched second
  unfold requestOutcome
  left
  simp only [if_neg hteCl, if_neg hstrict, if_neg hhost, if_neg hcount, if_neg hlast,
    f.requestBodyMode_eq _ hlast, requestConnection_eq, requestPersistence_eq]
  by_cases htrailer : (f.hasTrailer &&
      (if f.hasTe then BodyMode.chunked else if f.hasCl then .fixed else .none) != .chunked) = true
  · simp only [if_pos htrailer, if_neg hhost]
    cases f.connection.close <;> cases f.connection.keepAlive <;> cases f.hasTe <;>
      cases f.hasCl <;> rfl
  · simp only [if_neg htrailer, if_neg hhost]
    cases f.connection.close <;> cases f.connection.keepAlive <;> cases f.hasTe <;>
      cases f.hasCl <;> cases f.hasExpect <;> rfl

lemma expectsContinueOf_again (hs : List (Header Bytes)) (before : Bool) :
    expectsContinueOf hs (expectsContinueOf hs before) = expectsContinueOf hs before := by
  unfold expectsContinueOf
  cases (fieldValues hs "expect").getLast? <;> rfl

lemma expectsContinueOf_hasField (hs : List (Header Bytes)) (before : Bool) :
    expectsContinueOf hs (hasField hs "expect" && expectsContinueOf hs before) =
      (hasField hs "expect" && expectsContinueOf hs before) := by
  unfold expectsContinueOf hasField
  cases fieldValues hs "expect" with
  | nil => rfl
  | cons v vs =>
    rw [List.getLast?_cons]
    rfl

/-- The loop of a second call starts with the expectation that the first call has left, and ends
with it. -/
lemma requestLoop_again {hs hs' : List (Header Bytes)} {before after : Bool} {f : Framing}
    (hloop : headersLoop requestHeader (.init, before) hs = .ok (f, after)) (hheaders : hs' = hs)
    {left : Bool} (hleft : left = after ∨ left = (f.hasExpect && after)) :
    headersLoop requestHeader (.init, left) hs' = .ok (f, left) := by
  subst hheaders
  obtain ⟨hr, hs⟩ := requestLoop_iff.mp hloop
  obtain ⟨rfl, rfl⟩ := Prod.mk.inj hs
  refine requestLoop_iff.mpr ⟨hr, Prod.ext rfl ?_⟩
  obtain rfl | rfl := hleft
  · exact (expectsContinueOf_again _ _).symm
  · exact (expectsContinueOf_hasField _ _).symm

lemma requestApplySemantics_again (first second : Option Policy) (req : Request Bytes) :
    Agrees (resolvePolicy first) (resolvePolicy second) (requestApplySemantics req first).2
      (requestApplySemantics req second)
      (requestApplySemantics (requestApplySemantics req first).2 second) := by
  cases hloop : headersLoop requestHeader (.init, req.expectsContinue) req.headers with
  | error s =>
    obtain ⟨p, x, t, hsplit, hp, hx⟩ := headersLoop_error_iff.mp hloop
    have hagain : headersLoop requestHeader (.init, s.2) req.headers = .error s :=
      headersLoop_error_iff.mpr ⟨p, x, t, hsplit, requestLoop_again hp rfl (.inl rfl), hx⟩
    have hfirst (policy : Option Policy) : requestApplySemantics req policy =
        (.error, { req with expectsContinue := s.2 }) := by
      rw [requestApplySemantics, hloop]
    rw [hfirst, hfirst, requestApplySemantics]
    dsimp only
    rw [hagain]
    exact .inl rfl
  | ok s =>
    have hcall (policy : Option Policy) : requestApplySemantics req policy =
        s.1.requestOutcome (resolvePolicy policy) { req with expectsContinue := s.2 } :=
      requestApplySemantics_eq hloop
    have hagain := requestLoop_again hloop
      (s.1.requestOutcome_headers (resolvePolicy first) { req with expectsContinue := s.2 })
      (s.1.requestOutcome_expectsContinue (resolvePolicy first) { req with expectsContinue := s.2 })
    rw [hcall, hcall, requestApplySemantics_eq hagain]
    exact s.1.requestOutcome_again _ _ _

/-! ### Responses -/

lemma Framing.responseOutcome_headers (f : Framing) (policy : Policy) (resp : Response Bytes) :
    (f.responseOutcome policy resp).2.headers = resp.headers := by
  rw [responseOutcome]
  dsimp only
  rw [responsePersistence_eq, responseBodyMode_eq, responseConnection_eq]
  split_ifs <;> rfl

/-- The outcome under another policy for what the outcome under one has left. -/
lemma Framing.responseOutcome_again (f : Framing) (first second : Policy) (resp : Response Bytes) :
    Agrees first second (f.responseOutcome first resp).2 (f.responseOutcome second resp)
      (f.responseOutcome second (f.responseOutcome first resp).2) := by
  by_cases hteCl : (f.hasTe && f.hasCl && first.rejectTeCl) = true
  · exact .of_untouched (by rw [responseOutcome, if_pos hteCl]) second
  by_cases hstrict : (f.hasTe && f.hasCl && second.rejectTeCl) = true
  · have hrefused (resp : Response Bytes) : f.responseOutcome second resp = (.error, resp) :=
      if_pos hstrict
    rw [hrefused, hrefused]
    exact .of_refused hteCl hstrict _ _
  by_cases hcount : f.chunkedCount > 1
  · exact .of_untouched (by rw [responseOutcome, if_neg hteCl, if_pos hcount]) second
  left
  unfold responseOutcome
  simp only [if_neg hteCl, if_neg hstrict, if_neg hcount, responsePersistence_eq,
    responseBodyMode_eq, responseConnection_eq]
  by_cases htrailer : (f.hasTrailer && f.responseBody resp.statusCode != .chunked) = true
  · simp only [if_pos htrailer]
    split_ifs <;> rfl
  · simp only [if_neg htrailer]
    split_ifs <;> rfl

lemma responseApplySemantics_again (first second : Option Policy) (resp : Response Bytes) :
    Agrees (resolvePolicy first) (resolvePolicy second) (responseApplySemantics resp first).2
      (responseApplySemantics resp second)
      (responseApplySemantics (responseApplySemantics resp first).2 second) := by
  cases hloop : headersLoop responseHeader .init resp.headers with
  | error f =>
    have hfirst (policy : Option Policy) : responseApplySemantics resp policy = (.error, resp) := by
      rw [responseApplySemantics, hloop]
    rw [hfirst, hfirst]
    exact .inl rfl
  | ok f =>
    have hagain : headersLoop responseHeader .init
        (f.responseOutcome (resolvePolicy first) resp).2.headers = .ok f := by
      rw [f.responseOutcome_headers, hloop]
    rw [responseApplySemantics_eq hloop, responseApplySemantics_eq hloop,
      responseApplySemantics_eq hagain]
    exact f.responseOutcome_again _ _ _

/-- Applying the semantics to a message that they have been applied to, under any policy and
whatever the first call returned, is as good as a first call: the same status, the same message.
The one exception is a message that the second policy rejects either way, when only that policy
forbids Transfer-Encoding beside Content-Length: the second call then returns the error and leaves
the message as the first one left it. -/
theorem applySemantics_again (first second : Option Policy) :
    (∀ req, Agrees (resolvePolicy first) (resolvePolicy second)
      (requestApplySemantics req first).2 (requestApplySemantics req second)
      (requestApplySemantics (requestApplySemantics req first).2 second)) ∧
    ∀ resp, Agrees (resolvePolicy first) (resolvePolicy second)
      (responseApplySemantics resp first).2 (responseApplySemantics resp second)
      (responseApplySemantics (responseApplySemantics resp first).2 second) :=
  ⟨requestApplySemantics_again first second, responseApplySemantics_again first second⟩

end IoHttpParser
