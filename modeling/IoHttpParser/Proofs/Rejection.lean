import IoHttpParser.Proofs.Persistence

/-!
# Rejected messages

What a rejected call leaves in the struct: the expectation of an Expect field that was read before
the error, and, when it is the Trailer field that is refused, persistence and body.
-/

namespace IoHttpParser
open Memory

/-- The headers up to the first malformed one. -/
structure ReadBefore (hs p : List (Header Bytes)) : Prop where
  start : p <+: hs
  fields : RequestFields p
  maximal : ∀ h, p ++ [h] <+: hs → ¬RequestFields (p ++ [h])

/-- An Expect field that is read says what the struct holds. -/
def ExpectAgrees (hs : List (Header Bytes)) (before : Bool) : Prop :=
  ∀ p v, ReadBefore hs p → (fieldValues p "expect").getLast? = some v →
    (SameName (trim isLws v) (ascii "100-continue") ↔ before = true)

/-- Persistence and body are already what the message says. -/
structure FramingAgrees (hs : List (Header Bytes)) (body : BodyMode) (before : Outputs) : Prop where
  close : hasOption hs "close" = true → before.keepAlive = false
  keepAlive : keepAliveListed hs = true → before.keepAlive = true
  bodyMode : before.bodyMode = body
  contentLength : body = .fixed → before.contentLength = contentLengthOf hs

/-- A request of which only the Trailer field is refused. -/
structure RequestTrailerRefused (req : Request Bytes) : Prop where
  fields : RequestFields req.headers
  host_present : req.version = .http11 → hasField req.headers "host" = true
  trailer : hasField req.headers "trailer" = true
  not_chunked : hasField req.headers "transfer-encoding" = false

/-- A response of which only the Trailer field is refused. -/
structure ResponseTrailerRefused (policy : Policy) (resp : Response Bytes) : Prop where
  fields : WellFormedFields resp.headers
  chunked_once : (transferCodings resp.headers).countP IsChunked ≤ 1
  no_te_cl : policy.rejectTeCl = true → hasField resp.headers "transfer-encoding" = true →
    hasField resp.headers "content-length" = false
  trailer : hasField resp.headers "trailer" = true
  not_chunked : ¬(bodyless resp.statusCode = false ∧ endsChunked resp.headers = true)

/-- The request is accepted, or nothing that is written before the error changes it. -/
def RequestUntouched (policy : Policy) (req : Request Bytes) : Prop :=
  AcceptableRequest policy req ∨
    (ExpectAgrees req.headers req.expectsContinue ∧
      (RequestTrailerRefused req → FramingAgrees req.headers
        (if hasField req.headers "content-length" then .fixed else .none) req.outputs))

/-- The response is accepted, or nothing that is written before the error changes it. -/
def ResponseUntouched (policy : Policy) (resp : Response Bytes) : Prop :=
  AcceptableResponse policy resp ∨
    (ResponseTrailerRefused policy resp → FramingAgrees resp.headers
      (if bodyless resp.statusCode then .none
        else if hasField resp.headers "content-length" then .fixed else .eof) resp.outputs)

section Expect

variable {hs p p' : List (Header Bytes)}

lemma ReadBefore.refl (hr : RequestFields hs) : ReadBefore hs hs where
  start := List.prefix_rfl
  fields := hr
  maximal h hp := by
    have hlen := hp.length_le
    rw [List.length_append, List.length_singleton] at hlen
    omega

lemma ReadBefore.of_refused {x : Header Bytes} {t : List (Header Bytes)} (hr : RequestFields p)
    (hx : ¬RequestFields (p ++ [x])) : ReadBefore (p ++ x :: t) p where
  start := List.prefix_append p _
  fields := hr
  maximal h hp := by
    rw [List.prefix_append_right_inj, List.singleton_prefix_cons_iff] at hp
    rw [hp]
    exact hx

lemma ReadBefore.length_le (h : ReadBefore hs p) (h' : ReadBefore hs p') :
    p'.length ≤ p.length := by
  by_contra hlt
  obtain ⟨t, ht⟩ := List.prefix_of_prefix_length_le h.start h'.start (by omega)
  cases t with
  | nil =>
    rw [List.append_nil] at ht
    rw [ht] at hlt
    exact hlt (Nat.le_refl _)
  | cons x t =>
    have hsplit : p ++ [x] ++ t = p' := by rw [← ht, List.append_assoc, List.singleton_append]
    have hfields := h'.fields
    rw [← hsplit] at hfields
    apply h.maximal x _ hfields.of_append
    have hstart := h'.start
    rw [← hsplit] at hstart
    exact (List.prefix_append _ _).trans hstart

lemma ReadBefore.unique (h : ReadBefore hs p) (h' : ReadBefore hs p') : p' = p := by
  have hlen : p'.length = p.length := Nat.le_antisymm (h.length_le h') (h'.length_le h)
  exact (List.prefix_of_prefix_length_le h'.start h.start hlen.le).eq_of_length hlen

/-- The expectation that the loop leaves is the one before. -/
lemma ReadBefore.expectsContinueOf_eq_iff (h : ReadBefore hs p) (before : Bool) :
    expectsContinueOf p before = before ↔ ExpectAgrees hs before := by
  unfold expectsContinueOf ExpectAgrees
  constructor
  · intro heq p' v hp' hv
    rw [h.unique hp'] at hv
    rw [hv, Option.map_some, Option.getD_some] at heq
    rw [← heq, decide_eq_true_eq]
  · intro hagrees
    cases hv : (fieldValues p "expect").getLast? with
    | none => rfl
    | some v =>
      rw [Option.map_some, Option.getD_some, Bool.eq_iff_iff, decide_eq_true_eq]
      exact hagrees p v h hv

end Expect

/-- What the connection options and the body write, compared with what was there. -/
lemma framingAgrees_iff (hs : List (Header Bytes)) (body : BodyMode) (before : Outputs) :
    FramingAgrees hs body before ↔
      body = before.bodyMode ∧
      (if body = .fixed then contentLengthOf hs else before.contentLength) = before.contentLength ∧
      (if hasOption hs "close" then false
        else if hasOption hs "keep-alive" then true
        else before.keepAlive) = before.keepAlive := by
  constructor
  · intro h
    refine ⟨h.bodyMode.symm, ?_, ?_⟩
    · split_ifs with hfixed
      · exact (h.contentLength hfixed).symm
      · rfl
    · split_ifs with hclose hkeep
      · exact (h.close hclose).symm
      · have hlisted : keepAliveListed hs = true := by
          unfold keepAliveListed
          rw [hkeep, Bool.not_eq_true _ |>.mp hclose]
          rfl
        exact (h.keepAlive hlisted).symm
      · rfl
  · rintro ⟨hbody, hlength, hkeep⟩
    refine ⟨?_, ?_, hbody.symm, ?_⟩
    · intro hclose
      rw [if_pos hclose] at hkeep
      exact hkeep.symm
    · intro hlisted
      unfold keepAliveListed at hlisted
      rw [Bool.and_eq_true, Bool.not_eq_true'] at hlisted
      rw [hlisted.1, hlisted.2, if_neg Bool.false_ne_true, if_pos rfl] at hkeep
      exact hkeep.symm
    · intro hfixed
      rw [if_pos hfixed] at hlength
      exact hlength.symm

section Request

variable {req : Request Bytes} {policy : Option Policy}

lemma lateOutputs_request_iff (hte : hasField req.headers "transfer-encoding" = false) (e : Bool) :
    ((requestLoopState req.expectsContinue req.headers).1.requestBodyMode
      ((requestLoopState req.expectsContinue req.headers).1.requestConnection
        { req with expectsContinue := e })).outputs = req.outputs ↔
      e = req.expectsContinue ∧ FramingAgrees req.headers
        (if hasField req.headers "content-length" then .fixed else .none) req.outputs := by
  have hno : ((requestLoopState req.expectsContinue req.headers).1.hasTe &&
      !(requestLoopState req.expectsContinue req.headers).1.chunked) = false := by
    have hflag : (requestLoopState req.expectsContinue req.headers).1.hasTe = false := hte
    rw [hflag, Bool.false_and]
  rw [framingAgrees_iff, Framing.requestBodyMode_eq _ _ (by rw [hno]; exact Bool.false_ne_true),
    Framing.requestConnection_eq]
  unfold Request.outputs requestLoopState Framing.ofHeaders
  dsimp only
  rw [hte, Outputs.mk.injEq]
  cases hasField req.headers "content-length" <;> simp [and_comm, and_left_comm]

lemma expectOutputs_iff (req : Request Bytes) (e : Bool) :
    ({ req with expectsContinue := e } : Request Bytes).outputs = req.outputs ↔
      e = req.expectsContinue := by
  unfold Request.outputs
  dsimp only
  rw [Outputs.mk.injEq]
  simp

/-- At an error return that comes before the Trailer check, only the expectation is written. -/
lemma requestUntouched_iff_of_early {p : List (Header Bytes)} (hread : ReadBefore req.headers p)
    (hrefused : ¬AcceptableRequest (resolvePolicy policy) req)
    (htrailer : ¬RequestTrailerRefused req)
    (hout : requestApplySemantics req policy =
      (.error, { req with expectsContinue := expectsContinueOf p req.expectsContinue })) :
    ((requestApplySemantics req policy).1 = .error →
      (requestApplySemantics req policy).2.outputs = req.outputs) ↔
    RequestUntouched (resolvePolicy policy) req := by
  rw [hout]
  dsimp only
  rw [expectOutputs_iff, hread.expectsContinueOf_eq_iff, imp_iff_right rfl]
  constructor
  · intro hagrees
    exact .inr ⟨hagrees, fun h => absurd h htrailer⟩
  · intro h
    cases h with
    | inl hok => exact absurd hok hrefused
    | inr hagrees => exact hagrees.1

lemma requestUntouched_iff_of_loop_error {s : Framing × Bool}
    (hloop : headersLoop requestHeader (.init, req.expectsContinue) req.headers = .error s) :
    ((requestApplySemantics req policy).1 = .error →
      (requestApplySemantics req policy).2.outputs = req.outputs) ↔
    RequestUntouched (resolvePolicy policy) req := by
  obtain ⟨p, x, t, hsplit, hp, hx⟩ := headersLoop_error_iff.mp hloop
  obtain ⟨hr, hs⟩ := requestLoop_iff.mp hp
  have hbad : ¬RequestFields (p ++ [x]) := by
    intro hgood
    have hstep : requestHeader (requestLoopState req.expectsContinue p) x =
        some (requestLoopState req.expectsContinue (p ++ [x])) :=
      (requestHeader_iff hr).mpr ⟨hgood, rfl⟩
    rw [← hs, hx] at hstep
    cases hstep
  have hread : ReadBefore req.headers p := by
    rw [hsplit]
    exact .of_refused hr hbad
  have hmalformed : ¬RequestFields req.headers := by
    intro hgood
    rw [hsplit, ← List.singleton_append, ← List.append_assoc] at hgood
    exact hbad hgood.of_append
  have hout : requestApplySemantics req policy =
      (.error, { req with expectsContinue := expectsContinueOf p req.expectsContinue }) := by
    unfold requestApplySemantics
    rw [hloop, hs]
    rfl
  apply requestUntouched_iff_of_early hread _ _ hout
  · intro h
    rw [acceptableRequest_iff_consistent req.expectsContinue] at h
    exact hmalformed h.1
  · exact fun h => hmalformed h.fields

/-- The error returns behind the header loop of a request: the last one comes after persistence and
body are written. -/
lemma requestApplySemantics_error_cases {f : Framing} {e : Bool}
    (hloop : headersLoop requestHeader (.init, req.expectsContinue) req.headers = .ok (f, e))
    (hrefused : ¬f.Consistent (resolvePolicy policy) req.version) :
    (requestApplySemantics req policy = (.error, { req with expectsContinue := e }) ∧
      (f.hasTe = true ∨ (req.version == .http11 && !f.hasHost) = true ∨ f.chunkedCount > 1)) ∨
    (requestApplySemantics req policy = (.error,
        f.requestBodyMode (f.requestConnection { req with expectsContinue := e })) ∧
      f.hasTrailer = true ∧ f.hasTe = false ∧
      ¬(req.version == .http11 && !f.hasHost) = true) := by
  have heq := @requestApplySemantics_eq _ policy _ _ hloop
  unfold Framing.requestOutcome at heq
  dsimp only at heq
  by_cases hteCl : (f.hasTe && f.hasCl && (resolvePolicy policy).rejectTeCl) = true
  · rw [if_pos hteCl] at heq
    rw [Bool.and_eq_true, Bool.and_eq_true] at hteCl
    exact .inl ⟨heq, .inl hteCl.1.1⟩
  rw [if_neg hteCl] at heq
  by_cases hhost : (req.version == .http11 && !f.hasHost) = true
  · rw [if_pos hhost] at heq
    exact .inl ⟨heq, .inr (.inl hhost)⟩
  rw [if_neg hhost] at heq
  by_cases hcount : f.chunkedCount > 1
  · rw [if_pos hcount] at heq
    exact .inl ⟨heq, .inr (.inr hcount)⟩
  rw [if_neg hcount] at heq
  by_cases hlast : (f.hasTe && !f.chunked) = true
  · rw [if_pos hlast] at heq
    rw [Bool.and_eq_true] at hlast
    exact .inl ⟨heq, .inl hlast.1⟩
  rw [if_neg hlast] at heq
  have htrailer : ¬(f.hasTrailer = true → f.hasTe = true) := fun h =>
    hrefused ⟨hteCl, hhost, hcount, hlast, h⟩
  rw [Classical.not_imp, Bool.not_eq_true] at htrailer
  have hmode : ((f.requestBodyMode (f.requestConnection
      { req with expectsContinue := e })).bodyMode != .chunked) = true := by
    rw [Framing.requestBodyMode_eq _ _ hlast, htrailer.2]
    cases f.hasCl <;> rfl
  rw [htrailer.1, hmode, Bool.and_self, if_pos rfl] at heq
  exact .inr ⟨heq, htrailer.1, htrailer.2, hhost⟩

lemma requestUntouched_iff_of_loop (hr : RequestFields req.headers)
    (hloop : headersLoop requestHeader (.init, req.expectsContinue) req.headers =
      .ok (requestLoopState req.expectsContinue req.headers)) :
    ((requestApplySemantics req policy).1 = .error →
      (requestApplySemantics req policy).2.outputs = req.outputs) ↔
    RequestUntouched (resolvePolicy policy) req := by
  have hread := ReadBefore.refl hr
  have hacceptable :=
    @acceptableRequest_iff_consistent (resolvePolicy policy) req req.expectsContinue
  by_cases hok : AcceptableRequest (resolvePolicy policy) req
  · rw [requestApplySemantics_ok_iff.mpr ⟨hr, (hacceptable.mp hok).2, rfl⟩]
    exact iff_of_true (fun h => by cases h) (.inl hok)
  have hrefused : ¬(requestLoopState req.expectsContinue req.headers).1.Consistent
      (resolvePolicy policy) req.version := fun hc => hok (hacceptable.mpr ⟨hr, hc⟩)
  cases requestApplySemantics_error_cases hloop hrefused with
  | inl hearly =>
    obtain ⟨hout, hwhy⟩ := hearly
    apply requestUntouched_iff_of_early hread hok _ hout
    intro h
    rcases hwhy with hte | hhost | hcount
    · exact absurd (hte.symm.trans h.not_chunked) (by decide)
    · exact (not_missing_host_iff _ _).mpr h.host_present hhost
    · have hnone := transferCodings_eq_nil h.not_chunked
      change (transferCodings req.headers).countP _ > 1 at hcount
      rw [hnone] at hcount
      exact absurd hcount (by decide)
  | inr hlate =>
    obtain ⟨hout, htrailer, hte, hhost⟩ := hlate
    have hrequest : RequestTrailerRefused req :=
      ⟨hr, (not_missing_host_iff _ _).mp hhost, htrailer, hte⟩
    rw [hout, imp_iff_right rfl, RequestUntouched, or_iff_right hok, imp_iff_right hrequest]
    refine (lateOutputs_request_iff hte _).trans ?_
    exact and_congr_left' (hread.expectsContinueOf_eq_iff req.expectsContinue)

lemma requestUntouched_iff (req : Request Bytes) (policy : Option Policy) :
    ((requestApplySemantics req policy).1 = .error →
      (requestApplySemantics req policy).2.outputs = req.outputs) ↔
    RequestUntouched (resolvePolicy policy) req := by
  cases hloop : headersLoop requestHeader (.init, req.expectsContinue) req.headers with
  | error s => exact requestUntouched_iff_of_loop_error hloop
  | ok s =>
    obtain ⟨hr, rfl⟩ := requestLoop_iff.mp hloop
    exact requestUntouched_iff_of_loop hr hloop

end Request

section Response

variable {resp : Response Bytes} {policy : Option Policy}

lemma responseTrailerRefused_iff {policy : Policy} : ResponseTrailerRefused policy resp ↔
    WellFormedFields resp.headers ∧
      ¬((Framing.ofHeaders resp.headers false false).hasTe &&
        (Framing.ofHeaders resp.headers false false).hasCl && policy.rejectTeCl) = true ∧
      ¬(Framing.ofHeaders resp.headers false false).chunkedCount > 1 ∧
      ((Framing.ofHeaders resp.headers false false).hasTrailer &&
        (Framing.ofHeaders resp.headers false false).responseBody resp.statusCode != .chunked) =
          true := by
  rw [not_te_cl_iff, Bool.and_eq_true, bne_iff_ne, Ne, responseBody_eq_chunked]
  constructor
  · intro h
    exact ⟨h.fields, h.no_te_cl, Nat.not_lt.mpr h.chunked_once, h.trailer, h.not_chunked⟩
  · rintro ⟨hw, hteCl, hcount, htrailer, hbody⟩
    exact ⟨hw, Nat.not_lt.mp hcount, hteCl, htrailer, hbody⟩

lemma lateOutputs_response_iff
    (hbody : (Framing.ofHeaders resp.headers false false).responseBody resp.statusCode ≠ .chunked) :
    ((Framing.ofHeaders resp.headers false false).responseBodyMode
      ((Framing.ofHeaders resp.headers false false).responseConnection resp)).outputs =
        resp.outputs ↔
      FramingAgrees resp.headers
        (if bodyless resp.statusCode then .none
          else if hasField resp.headers "content-length" then .fixed else .eof) resp.outputs := by
  have hmode : (Framing.ofHeaders resp.headers false false).responseBody resp.statusCode =
      if bodyless resp.statusCode then .none
      else if hasField resp.headers "content-length" then .fixed else .eof := by
    rw [Ne, responseBody_eq_chunked] at hbody
    rw [responseBody_ofHeaders]
    cases hb : bodyless resp.statusCode with
    | true => rfl
    | false =>
      have hcodings : endsChunked resp.headers = false := by
        rw [Bool.eq_false_iff]
        exact fun h => hbody ⟨hb, h⟩
      rw [hcodings]
      rfl
  rw [framingAgrees_iff, Framing.responseBodyMode_eq, Framing.responseConnection_eq, hmode]
  unfold Response.outputs Framing.ofHeaders
  dsimp only
  rw [Outputs.mk.injEq]
  simp

lemma responseUntouched_iff (resp : Response Bytes) (policy : Option Policy) :
    ((responseApplySemantics resp policy).1 = .error →
      (responseApplySemantics resp policy).2.outputs = resp.outputs) ↔
    ResponseUntouched (resolvePolicy policy) resp := by
  have hsame (hrefused : ¬ResponseTrailerRefused (resolvePolicy policy) resp)
      (hout : responseApplySemantics resp policy = (.error, resp)) :
      ((responseApplySemantics resp policy).1 = .error →
        (responseApplySemantics resp policy).2.outputs = resp.outputs) ↔
      ResponseUntouched (resolvePolicy policy) resp := by
    rw [hout]
    exact iff_of_true (fun _ => rfl) (.inr (fun h => absurd h hrefused))
  rw [responseTrailerRefused_iff] at hsame
  cases hloop : headersLoop responseHeader .init resp.headers with
  | error f =>
    apply hsame
    · rintro ⟨hw, -⟩
      rw [responseLoop_iff.mpr ⟨hw, rfl⟩] at hloop
      cases hloop
    · unfold responseApplySemantics
      rw [hloop]
  | ok f =>
    obtain ⟨hw, rfl⟩ := responseLoop_iff.mp hloop
    have heq := @responseApplySemantics_eq _ policy _ hloop
    unfold Framing.responseOutcome at heq
    dsimp only at heq
    by_cases hteCl : ((Framing.ofHeaders resp.headers false false).hasTe &&
        (Framing.ofHeaders resp.headers false false).hasCl &&
        (resolvePolicy policy).rejectTeCl) = true
    · rw [if_pos hteCl] at heq
      exact hsame (fun h => h.2.1 hteCl) heq
    rw [if_neg hteCl] at heq
    by_cases hcount : (Framing.ofHeaders resp.headers false false).chunkedCount > 1
    · rw [if_pos hcount] at heq
      exact hsame (fun h => h.2.2.1 hcount) heq
    rw [if_neg hcount, Framing.bodyMode_responseBodyMode] at heq
    by_cases htrailer : ((Framing.ofHeaders resp.headers false false).hasTrailer &&
        (Framing.ofHeaders resp.headers false false).responseBody resp.statusCode != .chunked) =
          true
    · have hrefused : ResponseTrailerRefused (resolvePolicy policy) resp :=
        responseTrailerRefused_iff.mpr ⟨hw, hteCl, hcount, htrailer⟩
      have hno : ¬AcceptableResponse (resolvePolicy policy) resp := fun h =>
        hrefused.not_chunked (h.trailer_chunked hrefused.trailer)
      rw [if_pos htrailer] at heq
      rw [heq, imp_iff_right rfl, ResponseUntouched, or_iff_right hno, imp_iff_right hrefused]
      apply lateOutputs_response_iff
      rw [Bool.and_eq_true, bne_iff_ne] at htrailer
      exact htrailer.2
    · have hok : AcceptableResponse (resolvePolicy policy) resp :=
        acceptableResponse_iff_consistent.mpr ⟨hw, hteCl, hcount, htrailer⟩
      rw [responseApplySemantics_acceptable.mpr ⟨hok, rfl⟩]
      exact iff_of_true (fun h => by cases h) (.inl hok)

end Response

/-- A rejected message keeps its outputs exactly when nothing that was written before the error
differs from what was there. -/
theorem rejected_untouched_iff (policy : Option Policy) :
    (∀ req : Request Bytes,
      ((requestApplySemantics req policy).1 = .error →
        (requestApplySemantics req policy).2.outputs = req.outputs) ↔
      RequestUntouched (resolvePolicy policy) req) ∧
    ∀ resp : Response Bytes,
      ((responseApplySemantics resp policy).1 = .error →
        (responseApplySemantics resp policy).2.outputs = resp.outputs) ↔
      ResponseUntouched (resolvePolicy policy) resp :=
  ⟨fun req => requestUntouched_iff req policy, fun resp => responseUntouched_iff resp policy⟩

/-- A request without Host that expects 100-continue, and a response whose Trailer field comes with
a fixed length. -/
theorem rejected_touched :
    (∃ req : Request Bytes, (requestApplySemantics req none).1 = .error ∧
      req.expectsContinue = false ∧
      (requestApplySemantics req none).2.expectsContinue = true) ∧
    ∃ resp : Response Bytes, (responseApplySemantics resp none).1 = .error ∧
      resp.bodyMode = .none ∧ (responseApplySemantics resp none).2.bodyMode = .fixed :=
  ⟨⟨{ Request.zero.resolve [] with
        version := .http11, headers := [⟨ascii "Expect", ascii "100-continue"⟩] },
      by decide, rfl, by decide⟩,
    { Response.zero.resolve [] with
      version := .http11
      statusCode := 200
      headers := [⟨ascii "Content-Length", ascii "5"⟩, ⟨ascii "Trailer", ascii "Digest"⟩] },
    by decide, rfl, by decide⟩

end IoHttpParser
