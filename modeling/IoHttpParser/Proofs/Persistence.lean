import IoHttpParser.Model.Parser
import IoHttpParser.Proofs.RequestFraming
import IoHttpParser.Proofs.ResponseFraming

/-!
# Persistence

When an accepted message keeps the connection open, and when the answer is what the struct held
before the call.
-/

namespace IoHttpParser
open Memory

section Response

variable {resp out : Response Bytes} {policy : Option Policy}

lemma responseBody_ofHeaders (resp : Response Bytes) :
    (Framing.ofHeaders resp.headers false false).responseBody resp.statusCode =
      if bodyless resp.statusCode then .none
      else if endsChunked resp.headers then .chunked
      else if hasField resp.headers "content-length" then .fixed
      else .eof := by
  have hte : ((Framing.ofHeaders resp.headers false false).hasTe &&
      (Framing.ofHeaders resp.headers false false).chunked) = endsChunked resp.headers := by
    rw [chunked_ofHeaders, endsChunked]
    cases hfield : hasField resp.headers "transfer-encoding" with
    | false =>
      rw [lastCoding_of_not_hasField hfield, Option.any_none, Bool.and_false]
    | true => exact (congrArg (· && _) hfield).trans (Bool.true_and _)
  unfold Framing.responseBody
  rw [hte]
  rfl

lemma responseBody_eq_chunked (resp : Response Bytes) :
    (Framing.ofHeaders resp.headers false false).responseBody resp.statusCode = .chunked ↔
      bodyless resp.statusCode = false ∧ endsChunked resp.headers = true := by
  rw [responseBody_ofHeaders]
  cases bodyless resp.statusCode <;> cases endsChunked resp.headers <;>
    cases hasField resp.headers "content-length" <;> decide

lemma responseBody_eq_eof (resp : Response Bytes) :
    (Framing.ofHeaders resp.headers false false).responseBody resp.statusCode = .eof ↔
      closeDelimited resp = true := by
  rw [responseBody_ofHeaders, closeDelimited]
  cases bodyless resp.statusCode <;> cases endsChunked resp.headers <;>
    cases hasField resp.headers "content-length" <;> decide

lemma acceptableResponse_iff_consistent {policy : Policy} :
    AcceptableResponse policy resp ↔ WellFormedFields resp.headers ∧
      (Framing.ofHeaders resp.headers false false).ResponseConsistent policy resp.statusCode := by
  constructor
  · intro h
    refine ⟨h.fields, (not_te_cl_iff _ _ _).mpr h.no_te_cl, Nat.not_lt.mpr h.chunked_once, ?_⟩
    intro hbad
    rw [Bool.and_eq_true, bne_iff_ne] at hbad
    exact hbad.2 ((responseBody_eq_chunked resp).mpr (h.trailer_chunked hbad.1))
  · rintro ⟨hw, hc⟩
    refine ⟨hw, Nat.not_lt.mp hc.chunked_once, (not_te_cl_iff _ _ _).mp hc.no_te_cl, ?_⟩
    intro hfield
    apply (responseBody_eq_chunked resp).mp
    by_contra hne
    apply hc.trailer
    rw [Bool.and_eq_true, bne_iff_ne]
    exact ⟨hfield, hne⟩

lemma responseApplySemantics_acceptable :
    responseApplySemantics resp policy = (.ok, out) ↔
      AcceptableResponse (resolvePolicy policy) resp ∧
        out = (Framing.ofHeaders resp.headers false false).decideResponse resp := by
  rw [responseApplySemantics_ok_iff, acceptableResponse_iff_consistent, and_assoc]

/-- What the response does not say is left as it was. -/
lemma keepAlive_decideResponse (resp : Response Bytes) :
    ((Framing.ofHeaders resp.headers false false).decideResponse resp).keepAlive =
      (declaredPersistence resp).getD resp.keepAlive := by
  have heof : ((Framing.ofHeaders resp.headers false false).responseBody resp.statusCode != .eof) =
      !closeDelimited resp := by
    rw [Bool.eq_iff_iff, bne_iff_ne, Ne, responseBody_eq_eof, Bool.not_eq_true,
      Bool.not_eq_true']
  have hupgrade : (Framing.ofHeaders resp.headers false false).responseUpgrade resp.statusCode =
      switchesProtocols resp := rfl
  have hclose : (Framing.ofHeaders resp.headers false false).connection.close =
      hasOption resp.headers "close" := rfl
  have hkeep : (Framing.ofHeaders resp.headers false false).connection.keepAlive =
      hasOption resp.headers "keep-alive" := rfl
  unfold Framing.decideResponse declaredPersistence
  dsimp only
  rw [heof, hupgrade, hclose, hkeep]
  split_ifs <;> rfl

end Response

/-! ### Reused structs -/

section Reuse

variable {policy : Option Policy} {r r' : Response Bytes}

lemma sameDecision_decideResponse (hcode : r'.statusCode = r.statusCode)
    (hheaders : r'.headers = r.headers)
    (hkeep : (declaredPersistence r').getD r'.keepAlive =
      (declaredPersistence r).getD r.keepAlive) :
    SameDecision ((Framing.ofHeaders r.headers false false).decideResponse r)
      ((Framing.ofHeaders r'.headers false false).decideResponse r') := by
  rw [← keepAlive_decideResponse, ← keepAlive_decideResponse] at hkeep
  refine ⟨?_, hkeep, ?_, ?_, ?_⟩ <;>
    simp only [Framing.decideResponse, hheaders, hcode]
  intro hfixed
  rw [if_pos hfixed, if_pos hfixed]

/-- The result is decided by the version, the status code and the headers, but for the persistence
that these leave open. -/
theorem responseApplySemantics_reused_iff (hversion : r'.version = r.version)
    (hcode : r'.statusCode = r.statusCode) (hheaders : r'.headers = r.headers) :
    ((responseApplySemantics r' policy).1 = (responseApplySemantics r policy).1 ∧
      ((responseApplySemantics r policy).1 = .ok →
        SameDecision (responseApplySemantics r policy).2 (responseApplySemantics r' policy).2)) ↔
    r'.keepAlive = r.keepAlive ∨ ¬AcceptableResponse (resolvePolicy policy) r ∨
      (declaredPersistence r).isSome = true := by
  have hacceptable : AcceptableResponse (resolvePolicy policy) r' ↔
      AcceptableResponse (resolvePolicy policy) r := by
    rw [acceptableResponse_iff_consistent, acceptableResponse_iff_consistent, hheaders, hcode]
  by_cases ha : AcceptableResponse (resolvePolicy policy) r
  · have hok := responseApplySemantics_acceptable.mpr ⟨ha, rfl⟩
    have hok' := responseApplySemantics_acceptable.mpr ⟨hacceptable.mpr ha, rfl⟩
    have hdeclared : declaredPersistence r' = declaredPersistence r := by
      unfold declaredPersistence switchesProtocols closeDelimited
      rw [hversion, hcode, hheaders]
    have hkeep := keepAlive_decideResponse r
    have hkeep' := keepAlive_decideResponse r'
    rw [hdeclared] at hkeep'
    rw [hok, hok']
    dsimp only
    constructor
    · rintro ⟨-, hsame⟩
      have heq := (hsame rfl).keepAlive
      rw [hkeep, hkeep'] at heq
      cases hd : declaredPersistence r with
      | none =>
        rw [hd] at heq
        exact .inl heq
      | some b => exact .inr (.inr rfl)
    · intro hcond
      refine ⟨rfl, fun _ => sameDecision_decideResponse hcode hheaders ?_⟩
      rw [hdeclared]
      rcases hcond with heq | hno | hsome
      · rw [heq]
      · exact absurd ha hno
      · obtain ⟨b, hb⟩ := Option.isSome_iff_exists.mp hsome
        rw [hb]
        rfl
  · have herror {s : Response Bytes} (hs : ¬AcceptableResponse (resolvePolicy policy) s) :
        (responseApplySemantics s policy).1 = .error := by
      cases responseApplySemantics_status s policy with
      | inl hok =>
        exact absurd (responseApplySemantics_acceptable.mp (Prod.ext hok rfl)).1 hs
      | inr herror => exact herror
    rw [herror ha, herror (fun h => ha (hacceptable.mp h))]
    exact iff_of_true ⟨rfl, fun h => by cases h⟩ (.inr (.inl ha))

end Reuse

/-- A 200 response of five bytes in a struct that held `keepAlive`. -/
def fiveBytes (version : HttpVersion) (keepAlive : Bool) : Response Bytes :=
  { Response.zero.resolve [] with
    version
    statusCode := 200
    headers := [⟨ascii "Content-Length", ascii "5"⟩]
    keepAlive }

lemma fiveBytes_decided (keepAlive : Bool) :
    (declaredPersistence (fiveBytes .http11 keepAlive)).isSome = true ∧
      (responseApplySemantics (fiveBytes .http11 keepAlive) none).1 = .ok ∧
      responseApplySemantics (fiveBytes .http10 keepAlive) none =
        (.ok, { fiveBytes .http10 keepAlive with bodyMode := .fixed, contentLength := 5 }) := by
  cases keepAlive <;> decide

theorem responseApplySemantics_reused_http11 :
    SameDecision (responseApplySemantics (fiveBytes .http11 false) none).2
      (responseApplySemantics (fiveBytes .http11 true) none).2 := by
  obtain ⟨hdecided, hok, -⟩ := fiveBytes_decided false
  have hsame : (responseApplySemantics (fiveBytes .http11 true) none).1 =
      (responseApplySemantics (fiveBytes .http11 false) none).1 ∧ _ :=
    (responseApplySemantics_reused_iff rfl rfl rfl).mpr (.inr (.inr hdecided))
  exact hsame.2 hok

/-- An HTTP/1.0 response takes over the persistence of the response before it. -/
theorem http10_keepAlive_leaks :
    ∃ r r' : Response Bytes, r'.version = r.version ∧ r'.statusCode = r.statusCode ∧
      r'.headers = r.headers ∧ (responseApplySemantics r none).1 = .ok ∧
      (responseApplySemantics r' none).1 = .ok ∧
      (responseApplySemantics r none).2.keepAlive = false ∧
      (responseApplySemantics r' none).2.keepAlive = true := by
  refine ⟨fiveBytes .http10 false, fiveBytes .http10 true, rfl, rfl, rfl, ?_⟩
  rw [(fiveBytes_decided false).2.2, (fiveBytes_decided true).2.2]
  exact ⟨rfl, rfl, rfl, rfl⟩

/-! ### Trustworthy persistence -/

/-- A persistent message ends by itself and is framed as its version can, unless it lists
keep-alive, which is taken at its word. -/
theorem keepAlive_selfDelimited (policy : Option Policy) :
    (∀ req out : Request Bytes, requestApplySemantics req policy = (.ok, out) →
      (out.keepAlive = true → out.bodyMode ≠ .eof ∧
        (req.version = .http10 → hasField req.headers "transfer-encoding" = true →
          keepAliveListed req.headers = true)) ∧
      (keepAliveListed req.headers = true → out.keepAlive = true)) ∧
    ∀ resp out : Response Bytes, resp.outputs = Response.zero.outputs →
      responseApplySemantics resp policy = (.ok, out) →
      (out.keepAlive = true →
        out.bodyMode = .eof ∨
          (resp.version = .http10 ∧ hasField resp.headers "transfer-encoding" = true) →
        keepAliveListed resp.headers = true) ∧
      (keepAliveListed resp.headers = true → out.protocolUpgrade = false →
        out.keepAlive = true) := by
  constructor
  · intro req out hok
    obtain ⟨-, -, rfl⟩ := requestApplySemantics_ok_iff.mp hok
    have hkeep : ((requestLoopState req.expectsContinue req.headers).1.decideRequest
        (requestLoopState req.expectsContinue req.headers).2 req).keepAlive =
          if hasOption req.headers "close" then false
          else if hasOption req.headers "keep-alive" then true
          else req.version == .http11 := rfl
    rw [hkeep, keepAliveListed]
    refine ⟨fun htrue => ⟨?_, ?_⟩, ?_⟩
    · unfold Framing.decideRequest
      dsimp only
      split_ifs <;> decide
    · intro hversion _
      rw [hversion] at htrue
      revert htrue
      cases hasOption req.headers "close" <;> cases hasOption req.headers "keep-alive" <;> decide
    · cases hasOption req.headers "close" <;> cases hasOption req.headers "keep-alive" <;> simp
  · intro resp out hzero hok
    obtain ⟨-, rfl⟩ := responseApplySemantics_acceptable.mp hok
    have hfalse : resp.keepAlive = false := congrArg Outputs.keepAlive hzero
    have heof := responseBody_eq_eof resp
    have hmode : ((Framing.ofHeaders resp.headers false false).decideResponse resp).bodyMode =
        (Framing.ofHeaders resp.headers false false).responseBody resp.statusCode := rfl
    have hswitch : ((Framing.ofHeaders resp.headers false false).decideResponse
        resp).protocolUpgrade = switchesProtocols resp := rfl
    rw [keepAlive_decideResponse, hmode, heof, hswitch, hfalse, declaredPersistence,
      keepAliveListed]
    constructor
    · intro htrue hopen
      have hdefault : (resp.version == .http11 && !closeDelimited resp) = false := by
        cases hopen with
        | inl hclose => rw [hclose, Bool.not_true, Bool.and_false]
        | inr hold => rw [hold.1]; rfl
      rw [hdefault] at htrue
      revert htrue
      cases hasOption resp.headers "close" <;> cases hasOption resp.headers "keep-alive" <;>
        cases switchesProtocols resp <;> decide
    · intro hlisted hno
      rw [hno]
      revert hlisted
      cases hasOption resp.headers "close" <;> cases hasOption resp.headers "keep-alive" <;> simp

/-- A response whose body ends with a connection that is to be kept. -/
def openWire : Bytes := ascii "HTTP/1.1 200 OK\r\nConnection: keep-alive\r\n\r\n"

/-- What the parser makes of it. -/
def openResponse : Response Bytes :=
  { Response.zero.resolve [] with
    version := .http11
    statusCode := 200
    reason := ascii "OK"
    headers := [⟨ascii "Connection", ascii "keep-alive"⟩] }

/-- A coded HTTP/1.0 request on a connection that is to be kept. -/
def codedWire : Bytes :=
  ascii "POST / HTTP/1.0\r\nTransfer-Encoding: chunked\r\nConnection: keep-alive\r\n\r\n"

/-- What the parser makes of it. -/
def codedRequest : Request Bytes :=
  { Request.zero.resolve [] with
    method := .post
    methodStr := ascii "POST"
    path := ascii "/"
    headers := [⟨ascii "Transfer-Encoding", ascii "chunked"⟩,
      ⟨ascii "Connection", ascii "keep-alive"⟩] }

lemma kept_decided :
    responseApplySemantics openResponse none =
      (.ok, { openResponse with bodyMode := .eof, keepAlive := true }) ∧
    requestApplySemantics codedRequest none =
      (.ok, { codedRequest with bodyMode := .chunked, keepAlive := true }) ∧
    hasField codedRequest.headers "transfer-encoding" = true := by
  decide

theorem keepAlive_selfDelimited_listed :
    keepAliveListed openResponse.headers = true ∧ keepAliveListed codedRequest.headers = true := by
  obtain ⟨hopen, hcoded, hfield⟩ := kept_decided
  obtain ⟨hrequest, hresponse⟩ := keepAlive_selfDelimited none
  have hreq := hrequest _ _ hcoded
  have hresp := hresponse _ _ rfl hopen
  exact ⟨hresp.1 rfl (.inl rfl), (hreq.1 rfl).2 rfl hfield⟩

/-- The option wins over a body that ends with the connection, and over a coding that HTTP/1.0 does
not have. -/
theorem keepAlive_until_close :
    (∃ resp n, parseResponse openWire none = (.ok, resp, n) ∧
      resp.resolve openWire = openResponse ∧
      ∃ out, responseApplySemantics openResponse none = (.ok, out) ∧
        out.keepAlive = true ∧ out.bodyMode = .eof) ∧
    ∃ req n, parseRequest codedWire none = (.ok, req, n) ∧
      req.resolve codedWire = codedRequest ∧
      ∃ out, requestApplySemantics codedRequest none = (.ok, out) ∧
        out.keepAlive = true ∧ out.version = .http10 ∧
        hasField out.headers "transfer-encoding" = true :=
  ⟨⟨{ Response.zero with
        version := .http11
        statusCode := 200
        reason := ⟨13, 2⟩
        headers := [⟨⟨17, 10⟩, ⟨29, 10⟩⟩] }, 43,
      by decide, by decide, _, kept_decided.1, rfl, rfl⟩,
    { Request.zero with
      method := .post
      methodStr := ⟨0, 4⟩
      path := ⟨5, 1⟩
      headers := [⟨⟨17, 17⟩, ⟨36, 7⟩⟩, ⟨⟨45, 10⟩, ⟨57, 10⟩⟩] }, 71,
    by decide, by decide, _, kept_decided.2.1, rfl, rfl, kept_decided.2.2⟩

end IoHttpParser
