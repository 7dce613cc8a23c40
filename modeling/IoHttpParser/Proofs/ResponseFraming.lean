import IoHttpParser.Proofs.HeaderFold

/-!
# The response decision

A non-chunked Transfer-Encoding does not override Content-Length: with both, the body of an
accepted response has a fixed length.
-/

namespace IoHttpParser
open Memory

/-- The body that the loop variables decide for a response. -/
def Framing.responseBody (f : Framing) (statusCode : Nat) : BodyMode :=
  if bodyless statusCode then .none
  else if f.hasTe && f.chunked then .chunked
  else if f.hasCl then .fixed
  else .eof

/-- The connection switches protocols. -/
def Framing.responseUpgrade (f : Framing) (statusCode : Nat) : Bool :=
  statusCode == 101 && f.hasUpgrade && f.connection.upgrade && !f.connection.close

/-- What the loop variables decide about a response. -/
def Framing.decideResponse (f : Framing) (resp : Response Bytes) : Response Bytes :=
  { resp with
    bodyMode := f.responseBody resp.statusCode
    contentLength :=
      if f.responseBody resp.statusCode = .fixed then f.contentLength else resp.contentLength
    keepAlive :=
      if f.connection.close || f.responseUpgrade resp.statusCode then false
      else if f.connection.keepAlive then true
      else if resp.version == .http11 && f.responseBody resp.statusCode != .eof then true
      else resp.keepAlive
    protocolUpgrade := f.responseUpgrade resp.statusCode
    hasTrailerFields := f.hasTrailer }

lemma responseApplySemantics_eq {resp : Response Bytes} {policy : Option Policy} {f : Framing}
    (hloop : headersLoop responseHeader .init resp.headers = .ok f) :
    responseApplySemantics resp policy = f.responseOutcome (resolvePolicy policy) resp := by
  rw [responseApplySemantics, hloop]

lemma Framing.responseConnection_eq (f : Framing) (resp : Response Bytes) :
    f.responseConnection resp = { resp with
      keepAlive :=
        if f.connection.close then false
        else if f.connection.keepAlive then true
        else resp.keepAlive } := by
  rw [responseConnection]
  split_ifs <;> rfl

lemma Framing.responseBodyMode_eq (f : Framing) (resp : Response Bytes) :
    f.responseBodyMode resp = { resp with
      bodyMode := f.responseBody resp.statusCode
      contentLength :=
        if f.responseBody resp.statusCode = .fixed then f.contentLength
        else resp.contentLength } := by
  rw [responseBodyMode, responseBody, bodyless]
  split_ifs <;> simp_all

lemma Framing.responsePersistence_eq (f : Framing) (resp : Response Bytes) :
    f.responsePersistence resp = { resp with
      keepAlive :=
        if f.responseUpgrade resp.statusCode then false
        else if !(f.connection.close || f.connection.keepAlive) && resp.version == .http11 &&
          resp.bodyMode != .eof then true
        else resp.keepAlive
      protocolUpgrade := f.responseUpgrade resp.statusCode
      hasTrailerFields := f.hasTrailer } := by
  rw [responsePersistence, responseUpgrade]
  cases resp.statusCode == 101 && f.hasUpgrade && f.connection.upgrade && !f.connection.close with
  | false =>
    simp only [Bool.false_eq_true, if_false, Bool.or_false]
    split_ifs <;> rfl
  | true => simp

lemma Framing.bodyMode_responseBodyMode (f : Framing) (resp : Response Bytes) :
    (f.responseBodyMode (f.responseConnection resp)).bodyMode =
      f.responseBody resp.statusCode := by
  rw [responseBodyMode_eq, responseConnection_eq]

/-- The checks on the loop variables of a response. -/
structure Framing.ResponseConsistent (f : Framing) (policy : Policy) (statusCode : Nat) : Prop where
  no_te_cl : ¬(f.hasTe && f.hasCl && policy.rejectTeCl) = true
  chunked_once : ¬f.chunkedCount > 1
  trailer : ¬(f.hasTrailer && f.responseBody statusCode != .chunked) = true

lemma responseApplySemantics_of_loop {resp out : Response Bytes} {policy : Option Policy}
    {f : Framing} (hloop : headersLoop responseHeader .init resp.headers = .ok f) :
    responseApplySemantics resp policy = (.ok, out) ↔
      f.ResponseConsistent (resolvePolicy policy) resp.statusCode ∧
        out = f.decideResponse resp := by
  have hout : f.responsePersistence (f.responseBodyMode (f.responseConnection resp)) =
      f.decideResponse resp := by
    rw [Framing.responsePersistence_eq, Framing.responseBodyMode_eq, Framing.responseConnection_eq,
      Framing.decideResponse]
    cases f.connection.close <;> cases f.connection.keepAlive <;> simp
  rw [responseApplySemantics_eq hloop, Framing.responseOutcome]
  dsimp only
  rw [f.bodyMode_responseBodyMode, hout]
  by_cases hteCl : (f.hasTe && f.hasCl && (resolvePolicy policy).rejectTeCl) = true
  · rw [if_pos hteCl]
    exact ⟨nofun, fun h => absurd hteCl h.1.no_te_cl⟩
  rw [if_neg hteCl]
  by_cases hcount : f.chunkedCount > 1
  · rw [if_pos hcount]
    exact ⟨nofun, fun h => absurd hcount h.1.chunked_once⟩
  rw [if_neg hcount]
  by_cases htrailer : (f.hasTrailer && f.responseBody resp.statusCode != .chunked) = true
  · rw [if_pos htrailer]
    exact ⟨nofun, fun h => absurd htrailer h.1.trailer⟩
  rw [if_neg htrailer, and_iff_right ⟨hteCl, hcount, htrailer⟩, Prod.mk.injEq, and_iff_right rfl]
  exact eq_comm

lemma lastCoding_eq (hs : List (Header Bytes)) : lastCoding hs = (transferCodings hs).getLast? := by
  rw [lastCoding, transferCodings]
  rcases List.eq_nil_or_concat (fieldValues hs "transfer-encoding") with hnil | ⟨l, v, hl⟩
  · rw [hnil]
    rfl
  · have hv := List.getLast?_eq_some_getLast (listElements_ne_nil v)
    rw [hl, List.concat_eq_append, List.getLast?_concat, List.flatMap_append,
      List.flatMap_singleton, List.getLast?_append, hv]
    exact hv

lemma chunked_ofHeaders (hs : List (Header Bytes)) (hasHost hasExpect : Bool) :
    (Framing.ofHeaders hs hasHost hasExpect).chunked =
      (lastCoding hs).any (fun e => IsChunked e) := by
  rw [lastCoding_eq]
  rfl

lemma lastCoding_of_not_hasField {hs : List (Header Bytes)}
    (h : hasField hs "transfer-encoding" = false) : lastCoding hs = none := by
  rw [lastCoding_eq, transferCodings_eq_nil h]
  rfl

/-- What is accepted, and with which outputs, in terms of the loop variables. -/
lemma responseApplySemantics_ok_iff {resp out : Response Bytes} {policy : Option Policy} :
    responseApplySemantics resp policy = (.ok, out) ↔
      let f := Framing.ofHeaders resp.headers false false
      WellFormedFields resp.headers ∧
        f.ResponseConsistent (resolvePolicy policy) resp.statusCode ∧
          out = f.decideResponse resp := by
  cases hloop : headersLoop responseHeader .init resp.headers with
  | error f =>
    have hno : ¬WellFormedFields resp.headers := by
      intro hw
      have hok := responseLoop_iff.mpr ⟨hw, rfl⟩
      rw [hloop] at hok
      exact absurd hok nofun
    rw [responseApplySemantics, hloop]
    exact ⟨nofun, fun h => absurd h.1 hno⟩
  | ok f =>
    obtain ⟨hw, rfl⟩ := responseLoop_iff.mp hloop
    rw [responseApplySemantics_of_loop hloop]
    exact (and_iff_right hw).symm

lemma responseApplySemantics_status (resp : Response Bytes) (policy : Option Policy) :
    (responseApplySemantics resp policy).1 = .ok ∨
      (responseApplySemantics resp policy).1 = .error := by
  cases hloop : headersLoop responseHeader .init resp.headers with
  | error f =>
    rw [responseApplySemantics, hloop]
    exact .inr rfl
  | ok f =>
    rw [responseApplySemantics_eq hloop, Framing.responseOutcome]
    dsimp only
    split_ifs <;> simp

/-- The body of an accepted response follows the precedence exactly when its status has no
body, or no Content-Length meets a Transfer-Encoding that does not end in chunked. -/
theorem followsPrecedence_iff {resp out : Response Bytes} {policy : Option Policy}
    (h : responseApplySemantics resp policy = (.ok, out)) :
    FollowsPrecedence resp out ↔
      bodyless resp.statusCode = true ∨ hasField resp.headers "transfer-encoding" = false ∨
        (∃ e, lastCoding resp.headers = some e ∧ IsChunked e) ∨
        hasField resp.headers "content-length" = false := by
  obtain ⟨hw, -, rfl⟩ := responseApplySemantics_ok_iff.mp h
  have hmode : ((Framing.ofHeaders resp.headers false false).decideResponse resp).bodyMode =
      if bodyless resp.statusCode then .none
      else if hasField resp.headers "transfer-encoding" &&
        (lastCoding resp.headers).any (fun e => IsChunked e) then .chunked
      else if hasField resp.headers "content-length" then .fixed
      else .eof := by
    rw [← chunked_ofHeaders resp.headers false false]
    rfl
  have hchunked : (∃ e, lastCoding resp.headers = some e ∧ IsChunked e) ↔
      (lastCoding resp.headers).any (fun e => IsChunked e) = true := by
    simp only [Option.any_eq_true, decide_eq_true_eq]
  rw [hchunked, FollowsPrecedence, hmode]
  cases hbody : bodyless resp.statusCode with
  | true => simp
  | false =>
    cases hte : hasField resp.headers "transfer-encoding" with
    | true =>
      cases (lastCoding resp.headers).any (fun e => IsChunked e) <;>
        cases hasField resp.headers "content-length" <;> simp
    | false =>
      cases hcl : hasField resp.headers "content-length" with
      | false => simp
      | true =>
        have hfixed : (Framing.ofHeaders resp.headers false false).responseBody resp.statusCode =
            .fixed := by
          simp [Framing.responseBody, Framing.ofHeaders, hbody, hte, hcl]
        have hlength (v : Bytes) (hv : v ∈ fieldValues resp.headers "content-length") :
            ((Framing.ofHeaders resp.headers false false).decideResponse resp).contentLength =
              decimalValue v := by
          rw [Framing.decideResponse, if_pos hfixed]
          exact contentLengthOf_eq hw hv
        simpa using hlength

/-- A response with status 200, one transfer coding and five declared bytes. -/
def codedWithLength (coding : String) : Response Bytes :=
  { version := .http11, statusCode := 200, reason := ascii "OK",
    headers := [⟨ascii "Transfer-Encoding", ascii coding⟩, ⟨ascii "Content-Length", ascii "5"⟩],
    bodyMode := .none, contentLength := 0, keepAlive := false, protocolUpgrade := false,
    hasTrailerFields := false }

theorem followsPrecedence_chunked : FollowsPrecedence (codedWithLength "chunked")
    (responseApplySemantics (codedWithLength "chunked") (some .lenient)).2 :=
  have hok : responseApplySemantics (codedWithLength "chunked") (some .lenient) =
    (.ok, (responseApplySemantics (codedWithLength "chunked") (some .lenient)).2) := by
    decide
  (followsPrecedence_iff hok).mpr
    (.inr (.inr (.inl ⟨ascii "chunked", by decide, by decide⟩)))

/-- The lenient policy reads five bytes of a gzip body that ends with the connection. -/
theorem gzip_not_followsPrecedence : ∃ out,
    responseApplySemantics (codedWithLength "gzip") (some .lenient) = (.ok, out) ∧
      out.bodyMode = .fixed ∧ out.contentLength = 5 ∧
        ¬FollowsPrecedence (codedWithLength "gzip") out := by
  refine ⟨(responseApplySemantics (codedWithLength "gzip") (some .lenient)).2,
    by decide, by decide, by decide, ?_⟩
  have hbody : bodyless (codedWithLength "gzip").statusCode = false := rfl
  have hte : hasField (codedWithLength "gzip").headers "transfer-encoding" = true := by
    decide
  have hchunked : (lastCoding (codedWithLength "gzip").headers).any (fun e => IsChunked e) =
      false := by decide
  have hmode : (responseApplySemantics (codedWithLength "gzip") (some .lenient)).2.bodyMode =
      .fixed := by decide
  simp [FollowsPrecedence, hbody, hte, hchunked, hmode]

end IoHttpParser
