import IoHttpParser.Proofs.HeaderFold

/-!
# The request decision

The request loop also reads Host and Expect. A request is accepted exactly when it is
acceptable, and is then the declared one.
-/

namespace IoHttpParser
open Memory CheckedFold

/-- The header conditions that the request loop checks. -/
@[mk_iff]
structure RequestFields (hs : List (Header Bytes)) : Prop where
  fields : WellFormedFields hs
  expect : ∀ v ∈ fieldValues hs "expect", trim isLws v ≠ []
  host_unique : (fieldValues hs "host").length ≤ 1
  host_nonempty : ∀ v ∈ fieldValues hs "host", v ≠ []

/-- The expectation after the headers `hs`. -/
def expectsContinueOf (hs : List (Header Bytes)) (before : Bool) : Bool :=
  ((fieldValues hs "expect").getLast?.map
    (fun v => decide (SameName (trim isLws v) (ascii "100-continue")))).getD before

/-- The loop variables of a request after the headers `hs`. -/
def requestLoopState (before : Bool) (hs : List (Header Bytes)) : Framing × Bool :=
  (.ofHeaders hs (hasField hs "host") (hasField hs "expect"), expectsContinueOf hs before)

section Step

variable {hs : List (Header Bytes)} {h : Header Bytes} {before : Bool} {s : Framing × Bool}

lemma ofHeaders_concat_host (hs : List (Header Bytes)) (hasHost hasExpect : Bool)
    (hn : SameName h.name (ascii "host") ∨ SameName h.name (ascii "expect")) :
    (WellFormedFields (hs ++ [h]) ↔ WellFormedFields hs) ∧
      Framing.ofHeaders (hs ++ [h]) hasHost hasExpect = .ofHeaders hs hasHost hasExpect := by
  rcases hn with hn | hn
  · apply ofHeaders_concat_of_not <;> exact hn.exclusive (by decide)
  · apply ofHeaders_concat_of_not <;> exact hn.exclusive (by decide)

lemma requestHeader_host (hn : SameName h.name (ascii "host")) (f : Framing) (e : Bool) :
    requestHeader (f, e) h = (f.onHost h.value).map (·, e) := by
  have hte : ¬SameName h.name (ascii "transfer-encoding") := hn.exclusive (by decide)
  have hcl : ¬SameName h.name (ascii "content-length") := hn.exclusive (by decide)
  have hco : ¬SameName h.name (ascii "connection") := hn.exclusive (by decide)
  have hup : ¬SameName h.name (ascii "upgrade") := hn.exclusive (by decide)
  simp only [requestHeader, headerNameEq_eq, decide_eq_true_eq, if_neg hte, if_neg hcl, if_neg hco,
    if_neg hup, if_pos hn]

lemma requestHeader_expect (hn : SameName h.name (ascii "expect")) (f : Framing) (e : Bool) :
    requestHeader (f, e) h =
      (parseExpectHeader h.value).map (({ f with hasExpect := true }, ·)) := by
  have hte : ¬SameName h.name (ascii "transfer-encoding") := hn.exclusive (by decide)
  have hcl : ¬SameName h.name (ascii "content-length") := hn.exclusive (by decide)
  have hco : ¬SameName h.name (ascii "connection") := hn.exclusive (by decide)
  have hup : ¬SameName h.name (ascii "upgrade") := hn.exclusive (by decide)
  have hho : ¬SameName h.name (ascii "host") := hn.exclusive (by decide)
  simp only [requestHeader, headerNameEq_eq, decide_eq_true_eq, if_neg hte, if_neg hcl, if_neg hco,
    if_neg hup, if_neg hho, if_pos hn]
  cases parseExpectHeader h.value <;> rfl

lemma requestHeader_shared (hho : ¬SameName h.name (ascii "host"))
    (hex : ¬SameName h.name (ascii "expect")) (f : Framing) (e : Bool) :
    requestHeader (f, e) h = (responseHeader f h).map (·, e) := by
  simp only [requestHeader, responseHeader, headerNameEq_eq, decide_eq_true_eq, if_neg hho,
    if_neg hex]
  split_ifs <;> rfl

lemma requestFields_concat_shared (hho : ¬SameName h.name (ascii "host"))
    (hex : ¬SameName h.name (ascii "expect")) (hr : RequestFields hs) :
    RequestFields (hs ++ [h]) ↔ WellFormedFields (hs ++ [h]) := by
  constructor
  · exact RequestFields.fields
  · intro hw
    refine ⟨hw, ?_, ?_, ?_⟩
    · rw [fieldValues_concat_of_not hex]
      exact hr.expect
    · rw [fieldValues_concat_of_not hho]
      exact hr.host_unique
    · rw [fieldValues_concat_of_not hho]
      exact hr.host_nonempty

lemma requestFields_concat_host (hn : SameName h.name (ascii "host")) (hr : RequestFields hs) :
    RequestFields (hs ++ [h]) ↔ hasField hs "host" = false ∧ h.value ≠ [] := by
  have hhost := fieldValues_concat_of hn hs
  have hexpect := fieldValues_concat_of_not (hn.exclusive (c := ascii "expect") (by decide)) hs
  have hlen : (fieldValues hs "host").length = 0 ↔ hasField hs "host" = false := by
    rw [List.length_eq_zero_iff, hasField, Bool.not_eq_false', List.isEmpty_iff]
  constructor
  · intro hr'
    have hone := hr'.host_unique
    have hne := hr'.host_nonempty h.value
    rw [hhost] at hone hne
    rw [List.length_append, List.length_singleton] at hone
    exact ⟨hlen.mp (by omega), hne (by simp)⟩
  · rintro ⟨hnone, hne⟩
    refine ⟨(ofHeaders_concat_host hs false false (.inl hn)).1.mpr
      hr.fields, ?_, ?_, ?_⟩
    · rw [hexpect]
      exact hr.expect
    · rw [hhost, List.length_append, hlen.mpr hnone, List.length_singleton]
    · rw [hhost, List.forall_mem_append, List.forall_mem_singleton]
      exact ⟨hr.host_nonempty, hne⟩

lemma requestFields_concat_expect (hn : SameName h.name (ascii "expect"))
    (hr : RequestFields hs) : RequestFields (hs ++ [h]) ↔ trim isLws h.value ≠ [] := by
  have hexpect := fieldValues_concat_of hn hs
  have hhost := fieldValues_concat_of_not (hn.exclusive (c := ascii "host") (by decide)) hs
  constructor
  · intro hr'
    have hne := hr'.expect h.value
    rw [hexpect] at hne
    exact hne (by simp)
  · intro hne
    refine ⟨(ofHeaders_concat_host hs false false (.inr hn)).1.mpr
      hr.fields, ?_, ?_, ?_⟩
    · rw [hexpect, List.forall_mem_append, List.forall_mem_singleton]
      exact ⟨hr.expect, hne⟩
    · rw [hhost]
      exact hr.host_unique
    · rw [hhost]
      exact hr.host_nonempty

lemma requestLoopState_host (hn : SameName h.name (ascii "host")) :
    requestLoopState before (hs ++ [h]) =
      ({ (requestLoopState before hs).1 with hasHost := true }, expectsContinueOf hs before) := by
  rw [requestLoopState, (ofHeaders_concat_host _ _ _ (.inl hn)).2]
  simp +decide [requestLoopState, Framing.ofHeaders, hasField, expectsContinueOf,
    fieldValues_concat hn]

lemma requestLoopState_expect (hn : SameName h.name (ascii "expect")) :
    requestLoopState before (hs ++ [h]) =
      ({ (requestLoopState before hs).1 with hasExpect := true },
        decide (SameName (trim isLws h.value) (ascii "100-continue"))) := by
  rw [requestLoopState, (ofHeaders_concat_host _ _ _ (.inr hn)).2]
  simp +decide [requestLoopState, Framing.ofHeaders, hasField, expectsContinueOf,
    fieldValues_concat hn]

lemma requestHeader_iff (hr : RequestFields hs) :
    requestHeader (requestLoopState before hs) h = some s ↔
      RequestFields (hs ++ [h]) ∧ s = requestLoopState before (hs ++ [h]) := by
  by_cases hho : SameName h.name (ascii "host")
  · rw [requestFields_concat_host hho hr, requestLoopState_host hho, requestLoopState,
      requestHeader_host hho, Framing.onHost]
    have hflag : (Framing.ofHeaders hs (hasField hs "host") (hasField hs "expect")).hasHost =
        hasField hs "host" := rfl
    rw [hflag]
    have hempty : (h.value.length == 0) = true ↔ h.value = [] := by simp
    by_cases hrefused : (hasField hs "host" || h.value.length == 0) = true
    · have hno : ¬(hasField hs "host" = false ∧ h.value ≠ []) := by
        rw [Bool.or_eq_true, hempty] at hrefused
        rintro ⟨hnone, hne⟩
        rw [hnone] at hrefused
        exact hrefused.elim nofun hne
      simp [hrefused, hno]
    · have hyes : hasField hs "host" = false ∧ h.value ≠ [] := by
        rw [Bool.or_eq_true, hempty, not_or, Bool.not_eq_true] at hrefused
        exact hrefused
      rw [if_neg hrefused, Option.map_some, Option.some.injEq, and_iff_right hyes]
      exact eq_comm
  by_cases hex : SameName h.name (ascii "expect")
  · rw [requestFields_concat_expect hex hr, requestLoopState_expect hex, requestLoopState,
      requestHeader_expect hex, Option.map_eq_some_iff]
    constructor
    · rintro ⟨e, he, rfl⟩
      obtain ⟨hne, rfl⟩ := parseExpectHeader_iff.mp he
      exact ⟨hne, rfl⟩
    · rintro ⟨hne, rfl⟩
      exact ⟨_, parseExpectHeader_iff.mpr ⟨hne, rfl⟩, rfl⟩
  rw [requestFields_concat_shared hho hex hr, requestLoopState, requestHeader_shared hho hex,
    Option.map_eq_some_iff, requestLoopState, expectsContinueOf, expectsContinueOf, hasField,
    hasField, hasField, hasField, fieldValues_concat_of_not hho, fieldValues_concat_of_not hex]
  constructor
  · rintro ⟨f, hf, rfl⟩
    obtain ⟨hw, rfl⟩ := (responseHeader_iff hr.fields).mp hf
    exact ⟨hw, rfl⟩
  · rintro ⟨hw, rfl⟩
    exact ⟨_, (responseHeader_iff hr.fields).mpr ⟨hw, rfl⟩, rfl⟩

end Step

lemma RequestFields.of_append {hs hs' : List (Header Bytes)} (h : RequestFields (hs ++ hs')) :
    RequestFields hs where
  fields := h.fields.of_append
  expect v hv := h.expect v (fieldValues_subset_append _ _ _ hv)
  host_unique := by
    have hlen := h.host_unique
    rw [fieldValues_append, List.length_append] at hlen
    omega
  host_nonempty v hv := h.host_nonempty v (fieldValues_subset_append _ _ _ hv)

lemma requestFields_nil : RequestFields [] :=
  ⟨wellFormedFields_nil, nofun, Nat.zero_le 1, nofun⟩

/-- The request loop reads well-formed fields to the end, and no others. -/
theorem requestLoop_iff {hs : List (Header Bytes)} {before : Bool} {s : Framing × Bool} :
    headersLoop requestHeader (.init, before) hs = .ok s ↔
      RequestFields hs ∧ s = requestLoopState before hs := by
  rw [headersLoop_ok_iff]
  exact foldlM_iff_of_concat (requestLoopState before) requestFields_nil
    (fun _ _ h => h.of_append) (fun _ _ _ hr => requestHeader_iff hr) hs s

/-- The checks on the loop variables of a request. -/
structure Framing.Consistent (f : Framing) (policy : Policy) (version : HttpVersion) : Prop where
  no_te_cl : ¬(f.hasTe && f.hasCl && policy.rejectTeCl) = true
  host : ¬(version == .http11 && !f.hasHost) = true
  chunked_once : ¬f.chunkedCount > 1
  chunked_last : ¬(f.hasTe && !f.chunked) = true
  trailer : f.hasTrailer = true → f.hasTe = true

/-- What the loop variables decide about a request. -/
def Framing.decideRequest (f : Framing) (expectsContinue : Bool) (req : Request Bytes) :
    Request Bytes :=
  { req with
    bodyMode := if f.hasTe then .chunked else if f.hasCl then .fixed else .none
    contentLength := if !f.hasTe && f.hasCl then f.contentLength else req.contentLength
    keepAlive :=
      if f.connection.close then false
      else if f.connection.keepAlive then true
      else req.version == .http11
    protocolUpgrade := f.hasUpgrade && f.connection.upgrade
    expectsContinue := f.hasExpect && expectsContinue
    hasTrailerFields := f.hasTrailer }

lemma requestApplySemantics_eq {req : Request Bytes} {policy : Option Policy} {f : Framing}
    {e : Bool} (hloop : headersLoop requestHeader (.init, req.expectsContinue) req.headers =
      .ok (f, e)) :
    requestApplySemantics req policy =
      f.requestOutcome (resolvePolicy policy) { req with expectsContinue := e } := by
  rw [requestApplySemantics, hloop]

lemma Framing.requestConnection_eq (f : Framing) (req : Request Bytes) :
    f.requestConnection req = { req with
      keepAlive :=
        if f.connection.close then false
        else if f.connection.keepAlive then true
        else req.keepAlive } := by
  rw [requestConnection]
  split_ifs <;> rfl

lemma Framing.requestBodyMode_eq (f : Framing) (req : Request Bytes)
    (h : ¬(f.hasTe && !f.chunked) = true) :
    f.requestBodyMode req = { req with
      bodyMode := if f.hasTe then .chunked else if f.hasCl then .fixed else .none
      contentLength := if !f.hasTe && f.hasCl then f.contentLength else req.contentLength } := by
  have hte : (f.hasTe && f.chunked) = f.hasTe := by
    cases hte : f.hasTe with
    | false => rfl
    | true => simpa [hte] using h
  rw [requestBodyMode, hte]
  cases f.hasTe <;> cases f.hasCl <;> rfl

lemma Framing.requestPersistence_eq (f : Framing) (req : Request Bytes) :
    f.requestPersistence req = { req with
      keepAlive :=
        if !(f.connection.close || f.connection.keepAlive) then req.version == .http11
        else req.keepAlive
      protocolUpgrade := f.hasUpgrade && f.connection.upgrade
      expectsContinue := f.hasExpect && req.expectsContinue
      hasTrailerFields := f.hasTrailer } := by
  rw [requestPersistence]
  cases f.hasExpect <;> cases f.connection.close || f.connection.keepAlive <;>
    cases req.version <;> rfl

lemma requestApplySemantics_of_loop {req out : Request Bytes} {policy : Option Policy} {f : Framing}
    {e : Bool} (hloop : headersLoop requestHeader (.init, req.expectsContinue) req.headers =
      .ok (f, e)) :
    requestApplySemantics req policy = (.ok, out) ↔
      f.Consistent (resolvePolicy policy) req.version ∧ out = f.decideRequest e req := by
  rw [requestApplySemantics_eq hloop, Framing.requestOutcome]
  dsimp only
  by_cases hteCl : (f.hasTe && f.hasCl && (resolvePolicy policy).rejectTeCl) = true
  · rw [if_pos hteCl]
    exact ⟨nofun, fun h => absurd hteCl h.1.no_te_cl⟩
  rw [if_neg hteCl]
  by_cases hhost : (req.version == .http11 && !f.hasHost) = true
  · rw [if_pos hhost]
    exact ⟨nofun, fun h => absurd hhost h.1.host⟩
  rw [if_neg hhost]
  by_cases hcount : f.chunkedCount > 1
  · rw [if_pos hcount]
    exact ⟨nofun, fun h => absurd hcount h.1.chunked_once⟩
  rw [if_neg hcount]
  by_cases hlast : (f.hasTe && !f.chunked) = true
  · rw [if_pos hlast]
    exact ⟨nofun, fun h => absurd hlast h.1.chunked_last⟩
  rw [if_neg hlast, f.requestBodyMode_eq _ hlast]
  have htrailer : (f.hasTrailer && (if f.hasTe then BodyMode.chunked
      else if f.hasCl then .fixed else .none) != .chunked) = true ↔
      ¬(f.hasTrailer = true → f.hasTe = true) := by
    cases f.hasTrailer <;> cases f.hasTe <;> cases f.hasCl <;> decide
  by_cases htr : f.hasTrailer = true → f.hasTe = true
  · rw [if_neg (fun h => htrailer.mp h htr), and_iff_right ⟨hteCl, hhost, hcount, hlast, htr⟩,
      Prod.mk.injEq, and_iff_right rfl, Framing.requestPersistence_eq, Framing.requestConnection_eq,
      Framing.decideRequest]
    cases f.connection.close <;> cases f.connection.keepAlive <;> exact eq_comm
  · rw [if_pos (htrailer.mpr htr)]
    exact ⟨nofun, fun h => absurd h.1.trailer htr⟩

lemma chunked_iff (hs : List (Header Bytes)) :
    ((hasField hs "transfer-encoding" = true → (transferCodings hs).countP IsChunked = 1) ∧
      ∀ e, (transferCodings hs).getLast? = some e → IsChunked e) ↔
    ¬(transferCodings hs).countP IsChunked > 1 ∧
      ¬(hasField hs "transfer-encoding" &&
        !(transferCodings hs).getLast?.any (fun e => IsChunked e)) = true := by
  cases hte : hasField hs "transfer-encoding" with
  | false =>
    rw [transferCodings_eq_nil hte]
    simp
  | true =>
    obtain ⟨e, he⟩ := exists_getLast?_transferCodings hte
    have hpos : IsChunked e → 0 < (transferCodings hs).countP IsChunked := fun hc =>
      List.countP_pos_iff.mpr ⟨e, List.mem_of_getLast? he, by simpa using hc⟩
    simp only [he, Option.some.injEq, forall_eq', Option.any_some, Bool.true_and, forall_const,
      Bool.not_eq_true', decide_eq_false_iff_not, not_not, gt_iff_lt, not_lt]
    constructor
    · rintro ⟨hone, hc⟩
      exact ⟨hone.le, hc⟩
    · rintro ⟨hle, hc⟩
      have hlt := hpos hc
      exact ⟨by omega, hc⟩

lemma not_te_cl_iff (te cl reject : Bool) : ¬(te && cl && reject) = true ↔
    (reject = true → te = true → cl = false) := by
  revert te cl reject
  decide

lemma not_missing_host_iff (version : HttpVersion) (host : Bool) :
    ¬(version == .http11 && !host) = true ↔ (version = .http11 → host = true) := by
  cases version <;> cases host <;> decide

lemma acceptableRequest_iff_consistent {policy : Policy} {req : Request Bytes} (before : Bool) :
    AcceptableRequest policy req ↔ RequestFields req.headers ∧
      (requestLoopState before req.headers).1.Consistent policy req.version := by
  have hchunked := chunked_iff req.headers
  constructor
  · intro h
    obtain ⟨hcount, hlast⟩ := hchunked.mp ⟨h.chunked_once, h.chunked_last⟩
    exact ⟨⟨h.fields, h.expect, h.host_unique, h.host_nonempty⟩,
      (not_te_cl_iff _ _ _).mpr h.no_te_cl, (not_missing_host_iff _ _).mpr h.host_present,
      hcount, hlast, h.trailer_chunked⟩
  · rintro ⟨hr, hc⟩
    obtain ⟨honce, hlast⟩ := hchunked.mpr ⟨hc.chunked_once, hc.chunked_last⟩
    exact ⟨hr.fields, hr.expect, hr.host_unique, hr.host_nonempty,
      (not_missing_host_iff _ _).mp hc.host, honce, hlast, (not_te_cl_iff _ _ _).mp hc.no_te_cl,
      hc.trailer⟩

lemma decideRequest_ofHeaders (req : Request Bytes) :
    (requestLoopState req.expectsContinue req.headers).1.decideRequest
      (requestLoopState req.expectsContinue req.headers).2 req = declaredRequest req := by
  have hexpect : (hasField req.headers "expect" &&
      expectsContinueOf req.headers req.expectsContinue) =
      (fieldValues req.headers "expect").getLast?.any
        (fun v => SameName (trim isLws v) (ascii "100-continue")) := by
    rw [hasField, expectsContinueOf]
    rcases List.eq_nil_or_concat (fieldValues req.headers "expect") with hnil | ⟨l, v, hl⟩
    · rw [hnil]
      rfl
    · rw [hl, List.concat_eq_append, List.getLast?_concat]
      simp
  rw [declaredRequest, ← hexpect]
  rfl

/-- What is accepted, and with which outputs, in terms of the loop variables. -/
lemma requestApplySemantics_ok_iff {req out : Request Bytes} {policy : Option Policy} :
    requestApplySemantics req policy = (.ok, out) ↔
      let s := requestLoopState req.expectsContinue req.headers
      RequestFields req.headers ∧ s.1.Consistent (resolvePolicy policy) req.version ∧
        out = s.1.decideRequest s.2 req := by
  cases hloop : headersLoop requestHeader (.init, req.expectsContinue) req.headers with
  | error s =>
    have hno : ¬RequestFields req.headers := by
      intro hr
      have hok : headersLoop requestHeader (.init, req.expectsContinue) req.headers =
        .ok (requestLoopState req.expectsContinue req.headers) := requestLoop_iff.mpr ⟨hr, rfl⟩
      rw [hloop] at hok
      exact absurd hok nofun
    rw [requestApplySemantics, hloop]
    exact ⟨nofun, fun h => absurd h.1 hno⟩
  | ok s =>
    obtain ⟨hr, rfl⟩ := requestLoop_iff.mp hloop
    rw [requestApplySemantics_of_loop hloop]
    exact (and_iff_right hr).symm

lemma requestApplySemantics_status (req : Request Bytes) (policy : Option Policy) :
    (requestApplySemantics req policy).1 = .ok ∨ (requestApplySemantics req policy).1 = .error := by
  cases hloop : headersLoop requestHeader (.init, req.expectsContinue) req.headers with
  | error s =>
    rw [requestApplySemantics, hloop]
    exact .inr rfl
  | ok s =>
    rw [requestApplySemantics_eq hloop, Framing.requestOutcome]
    dsimp only
    split_ifs <;> simp

/-- The decision is the declared one: what is accepted, and with which outputs. -/
theorem requestApplySemantics_iff (req out : Request Bytes) (policy : Option Policy) :
    requestApplySemantics req policy = (.ok, out) ↔
      AcceptableRequest (resolvePolicy policy) req ∧ out = declaredRequest req := by
  rw [requestApplySemantics_ok_iff, acceptableRequest_iff_consistent req.expectsContinue,
    ← decideRequest_ofHeaders, and_assoc]

end IoHttpParser
