import IoHttpParser.Proofs.Persistence

/-!
# Protocol upgrades

The connection is handed over when the upgrade option is listed and an Upgrade field is there. The
token scan accepts the empty string, so the field need not name a protocol.
-/

namespace IoHttpParser
open Memory

section Upgrade

variable {hs : List (Header Bytes)} {switches : Prop}

lemma hasField_iff {name : String} : hasField hs name = true ↔ ∃ v, v ∈ fieldValues hs name := by
  rw [hasField, Bool.not_eq_true', List.isEmpty_eq_false_iff_exists_mem]

/-- Among fields of token characters, one that is not empty names a protocol. -/
lemma exists_named_iff (hw : WellFormedFields hs) :
    (∃ v ∈ fieldValues hs "upgrade", IsToken v) ↔ ∃ v ∈ fieldValues hs "upgrade", v ≠ [] := by
  constructor
  · rintro ⟨v, hv, htoken⟩
    exact ⟨v, hv, htoken.nonempty⟩
  · rintro ⟨v, hv, hne⟩
    exact ⟨v, hv, hne, hw.upgrade v hv⟩

variable (switches) in
/-- The flag says what the message says unless all of its Upgrade fields are empty. -/
lemma explicit_iff_not_empty (hw : WellFormedFields hs) :
    ((hasField hs "upgrade" = true ∧ hasOption hs "upgrade" = true ∧ switches) ↔
        ExplicitUpgrade hs ∧ switches) ↔
      ¬((hasOption hs "upgrade" = true ∧ switches) ∧ EmptyUpgrade hs) := by
  constructor
  · rintro h ⟨⟨hlisted, hswitch⟩, hempty⟩
    obtain ⟨⟨-, hnamed⟩, -⟩ := h.mp ⟨hempty.present, hlisted, hswitch⟩
    obtain ⟨v, hv, hne⟩ := (exists_named_iff hw).mp hnamed
    exact hne (hempty.empty v hv)
  · intro h
    constructor
    · rintro ⟨hpresent, hlisted, hswitch⟩
      refine ⟨⟨hlisted, (exists_named_iff hw).mpr ?_⟩, hswitch⟩
      by_contra hno
      refine h ⟨⟨hlisted, hswitch⟩, hpresent, fun v hv => ?_⟩
      by_contra hne
      exact hno ⟨v, hv, hne⟩
    · rintro ⟨⟨hlisted, v, hv, -⟩, hswitch⟩
      exact ⟨hasField_iff.mpr ⟨v, hv⟩, hlisted, hswitch⟩

end Upgrade

/-- An accepted message has the flag exactly when it upgrades explicitly, unless all the Upgrade
fields of a message that lists the option are empty. A response must be a 101 without the close
option besides. -/
theorem protocolUpgrade_explicit_iff (policy : Option Policy) :
    (∀ req out : Request Bytes, requestApplySemantics req policy = (.ok, out) →
      ((out.protocolUpgrade = true ↔ ExplicitUpgrade req.headers) ↔
        ¬(hasOption req.headers "upgrade" = true ∧ EmptyUpgrade req.headers))) ∧
    ∀ resp out : Response Bytes, responseApplySemantics resp policy = (.ok, out) →
      ((out.protocolUpgrade = true ↔ ExplicitUpgrade resp.headers ∧
          resp.statusCode = 101 ∧ hasOption resp.headers "close" = false) ↔
        ¬((hasOption resp.headers "upgrade" = true ∧
          resp.statusCode = 101 ∧ hasOption resp.headers "close" = false) ∧
            EmptyUpgrade resp.headers)) := by
  constructor
  · intro req out hok
    obtain ⟨hfields, -, rfl⟩ := requestApplySemantics_ok_iff.mp hok
    have hflag : ((requestLoopState req.expectsContinue req.headers).1.decideRequest
        (requestLoopState req.expectsContinue req.headers).2 req).protocolUpgrade =
          (hasField req.headers "upgrade" && hasOption req.headers "upgrade") := rfl
    have h := explicit_iff_not_empty True hfields.fields
    simp only [and_true] at h
    rw [hflag, Bool.and_eq_true]
    exact h
  · intro resp out hok
    obtain ⟨ha, rfl⟩ := responseApplySemantics_acceptable.mp hok
    have hflag : ((Framing.ofHeaders resp.headers false false).decideResponse
        resp).protocolUpgrade = switchesProtocols resp := rfl
    have hswitch : switchesProtocols resp = true ↔ hasField resp.headers "upgrade" = true ∧
        hasOption resp.headers "upgrade" = true ∧
          resp.statusCode = 101 ∧ hasOption resp.headers "close" = false := by
      rw [switchesProtocols, Bool.and_eq_true, Bool.and_eq_true, Bool.and_eq_true, beq_iff_eq,
        Bool.not_eq_true']
      tauto
    rw [hflag, hswitch]
    exact explicit_iff_not_empty _ ha.fields

/-- A request to switch to `protocol`. -/
def upgradeRequest (protocol : Bytes) : Request Bytes :=
  { Request.zero.resolve [] with
    method := .get
    methodStr := ascii "GET"
    path := ascii "/"
    version := .http11
    headers := [⟨ascii "Host", ascii "a"⟩, ⟨ascii "Connection", ascii "keep-alive, Upgrade"⟩,
      ⟨ascii "Upgrade", protocol⟩] }

/-- The response that switches to it. -/
def upgradeResponse (protocol : Bytes) : Response Bytes :=
  { Response.zero.resolve [] with
    version := .http11
    statusCode := 101
    headers := [⟨ascii "Connection", ascii "Upgrade"⟩, ⟨ascii "Upgrade", protocol⟩] }

lemma upgrade_fieldValues (protocol : Bytes) :
    fieldValues (upgradeRequest protocol).headers "upgrade" = [protocol] ∧
      fieldValues (upgradeResponse protocol).headers "upgrade" = [protocol] := ⟨rfl, rfl⟩

lemma websocket_decided :
    requestApplySemantics (upgradeRequest (ascii "websocket")) none =
      (.ok, { upgradeRequest (ascii "websocket") with keepAlive := true, protocolUpgrade := true }) ∧
    responseApplySemantics (upgradeResponse (ascii "websocket")) none =
      (.ok, { upgradeResponse (ascii "websocket") with bodyMode := .none, protocolUpgrade := true }) := by
  decide

theorem protocolUpgrade_explicit_websocket :
    ExplicitUpgrade (upgradeRequest (ascii "websocket")).headers ∧
      ExplicitUpgrade (upgradeResponse (ascii "websocket")).headers := by
  obtain ⟨hrequest, hresponse⟩ := protocolUpgrade_explicit_iff none
  obtain ⟨hreqValues, hrespValues⟩ := upgrade_fieldValues (ascii "websocket")
  have hreq := (hrequest _ _ websocket_decided.1).mpr fun h => by
    have hempty := h.2.empty (ascii "websocket") (by rw [hreqValues]; exact List.mem_singleton_self _)
    cases hempty
  have hresp := (hresponse _ _ websocket_decided.2).mpr fun h => by
    have hempty := h.2.empty (ascii "websocket") (by rw [hrespValues]; exact List.mem_singleton_self _)
    cases hempty
  exact ⟨hreq.mp rfl, (hresp.mp rfl).1⟩

/-- A request whose Upgrade field is empty. -/
def namelessWire : Bytes :=
  ascii "GET / HTTP/1.1\r\nHost: a\r\nConnection: keep-alive, Upgrade\r\nUpgrade:\r\n\r\n"

lemma nameless_decided :
    requestApplySemantics (upgradeRequest []) none =
      (.ok, { upgradeRequest [] with keepAlive := true, protocolUpgrade := true }) ∧
    responseApplySemantics (upgradeResponse []) none =
      (.ok, { upgradeResponse [] with bodyMode := .none, protocolUpgrade := true }) := by
  decide

/-- Messages whose Upgrade field is empty are accepted with the flag. -/
theorem nameless_upgrade :
    (∃ req n, parseRequest namelessWire none = (.ok, req, n) ∧
      req.resolve namelessWire = upgradeRequest [] ∧
      ∃ out, requestApplySemantics (upgradeRequest []) none = (.ok, out) ∧
        out.protocolUpgrade = true ∧ ¬ExplicitUpgrade (upgradeRequest []).headers) ∧
    ∃ out, responseApplySemantics (upgradeResponse []) none = (.ok, out) ∧
      out.protocolUpgrade = true ∧ ¬ExplicitUpgrade (upgradeResponse []).headers := by
  obtain ⟨hreqValues, hrespValues⟩ := upgrade_fieldValues []
  have hno {hs : List (Header Bytes)} (hvalues : fieldValues hs "upgrade" = [[]]) :
      ¬ExplicitUpgrade hs := by
    rintro ⟨-, v, hv, htoken⟩
    rw [hvalues] at hv
    exact htoken.nonempty (List.mem_singleton.mp hv)
  refine ⟨⟨{ Request.zero with
    method := .get
    methodStr := ⟨0, 3⟩
    path := ⟨4, 1⟩
    version := .http11
    headers := [⟨⟨16, 4⟩, ⟨22, 1⟩⟩, ⟨⟨25, 10⟩, ⟨37, 19⟩⟩, ⟨⟨58, 7⟩, ⟨66, 0⟩⟩] }, 70,
      by decide, by decide, _, nameless_decided.1, rfl, hno hreqValues⟩,
    _, nameless_decided.2, rfl, hno hrespValues⟩

end IoHttpParser
