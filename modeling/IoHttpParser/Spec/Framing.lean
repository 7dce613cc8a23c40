import IoHttpParser.Model.Semantics
import IoHttpParser.Spec.Grammar
import Mathlib.Tactic.MkIffOfInductiveProp

/-!
# Framing and persistence, declared

Which requests are acceptable and what is decided about them, stated on the values of each
header field without regard to the order in which the fields come.
-/

namespace IoHttpParser
open Memory

/-- Equality up to ASCII case. -/
def SameName (a b : Bytes) : Prop := a.map asciiLower = b.map asciiLower

instance (a b : Bytes) : Decidable (SameName a b) :=
  inferInstanceAs (Decidable (a.map asciiLower = b.map asciiLower))

/-- The values of the fields of one name, in order. -/
def fieldValues (hs : List (Header Bytes)) (name : String) : List Bytes :=
  (hs.filter (fun h => SameName h.name (ascii name))).map Header.value

/-- The trimmed elements of a comma list. -/
def listElements (value : Bytes) : List Bytes := (value.splitOn comma).map (trim isLws)

/-- A comma list of tokens. -/
def IsTokenList (value : Bytes) : Prop := ∀ e ∈ listElements value, IsToken e

/-- The name of a transfer coding, without its parameters. -/
def codingName (e : Bytes) : Bytes := (e.takeWhile (· != semicolon)).rdropWhile isLws

/-- The coding is chunked. -/
def IsChunked (e : Bytes) : Prop := SameName (codingName e) (ascii "chunked")

instance : DecidablePred IsChunked := fun e =>
  inferInstanceAs (Decidable (SameName (codingName e) _))

/-- A transfer coding with optional parameters, which chunked does not take. -/
structure IsCoding (e : Bytes) : Prop where
  name : IsToken (codingName e)
  no_params : IsChunked e → semicolon ∉ e

/-- The transfer codings of a message, over all its fields. -/
def transferCodings (hs : List (Header Bytes)) : List Bytes :=
  (fieldValues hs "transfer-encoding").flatMap listElements

/-- The number that decimal digits spell behind the digits of `n`. -/
def decimalFrom (n : Nat) (digits : Bytes) : Nat :=
  digits.foldl (fun n c => n * 10 + (c.toNat - 0x30)) n

/-- The number that decimal digits spell. -/
def decimalValue (digits : Bytes) : Nat := decimalFrom 0 digits

/-- The digits of a value, the last one first. -/
def digitsOf (value : Bytes) : List Nat := value.reverse.map (fun c => c.toNat - 0x30)

/-- Digits that spell a number of at most 64 bits. -/
structure IsContentLength (value : Bytes) : Prop where
  nonempty : value ≠ []
  digits : ∀ c ∈ value, 0x30 ≤ c.toNat ∧ c.toNat ≤ 0x39
  bounded : decimalValue value ≤ 2 ^ 64 - 1

/-- The common value of the Content-Length fields. -/
def contentLengthOf (hs : List (Header Bytes)) : Nat :=
  ((fieldValues hs "content-length").getLast?.map decimalValue).getD 0

/-- A connection option is listed. -/
def hasOption (hs : List (Header Bytes)) (name : String) : Bool :=
  ((fieldValues hs "connection").flatMap listElements).any (fun e => SameName e (ascii name))

/-- The message has a field of that name. -/
def hasField (hs : List (Header Bytes)) (name : String) : Bool := !(fieldValues hs name).isEmpty

/-- The list fields and the lengths of a message are well formed. -/
@[mk_iff]
structure WellFormedFields (hs : List (Header Bytes)) : Prop where
  connection : ∀ v ∈ fieldValues hs "connection", IsTokenList v
  trailer : ∀ v ∈ fieldValues hs "trailer", IsTokenList v
  transferEncoding : ∀ e ∈ transferCodings hs, IsCoding e
  contentLength : ∀ v ∈ fieldValues hs "content-length", IsContentLength v
  contentLength_eq : ∀ v ∈ fieldValues hs "content-length",
    ∀ w ∈ fieldValues hs "content-length", decimalValue v = decimalValue w
  upgrade : ∀ v ∈ fieldValues hs "upgrade", ∀ c ∈ v, isTchar c = true

/-- A request that can be framed and served. -/
structure AcceptableRequest (policy : Policy) (req : Request Bytes) : Prop where
  fields : WellFormedFields req.headers
  expect : ∀ v ∈ fieldValues req.headers "expect", trim isLws v ≠ []
  host_unique : (fieldValues req.headers "host").length ≤ 1
  host_nonempty : ∀ v ∈ fieldValues req.headers "host", v ≠ []
  host_present : req.version = .http11 → hasField req.headers "host" = true
  chunked_once : hasField req.headers "transfer-encoding" = true →
    (transferCodings req.headers).countP IsChunked = 1
  chunked_last : ∀ e, (transferCodings req.headers).getLast? = some e → IsChunked e
  no_te_cl : policy.rejectTeCl = true → hasField req.headers "transfer-encoding" = true →
    hasField req.headers "content-length" = false
  trailer_chunked : hasField req.headers "trailer" = true →
    hasField req.headers "transfer-encoding" = true

/-- An acceptable request with its body, persistence and expectations decided. -/
def declaredRequest (req : Request Bytes) : Request Bytes :=
  let hs := req.headers
  { req with
    bodyMode :=
      if hasField hs "transfer-encoding" then .chunked
      else if hasField hs "content-length" then .fixed
      else .none
    contentLength :=
      if !hasField hs "transfer-encoding" && hasField hs "content-length" then contentLengthOf hs
      else req.contentLength
    keepAlive :=
      if hasOption hs "close" then false
      else if hasOption hs "keep-alive" then true
      else req.version == .http11
    protocolUpgrade := hasField hs "upgrade" && hasOption hs "upgrade"
    expectsContinue :=
      (fieldValues hs "expect").getLast?.any
        (fun v => SameName (trim isLws v) (ascii "100-continue"))
    hasTrailerFields := hasField hs "trailer" }

/-- The last coding of the last Transfer-Encoding field. -/
def lastCoding (hs : List (Header Bytes)) : Option Bytes :=
  (fieldValues hs "transfer-encoding").getLast?.bind (fun v => (listElements v).getLast?)

/-- A status whose responses never have a body. -/
def bodyless (statusCode : Nat) : Bool :=
  (statusCode ≥ 100 && statusCode < 200) || statusCode == 204 || statusCode == 304

/-- The body of a response by precedence: the status, then Transfer-Encoding, then
Content-Length, then the end of the connection. -/
def FollowsPrecedence (resp out : Response Bytes) : Prop :=
  if bodyless resp.statusCode then out.bodyMode = .none
  else if hasField resp.headers "transfer-encoding" then
    out.bodyMode = if (lastCoding resp.headers).any (fun e => IsChunked e) then .chunked else .eof
  else if hasField resp.headers "content-length" then
    out.bodyMode = .fixed ∧
      ∀ v ∈ fieldValues resp.headers "content-length", out.contentLength = decimalValue v
  else out.bodyMode = .eof

/-- Chunked is the last transfer coding. -/
def endsChunked (hs : List (Header Bytes)) : Bool := (lastCoding hs).any (fun e => IsChunked e)

/-- A response that can be framed. -/
structure AcceptableResponse (policy : Policy) (resp : Response Bytes) : Prop where
  fields : WellFormedFields resp.headers
  chunked_once : (transferCodings resp.headers).countP IsChunked ≤ 1
  no_te_cl : policy.rejectTeCl = true → hasField resp.headers "transfer-encoding" = true →
    hasField resp.headers "content-length" = false
  trailer_chunked : hasField resp.headers "trailer" = true →
    bodyless resp.statusCode = false ∧ endsChunked resp.headers = true

/-- The body of the response ends with the connection. -/
def closeDelimited (resp : Response Bytes) : Bool :=
  !bodyless resp.statusCode && !endsChunked resp.headers &&
    !hasField resp.headers "content-length"

/-- The response hands the connection over to another protocol. -/
def switchesProtocols (resp : Response Bytes) : Bool :=
  resp.statusCode == 101 && hasField resp.headers "upgrade" &&
    hasOption resp.headers "upgrade" && !hasOption resp.headers "close"

/-- The message lists the upgrade option, and an Upgrade field names a protocol. -/
structure ExplicitUpgrade (hs : List (Header Bytes)) : Prop where
  listed : hasOption hs "upgrade" = true
  named : ∃ v ∈ fieldValues hs "upgrade", IsToken v

/-- The message has Upgrade fields, and all of them are empty. -/
structure EmptyUpgrade (hs : List (Header Bytes)) : Prop where
  present : hasField hs "upgrade" = true
  empty : ∀ v ∈ fieldValues hs "upgrade", v = []

/-- The message asks for a persistent connection. -/
def keepAliveListed (hs : List (Header Bytes)) : Bool :=
  hasOption hs "keep-alive" && !hasOption hs "close"

/-- What a response says about the connection: an option, a switch of protocols, or the default of
HTTP/1.1 where the body does not end with the connection. -/
def declaredPersistence (resp : Response Bytes) : Option Bool :=
  if hasOption resp.headers "close" || switchesProtocols resp then some false
  else if hasOption resp.headers "keep-alive" then some true
  else if resp.version == .http11 && !closeDelimited resp then some true
  else none

/-- Two decided responses that a consumer reads alike. -/
structure SameDecision (out out' : Response Bytes) : Prop where
  bodyMode : out'.bodyMode = out.bodyMode
  keepAlive : out'.keepAlive = out.keepAlive
  protocolUpgrade : out'.protocolUpgrade = out.protocolUpgrade
  hasTrailerFields : out'.hasTrailerFields = out.hasTrailerFields
  contentLength : out.bodyMode = .fixed → out'.contentLength = out.contentLength

/-- The semantic fields of a message. -/
structure Outputs where
  bodyMode : BodyMode
  contentLength : Nat
  keepAlive : Bool
  protocolUpgrade : Bool
  expectsContinue : Bool
  hasTrailerFields : Bool
  deriving DecidableEq, Repr

/-- The semantic fields of a request. -/
def Request.outputs {str : Type} (req : Request str) : Outputs :=
  { bodyMode := req.bodyMode
    contentLength := req.contentLength
    keepAlive := req.keepAlive
    protocolUpgrade := req.protocolUpgrade
    expectsContinue := req.expectsContinue
    hasTrailerFields := req.hasTrailerFields }

/-- The semantic fields of a response, which has no expectation. -/
def Response.outputs {str : Type} (resp : Response str) : Outputs :=
  { bodyMode := resp.bodyMode
    contentLength := resp.contentLength
    keepAlive := resp.keepAlive
    protocolUpgrade := resp.protocolUpgrade
    expectsContinue := false
    hasTrailerFields := resp.hasTrailerFields }

/-- The fields that decide about a response. -/
def responseFields : List String :=
  ["transfer-encoding", "content-length", "connection", "upgrade", "trailer"]

/-- The fields that decide about a request. -/
def requestFields : List String := responseFields ++ ["host", "expect"]

/-- The fields of which the last one counts. -/
def orderedFields : List String := ["transfer-encoding", "expect"]

/-- The fields whose values are compared without regard to case. -/
def caselessFields : List String := ["transfer-encoding", "connection", "expect"]

/-- A header in other letter case. -/
structure Recased (h h' : Header Bytes) : Prop where
  name : SameName h.name h'.name
  value : h.value = h'.value ∨
    (∃ field ∈ caselessFields, SameName h.name (ascii field)) ∧ SameName h.value h'.value

/-- Header lists that differ in order, in letter case and in headers that are not among `fields`. -/
inductive SameFields (fields : List String) : List (Header Bytes) → List (Header Bytes) → Prop where
  | perm {hs hs' : List (Header Bytes)} (h : hs.Perm hs')
      (ordered : ∀ field ∈ orderedFields, hs.filter (fun h => SameName h.name (ascii field)) =
        hs'.filter (fun h => SameName h.name (ascii field))) : SameFields fields hs hs'
  | recase {hs hs' : List (Header Bytes)} (h : List.Forall₂ Recased hs hs') :
      SameFields fields hs hs'
  | insert (before after : List (Header Bytes)) {h : Header Bytes}
      (other : ∀ field ∈ fields, ¬SameName h.name (ascii field)) :
      SameFields fields (before ++ after) (before ++ h :: after)
  | symm {hs hs' : List (Header Bytes)} (h : SameFields fields hs hs') : SameFields fields hs' hs
  | trans {hs hs' hs'' : List (Header Bytes)} (h : SameFields fields hs hs')
      (h' : SameFields fields hs' hs'') : SameFields fields hs hs''

end IoHttpParser
