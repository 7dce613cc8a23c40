import IoHttpParser.Model.Parser

/-!
# Message heads as a grammar

What the parser is for: the byte classes, lines and heads of HTTP/1.1 messages, stated on
byte strings without cursors or scanning. Each line is a structure that carries its own
well-formedness; its bytes are computed from its components.
-/

namespace IoHttpParser
open Memory

/-- `tchar`. -/
def isTchar (c : UInt8) : Bool :=
  (0x30 ≤ c && c ≤ 0x39) || (0x41 ≤ c && c ≤ 0x5a) || (0x61 ≤ c && c ≤ 0x7a) ||
    (ascii "!#$%&'*+-.^_`|~").contains c

/-- `token = 1*tchar`. -/
structure IsToken (s : Bytes) : Prop where
  nonempty : s ≠ []
  chars : ∀ c ∈ s, isTchar c = true

/-- HTAB, `0x20`-`0x7E` and `0x80`-`0xFF`. -/
def isFieldByte (c : UInt8) : Bool := c == htab || (0x20 ≤ c && c != 0x7f)

/-- A byte above SP that is not DEL. -/
def isTargetByte (c : UInt8) : Bool := 0x20 < c && c != 0x7f

/-- CRLF, or a bare LF where the policy lets one end a line. -/
def IsLineEnding (policy : Policy) (e : Bytes) : Prop :=
  e = [cr, lf] ∨ policy.rejectBareLf = false ∧ e = [lf]

/-- `field-line = field-name ":" OWS field-value OWS`. -/
structure FieldLine where
  name : Bytes
  lead : Bytes
  value : Bytes
  trail : Bytes
  name_token : IsToken name
  lead_ows : ∀ c ∈ lead, isLws c = true
  trail_ows : ∀ c ∈ trail, isLws c = true
  value_text : ∀ c ∈ value, isFieldByte c = true
  value_trimmed : Trimmed isLws value

/-- The bytes of a field line, without its ending. -/
def FieldLine.line (f : FieldLine) : Bytes :=
  f.name ++ colon :: (f.lead ++ f.value ++ f.trail)

/-- The header a field line denotes when it starts at offset `base`; an empty value is
placed at the end of the line. -/
def FieldLine.header (f : FieldLine) (base : Nat) : Header Span :=
  { name := ⟨base, f.name.length⟩
    value :=
      if f.value = [] then ⟨base + f.line.length, 0⟩
      else ⟨base + f.name.length + 1 + f.lead.length, f.value.length⟩ }

/-- The byte after `HTTP/1.`. -/
def HttpVersion.digit : HttpVersion → UInt8
  | .http10 => 0x30
  | .http11 => 0x31

/-- `HTTP-version`. -/
def HttpVersion.bytes (v : HttpVersion) : Bytes := ascii "HTTP/1." ++ [v.digit]

/-- `request-line = method SP request-target SP HTTP-version`. -/
structure RequestLine (allowSpaces : Bool) where
  method : Bytes
  target : Bytes
  version : HttpVersion
  method_token : IsToken method
  target_nonempty : target ≠ []
  target_bytes : ∀ c ∈ target, isTargetByte c = true ∨ allowSpaces = true ∧ c = sp

/-- The bytes of a request line, without its ending. -/
def RequestLine.line {allowSpaces : Bool} (r : RequestLine allowSpaces) : Bytes :=
  r.method ++ sp :: (r.target ++ sp :: r.version.bytes)

/-- The three digits of a status code. -/
def statusDigits (code : Nat) : Bytes :=
  [UInt8.ofNat (0x30 + code / 100), UInt8.ofNat (0x30 + code / 10 % 10),
    UInt8.ofNat (0x30 + code % 10)]

/-- `status-line = HTTP-version SP status-code SP [ reason-phrase ]`. -/
structure StatusLine where
  version : HttpVersion
  code : Nat
  reason : Bytes
  code_ge : 100 ≤ code
  code_le : code ≤ 599
  reason_text : ∀ c ∈ reason, isFieldByte c = true

/-- The bytes of a status line, without its ending. -/
def StatusLine.line (s : StatusLine) : Bytes :=
  s.version.bytes ++ sp :: (statusDigits s.code ++ sp :: s.reason)

/-- A line that continues the value of the header before it. -/
structure FoldLine where
  line : Bytes
  starts : ∃ c rest, line = c :: rest ∧ isLws c = true
  text : ∀ c ∈ line, isFieldByte c = true

/-- Complete header lines under a policy, taking the header count from one number to
another. -/
inductive HeaderLines (policy : Policy) (capacity : Nat) : Nat → Bytes → Nat → Prop where
  | nil (k : Nat) : HeaderLines policy capacity k [] k
  | field {k k' : Nat} {e w : Bytes} (f : FieldLine) (he : IsLineEnding policy e)
      (hlen : f.line.length ≤ ihtpMaxHeaderLine) (hk : k < capacity)
      (h : HeaderLines policy capacity (k + 1) w k') :
      HeaderLines policy capacity k (f.line ++ e ++ w) k'
  | fold {k k' : Nat} {e w : Bytes} (f : FoldLine) (hfold : policy.rejectObsFold = false)
      (he : IsLineEnding policy e) (hlen : f.line.length ≤ ihtpMaxHeaderLine) (hk : 0 < k)
      (h : HeaderLines policy capacity k w k') :
      HeaderLines policy capacity k (f.line ++ e ++ w) k'

/-- The line ending the strict policy admits. -/
abbrev crlf : Bytes := [cr, lf]

/-- Field lines, each with its CRLF. -/
def fieldsWire (fields : List FieldLine) : Bytes := fields.flatMap (fun f => f.line ++ crlf)

/-- A request head under the strict policy, within the limits. -/
structure RequestHead where
  requestLine : RequestLine false
  fields : List FieldLine
  requestLine_le : requestLine.line.length ≤ ihtpMaxRequestLine
  fields_le : ∀ f ∈ fields, f.line.length ≤ ihtpMaxHeaderLine
  count_le : fields.length ≤ ihtpMaxHeaders

namespace RequestHead

/-- The bytes of a head. -/
def wire (h : RequestHead) : Bytes := h.requestLine.line ++ crlf ++ (fieldsWire h.fields ++ crlf)

/-- The components of a head, with no semantics applied yet. -/
def request (h : RequestHead) : Request Bytes :=
  { method := methodFromStr h.requestLine.method
    methodStr := h.requestLine.method
    path := h.requestLine.target
    version := h.requestLine.version
    headers := h.fields.map (fun f => ⟨f.name, f.value⟩)
    bodyMode := .none, contentLength := 0, keepAlive := false, protocolUpgrade := false,
    expectsContinue := false, hasTrailerFields := false }

end RequestHead

/-- A response head under the strict policy, within the limits; its status line has none. -/
structure ResponseHead where
  statusLine : StatusLine
  fields : List FieldLine
  fields_le : ∀ f ∈ fields, f.line.length ≤ ihtpMaxHeaderLine
  count_le : fields.length ≤ ihtpMaxHeaders

namespace ResponseHead

def wire (h : ResponseHead) : Bytes := h.statusLine.line ++ crlf ++ (fieldsWire h.fields ++ crlf)

/-- The components of a head, with no semantics applied yet. -/
def response (h : ResponseHead) : Response Bytes :=
  { version := h.statusLine.version
    statusCode := h.statusLine.code
    reason := h.statusLine.reason
    headers := h.fields.map (fun f => ⟨f.name, f.value⟩)
    bodyMode := .none, contentLength := 0, keepAlive := false, protocolUpgrade := false,
    hasTrailerFields := false }

end ResponseHead

end IoHttpParser
