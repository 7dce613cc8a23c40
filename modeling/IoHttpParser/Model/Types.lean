import Mathlib.Algebra.Ring.Nat
import Mathlib.Tactic.Lemma

/-!
# Public types

The enums, structs, limits and named policies of `ihtp_types.h` and `ihtp_body.h`. A
`const char *` with its length is a `Span` into the caller-owned buffer; the structs are
generic in that type, so that the layers above the parser can read the same message with
its strings resolved to bytes.
-/

namespace IoHttpParser

/-- The bytes of a buffer, already cut to the length passed with it. -/
abbrev Bytes := List UInt8

/-- The bytes of an ASCII literal. -/
def ascii (s : String) : Bytes := s.toList.map (fun c => UInt8.ofNat c.toNat)

/-- `'\t'`. -/
abbrev htab : UInt8 := 0x09
/-- `'\n'`. -/
abbrev lf : UInt8 := 0x0a
/-- `'\r'`. -/
abbrev cr : UInt8 := 0x0d
/-- `' '`. -/
abbrev sp : UInt8 := 0x20
/-- `','`. -/
abbrev comma : UInt8 := 0x2c
/-- `':'`. -/
abbrev colon : UInt8 := 0x3a
/-- `';'`. -/
abbrev semicolon : UInt8 := 0x3b

/-- Reduction of a `uint64_t` result. -/
def u64 (n : Nat) : Nat := n % 2 ^ 64

lemma u64_lt (n : Nat) : u64 n < 2 ^ 64 := Nat.mod_lt n (by decide)

lemma u64_of_lt {n : Nat} (h : n < 2 ^ 64) : u64 n = n := Nat.mod_eq_of_lt h

lemma u64_add_u64 (m n : Nat) : u64 (u64 m + n) = u64 (m + n) := by
  simp only [u64, Nat.mod_add_mod]

lemma u64_add_of_lt {m n : Nat} (h : m + n < 2 ^ 64) : u64 (u64 m + n) = m + n := by
  rw [u64_add_u64, u64_of_lt h]

/-- `IHTP_MAX_HEADERS`. -/
def ihtpMaxHeaders : Nat := 64
/-- `IHTP_MAX_HEADER_LINE`. -/
def ihtpMaxHeaderLine : Nat := 8192
/-- `IHTP_MAX_REQUEST_LINE`. -/
def ihtpMaxRequestLine : Nat := 8192

/-- `ihtp_status_t`. -/
inductive Status where
  | ok
  | incomplete
  | error
  | errorTooLong
  | errorTooManyHeaders
  deriving DecidableEq, Repr

/-- The enum's integer values. -/
def Status.code : Status → Int
  | .ok => 0
  | .incomplete => -2
  | .error => -1
  | .errorTooLong => -3
  | .errorTooManyHeaders => -4

/-- The three rejections. -/
def Status.isError : Status → Bool
  | .ok | .incomplete => false
  | .error | .errorTooLong | .errorTooManyHeaders => true

/-- `ihtp_method_t`. -/
inductive Method where
  | unknown | get | post | put | delete | head | options | patch | connect | trace
  deriving DecidableEq, Repr

/-- `ihtp_http_version_t`. -/
inductive HttpVersion where
  | http10 | http11
  deriving DecidableEq, Repr

/-- `ihtp_parser_mode_t`. -/
inductive ParserMode where
  | request | response | headers
  deriving DecidableEq, Repr

/-- `ihtp_parser_phase_t`. -/
inductive ParserPhase where
  | startLine | headers | done | error
  deriving DecidableEq, Repr

/-- `ihtp_parser_state_t`. -/
structure ParserState where
  mode : ParserMode
  phase : ParserPhase
  cursor : Nat
  deriving DecidableEq, Repr

/-- A zero-copy string: the offset of a `const char *` in the buffer, and a length. -/
structure Span where
  start : Nat
  len : Nat
  deriving DecidableEq, Repr

/-- The bytes a span denotes. -/
def Span.read (buf : Bytes) (s : Span) : Bytes := (buf.drop s.start).take s.len

/-- `ihtp_header_t`. -/
structure Header (str : Type) where
  name : str
  value : str
  deriving DecidableEq, Repr

/-- `ihtp_body_mode_t`. -/
inductive BodyMode where
  | none | fixed | chunked | eof
  deriving DecidableEq, Repr

/-- `ihtp_request_t`; `headers` is the counted prefix of the header array. -/
structure Request (str : Type) where
  method : Method
  methodStr : str
  path : str
  version : HttpVersion
  headers : List (Header str)
  bodyMode : BodyMode
  contentLength : Nat
  keepAlive : Bool
  protocolUpgrade : Bool
  expectsContinue : Bool
  hasTrailerFields : Bool
  deriving DecidableEq, Repr

/-- `ihtp_response_t`; `headers` is the counted prefix of the header array. -/
structure Response (str : Type) where
  version : HttpVersion
  statusCode : Nat
  reason : str
  headers : List (Header str)
  bodyMode : BodyMode
  contentLength : Nat
  keepAlive : Bool
  protocolUpgrade : Bool
  hasTrailerFields : Bool
  deriving DecidableEq, Repr

/-- A null pointer of length zero. -/
def Span.null : Span := ⟨0, 0⟩

/-- `memset(req, 0, sizeof(*req))`. -/
def Request.zero : Request Span :=
  { method := .unknown, methodStr := .null, path := .null, version := .http10, headers := [],
    bodyMode := .none, contentLength := 0, keepAlive := false, protocolUpgrade := false,
    expectsContinue := false, hasTrailerFields := false }

/-- `memset(resp, 0, sizeof(*resp))`. -/
def Response.zero : Response Span :=
  { version := .http10, statusCode := 0, reason := .null, headers := [], bodyMode := .none,
    contentLength := 0, keepAlive := false, protocolUpgrade := false, hasTrailerFields := false }

/-- Dereferences the strings of a header. -/
def Header.resolve (buf : Bytes) (h : Header Span) : Header Bytes :=
  ⟨h.name.read buf, h.value.read buf⟩

/-- Dereferences the strings of a parsed request. -/
def Request.resolve (buf : Bytes) (r : Request Span) : Request Bytes :=
  { r with methodStr := r.methodStr.read buf, path := r.path.read buf,
           headers := r.headers.map (Header.resolve buf) }

/-- Dereferences the strings of a parsed response. -/
def Response.resolve (buf : Bytes) (r : Response Span) : Response Bytes :=
  { r with reason := r.reason.read buf, headers := r.headers.map (Header.resolve buf) }

/-- `ihtp_policy_t`. -/
structure Policy where
  rejectObsFold : Bool
  rejectBareLf : Bool
  rejectTeCl : Bool
  allowSpacesInUri : Bool
  deriving DecidableEq, Repr

/-- `IHTP_POLICY_STRICT`. -/
def Policy.strict : Policy := ⟨true, true, true, false⟩

/-- `IHTP_POLICY_LENIENT`. -/
def Policy.lenient : Policy := ⟨false, false, false, true⟩

/-- `resolve_policy`: a null policy is the strict one. -/
def resolvePolicy (policy : Option Policy) : Policy := policy.getD .strict

end IoHttpParser
