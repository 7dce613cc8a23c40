import IoHttpParser.Spec.Grammar

/-!
# Heads under a policy

The heads that a policy admits, with every way it leaves to write them: bare LF, spaces in a target,
and values that go on over lines. A value that goes on is everything from its first byte to the end
of its last line, line endings included.
-/

namespace IoHttpParser

/-- The lines that continue a value, each with the line ending in front of it. -/
def foldsWire (folds : List (Bytes × FoldLine)) : Bytes := folds.flatMap (fun f => f.1 ++ f.2.line)

/-- The value of a field line as it begins a value that goes on. -/
def FieldLine.openValue (f : FieldLine) : Bytes := if f.value = [] then [] else f.value ++ f.trail

/-- A header: a field line, the lines that continue it, and the ending of the last of them. -/
structure HeaderText (policy : Policy) where
  field : FieldLine
  folds : List (Bytes × FoldLine)
  ending : Bytes
  field_le : field.line.length ≤ ihtpMaxHeaderLine
  folds_ok : ∀ f ∈ folds, policy.rejectObsFold = false ∧ IsLineEnding policy f.1 ∧
    f.2.line.length ≤ ihtpMaxHeaderLine
  ending_ok : IsLineEnding policy ending

namespace HeaderText

variable {policy : Policy} (g : HeaderText policy)

/-- The bytes of a header. -/
def wire : Bytes := g.field.line ++ foldsWire g.folds ++ g.ending

def value : Bytes :=
  if g.folds = [] then g.field.value else g.field.openValue ++ foldsWire g.folds

/-- What a header denotes. -/
def header : Header Bytes := ⟨g.field.name, g.value⟩

end HeaderText

/-- A header block with the empty line that ends it. -/
structure BlockText (policy : Policy) (capacity : Nat) where
  headers : List (HeaderText policy)
  last : Bytes
  count_le : headers.length ≤ capacity
  last_ok : IsLineEnding policy last

def BlockText.wire {policy : Policy} {capacity : Nat} (b : BlockText policy capacity) : Bytes :=
  b.headers.flatMap HeaderText.wire ++ b.last

/-- A request head. -/
structure RequestText (policy : Policy) where
  requestLine : RequestLine policy.allowSpacesInUri
  ending : Bytes
  block : BlockText policy ihtpMaxHeaders
  requestLine_le : requestLine.line.length ≤ ihtpMaxRequestLine
  ending_ok : IsLineEnding policy ending

namespace RequestText

variable {policy : Policy} (t : RequestText policy)

def wire : Bytes := t.requestLine.line ++ t.ending ++ t.block.wire

/-- The components of a head, with no semantics applied yet. -/
def request : Request Bytes :=
  { method := methodFromStr t.requestLine.method
    methodStr := t.requestLine.method
    path := t.requestLine.target
    version := t.requestLine.version
    headers := t.block.headers.map HeaderText.header
    bodyMode := .none, contentLength := 0, keepAlive := false, protocolUpgrade := false,
    expectsContinue := false, hasTrailerFields := false }

end RequestText

/-- A response head. -/
structure ResponseText (policy : Policy) where
  statusLine : StatusLine
  ending : Bytes
  block : BlockText policy ihtpMaxHeaders
  ending_ok : IsLineEnding policy ending

namespace ResponseText

variable {policy : Policy} (t : ResponseText policy)

def wire : Bytes := t.statusLine.line ++ t.ending ++ t.block.wire

/-- The components of a head, with no semantics applied yet. -/
def response : Response Bytes :=
  { version := t.statusLine.version
    statusCode := t.statusLine.code
    reason := t.statusLine.reason
    headers := t.block.headers.map HeaderText.header
    bodyMode := .none, contentLength := 0, keepAlive := false, protocolUpgrade := false,
    hasTrailerFields := false }

end ResponseText

/-- A parser accepts the texts of a grammar and no other bytes, whatever follows them, and what it
returns denotes what the text does. -/
structure ReadsExactly {text out msg : Type} (parse : Bytes → Status × out × Nat)
    (resolve : Bytes → out → msg) (wire : text → Bytes) (meaning : text → msg) : Prop where
  accepts_iff : ∀ buf n, (∃ o, parse buf = (.ok, o, n)) ↔ n ≤ buf.length ∧ ∃ t, buf.take n = wire t
  denotes : ∀ buf o n, parse buf = (.ok, o, n) → ∀ t, buf.take n = wire t →
    resolve buf o = meaning t

/-! ### Plain texts -/

/-- The plain way to write headers. -/
def printHeaders (headers : List (Header Bytes)) : Bytes :=
  headers.flatMap (fun h => h.name ++ colon :: h.value ++ crlf) ++ crlf

/-- The plain way to write a request. -/
def printRequest (req : Request Bytes) : Bytes :=
  req.methodStr ++ sp :: (req.path ++ sp :: req.version.bytes) ++ crlf ++ printHeaders req.headers

/-- The plain way to write a response. -/
def printResponse (resp : Response Bytes) : Bytes :=
  resp.version.bytes ++ sp :: (statusDigits resp.statusCode ++ sp :: resp.reason) ++ crlf ++
    printHeaders resp.headers

/-- What a parser returns is read back as it is from the plain way to write it. -/
def PrintsBack {out msg : Type} (parse : Bytes → Status × out × Nat) (resolve : Bytes → out → msg)
    (print : msg → Bytes) : Prop :=
  ∀ buf o n, parse buf = (.ok, o, n) → ∀ post, ∃ o',
    parse (print (resolve buf o) ++ post) = (.ok, o', (print (resolve buf o)).length) ∧
      resolve (print (resolve buf o) ++ post) o' = resolve buf o

end IoHttpParser
