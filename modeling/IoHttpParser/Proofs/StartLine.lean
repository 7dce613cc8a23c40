import IoHttpParser.Proofs.HeaderStep

/-!
# Start lines

`parse_request_line` and `parse_status_line` accept exactly the start lines of the grammar,
and write exactly their components.
-/

namespace IoHttpParser
open Memory Incremental

/-! ### HTTP versions -/

lemma HttpVersion.length_bytes (v : HttpVersion) : v.bytes.length = 8 := by cases v <;> rfl

lemma HttpVersion.notMem_bytes (v : HttpVersion) :
    lf ∉ v.bytes ∧ cr ∉ v.bytes ∧ sp ∉ v.bytes := by
  cases v <;> decide

lemma HttpVersion.take_bytes (v : HttpVersion) : v.bytes.take 7 = ascii "HTTP/1." := by
  cases v <;> rfl

lemma versionOfByte_bytes (v : HttpVersion) : versionOfByte v.bytes[7]? = some v := by
  cases v <;> rfl

lemma eq_digit_of_versionOfByte {c : Option UInt8} {v : HttpVersion}
    (h : versionOfByte c = some v) : c = some v.digit := by
  rw [versionOfByte] at h
  split at h
  · rename_i hc
    cases h
    exact beq_iff_eq.mp hc
  · split at h
    · rename_i hc
      cases h
      exact beq_iff_eq.mp hc
    · cases h

lemma exists_version {bs : Bytes} (hlen : bs.length = 8) (htake : bs.take 7 = ascii "HTTP/1.")
    {v : HttpVersion} (hv : versionOfByte bs[7]? = some v) : bs = v.bytes := by
  have hd := eq_digit_of_versionOfByte hv
  have hdrop : bs.drop 7 = [v.digit] := by
    obtain ⟨c, hc⟩ : ∃ c, bs.drop 7 = [c] := List.length_eq_one_iff.mp (by simp [hlen])
    have hg : (bs.drop 7)[0]? = bs[7]? := by rw [List.getElem?_drop]
    rw [hc, hd] at hg
    rw [hc]
    congr 1
    simpa using hg
  rw [← List.take_append_drop 7 bs, htake, hdrop, HttpVersion.bytes]

/-! ### Line ends do not move -/

/-- A found line is free of LF, is followed by an ending the policy admits, and starts the
input. -/
lemma exists_of_findLineEnd {buf : Bytes} {policy : Policy} {n k : Nat}
    (h : findLineEnd buf policy = .ok (n, k)) :
    ∃ line e tail, buf = line ++ e ++ tail ∧ IsLineEnding policy e ∧ line.length = n ∧
      e.length = k := by
  cases lineView buf with
  | unterminated hl => rw [findLineEnd_unterminated hl] at h; cases h
  | crlf line tail hl =>
    rw [findLineEnd_crlf hl] at h
    cases h
    exact ⟨line, [cr, lf], tail, by simp, .inl rfl, rfl, rfl⟩
  | bareLf line tail hl hcr =>
    rw [findLineEnd_bareLf hl hcr] at h
    split at h
    · cases h
    · rename_i hp
      cases h
      exact ⟨line, [lf], tail, by simp, .inr ⟨by simpa using hp, rfl⟩, rfl, rfl⟩

lemma findLineEnd_cases (buf : Bytes) (policy : Policy) :
    (lf ∉ buf ∧ findLineEnd buf policy = .error .incomplete) ∨
      findLineEnd buf policy = .error .error ∨ ∃ r, findLineEnd buf policy = .ok r := by
  cases lineView buf with
  | unterminated hl => exact .inl ⟨hl, findLineEnd_unterminated hl⟩
  | crlf line tail hl => exact .inr (.inr ⟨_, findLineEnd_crlf hl⟩)
  | bareLf line tail hl hcr =>
    rw [findLineEnd_bareLf hl hcr]
    cases policy.rejectBareLf with
    | true => exact .inr (.inl rfl)
    | false => exact .inr (.inr ⟨_, rfl⟩)

/-! ### Request line -/

lemma RequestLine.notMem {a : Bool} (r : RequestLine a) : lf ∉ r.line ∧ cr ∉ r.line := by
  have hm := r.method_token.notMem
  have hv := r.version.notMem_bytes
  have ht : ∀ c ∈ r.target, c ≠ lf ∧ c ≠ cr := by
    intro c hc
    rcases r.target_bytes c hc with h | ⟨_, rfl⟩
    · exact ⟨(isTargetByte_class h).1, (isTargetByte_class h).2.1⟩
    · decide
  constructor
  · intro h
    simp only [RequestLine.line, List.mem_append, List.mem_cons] at h
    rcases h with h | h | h | h | h
    · exact hm.1 h
    · exact absurd h (by decide)
    · exact (ht _ h).1 rfl
    · exact absurd h (by decide)
    · exact hv.1 h
  · intro h
    simp only [RequestLine.line, List.mem_append, List.mem_cons] at h
    rcases h with h | h | h | h | h
    · exact hm.2.1 h
    · exact absurd h (by decide)
    · exact (ht _ h).2 rfl
    · exact absurd h (by decide)
    · exact hv.2.1 h

/-- The request with the components of a request line at offset `base`. -/
def RequestLine.apply {a : Bool} (r : RequestLine a) (base : Nat) (req : Request Span) :
    Request Span :=
  { req with methodStr := ⟨base, r.method.length⟩, method := methodFromStr r.method,
             path := ⟨base + (r.method.length + 1), r.target.length⟩, version := r.version }

lemma RequestLine.length_line {a : Bool} (r : RequestLine a) :
    r.line.length = r.method.length + 1 + r.target.length + 1 + 8 := by
  simp only [RequestLine.line, List.length_append, List.length_cons, r.version.length_bytes]
  omega

lemma parseRequestLine_line (base : Nat) {policy : Policy} {e : Bytes}
    (r : RequestLine policy.allowSpacesInUri) (he : IsLineEnding policy e) (tail : Bytes)
    (req : Request Span) :
    parseRequestLine base (r.line ++ e ++ tail) req policy =
      if r.line.length > ihtpMaxRequestLine then (.errorTooLong, req, 0)
      else (.ok, r.apply base req, r.line.length + e.length) := by
  have hfind := findLineEnd_ending tail he r.notMem.1 r.notMem.2
  have hlen := r.length_line
  have htake : (r.line ++ e ++ tail).take r.line.length = r.line := by
    rw [List.append_assoc, List.take_left]
  have hsp1 : findMethodSpace r.line = some r.method.length :=
    findMethodSpace_append r.method_token _
  have hdrop : (r.line ++ e ++ tail).drop (r.method.length + 1) =
      r.target ++ sp :: (r.version.bytes ++ (e ++ tail)) := by
    simp [RequestLine.line, List.drop_append]
  have hrem : (r.target ++ sp :: (r.version.bytes ++ (e ++ tail))).take
      (r.line.length - r.method.length - 1) = r.target ++ sp :: r.version.bytes := by
    have hk : r.line.length - r.method.length - 1 = (r.target ++ sp :: r.version.bytes).length := by
      simp only [List.length_append, List.length_cons, r.version.length_bytes]
      omega
    rw [hk, ← List.cons_append, ← List.append_assoc, List.take_left]
  have hsp2 : findLastCharOffset (r.target ++ sp :: r.version.bytes) sp = some r.target.length :=
    memrchr_append_cons r.version.notMem_bytes.2.2 _
  have hmethod : (r.line ++ e ++ tail).take r.method.length = r.method := by
    simp [RequestLine.line]
  have hver : (r.line ++ e ++ tail).drop (r.method.length + 1 + r.target.length + 1) =
      r.version.bytes ++ (e ++ tail) := by
    rw [Nat.add_assoc (r.method.length + 1), ← List.drop_drop, hdrop]
    simp [List.drop_append]
  have hvlen : r.line.length - (r.method.length + 1 + r.target.length + 1) = 8 := by omega
  have hvtake : (r.version.bytes ++ (e ++ tail)).take 7 = ascii "HTTP/1." := by
    rw [List.take_append_of_le_length (by rw [r.version.length_bytes]; omega),
      r.version.take_bytes]
  have hvbyte : (r.line ++ e ++ tail)[r.method.length + 1 + r.target.length + 1 + 7]? =
      r.version.bytes[7]? := by
    have hg : ((r.line ++ e ++ tail).drop (r.method.length + 1 + r.target.length + 1))[7]? =
        (r.line ++ e ++ tail)[r.method.length + 1 + r.target.length + 1 + 7]? :=
      List.getElem?_drop
    rw [← hg, hver, List.getElem?_append_left (by rw [r.version.length_bytes]; omega)]
  have htne : (r.target.length == 0) = false := by
    rw [beq_eq_false_iff_ne, Ne, List.length_eq_zero_iff]
    exact r.target_nonempty
  have hvalid := requestTargetIsValid_iff.mpr r.target_bytes
  simp only [parseRequestLine, hfind, htake, hsp1, hdrop, hrem, hsp2, hmethod, List.take_left',
    htne, hvalid, hver, hvlen, hvtake, hvbyte, versionOfByte_bytes, bne_self_eq_false,
    Bool.or_self, Bool.not_true, Bool.false_eq_true, if_false, RequestLine.apply]

/-- What a request line is checked for, with SP at `sp1` of the line and at `sp2` behind it. -/
structure RequestLineChecks (buf : Bytes) (allowSpaces : Bool) (lineLen sp1 sp2 : Nat)
    (version : HttpVersion) : Prop where
  method : findMethodSpace (buf.take lineLen) = some sp1
  lastSpace : findLastCharOffset ((buf.drop (sp1 + 1)).take (lineLen - sp1 - 1)) sp = some sp2
  target_ne : sp2 ≠ 0
  target : requestTargetIsValid ((buf.drop (sp1 + 1)).take sp2) allowSpaces = true
  verLen : lineLen - (sp1 + 1 + sp2 + 1) = 8
  magic : (buf.drop (sp1 + 1 + sp2 + 1)).take 7 = ascii "HTTP/1."
  minor : versionOfByte buf[sp1 + 1 + sp2 + 1 + 7]? = some version

lemma checks_of_parseRequestLine {base n : Nat} {policy : Policy} {buf : Bytes}
    {req req' : Request Span} (h : parseRequestLine base buf req policy = (.ok, req', n)) :
    ∃ lineLen k sp1 sp2 version, findLineEnd buf policy = .ok (lineLen, k) ∧
      lineLen ≤ ihtpMaxRequestLine ∧
      RequestLineChecks buf policy.allowSpacesInUri lineLen sp1 sp2 version := by
  rw [parseRequestLine] at h
  split at h
  · split at h <;> cases h
  · cases h
    rename_i hfind
    rcases findLineEnd_cases buf policy with ⟨_, hc⟩ | hc | ⟨_, hc⟩ <;> rw [hc] at hfind <;>
      cases hfind
  · rename_i lineLen k hfind
    split at h; · cases h
    rename_i hmax
    split at h; · cases h
    rename_i sp1 hsp1
    dsimp only at h
    split at h; · cases h
    rename_i sp2 hsp2
    split at h; · cases h
    rename_i hne
    split at h; · cases h
    rename_i htarget
    split at h; · cases h
    rename_i hver
    split at h; · cases h
    rename_i version hversion
    rw [Bool.not_eq_true', Bool.not_eq_false] at htarget
    rw [Bool.or_eq_true, bne_iff_ne, bne_iff_ne, not_or, not_not, not_not] at hver
    exact ⟨lineLen, k, sp1, sp2, version, hfind, Nat.le_of_not_lt hmax, hsp1, hsp2, by simpa using hne,
      htarget, hver.1, hver.2, hversion⟩

/-- A line that passes the checks is one of the grammar. -/
lemma RequestLineChecks.exists_line {line tail : Bytes} {a : Bool} {sp1 sp2 : Nat}
    {version : HttpVersion} (h : RequestLineChecks (line ++ tail) a line.length sp1 sp2 version) :
    ∃ r : RequestLine a, r.line = line := by
  obtain ⟨hsp1, hsp2, hne, htarget, hvlen, hmagic, hminor⟩ := h
  rw [List.take_left] at hsp1
  obtain ⟨m, rest, rfl, hm, rfl⟩ := exists_of_findMethodSpace hsp1
  have hrem : ((m ++ sp :: rest ++ tail).drop (m.length + 1)).take
      ((m ++ sp :: rest).length - m.length - 1) = rest := by
    have hk : (m ++ sp :: rest).length - m.length - 1 = rest.length := by
      simp only [List.length_append, List.length_cons]
      omega
    rw [hk]
    simp
  rw [hrem] at hsp2
  have hmem : sp ∈ rest := by
    by_contra hn
    rw [findLastCharOffset, memrchr_eq_none.mpr hn] at hsp2
    cases hsp2
  obtain ⟨target, ver, rfl, hnv⟩ := exists_last_split hmem
  rw [findLastCharOffset, memrchr_append_cons hnv] at hsp2
  obtain rfl := Option.some.inj hsp2
  have hpath : ((m ++ sp :: (target ++ sp :: ver) ++ tail).drop (m.length + 1)).take
      target.length = target := by
    simp
  rw [hpath] at htarget
  have hdropv : (m ++ sp :: (target ++ sp :: ver) ++ tail).drop
      (m.length + 1 + target.length + 1) = ver ++ tail := by
    rw [Nat.add_assoc (m.length + 1), ← List.drop_drop]
    simp
  have hlenv : (m ++ sp :: (target ++ sp :: ver)).length - (m.length + 1 + target.length + 1) =
      ver.length := by
    simp only [List.length_append, List.length_cons]
    omega
  rw [hlenv] at hvlen
  rw [hdropv, List.take_append_of_le_length (by omega)] at hmagic
  rw [← List.getElem?_drop, hdropv, List.getElem?_append_left (by omega)] at hminor
  obtain rfl := exists_version hvlen hmagic hminor
  exact ⟨⟨m, target, version, hm, fun ht => hne (by rw [ht]; rfl),
    requestTargetIsValid_iff.mp htarget⟩, rfl⟩

lemma exists_of_parseRequestLine {base n : Nat} {policy : Policy} {buf : Bytes}
    {req req' : Request Span} (h : parseRequestLine base buf req policy = (.ok, req', n)) :
    ∃ (r : RequestLine policy.allowSpacesInUri) (e tail : Bytes), buf = r.line ++ e ++ tail ∧
      IsLineEnding policy e ∧ r.line.length ≤ ihtpMaxRequestLine ∧ req' = r.apply base req ∧
      n = r.line.length + e.length := by
  obtain ⟨lineLen, k, sp1, sp2, version, hfind, hmax, hchecks⟩ := checks_of_parseRequestLine h
  obtain ⟨line, e, tail, rfl, he, rfl, rfl⟩ := exists_of_findLineEnd hfind
  rw [List.append_assoc] at hchecks
  obtain ⟨r, rfl⟩ := hchecks.exists_line
  rw [parseRequestLine_line _ r he, if_neg (by omega)] at h
  simp only [Prod.mk.injEq, true_and] at h
  exact ⟨r, e, tail, rfl, he, hmax, h.1.symm, h.2.symm⟩

lemma parseRequestLine_unterminated (base : Nat) (policy : Policy) {buf : Bytes}
    (h : lf ∉ buf) (req : Request Span) :
    parseRequestLine base buf req policy =
      (if buf.length > ihtpMaxRequestLine then .errorTooLong else .incomplete, req, 0) := by
  rw [parseRequestLine, findLineEnd_unterminated h]
  dsimp only
  split <;> rfl

lemma parseRequestLine_ne_incomplete {base : Nat} {policy : Policy} {buf : Bytes}
    {req : Request Span} (h : findLineEnd buf policy ≠ .error .incomplete) :
    (parseRequestLine base buf req policy).1 ≠ .incomplete := by
  rcases findLineEnd_cases buf policy with ⟨_, hc⟩ | hc | ⟨r, hc⟩
  · exact absurd hc h
  · rw [parseRequestLine, hc]
    simp
  · rw [parseRequestLine, hc]
    dsimp only
    repeat' split
    all_goals simp

/-! ### Status line -/

lemma toNat_digit {n : Nat} (h : n < 10) : (UInt8.ofNat (0x30 + n)).toNat = 0x30 + n := by
  rw [UInt8.toNat_ofNat']
  omega

lemma StatusLine.length_line (s : StatusLine) : s.line.length = 13 + s.reason.length := by
  simp only [StatusLine.line, List.length_append, List.length_cons, s.version.length_bytes,
    statusDigits, List.length_nil]
  omega

lemma statusDigits_class (code : Nat) (h : code ≤ 599) :
    ∀ c ∈ statusDigits code, c ≠ lf ∧ c ≠ cr := by
  have hd : ∀ n, n < 10 → UInt8.ofNat (0x30 + n) ≠ lf ∧ UInt8.ofNat (0x30 + n) ≠ cr := by decide
  intro c hc
  simp only [statusDigits, List.mem_cons, List.not_mem_nil, or_false] at hc
  rcases hc with rfl | rfl | rfl
  · exact hd _ (by omega)
  · exact hd _ (by omega)
  · exact hd _ (by omega)

lemma StatusLine.notMem (s : StatusLine) : lf ∉ s.line ∧ cr ∉ s.line := by
  have hv := s.version.notMem_bytes
  have hc := statusDigits_class s.code s.code_le
  have ht : ∀ c ∈ s.reason, c ≠ lf ∧ c ≠ cr := fun c h => isFieldByte_class (s.reason_text c h)
  constructor
  · intro h
    simp only [StatusLine.line, List.mem_append, List.mem_cons] at h
    rcases h with h | h | h | h | h
    · exact hv.1 h
    · exact absurd h (by decide)
    · exact (hc _ h).1 rfl
    · exact absurd h (by decide)
    · exact (ht _ h).1 rfl
  · intro h
    simp only [StatusLine.line, List.mem_append, List.mem_cons] at h
    rcases h with h | h | h | h | h
    · exact hv.2.1 h
    · exact absurd h (by decide)
    · exact (hc _ h).2 rfl
    · exact absurd h (by decide)
    · exact (ht _ h).2 rfl

/-- The response with the components of a status line at offset `base`. -/
def StatusLine.apply (s : StatusLine) (base : Nat) (resp : Response Span) : Response Span :=
  { resp with version := s.version, statusCode := s.code, reason := ⟨base + 13, s.reason.length⟩ }

lemma parseStatusLine_line (base : Nat) {policy : Policy} {e : Bytes} (s : StatusLine)
    (he : IsLineEnding policy e) (tail : Bytes) (resp : Response Span) :
    parseStatusLine base (s.line ++ e ++ tail) resp policy =
      (.ok, s.apply base resp, s.line.length + e.length) := by
  have hfind := findLineEnd_ending tail he s.notMem.1 s.notMem.2
  have hlen := s.length_line
  set rest := s.reason ++ (e ++ tail) with hrest
  have hbuf : s.line ++ e ++ tail =
      s.version.bytes ++ (sp :: (statusDigits s.code ++ sp :: rest)) := by
    simp [StatusLine.line, hrest]
  have hv8 := s.version.length_bytes
  have htake : (s.line ++ e ++ tail).take 7 = ascii "HTTP/1." := by
    rw [hbuf, List.take_append_of_le_length (by omega), s.version.take_bytes]
  have h7 : (s.line ++ e ++ tail)[7]? = s.version.bytes[7]? := by
    rw [hbuf, List.getElem?_append_left (by omega)]
  have hget : ∀ i, (s.line ++ e ++ tail)[8 + i]? =
      (sp :: (statusDigits s.code ++ sp :: rest))[i]? := by
    intro i
    rw [hbuf, List.getElem?_append_right (by omega), hv8, Nat.add_sub_cancel_left]
  have h8 := hget 0
  have h9 := hget 1
  have h10 := hget 2
  have h11 := hget 3
  have h12 := hget 4
  have hdrop : ((s.line ++ e ++ tail).drop 13).take s.reason.length = s.reason := by
    have hd : (s.line ++ e ++ tail).drop 13 = rest := by
      rw [hbuf, show 13 = 8 + 5 from rfl, ← List.drop_drop, List.drop_append, hv8]
      simp [statusDigits, List.drop_eq_nil_of_le, hv8]
    rw [hd, hrest, List.take_left]
  simp only [statusDigits, List.cons_append, List.nil_append, List.getElem?_cons_succ,
    List.getElem?_cons_zero, Nat.add_zero] at h8 h9 h10 h11 h12
  have hge := s.code_ge
  have hle := s.code_le
  have hd9 := toNat_digit (n := s.code / 100) (by omega)
  have hd10 := toNat_digit (n := s.code / 10 % 10) (by omega)
  have hd11 := toNat_digit (n := s.code % 10) (by omega)
  have hdig : ∀ n, n < 10 → isDigit (UInt8.ofNat (0x30 + n)) = true := by decide
  have hcode : (0x30 + s.code / 100 - 0x30) * 100 + (0x30 + s.code / 10 % 10 - 0x30) * 10 +
      (0x30 + s.code % 10 - 0x30) = s.code := by omega
  have hvalid := fieldTextIsValid_iff.mpr s.reason_text
  have hlt13 : ¬s.line.length < 13 := by omega
  have hrlen : s.line.length - 13 = s.reason.length := by omega
  simp only [parseStatusLine, hfind, htake, h7, versionOfByte_bytes, h8, List.getD_eq_getElem?_getD,
    h9, h10, h11, h12, Option.getD_some, hdig _ (show s.code / 100 < 10 by omega),
    hdig _ (show s.code / 10 % 10 < 10 by omega), hdig _ (show s.code % 10 < 10 by omega), hd9, hd10,
    hd11, hcode, hdrop, hvalid, hrlen, bne_self_eq_false, Bool.or_self, Bool.not_true,
    Bool.false_eq_true, if_false, StatusLine.apply, Bool.and_false, Bool.or_false,
    decide_eq_true_eq, hlt13]
  rw [if_neg (by simp; omega)]

lemma statusDigits_of_digits {x y z : UInt8} (hx : isDigit x = true) (hy : isDigit y = true)
    (hz : isDigit z = true) :
    statusDigits ((x.toNat - 0x30) * 100 + (y.toNat - 0x30) * 10 + (z.toNat - 0x30)) = [x, y, z] := by
  rw [isDigit_iff] at hx hy hz
  have key : ∀ {b : UInt8} {n : Nat}, b.toNat = 0x30 + n → UInt8.ofNat (0x30 + n) = b := by
    intro b n h
    rw [← h, UInt8.ofNat_toNat]
  rw [statusDigits, key (b := x) (by omega), key (b := y) (by omega), key (b := z) (by omega)]

/-- What a status line is checked for. -/
structure StatusLineChecks (buf : Bytes) (lineLen : Nat) (version : HttpVersion) : Prop where
  lineLen_ge : 13 ≤ lineLen
  magic : buf.take 7 = ascii "HTTP/1."
  minor : versionOfByte buf[7]? = some version
  space : buf[8]? = some sp
  digits : isDigit (buf.getD 9 0) = true ∧ isDigit (buf.getD 10 0) = true ∧
    isDigit (buf.getD 11 0) = true
  code : 100 ≤ ((buf.getD 9 0).toNat - 0x30) * 100 + ((buf.getD 10 0).toNat - 0x30) * 10 +
      ((buf.getD 11 0).toNat - 0x30) ∧
    ((buf.getD 9 0).toNat - 0x30) * 100 + ((buf.getD 10 0).toNat - 0x30) * 10 +
      ((buf.getD 11 0).toNat - 0x30) ≤ 599
  reasonSpace : buf[12]? = some sp
  reason : 13 < lineLen → fieldTextIsValid ((buf.drop 13).take (lineLen - 13)) = true

lemma checks_of_parseStatusLine {base n : Nat} {policy : Policy} {buf : Bytes}
    {resp resp' : Response Span} (h : parseStatusLine base buf resp policy = (.ok, resp', n)) :
    ∃ lineLen k version, findLineEnd buf policy = .ok (lineLen, k) ∧
      StatusLineChecks buf lineLen version := by
  rw [parseStatusLine] at h
  split at h
  · rename_i hfind
    rcases findLineEnd_cases buf policy with ⟨_, hc⟩ | hc | ⟨_, hc⟩ <;> rw [hc] at hfind <;>
      cases hfind <;> cases h
  · rename_i lineLen k hfind
    split at h; · cases h
    rename_i hpre
    split at h; · cases h
    rename_i version hversion
    dsimp only at h
    split at h; · cases h
    rename_i h8
    split at h; · cases h
    rename_i hdigits
    split at h; · cases h
    rename_i hrange
    split at h; · cases h
    rename_i h12
    split at h; · cases h
    rename_i htext
    rw [Bool.or_eq_true, decide_eq_true_eq, bne_iff_ne, not_or, not_not, not_lt] at hpre
    simp only [Bool.or_eq_true, Bool.not_eq_true', not_or, Bool.not_eq_false] at hdigits
    simp only [Bool.or_eq_true, decide_eq_true_eq, not_or, not_lt] at hrange
    refine ⟨lineLen, k, version, hfind, hpre.1, hpre.2, hversion, by simpa using h8,
      ⟨hdigits.1.1, hdigits.1.2, hdigits.2⟩, hrange, by simpa using h12, fun hlen => ?_⟩
    simpa [hlen] using htext

lemma exists_five {xs : Bytes} (h : 5 ≤ xs.length) :
    ∃ b₀ b₁ b₂ b₃ b₄ rest, xs = b₀ :: b₁ :: b₂ :: b₃ :: b₄ :: rest := by
  match xs, h with
  | b₀ :: b₁ :: b₂ :: b₃ :: b₄ :: rest, _ => exact ⟨b₀, b₁, b₂, b₃, b₄, rest, rfl⟩

/-- A line that passes the checks is one of the grammar. -/
lemma StatusLineChecks.exists_line {line tail : Bytes} {version : HttpVersion}
    (h : StatusLineChecks (line ++ tail) line.length version) : ∃ s : StatusLine, s.line = line := by
  obtain ⟨hlen, hmagic, hminor, h8, ⟨h9, h10, h11⟩, hcode, h12, htext⟩ := h
  have hget : ∀ i, i < line.length → (line ++ tail)[i]? = (line)[i]? := fun i hi =>
    List.getElem?_append_left hi
  have hv : line.take 8 = version.bytes := by
    rw [List.take_append_of_le_length (by omega)] at hmagic
    apply exists_version (by rw [List.length_take]; omega)
    · rw [List.take_take]
      exact hmagic
    · rw [List.getElem?_take_of_lt (by omega), ← hget 7 (by omega)]
      exact hminor
  have hfive : 5 ≤ (line.drop 8).length := by
    rw [List.length_drop]
    omega
  obtain ⟨b8, b9, b10, b11, b12, reason, hdrop⟩ := exists_five hfive
  have hline : line = version.bytes ++ b8 :: b9 :: b10 :: b11 :: b12 :: reason := by
    rw [← hv, ← hdrop, List.take_append_drop]
  have hg : ∀ i, 8 + i < line.length →
      (line ++ tail)[8 + i]? = (b8 :: b9 :: b10 :: b11 :: b12 :: reason)[i]? := by
    intro i hi
    rw [hget _ hi, ← hdrop, List.getElem?_drop]
  have hg8 := hg 0 (by omega)
  have hg9 := hg 1 (by omega)
  have hg10 := hg 2 (by omega)
  have hg11 := hg 3 (by omega)
  have hg12 := hg 4 (by omega)
  simp only [List.getElem?_cons_succ, List.getElem?_cons_zero, Nat.add_zero] at hg8 hg9 hg10 hg11 hg12
  have hrlen : line.length - 13 = reason.length := by
    rw [hline]
    simp only [List.length_append, List.length_cons, version.length_bytes]
    omega
  have hreason : ((line ++ tail).drop 13).take (line.length - 13) = reason := by
    rw [List.drop_append_of_le_length (by omega), show 13 = 8 + 5 from rfl, ← List.drop_drop, hdrop,
      show 8 + 5 = 13 from rfl, hrlen]
    simp
  rw [hg8] at h8
  rw [hg12] at h12
  rw [hreason] at htext
  simp only [List.getD_eq_getElem?_getD, hg9, hg10, hg11, Option.getD_some] at h9 h10 h11 hcode
  obtain rfl := Option.some.inj h8
  obtain rfl := Option.some.inj h12
  have hvalid : fieldTextIsValid reason = true := by
    by_cases hr : reason = []
    · rw [hr, fieldTextIsValid_iff]
      simp
    · have hpos := List.length_pos_of_ne_nil hr
      exact htext (by omega)
  refine ⟨⟨version, _, reason, hcode.1, hcode.2, fieldTextIsValid_iff.mp hvalid⟩, ?_⟩
  rw [hline]
  simp only [StatusLine.line, statusDigits_of_digits h9 h10 h11]
  rfl

lemma exists_of_parseStatusLine {base n : Nat} {policy : Policy} {buf : Bytes}
    {resp resp' : Response Span} (h : parseStatusLine base buf resp policy = (.ok, resp', n)) :
    ∃ (s : StatusLine) (e tail : Bytes), buf = s.line ++ e ++ tail ∧ IsLineEnding policy e ∧
      resp' = s.apply base resp ∧ n = s.line.length + e.length := by
  obtain ⟨lineLen, k, version, hfind, hchecks⟩ := checks_of_parseStatusLine h
  obtain ⟨line, e, tail, rfl, he, rfl, rfl⟩ := exists_of_findLineEnd hfind
  rw [List.append_assoc] at hchecks
  obtain ⟨s, rfl⟩ := hchecks.exists_line
  rw [parseStatusLine_line _ s he] at h
  simp only [Prod.mk.injEq, true_and] at h
  exact ⟨s, e, tail, rfl, he, h.1.symm, h.2.symm⟩

lemma parseStatusLine_unterminated (base : Nat) (policy : Policy) {buf : Bytes} (h : lf ∉ buf)
    (resp : Response Span) : parseStatusLine base buf resp policy = (.incomplete, resp, 0) := by
  rw [parseStatusLine, findLineEnd_unterminated h]

lemma parseStatusLine_ne_incomplete {base : Nat} {policy : Policy} {buf : Bytes}
    {resp : Response Span} (h : findLineEnd buf policy ≠ .error .incomplete) :
    (parseStatusLine base buf resp policy).1 ≠ .incomplete := by
  rcases findLineEnd_cases buf policy with ⟨_, hc⟩ | hc | ⟨r, hc⟩
  · exact absurd hc h
  · rw [parseStatusLine, hc]
    simp
  · rw [parseStatusLine, hc]
    dsimp only
    repeat' split
    all_goals simp

end IoHttpParser
