import IoHttpParser.Proofs.HeaderLines

/-!
# Which rejections are final

A rejection that depends on a terminated line stands whatever follows. The limit on a line that
is not terminated yet counts a CR that has already arrived, the limit on a terminated line does
not: a line of exactly the maximal length is rejected when the input is cut between its CR and
its LF, and accepted once the LF is there. No other rejection is revoked.
-/

namespace IoHttpParser
open Memory Incremental

/-- A header block of which everything but the LF of a maximal line has arrived. -/
def HeaderCut (policy : Policy) (cap k : Nat) (b : Bytes) : Prop :=
  ∃ w line k', b = w ++ (line ++ [cr]) ∧ HeaderLines policy cap k w k' ∧
    line.length = ihtpMaxHeaderLine ∧
    ((∃ f : FieldLine, f.line = line ∧ k' < cap) ∨
      ∃ f : FoldLine, f.line = line ∧ policy.rejectObsFold = false ∧ 0 < k')

/-- The same of a request head, whose maximal line may be the request line. -/
def RequestCut (policy : Policy) (b : Bytes) : Prop :=
  (∃ r : RequestLine policy.allowSpacesInUri,
    r.line.length = ihtpMaxRequestLine ∧ b = r.line ++ [cr]) ∨
  ∃ (r : RequestLine policy.allowSpacesInUri) (e w : Bytes),
    IsLineEnding policy e ∧ r.line.length ≤ ihtpMaxRequestLine ∧ b = r.line ++ e ++ w ∧
      HeaderCut policy ihtpMaxHeaders 0 w

/-- The same of a response head; a status line has no limit. -/
def ResponseCut (policy : Policy) (b : Bytes) : Prop :=
  ∃ (s : StatusLine) (e w : Bytes), IsLineEnding policy e ∧ b = s.line ++ e ++ w ∧
    HeaderCut policy ihtpMaxHeaders 0 w

/-! ### One line -/

section Line

variable {cap base n : Nat} {policy : Policy} {hs : List (Header Span)}
  {line e tail b s rest : Bytes} {st : Status}

/-- A prefix of an input that starts with a terminated line holds that line, or stops before
its LF. -/
lemma prefix_of_terminated (he : IsLineEnding policy e) (hl : lf ∉ line)
    (h : b ++ s = line ++ e ++ tail) :
    (∃ tail', b = line ++ e ++ tail') ∨
      lf ∉ b ∧ (b <+: line ∨ e = [cr, lf] ∧ b = line ++ [cr]) := by
  rcases List.append_eq_append_iff.mp h with ⟨a, hb, _⟩ | ⟨c, hb, _⟩
  · rcases List.append_eq_append_iff.mp hb.symm with ⟨a', hline, _⟩ | ⟨c', hb', hec⟩
    · refine .inr ⟨fun hm => hl ?_, .inl ⟨a', hline.symm⟩⟩
      rw [hline]
      exact List.mem_append_left _ hm
    · rcases he with rfl | ⟨_, rfl⟩
      · match c', hec with
        | [], _ => exact .inr ⟨by simpa [hb'] using hl, .inl (by simp [hb'])⟩
        | [c₁], hec =>
          obtain ⟨rfl, _⟩ : c₁ = cr ∧ a = [lf] := by simpa [eq_comm] using hec
          exact .inr ⟨by simp [hb', hl, show lf ≠ cr by decide], .inr ⟨rfl, hb'⟩⟩
        | c₁ :: c₂ :: c₃, hec =>
          obtain ⟨rfl, rfl, rfl, _⟩ : c₁ = cr ∧ c₂ = lf ∧ c₃ = [] ∧ a = [] := by
            simpa [eq_comm] using hec
          exact .inl ⟨[], by simp [hb']⟩
      · match c', hec with
        | [], _ => exact .inr ⟨by simpa [hb'] using hl, .inl (by simp [hb'])⟩
        | c₁ :: c₂, hec =>
          obtain ⟨rfl, rfl, _⟩ : c₁ = lf ∧ c₂ = [] ∧ a = [] := by simpa [eq_comm] using hec
          exact .inl ⟨[], by simp [hb']⟩
  · exact .inl ⟨c, hb⟩

lemma lineDecision_ne_more (k : Nat) : lineDecision cap policy base hs line k ≠ .more := by
  rw [lineDecision]
  repeat' split
  all_goals simp

lemma headerStep_more (h : headerStep cap policy base hs rest = .more) :
    lf ∉ rest ∧ (policy.rejectObsFold && startsLws rest) = false ∧
      rest.length ≤ ihtpMaxHeaderLine := by
  cases lineView rest with
  | unterminated hl =>
    rw [headerStep_unterminated hl] at h
    split at h; · cases h
    rename_i hfold
    split at h; · cases h
    exact ⟨hl, by simpa using hfold, by omega⟩
  | crlf line tail hl =>
    rw [headerStep_crlf hl] at h
    exact absurd h (lineDecision_ne_more 2)
  | bareLf line tail hl hcr =>
    rw [headerStep_bareLf hl hcr] at h
    split at h
    · cases h
    · exact absurd h (lineDecision_ne_more 1)

lemma startsLws_append (hb : b ≠ []) (s : Bytes) : startsLws (b ++ s) = startsLws b := by
  cases b with
  | nil => exact absurd rfl hb
  | cons c b => rfl

lemma lineDecision_accept {k : Nat} (h : ∀ st, lineDecision cap policy base hs line k ≠ .fail st) :
    (policy.rejectObsFold && startsLws line) = false ∧ line.length ≤ ihtpMaxHeaderLine := by
  rw [lineDecision] at h
  split at h
  · exact absurd rfl (h _)
  · rename_i hfold
    split at h
    · exact absurd rfl (h _)
    · exact ⟨by simpa using hfold, by omega⟩

/-- A rejected header line that a longer input saves is a maximal line short of its LF. -/
lemma headerStep_revoked (h : headerStep cap policy base hs b = .fail st)
    (h' : ∀ st, headerStep cap policy base hs (b ++ s) ≠ .fail st) :
    ∃ line n hs', b = line ++ [cr] ∧ line.length = ihtpMaxHeaderLine ∧
      lineDecision cap policy base hs line 2 = .advance n hs' := by
  have hb : b ≠ [] := by rintro rfl; cases h
  by_cases hm : headerStep cap policy base hs (b ++ s) = .more
  · obtain ⟨hl, hfold, hlen⟩ := headerStep_more hm
    rw [startsLws_append hb] at hfold
    rw [headerStep_unterminated (fun hb => hl (List.mem_append_left _ hb)), hfold,
      if_neg (by simp), if_neg (by rw [List.length_append] at hlen; omega)] at h
    cases h
  · obtain ⟨line, e, tail, hbs, hl, he, hall⟩ := exists_line_of_accept _ hm h'
    have hd := hall tail
    rw [← hbs] at hd
    rcases prefix_of_terminated he hl hbs with ⟨tail', rfl⟩ | ⟨hlb, hshape⟩
    · rw [hall tail', ← hd] at h
      exact absurd h (h' st)
    · rw [hd] at h' hm
      obtain ⟨hfold, hmax⟩ := lineDecision_accept h'
      have hstart : startsLws b = startsLws line := by
        rcases hshape with ⟨c, rfl⟩ | ⟨_, rfl⟩
        · exact (startsLws_append hb c).symm
        · cases line with
          | nil => rfl
          | cons c line => rfl
      rw [headerStep_unterminated hlb, hstart, hfold, if_neg (by simp)] at h
      split at h
      · rename_i hlong
        rcases hshape with hpre | ⟨rfl, rfl⟩
        · have hle := hpre.length_le
          omega
        · rw [List.length_append, List.length_singleton] at hlong
          have hlen : line.length = ihtpMaxHeaderLine := by omega
          cases hdec : lineDecision cap policy base hs line 2 with
          | more => exact absurd hdec hm
          | fail st => exact absurd hdec (h' st)
          | advance n hs' => exact ⟨line, n, hs', rfl, hlen, hdec⟩
          | finish n hs' =>
            have hnil := (lineDecision_finish hdec).1
            rw [hnil] at hlen
            cases hlen
      · cases h

variable (base) in
lemma headerStep_cut (hlen : line.length = ihtpMaxHeaderLine)
    (hline : (∃ f : FieldLine, f.line = line ∧ hs.length < cap) ∨
      ∃ f : FoldLine, f.line = line ∧ policy.rejectObsFold = false ∧ 0 < hs.length) :
    headerStep cap policy base hs (line ++ [cr]) = .fail .errorTooLong ∧
      ∃ hs', headerStep cap policy base hs (line ++ [cr] ++ [lf]) =
        .advance (line ++ [cr] ++ [lf]).length hs' := by
  have he : IsLineEnding policy [cr, lf] := .inl rfl
  have hcut : line ++ [cr] ++ [lf] = line ++ [cr, lf] ++ [] := by simp
  have htail : (line ++ [cr, lf] ++ []).length = line.length + [cr, lf].length := by simp
  have hlong : (line ++ [cr]).length > ihtpMaxHeaderLine := by
    rw [List.length_append, List.length_singleton]
    omega
  have htoo : lf ∉ line → (policy.rejectObsFold && startsLws (line ++ [cr])) = false →
      headerStep cap policy base hs (line ++ [cr]) = .fail .errorTooLong := by
    intro hl hfold
    rw [headerStep_unterminated (by simp [hl, show lf ≠ cr by decide]), hfold, if_neg (by simp),
      if_pos hlong]
  rw [hcut, htail]
  rcases hline with ⟨f, rfl, hk⟩ | ⟨f, rfl, hfold, hk⟩
  · refine ⟨htoo f.notMem.1 ?_, _, headerStep_field _ _ _ _ f he (by omega) hk⟩
    rw [startsLws_append f.ne_nil, f.startsLws, Bool.and_false]
  · obtain ⟨last, hlast⟩ : ∃ last, hs.getLast? = some last :=
      ⟨_, List.getLast?_eq_some_getLast (List.ne_nil_of_length_pos hk)⟩
    exact ⟨htoo f.notMem.1 (by rw [hfold, Bool.false_and]), _,
      headerStep_fold _ _ _ f hfold he (by omega) hlast⟩

/-- A rejected request line that a longer input saves is a maximal one short of its LF. -/
lemma parseRequestLine_revoked {req : Request Span}
    (h : (parseRequestLine base b req policy).1.isError = true)
    (h' : (parseRequestLine base (b ++ s) req policy).1.isError = false) :
    ∃ r : RequestLine policy.allowSpacesInUri,
      r.line.length = ihtpMaxRequestLine ∧ b = r.line ++ [cr] := by
  rcases hp : parseRequestLine base (b ++ s) req policy with ⟨st, req', n⟩
  rw [hp] at h'
  cases st with
  | ok =>
    obtain ⟨r, e, tail, hbs, he, hmax, _⟩ := exists_of_parseRequestLine hp
    rcases prefix_of_terminated he r.notMem.1 hbs with ⟨tail', rfl⟩ | ⟨hlb, hshape⟩
    · rw [parseRequestLine_line _ r he, if_neg (by omega)] at h
      cases h
    · rw [parseRequestLine_unterminated _ _ hlb] at h
      dsimp only at h
      split at h
      · rename_i hlong
        rcases hshape with hpre | ⟨_, rfl⟩
        · have hle := hpre.length_le
          omega
        · rw [List.length_append, List.length_singleton] at hlong
          exact ⟨r, by omega, rfl⟩
      · cases h
  | incomplete =>
    have hfind : findLineEnd (b ++ s) policy = .error .incomplete := by
      by_contra hne
      exact parseRequestLine_ne_incomplete hne (congrArg Prod.fst hp)
    have hl : lf ∉ b ++ s := by
      rcases findLineEnd_cases (b ++ s) policy with ⟨hl, _⟩ | hc | ⟨_, hc⟩
      · exact hl
      · rw [hc] at hfind; cases hfind
      · rw [hc] at hfind; cases hfind
    rw [parseRequestLine_unterminated _ _ hl] at hp
    rw [parseRequestLine_unterminated _ _ (fun hb => hl (List.mem_append_left _ hb))] at h
    split at hp
    · cases hp
    · rename_i hlen
      rw [List.length_append] at hlen
      rw [if_neg (by omega)] at h
      cases h
  | error | errorTooLong | errorTooManyHeaders => cases h'

lemma parseStatusLine_not_revoked {resp : Response Span}
    (h : (parseStatusLine base b resp policy).1.isError = true) :
    (parseStatusLine base (b ++ s) resp policy).1.isError = true := by
  by_contra h'
  rcases hp : parseStatusLine base (b ++ s) resp policy with ⟨st, resp', n⟩
  rw [hp] at h'
  cases st with
  | ok =>
    obtain ⟨r, e, tail, hbs, he, _⟩ := exists_of_parseStatusLine hp
    rcases prefix_of_terminated he r.notMem.1 hbs with ⟨tail', rfl⟩ | ⟨hlb, _⟩
    · rw [parseStatusLine_line _ r he] at h
      cases h
    · rw [parseStatusLine_unterminated _ _ hlb] at h
      cases h
  | incomplete =>
    have hl : lf ∉ b := by
      rcases findLineEnd_cases (b ++ s) policy with ⟨hl, _⟩ | hc | ⟨_, hc⟩
      · exact fun hb => hl (List.mem_append_left _ hb)
      · exact absurd (congrArg Prod.fst hp) (parseStatusLine_ne_incomplete (by simp [hc]))
      · exact absurd (congrArg Prod.fst hp) (parseStatusLine_ne_incomplete (by simp [hc]))
    rw [parseStatusLine_unterminated _ _ hl] at h
    cases h
  | error | errorTooLong | errorTooManyHeaders => exact h' rfl

end Line

namespace MessageParser

variable {out : Type} {p : MessageParser out} {policy : Policy} {hp : p.Lawful policy}

/-- A read that advances over everything waits for the next header line. -/
lemma not_isFail_of_advance {pos : Nat} {s : ParserPhase × out} {o : out} {xs : Bytes}
    (h : (p.reader policy hp).decide pos s xs = .advance xs.length (.headers, o)) :
    ((p.reader policy hp).read pos s xs).isFail = false := by
  have hmore : (p.reader policy hp).decide (pos + xs.length) (.headers, o) [] = .more := rfl
  rw [Reader.read_of_advance h, List.drop_length, Reader.read_of_more hmore]
  rfl

variable (hp) in
/-- A read of header lines is revocable exactly at a cut maximal line. -/
lemma revocable_headers_iff (pos : Nat) (o : out) (b : Bytes) :
    Reader.Revocable (p.reader policy hp) pos (.headers, o) b ↔
      HeaderCut policy p.capacity (p.headers o).length b := by
  constructor
  · rintro ⟨q, ⟨phase, o'⟩, rest, st, s, hr, hd, hs⟩
    obtain ⟨hph, w, rfl, hlines⟩ := headerLines_of_reach hr rfl
    obtain rfl : phase = .headers := hph
    rw [reader_decide, decide_headers, headerDecision] at hd
    have hfail : ∃ st, headerStep p.capacity policy q (p.headers o') rest = .fail st := by
      split at hd <;> cases hd
      rename_i heq
      exact ⟨_, heq⟩
    obtain ⟨st', hfail⟩ := hfail
    have hok : ∀ st, headerStep p.capacity policy q (p.headers o') (rest ++ s) ≠ .fail st := by
      intro st'' hc
      rw [Reader.read_of_fail (decide_fail_of_headerStep hc)] at hs
      cases hs
    obtain ⟨line, n, hs', rfl, hlen, hdec⟩ := headerStep_revoked hfail hok
    refine ⟨w, line, _, rfl, hlines, hlen, ?_⟩
    obtain ⟨_, _, ⟨f, hf, hcap, _⟩ | ⟨f, hf, hfold, last, hlast, _⟩⟩ := lineDecision_advance hdec
    · exact .inl ⟨f, hf, hcap⟩
    · exact .inr ⟨f, hf, hfold, List.length_pos_of_mem (List.mem_of_getLast? hlast)⟩
  · rintro ⟨w, line, k', rfl, hlines, hlen, hline⟩
    obtain ⟨o', hr, hk'⟩ := reach_of_headerLines hp hlines pos o (line ++ [cr]) rfl
    refine hr.revocable ?_
    obtain ⟨hfail, hs', hstep⟩ := headerStep_cut (pos + w.length) hlen
      (hk'.symm ▸ hline)
    exact (Reader.revocable_of_fail (decide_fail_of_headerStep hfail)).mpr
      ⟨[lf], not_isFail_of_advance (decide_of_headerStep hstep)⟩

/-- The status a call returns for an outcome. -/
def outcomeStatus : Outcome (ParserPhase × out) Status → Status
  | .more _ _ => .incomplete
  | .done _ _ => .ok
  | .fail _ _ st => st

lemma Matches.status {state : ParserState} {r : ParseResult out}
    {oc : Outcome (ParserPhase × out) Status} (h : Matches state r oc) :
    r.status = outcomeStatus oc := by
  cases oc with
  | more q s =>
    obtain rfl : r = _ := h
    rfl
  | done q s =>
    obtain rfl : r = _ := h
    rfl
  | fail q s st => exact h.1

lemma Matches.isError {state : ParserState} {r : ParseResult out}
    {oc : Outcome (ParserPhase × out) Status} (h : Matches state r oc) :
    r.status.isError = oc.isFail := by
  rw [h.status]
  cases oc with
  | more q s => rfl
  | done q s => rfl
  | fail q s st => exact h.2.1

/-- Fresh calls never take a rejection back exactly when the read is not revocable. -/
lemma final_iff {policy : Option Policy} (hp : p.Lawful (resolvePolicy policy)) {phase : ParserPhase}
    (hinit : (parserStateInit p.mode).phase = phase) (hphase : phase = .startLine ∨ phase = .headers)
    (zero : out) (b : Bytes) :
    ((p.parseStateful (parserStateInit p.mode) b zero policy 0).status.isError = true → ∀ s,
        (p.parseStateful (parserStateInit p.mode) (b ++ s) zero policy 0).status.isError = true) ↔
      ¬Reader.Revocable (p.reader _ hp) 0 (phase, zero) b := by
  subst hinit
  have h := fun buf => (parseStateful_matches hp (parserStateInit p.mode) rfl hphase buf zero
    0).isError
  rw [← Reader.fail_final_iff]
  simp only [h]
  exact Iff.rfl

variable (p policy) in
lemma startLineDecision_fail {pos : Nat} {o : out} {xs : Bytes}
    (h : (p.startLine pos xs o policy).1.isError = true) :
    p.startLineDecision policy pos o xs = .fail (p.startLine pos xs o policy).1 := by
  rcases hp : p.startLine pos xs o policy with ⟨st, o', n⟩
  rw [hp] at h
  rw [startLineDecision, hp]
  cases st with
  | ok | incomplete => cases h
  | error | errorTooLong | errorTooManyHeaders => rfl

/-- Behind a start line that is read, revocable means revocable in the headers. -/
lemma revocable_behind_iff {line e w : Bytes} {zero o : out}
    (h : (p.reader policy hp).decide 0 (.startLine, zero) (line ++ e ++ w) =
      .advance (line.length + e.length) (.headers, o)) :
    Reader.Revocable (p.reader policy hp) 0 (.startLine, zero) (line ++ e ++ w) ↔
      HeaderCut policy p.capacity (p.headers o).length w := by
  rw [Reader.revocable_of_advance h, ← List.length_append, List.drop_left]
  exact revocable_headers_iff _ _ _ _

/-- A rejected start line that can be revoked is one that some longer input saves. -/
lemma exists_saved (hp : p.Lawful policy) {zero : out} {b : Bytes}
    (h : Reader.Revocable (p.reader policy hp) 0 (.startLine, zero) b)
    (he : (p.startLine 0 b zero policy).1.isError = true) :
    ∃ s, (p.startLine 0 (b ++ s) zero policy).1.isError = false := by
  obtain ⟨s, hs⟩ := (Reader.revocable_of_fail (startLineDecision_fail p policy he)).mp h
  refine ⟨s, ?_⟩
  by_contra hc
  rw [Bool.not_eq_false] at hc
  have hf : (p.reader policy hp).decide 0 (.startLine, zero) (b ++ s) =
      .fail (p.startLine 0 (b ++ s) zero policy).1 := startLineDecision_fail p policy hc
  rw [Reader.read_of_fail hf] at hs
  cases hs

lemma revocable_request_iff (policy : Policy) (b : Bytes) :
    Reader.Revocable (requestParser.reader policy (requestParser_lawful policy)) 0
      (.startLine, .zero) b ↔ RequestCut policy b := by
  set rd := requestParser.reader policy (requestParser_lawful policy)
  have hdec : ∀ xs, rd.decide 0 (.startLine, .zero) xs =
    requestParser.startLineDecision policy 0 .zero xs := fun _ => rfl
  have hafter (r : RequestLine policy.allowSpacesInUri) {e w : Bytes} (he : IsLineEnding policy e)
      (hlen : r.line.length ≤ ihtpMaxRequestLine) :
      Reader.Revocable rd 0 (.startLine, .zero) (r.line ++ e ++ w) ↔
        HeaderCut policy ihtpMaxHeaders 0 w :=
    revocable_behind_iff (decide_requestLine policy r he hlen w)
  constructor
  · intro h
    rcases hp : parseRequestLine 0 b .zero policy with ⟨st, req, n⟩
    have hd := hdec b
    rw [startLineDecision, show requestParser.startLine = parseRequestLine from rfl, hp] at hd
    cases hst : st with
    | ok =>
      subst hst
      obtain ⟨r, e, w, rfl, he, hlen, _⟩ := exists_of_parseRequestLine hp
      exact .inr ⟨r, e, w, he, hlen, rfl, (hafter r he hlen).mp h⟩
    | incomplete =>
      subst hst
      exact absurd h (Reader.not_revocable_of_more hd)
    | error | errorTooLong | errorTooManyHeaders =>
      subst hst
      have he : (parseRequestLine 0 b .zero policy).1.isError = true := by rw [hp]; rfl
      obtain ⟨s, hs⟩ := exists_saved (requestParser_lawful policy) h he
      exact .inl (parseRequestLine_revoked he hs)
  · rintro (⟨r, hlen, rfl⟩ | ⟨r, e, w, he, hlen, rfl, hcut⟩)
    · have hl : lf ∉ r.line ++ [cr] := by simp [r.notMem.1, show lf ≠ cr by decide]
      have hp := parseRequestLine_unterminated 0 policy hl .zero
      rw [if_pos (by simp; omega)] at hp
      have hd := hdec (r.line ++ [cr])
      rw [startLineDecision, show requestParser.startLine = parseRequestLine from rfl, hp] at hd
      refine (Reader.revocable_of_fail hd).mpr ⟨[lf], ?_⟩
      have hadv := decide_requestLine policy r (.inl rfl) (by omega) []
      rw [List.append_nil, ← List.length_append] at hadv
      rw [List.append_assoc]
      exact not_isFail_of_advance hadv
    · exact (hafter r he hlen).mpr hcut

lemma revocable_response_iff (policy : Policy) (b : Bytes) :
    Reader.Revocable (responseParser.reader policy (responseParser_lawful policy)) 0
      (.startLine, .zero) b ↔ ResponseCut policy b := by
  set rd := responseParser.reader policy (responseParser_lawful policy)
  have hdec : ∀ xs, rd.decide 0 (.startLine, .zero) xs =
    responseParser.startLineDecision policy 0 .zero xs := fun _ => rfl
  have hafter (s : StatusLine) {e w : Bytes} (he : IsLineEnding policy e) :
      Reader.Revocable rd 0 (.startLine, .zero) (s.line ++ e ++ w) ↔
        HeaderCut policy ihtpMaxHeaders 0 w :=
    revocable_behind_iff (decide_statusLine policy s he w)
  constructor
  · intro h
    rcases hp : parseStatusLine 0 b .zero policy with ⟨st, resp, n⟩
    have hd := hdec b
    rw [startLineDecision, show responseParser.startLine = parseStatusLine from rfl, hp] at hd
    cases hst : st with
    | ok =>
      subst hst
      obtain ⟨s, e, w, rfl, he, _⟩ := exists_of_parseStatusLine hp
      exact ⟨s, e, w, he, rfl, (hafter s he).mp h⟩
    | incomplete =>
      subst hst
      exact absurd h (Reader.not_revocable_of_more hd)
    | error | errorTooLong | errorTooManyHeaders =>
      subst hst
      have he : (parseStatusLine 0 b .zero policy).1.isError = true := by rw [hp]; rfl
      obtain ⟨s, hs⟩ := exists_saved (responseParser_lawful policy) h he
      have hs' := parseStatusLine_not_revoked (s := s) he
      exact absurd (hs.symm.trans hs') (by decide)
  · rintro ⟨s, e, w, he, rfl, hcut⟩
    exact (hafter s he).mpr hcut

end MessageParser

/-- A call's rejection of `b` stands whatever follows `b`. -/
def RejectionFinal {α : Type} (parse : Bytes → Status × α) (b : Bytes) : Prop :=
  (parse b).1.isError = true → ∀ s, (parse (b ++ s)).1.isError = true

/-- Every rejection is final but that of a maximal line cut before its LF. -/
theorem rejectionFinal_iff (policy : Option Policy) (b : Bytes) :
    (RejectionFinal (parseRequest · policy) b ↔ ¬RequestCut (resolvePolicy policy) b) ∧
    (RejectionFinal (parseResponse · policy) b ↔ ¬ResponseCut (resolvePolicy policy) b) ∧
    ∀ maxHeaders, RejectionFinal (parseHeaders · maxHeaders policy) b ↔
      ¬HeaderCut (resolvePolicy policy) maxHeaders 0 b := by
  refine ⟨?_, ?_, fun maxHeaders => ?_⟩
  · rw [← MessageParser.revocable_request_iff]
    exact MessageParser.final_iff (requestParser_lawful _) rfl (.inl rfl) .zero b
  · rw [← MessageParser.revocable_response_iff]
    exact MessageParser.final_iff (responseParser_lawful _) rfl (.inl rfl) .zero b
  · have h := MessageParser.revocable_headers_iff (headersParser_lawful maxHeaders
      (resolvePolicy policy)) 0 [] b
    rw [show HeaderCut (resolvePolicy policy) maxHeaders 0 b ↔ _ from h.symm]
    exact MessageParser.final_iff (headersParser_lawful maxHeaders _) rfl (.inr rfl) [] b

/-- The field line `a:xx…x` with its value filling the limit. -/
def maximalLine : FieldLine where
  name := ascii "a"
  lead := []
  value := List.replicate (ihtpMaxHeaderLine - 2) 0x78
  trail := []
  name_token := ⟨by decide, by decide +kernel⟩
  lead_ows := by simp
  trail_ows := by simp
  value_text := by
    intro c hc
    rw [List.eq_of_mem_replicate hc]
    rfl
  value_trimmed := by
    apply Trimmed.of_forall
    intro c hc
    rw [List.eq_of_mem_replicate hc]
    rfl

lemma maximalLine_length : maximalLine.line.length = ihtpMaxHeaderLine := by
  simp only [FieldLine.line, maximalLine, List.append_nil, List.nil_append, List.length_append,
    List.length_cons, List.length_replicate]
  rfl

lemma parseHeaders_status (maxHeaders : Nat) (policy : Option Policy) (b : Bytes) :
    (parseHeaders b maxHeaders policy).1 =
      MessageParser.outcomeStatus (((headersParser maxHeaders).reader _ (headersParser_lawful
        maxHeaders (resolvePolicy policy))).read 0 (.headers, []) b) :=
  (MessageParser.parseStateful_matches (headersParser_lawful maxHeaders (resolvePolicy policy))
    (parserStateInit .headers) rfl (.inr rfl) b [] 0).status

lemma parseHeaders_cut (f : FieldLine) (hlen : f.line.length = ihtpMaxHeaderLine) :
    (parseHeaders (f.line ++ [cr]) 1 none).1 = .errorTooLong ∧
      (parseHeaders (f.line ++ [cr, lf] ++ [cr, lf]) 1 none).1 = .ok := by
  have hstep : headerStep 1 .strict 0 [] (f.line ++ [cr]) = .fail .errorTooLong :=
    (headerStep_cut 0 hlen (.inl ⟨f, rfl, by decide⟩)).1
  have he : IsLineEnding .strict [cr, lf] := .inl rfl
  have hfield := headerStep_field 1 0 [] [cr, lf] f he hlen.le
    (by decide)
  have hp := headersParser_lawful 1 .strict
  have hfail : ((headersParser 1).reader .strict hp).read 0 (.headers, []) (f.line ++ [cr]) =
      .fail 0 (.headers, []) .errorTooLong :=
    Reader.read_of_fail (MessageParser.decide_fail_of_headerStep (p := headersParser 1) hstep)
  have hdone : ((headersParser 1).reader .strict hp).read 0 (.headers, [])
      (f.line ++ [cr, lf] ++ [cr, lf]) =
        .done (0 + (f.line.length + 2) + 2) (.headers, [f.header 0]) := by
    have hend := MessageParser.decide_emptyLine hp (0 + (f.line.length + 2)) [f.header 0] he []
    rw [List.append_nil] at hend
    rw [Reader.read_of_advance (MessageParser.decide_of_headerStep (p := headersParser 1) hfield),
      ← List.length_append, List.drop_left, List.length_append]
    exact Reader.read_of_finish hend
  rw [parseHeaders_status, parseHeaders_status]
  exact ⟨congrArg _ hfail, congrArg _ hdone⟩

/-- A header block cut between the CR and the LF of a maximal line is rejected, and the whole
block is accepted. -/
theorem maximalLine_revoked :
    (parseHeaders (maximalLine.line ++ [cr]) 1 none).1 = .errorTooLong ∧
    (parseHeaders (maximalLine.line ++ [cr, lf] ++ [cr, lf]) 1 none).1 = .ok ∧
    ¬RejectionFinal (parseHeaders · 1 none) (maximalLine.line ++ [cr]) := by
  obtain ⟨hcut, hwhole⟩ := parseHeaders_cut maximalLine maximalLine_length
  refine ⟨hcut, hwhole, fun h => ?_⟩
  have hfin := h (by rw [hcut]; rfl) [lf, cr, lf]
  have hsplit : maximalLine.line ++ [cr] ++ [lf, cr, lf] = maximalLine.line ++ [cr, lf] ++ [cr, lf] := by
    simp only [List.append_assoc, List.cons_append, List.nil_append]
  rw [hsplit, hwhole] at hfin
  cases hfin

end IoHttpParser
