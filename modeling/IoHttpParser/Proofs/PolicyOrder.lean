import IoHttpParser.Proofs.MessageReader
import IoHttpParser.Proofs.RequestFraming
import IoHttpParser.Proofs.ResponseFraming

/-!
# Relaxing the policy

What a stricter policy accepts or waits for, a laxer one reads in the same way, line by line.
-/

namespace IoHttpParser
open Memory Incremental

/-- Flag by flag, `q` rejects nothing that `p` admits. -/
structure Policy.AtMostAsStrict (q p : Policy) : Prop where
  obsFold : q.rejectObsFold = true → p.rejectObsFold = true
  bareLf : q.rejectBareLf = true → p.rejectBareLf = true
  teCl : q.rejectTeCl = true → p.rejectTeCl = true
  spaces : p.allowSpacesInUri = true → q.allowSpacesInUri = true

section Relax

variable {p q : Policy} (h : q.AtMostAsStrict p)
include h

lemma findLineEnd_relax {buf : Bytes} (hp : findLineEnd buf p ≠ .error .error) :
    findLineEnd buf q = findLineEnd buf p := by
  unfold findLineEnd at hp ⊢
  cases hm : memchr lf buf with
  | none => rfl
  | some i =>
    rw [hm] at hp
    dsimp only at hp ⊢
    by_cases hcr : (0 < i && buf[i - 1]? == some cr) = true
    · rw [if_pos hcr, if_pos hcr]
    · rw [if_neg hcr] at hp ⊢
      rw [if_neg hcr]
      have hpl : ¬p.rejectBareLf = true := by
        intro hpl
        rw [if_pos hpl] at hp
        exact hp rfl
      rw [if_neg hpl, if_neg (fun hql => hpl (h.bareLf hql))]

lemma requestTargetIsValid_relax {buf : Bytes}
    (hp : requestTargetIsValid buf p.allowSpacesInUri = true) :
    requestTargetIsValid buf q.allowSpacesInUri = true := by
  rw [requestTargetIsValid_iff] at hp ⊢
  intro c hc
  exact (hp c hc).imp_right (And.imp_left h.spaces)

lemma parseStatusLine_relax {base : Nat} {buf : Bytes} {resp : Response Span}
    (hp : (parseStatusLine base buf resp p).1.isError = false) :
    parseStatusLine base buf resp q = parseStatusLine base buf resp p := by
  have hline : findLineEnd buf q = findLineEnd buf p := by
    apply findLineEnd_relax h
    intro herr
    rw [parseStatusLine, herr] at hp
    cases hp
  unfold parseStatusLine
  rw [hline]

lemma parseRequestLine_relax {base : Nat} {buf : Bytes} {req : Request Span}
    (hp : (parseRequestLine base buf req p).1.isError = false) :
    parseRequestLine base buf req q = parseRequestLine base buf req p := by
  have hline : findLineEnd buf q = findLineEnd buf p := by
    apply findLineEnd_relax h
    intro herr
    rw [parseRequestLine, herr] at hp
    cases hp
  unfold parseRequestLine at hp ⊢
  rw [hline]
  cases hfind : findLineEnd buf p with
  | error st => cases st <;> rfl
  | ok r =>
    obtain ⟨lineLen, k⟩ := r
    rw [hfind] at hp
    dsimp only at hp ⊢
    by_cases hlong : lineLen > ihtpMaxRequestLine
    · rw [if_pos hlong, if_pos hlong]
    rw [if_neg hlong] at hp ⊢
    rw [if_neg hlong]
    cases hsp1 : findMethodSpace (buf.take lineLen) with
    | none => rfl
    | some sp1 =>
      rw [hsp1] at hp
      dsimp only at hp ⊢
      cases hsp2 : findLastCharOffset ((buf.drop (sp1 + 1)).take (lineLen - sp1 - 1)) sp with
      | none => rfl
      | some sp2 =>
        rw [hsp2] at hp
        dsimp only at hp ⊢
        by_cases hzero : (sp2 == 0) = true
        · rw [if_pos hzero, if_pos hzero]
        rw [if_neg hzero] at hp ⊢
        rw [if_neg hzero]
        cases htarget : requestTargetIsValid ((buf.drop (sp1 + 1)).take sp2) p.allowSpacesInUri with
        | false =>
          rw [htarget] at hp
          cases hp
        | true => rw [requestTargetIsValid_relax h htarget]

lemma headerStep_relax {cap base : Nat} {hs : List (Header Span)} {rest : Bytes}
    (hp : ∀ st, headerStep cap p base hs rest ≠ .fail st) :
    headerStep cap q base hs rest = headerStep cap p base hs rest := by
  cases rest with
  | nil => rfl
  | cons c rest =>
    unfold headerStep at hp ⊢
    dsimp only at hp ⊢
    have hfold : ¬(p.rejectObsFold && isLws c) = true := by
      intro hfold
      rw [if_pos hfold] at hp
      exact hp _ rfl
    have hfold' : ¬(q.rejectObsFold && isLws c) = true := by
      rw [Bool.and_eq_true] at hfold ⊢
      exact fun hq => hfold (hq.imp_left h.obsFold)
    rw [if_neg hfold] at hp ⊢
    rw [if_neg hfold', findLineEnd_relax h]
    intro herr
    rw [herr] at hp
    exact hp _ rfl

lemma headerLoop_relax {cap base count fuel pos : Nat} {hs : List (Header Span)} {rest : Bytes}
    (hp : (headerLoop cap p base count fuel pos hs rest).1.isError = false) :
    headerLoop cap q base count fuel pos hs rest = headerLoop cap p base count fuel pos hs rest := by
  induction fuel generalizing pos hs rest with
  | zero => rfl
  | succ fuel ih =>
    rw [headerLoop] at hp ⊢
    have hstep : headerStep cap q (base + pos) hs rest = headerStep cap p (base + pos) hs rest := by
      apply headerStep_relax h
      intro st hst
      rw [hst, MessageParser.headerStep_fail hst] at hp
      cases hp
    rw [headerLoop, hstep]
    cases hd : headerStep cap p (base + pos) hs rest with
    | more => rfl
    | fail st => rfl
    | finish n hs' => rfl
    | advance n hs' =>
      rw [hd] at hp
      exact ih hp

end Relax

namespace MessageParser

variable {out : Type} {m : MessageParser out} {p q : Policy}

lemma parseHeadersPhase_relax (h : q.AtMostAsStrict p) {state : ParserState} {buf : Bytes} {o : out}
    (hp : (m.parseHeadersPhase p state buf o).status.isError = false) :
    m.parseHeadersPhase q state buf o = m.parseHeadersPhase p state buf o := by
  have hloop : parseHeaderBlock state.cursor (buf.drop state.cursor) (m.headers o) m.capacity q =
      parseHeaderBlock state.cursor (buf.drop state.cursor) (m.headers o) m.capacity p := by
    apply headerLoop_relax h
    unfold parseHeadersPhase parseHeaderBlock at hp
    revert hp
    generalize headerLoop m.capacity p state.cursor _ _ 0 (m.headers o) (buf.drop state.cursor) = r
    obtain ⟨st, hs, n⟩ := r
    cases st <;> exact id
  unfold parseHeadersPhase
  rw [hloop]

/-- A call that a stricter policy does not fail is the same call under a laxer one. -/
lemma parseStateful_relax {p q : Option Policy}
    (h : (resolvePolicy q).AtMostAsStrict (resolvePolicy p))
    (hstart : ∀ base buf o, (m.startLine base buf o (resolvePolicy p)).1.isError = false →
      m.startLine base buf o (resolvePolicy q) = m.startLine base buf o (resolvePolicy p))
    {state : ParserState} {buf : Bytes} {o : out} {consumed : Nat}
    (hp : (m.parseStateful state buf o p consumed).status.isError = false) :
    m.parseStateful state buf o q consumed = m.parseStateful state buf o p consumed := by
  unfold parseStateful at hp ⊢
  by_cases hmode : state.mode ≠ m.mode
  · rw [if_pos hmode, if_pos hmode]
  rw [if_neg hmode] at hp ⊢
  rw [if_neg hmode]
  dsimp only at hp ⊢
  cases hphase : state.phase with
  | error => rfl
  | done => rfl
  | headers =>
    rw [hphase] at hp
    exact parseHeadersPhase_relax h hp
  | startLine =>
    rw [hphase] at hp
    dsimp only at hp ⊢
    have hline : m.startLine state.cursor (buf.drop state.cursor) o (resolvePolicy q) =
        m.startLine state.cursor (buf.drop state.cursor) o (resolvePolicy p) := by
      apply hstart
      cases hr : m.startLine state.cursor (buf.drop state.cursor) o (resolvePolicy p) with
      | mk st r =>
        rw [hr] at hp
        cases st with
        | ok | incomplete => rfl
        | error | errorTooLong | errorTooManyHeaders => exact hp
    rw [hline]
    cases hr : m.startLine state.cursor (buf.drop state.cursor) o (resolvePolicy p) with
    | mk st r =>
      rw [hr] at hp
      cases st with
      | ok => exact parseHeadersPhase_relax h hp
      | incomplete | error | errorTooLong | errorTooManyHeaders => rfl

end MessageParser

lemma Framing.Consistent.relax {f : Framing} {p q : Policy} {version : HttpVersion}
    (h : q.AtMostAsStrict p) (hp : f.Consistent p version) : f.Consistent q version where
  no_te_cl hq := hp.no_te_cl (by
    rw [Bool.and_eq_true] at hq ⊢
    exact hq.imp_right h.teCl)
  host := hp.host
  chunked_once := hp.chunked_once
  chunked_last := hp.chunked_last
  trailer := hp.trailer

lemma Framing.ResponseConsistent.relax {f : Framing} {p q : Policy} {statusCode : Nat}
    (h : q.AtMostAsStrict p) (hp : f.ResponseConsistent p statusCode) :
    f.ResponseConsistent q statusCode where
  no_te_cl hq := hp.no_te_cl (by
    rw [Bool.and_eq_true] at hq ⊢
    exact hq.imp_right h.teCl)
  chunked_once := hp.chunked_once
  trailer := hp.trailer

/-- Relaxing the policy never changes the meaning of what the stricter one accepted. -/
theorem relax_preserves {p q : Option Policy}
    (h : (resolvePolicy q).AtMostAsStrict (resolvePolicy p)) :
    (∀ buf, (parseRequest buf p).1 = .ok ∨ (parseRequest buf p).1 = .incomplete →
      parseRequest buf q = parseRequest buf p) ∧
    (∀ buf, (parseResponse buf p).1 = .ok ∨ (parseResponse buf p).1 = .incomplete →
      parseResponse buf q = parseResponse buf p) ∧
    (∀ buf maxHeaders, (parseHeaders buf maxHeaders p).1 = .ok ∨
        (parseHeaders buf maxHeaders p).1 = .incomplete →
      parseHeaders buf maxHeaders q = parseHeaders buf maxHeaders p) ∧
    (∀ req, (requestApplySemantics req p).1 = .ok →
      requestApplySemantics req q = requestApplySemantics req p) ∧
    ∀ resp, (responseApplySemantics resp p).1 = .ok →
      responseApplySemantics resp q = responseApplySemantics resp p := by
  have hkind {st : Status} (hst : st = .ok ∨ st = .incomplete) : st.isError = false := by
    rcases hst with rfl | rfl <;> rfl
  refine ⟨?_, ?_, ?_, ?_, ?_⟩
  · intro buf hp
    have hcall := requestParser.parseStateful_relax h (fun _ _ _ => parseRequestLine_relax h)
      (hkind hp)
    unfold parseRequest parseRequestStateful
    rw [hcall]
  · intro buf hp
    have hcall := responseParser.parseStateful_relax h (fun _ _ _ => parseStatusLine_relax h)
      (hkind hp)
    unfold parseResponse parseResponseStateful
    rw [hcall]
  · intro buf maxHeaders hp
    have hcall := (headersParser maxHeaders).parseStateful_relax h (fun _ _ _ _ => rfl) (hkind hp)
    unfold parseHeaders parseHeadersStateful
    rw [hcall]
  · intro req hp
    obtain ⟨hr, hc, hout⟩ := requestApplySemantics_ok_iff.mp (Prod.ext hp rfl)
    rw [requestApplySemantics_ok_iff.mpr ⟨hr, hc.relax h, hout⟩]
    exact Prod.ext hp.symm rfl
  · intro resp hp
    obtain ⟨hw, hc, hout⟩ := responseApplySemantics_ok_iff.mp (Prod.ext hp rfl)
    rw [responseApplySemantics_ok_iff.mpr ⟨hw, hc.relax h, hout⟩]
    exact Prod.ext hp.symm rfl

/-- The lenient policy on a request that the strict one accepts. -/
theorem relax_preserves_lenient :
    parseRequest (ascii "GET /a HTTP/1.1\r\nHost: b\r\n\r\n") (some .lenient) =
      parseRequest (ascii "GET /a HTTP/1.1\r\nHost: b\r\n\r\n") none := by
  have hle : Policy.lenient.AtMostAsStrict .strict := ⟨nofun, nofun, nofun, nofun⟩
  exact (relax_preserves (p := none) (q := some .lenient) hle).1 _ (.inl (by decide))

end IoHttpParser
