import IoHttpParser.Proofs.MessageReader

/-!
# Header lines are what the reader advances over

The positions a reader reaches in the header phase are the ends of sequences of grammatical
header lines, and it reaches the end of every such sequence.
-/

namespace IoHttpParser
open Memory Incremental

section Lines

variable {cap base : Nat} {policy : Policy} {hs : List (Header Span)} {e tail : Bytes}

variable (cap base hs tail) in
lemma headerStep_field (f : FieldLine) (he : IsLineEnding policy e)
    (hlen : f.line.length ≤ ihtpMaxHeaderLine) (hk : hs.length < cap) :
    headerStep cap policy base hs (f.line ++ e ++ tail) =
      .advance (f.line.length + e.length) (hs ++ [f.header base]) := by
  rw [headerStep_ending he f.notMem.1 f.notMem.2, lineDecision_field, if_neg (by omega),
    if_neg (by omega)]

variable (cap base tail) in
lemma headerStep_fold {last : Header Span} (f : FoldLine) (hfold : policy.rejectObsFold = false)
    (he : IsLineEnding policy e) (hlen : f.line.length ≤ ihtpMaxHeaderLine)
    (hlast : hs.getLast? = some last) :
    headerStep cap policy base hs (f.line ++ e ++ tail) =
      .advance (f.line.length + e.length)
        (hs.dropLast ++ [extendHeader last (base + f.line.length)]) := by
  rw [headerStep_ending he f.notMem.1 f.notMem.2, lineDecision_fold f hfold, if_neg (by omega),
    hlast]

end Lines

namespace MessageParser

variable {out : Type} {p : MessageParser out} {policy : Policy} {hp : p.Lawful policy}

lemma decide_of_headerStep {pos n : Nat} {o : out} {xs : Bytes} {hs : List (Header Span)}
    (h : headerStep p.capacity policy pos (p.headers o) xs = .advance n hs) :
    (p.reader policy hp).decide pos (.headers, o) xs = .advance n (.headers, p.setHeaders o hs) := by
  rw [reader_decide, decide_headers, headerDecision, h]

lemma decide_fail_of_headerStep {pos : Nat} {o : out} {xs : Bytes} {st : Status}
    (h : headerStep p.capacity policy pos (p.headers o) xs = .fail st) :
    (p.reader policy hp).decide pos (.headers, o) xs = .fail st := by
  rw [reader_decide, decide_headers, headerDecision, h]

variable (hp) in
lemma decide_emptyLine (pos : Nat) (o : out) {e : Bytes} (he : IsLineEnding policy e)
    (tail : Bytes) :
    (p.reader policy hp).decide pos (.headers, o) (e ++ tail) =
      .finish e.length (.headers, o) := by
  rw [reader_decide, decide_headers, headerDecision, headerStep_emptyLine he]
  simp only [hp.set_headers]

lemma headerLines_of_reach {pos q : Nat} {s t : ParserPhase × out} {xs rest : Bytes}
    (h : Reader.Reach (p.reader policy hp) pos s xs q t rest) (hs : s.1 = .headers) :
    t.1 = .headers ∧ ∃ w, xs = w ++ rest ∧
      HeaderLines policy p.capacity (p.headers s.2).length w (p.headers t.2).length := by
  induction h with
  | refl p' s xs => exact ⟨hs, [], rfl, .nil _⟩
  | @advance pos n q s t u xs rest hd _ ih =>
    rw [reader_decide, decide, if_neg (by simp [hs])] at hd
    obtain ⟨hs', hstep, rfl⟩ := headerDecision_advance hd
    obtain ⟨hu, w, hw, hlines⟩ := ih hs
    obtain ⟨line, e, tail, rfl, he, _, hn, hdec, _⟩ := exists_of_headerStep_advance hstep
    obtain rfl : tail = w ++ rest := by
      rw [← hw, hn, ← List.length_append, List.drop_left]
    refine ⟨hu, line ++ e ++ w, by simp [List.append_assoc], ?_⟩
    rw [hp.headers_set] at hlines
    obtain ⟨_, hlen, ⟨f, rfl, hcap, rfl⟩ | ⟨f, rfl, hfold, last, hlast, rfl⟩⟩ :=
      lineDecision_advance hdec
    · rw [List.length_append, List.length_singleton] at hlines
      exact .field f he hlen hcap hlines
    · have hpos : 0 < (p.headers s.2).length :=
        List.length_pos_of_mem (List.mem_of_getLast? hlast)
      have hk : ((p.headers s.2).dropLast ++ [extendHeader last (pos + f.line.length)]).length =
          (p.headers s.2).length := by
        rw [List.length_append, List.length_dropLast, List.length_singleton]
        omega
      rw [hk] at hlines
      exact .fold f hfold he hlen hpos hlines

lemma reach_line {pos : Nat} {s t u : ParserPhase × out} {line e w rest : Bytes}
    (hd : (p.reader policy hp).decide pos s (line ++ e ++ (w ++ rest)) =
      .advance (line.length + e.length) t)
    (h : Reader.Reach (p.reader policy hp) (pos + (line.length + e.length)) t (w ++ rest)
      (pos + (line.length + e.length) + w.length) u rest) :
    Reader.Reach (p.reader policy hp) pos s (line ++ e ++ w ++ rest) (pos + (line ++ e ++ w).length)
      u rest := by
  have hdrop : (line ++ e ++ (w ++ rest)).drop (line.length + e.length) = w ++ rest := by
    rw [← List.length_append, List.drop_left]
  have hq : pos + (line ++ e ++ w).length = pos + (line.length + e.length) + w.length := by
    simp only [List.length_append]
    omega
  rw [List.append_assoc (line ++ e), hq]
  refine .advance hd ?_
  rw [hdrop]
  exact h

variable (hp) in
lemma reach_of_headerLines {k k' : Nat} {w : Bytes} (h : HeaderLines policy p.capacity k w k')
    (pos : Nat) (o : out) (rest : Bytes) (hk : (p.headers o).length = k) :
    ∃ o', Reader.Reach (p.reader policy hp) pos (.headers, o) (w ++ rest) (pos + w.length)
      (.headers, o') rest ∧ (p.headers o').length = k' := by
  induction h generalizing pos o with
  | nil k => exact ⟨o, .refl _ _ _, hk⟩
  | @field k k' e w f he hlen hcap _ ih =>
    have hstep := headerStep_field p.capacity pos (p.headers o) (w ++ rest) f he hlen
      (by rw [hk]; exact hcap)
    obtain ⟨o', hr, hk'⟩ := ih (pos + (f.line.length + e.length))
      (p.setHeaders o (p.headers o ++ [f.header pos])) (by rw [hp.headers_set]; simp [hk])
    exact ⟨o', reach_line (decide_of_headerStep hstep) hr, hk'⟩
  | @fold k k' e w f hfold he hlen hpos _ ih =>
    obtain ⟨last, hlast⟩ : ∃ last, (p.headers o).getLast? = some last := by
      cases hl : (p.headers o).getLast? with
      | none =>
        rw [List.getLast?_eq_none_iff] at hl
        rw [hl] at hk
        simp at hk
        omega
      | some last => exact ⟨last, rfl⟩
    have hstep := headerStep_fold p.capacity pos (w ++ rest) f hfold he
      hlen hlast
    obtain ⟨o', hr, hk'⟩ := ih (pos + (f.line.length + e.length))
      (p.setHeaders o ((p.headers o).dropLast ++ [extendHeader last (pos + f.line.length)]))
      (by rw [hp.headers_set]; simp [hk]; omega)
    exact ⟨o', reach_line (decide_of_headerStep hstep) hr, hk'⟩

end MessageParser

end IoHttpParser
