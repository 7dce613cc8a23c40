import IoHttpParser.Model.FieldPointers
import IoHttpParser.Proofs.ContentLength
import IoHttpParser.Proofs.SpanOrder

/-!
# The semantics layer stays in the buffer

On a message whose spans lie in the buffer, as every run of a stateful parser leaves them, no field
parser faults, and what it computes is what the field parser of strings computes on the bytes of the
span.
-/

namespace IoHttpParser
namespace Pointer
open Region

section Fields

variable {mem : Bytes} {p n : Nat}

lemma eqIgnoreCaseFrom_eq {lit : Bytes} {i : Nat} (hi : i + n = lit.length)
    (h : p + lit.length ≤ mem.length) :
    eqIgnoreCaseFrom mem p lit i n =
      some ((slice mem (p + i) n).map asciiLower == (lit.drop i).map asciiLower) := by
  induction n generalizing i with
  | zero =>
    rw [List.drop_eq_nil_of_le (by omega)]
    rfl
  | succ n ih =>
    obtain ⟨a, ha⟩ := exists_load (show p + i < mem.length by omega)
    obtain ⟨b, hb⟩ := exists_load (show i < lit.length by omega)
    have hdrop : lit.drop i = b :: lit.drop (i + 1) := by
      obtain ⟨hlt, rfl⟩ := List.getElem?_eq_some_iff.mp hb
      exact List.drop_eq_getElem_cons hlt
    have hrest := ih (i := i + 1) (by omega)
    rw [← Nat.add_assoc] at hrest
    unfold eqIgnoreCaseFrom
    rw [ha, bind_some, hb, bind_some, slice_succ ha, hdrop, List.map_cons, List.map_cons,
      List.cons_beq_cons, hrest]
    by_cases heq : asciiLower a = asciiLower b
    · rw [heq, bne_self_eq_false, beq_self_eq_true, Bool.true_and]
      rfl
    · rw [bne_iff_ne.mpr heq, beq_eq_false_iff_ne.mpr heq, Bool.false_and]
      rfl

lemma bytesEqIgnoreCase_eq (lit : String) {litLen : Nat} (hlit : (ascii lit).length = litLen)
    (h : p + n ≤ mem.length) :
    bytesEqIgnoreCase mem p n lit litLen =
      some (IoHttpParser.bytesEqIgnoreCase (slice mem p n) (ascii lit)) := by
  unfold bytesEqIgnoreCase IoHttpParser.bytesEqIgnoreCase
  rw [length_slice h, hlit]
  by_cases hn : n = litLen
  · rw [eqIgnoreCaseFrom_eq (by omega) (by omega), hn, bne_self_eq_false, beq_self_eq_true,
      Bool.true_and]
    rfl
  · rw [bne_iff_ne.mpr hn, beq_eq_false_iff_ne.mpr hn, Bool.false_and]
    rfl

/-- A span that lies in the buffer. -/
def Within (mem : Bytes) (s : Span) : Prop := s.start + s.len ≤ mem.length

lemma headerNameEq_eq {h : Header Span} {name : String} {nameLen : Nat}
    (hname : (ascii name).length = nameLen) (hw : Within mem h.name) :
    headerNameEq mem h name nameLen =
      some (IoHttpParser.headerNameEq (h.resolve mem) name) := by
  rw [show IoHttpParser.headerNameEq (h.resolve mem) name =
    IoHttpParser.bytesEqIgnoreCase (slice mem h.name.start h.name.len) (ascii name) from rfl,
    ← bytesEqIgnoreCase_eq name hname hw]
  unfold headerNameEq bytesEqIgnoreCase
  by_cases hn : h.name.len = nameLen
  · rw [hn]
  · rw [bne_iff_ne.mpr hn]
    rfl

/-- The trimming loops leave the trimmed bytes. -/
lemma exists_trimPart (h : p + n ≤ mem.length) :
    ∃ q k, trimPart mem p n = some (q, k) ∧ q + k ≤ mem.length ∧
      slice mem q k = Memory.trim isLws (slice mem p n) := by
  have hlead := (List.takeWhile_prefix isLws (l := slice mem p n)).length_le
  rw [length_slice h] at hlead
  have hdrop := dropWhile_slice isLws mem p n
  have hkept := (List.rdropWhile_prefix isLws (l := (slice mem p n).dropWhile isLws)).length_le
  have htrim := rdropWhile_slice isLws mem (p + ((slice mem p n).takeWhile isLws).length)
    (n - ((slice mem p n).takeWhile isLws).length)
  rw [← hdrop] at htrim
  refine ⟨p + ((slice mem p n).takeWhile isLws).length, (Memory.trim isLws (slice mem p n)).length,
    ?_, ?_, htrim.symm⟩
  · unfold trimPart
    rw [leadWhile_eq h, bind_some, sub_of_le hlead, bind_some, trailWhile_eq (by omega), bind_some,
      ← hdrop]
    rfl
  · rw [hdrop, length_slice (by omega)] at hkept
    have hlen : (Memory.trim isLws (slice mem p n)).length ≤
        n - ((slice mem p n).takeWhile isLws).length := by
      unfold Memory.trim
      rw [hdrop]
      exact hkept
    omega

end Fields

section Lists

variable {mem : Bytes} {value len : Nat} {σ : Type}

/-- An element parser at positions does what one on strings does, on every region of memory. -/
def ReadsPart (mem : Bytes) (elementAt : σ → Nat → Nat → Option (Option σ))
    (element : σ → Bytes → Option σ) : Prop :=
  ∀ s p n, p + n ≤ mem.length → elementAt s p n = some (element s (slice mem p n))

lemma listLoop_eq {elementAt : σ → Nat → Nat → Option (Option σ)} {element : σ → Bytes → Option σ}
    (helement : ReadsPart mem elementAt element) (h : value + len ≤ mem.length) (fuel : Nat)
    {pos fuel' : Nat} (hpos : pos ≤ len) (hfuel : len - pos < fuel) (hfuel' : len - pos ≤ fuel')
    (saw : Bool) (s : σ) :
    listLoop elementAt mem value len fuel pos saw s =
      some (IoHttpParser.listLoop element fuel' saw s (slice mem (value + pos) (len - pos))) := by
  induction fuel generalizing pos fuel' saw s with
  | zero => omega
  | succ fuel ih =>
    unfold listLoop
    by_cases hlt : pos < len
    · have hw : value + pos + (len - pos) ≤ mem.length := by omega
      have hne : slice mem (value + pos) (len - pos) ≠ [] := by
        apply List.ne_nil_of_length_pos
        rw [length_slice hw]
        omega
      obtain ⟨m, rfl⟩ : ∃ m, fuel' = m + 1 := ⟨fuel' - 1, by omega⟩
      rw [if_pos hlt, listLoop_succ hne]
      dsimp only
      have hskip := (List.takeWhile_prefix (· != comma)
        (l := slice mem (value + pos) (len - pos))).length_le
      have hpart := takeWhile_slice (· != comma) mem (value + pos) (len - pos)
      have hrest := dropWhile_slice (· != comma) mem (value + pos) (len - pos)
      rw [length_slice hw] at hskip
      rw [sub_of_le hpos, bind_some, leadWhile_eq hw, bind_some]
      generalize ((slice mem (value + pos) (len - pos)).takeWhile (· != comma)).length = k
        at hskip hpart hrest
      rw [Region.add_sub, bind_some]
      obtain ⟨q, j, htrim, hqj, hslice⟩ := exists_trimPart
        (show value + pos + k ≤ mem.length by omega)
      rw [htrim, bind_some]
      dsimp only
      rw [helement s q j hqj, hslice, ← hpart, bind_some]
      cases helem : element s
          (Memory.trim isLws ((slice mem (value + pos) (len - pos)).takeWhile (· != comma))) with
      | none => rfl
      | some s' =>
        dsimp only
        by_cases hend : pos + k < len
        · -- the scan stopped in front of a comma
          obtain ⟨c, hc⟩ := exists_load (show value + (pos + k) < mem.length by omega)
          have hlen : len - pos - k = len - (pos + k + 1) + 1 := by omega
          have hcons : slice mem (value + pos + k) (len - pos - k) =
              c :: slice mem (value + (pos + k + 1)) (len - (pos + k + 1)) := by
            rw [hlen, Nat.add_assoc value pos k, slice_succ hc, Nat.add_assoc value (pos + k) 1]
          rw [hcons] at hrest
          have hcomma := Memory.head?_dropWhile_false (slice mem (value + pos) (len - pos)) c
            (by rw [hrest]; rfl)
          rw [bne_eq_false_iff_eq] at hcomma
          rw [if_pos hend, hc, bind_some, hcomma, if_pos (by rfl), hrest]
          dsimp only
          by_cases hlast : pos + k + 1 = len
          · have hzero : len - (pos + k + 1) = 0 := by omega
            rw [hlast, beq_self_eq_true, ← hlast, Nat.sub_self]
            rfl
          · have hmore : (slice mem (value + (pos + k + 1)) (len - (pos + k + 1))).isEmpty = false := by
              apply List.isEmpty_eq_false_iff.mpr
              apply List.ne_nil_of_length_pos
              rw [length_slice (by omega)]
              omega
            rw [beq_eq_false_iff_ne.mpr hlast, hmore]
            exact ih (by omega) (by omega) (by omega) true s'
        · -- the scan ran to the end of the value
          have hstop : pos + k = len := by omega
          have hnil : len - pos - k = 0 := by omega
          rw [hnil] at hrest
          have hdone := ih (Nat.le_refl len) (by omega) (show len - len ≤ 0 by omega) true s'
          rw [Nat.sub_self] at hdone
          rw [if_neg hend, hrest, hstop]
          exact hdone
    · obtain rfl : pos = len := by omega
      rw [if_neg hlt, Nat.sub_self]
      cases fuel' <;> rfl

lemma parseList_eq {elementAt : σ → Nat → Nat → Option (Option σ)} {element : σ → Bytes → Option σ}
    (helement : ReadsPart mem elementAt element) (h : value + len ≤ mem.length) (s : σ) :
    parseList elementAt mem s value len =
      some (IoHttpParser.parseList element s (slice mem value len)) := by
  unfold parseList IoHttpParser.parseList
  have hloop := listLoop_eq helement h (len + 1) (Nat.zero_le len) (by omega)
    (show len - 0 ≤ len by omega) false s
  rw [length_slice h]
  exact hloop

end Lists

section Parsers

variable {mem : Bytes} {value len : Nat}

lemma isEmpty_slice (h : value + len ≤ mem.length) : (slice mem value len).isEmpty = (len == 0) := by
  rw [Bool.eq_iff_iff, List.isEmpty_iff_length_eq_zero, length_slice h, beq_iff_eq]

lemma transferEncodingElement_reads (mem : Bytes) :
    ReadsPart mem (transferEncodingElement mem) IoHttpParser.transferEncodingElement := by
  intro s p n h
  unfold transferEncodingElement IoHttpParser.transferEncodingElement
  rw [isEmpty_slice h]
  refine ite_eq_some fun _ => ?_
  rw [memchr_eq semicolon h, bind_some]
  cases hm : Memory.memchr semicolon (slice mem p n) with
  | none =>
    dsimp only [Option.map_none]
    rw [bind_some, isEmpty_slice h]
    refine ite_eq_some fun _ => ?_
    rw [allAt_eq h, bind_some]
    refine ite_eq_some fun _ => ?_
    rw [bytesEqIgnoreCase_eq "chunked" (by decide) h, bind_some]
    exact ite_eq_some fun _ => rfl
  | some i =>
    have hi := memchr_lt hm
    rw [length_slice h] at hi
    have hle := (List.rdropWhile_prefix isLws (l := slice mem p i)).length_le
    rw [length_slice (by omega)] at hle
    obtain ⟨j, hji, hcoding⟩ : ∃ j, j ≤ i ∧ (slice mem p i).rdropWhile isLws = slice mem p j :=
      ⟨_, hle, rdropWhile_slice isLws mem p i⟩
    have hj : p + j ≤ mem.length := by omega
    dsimp only [Option.map_some]
    rw [Region.add_sub, bind_some, trailWhile_eq (by omega), bind_some]
    simp only [take_slice hi.le, hcoding, length_slice hj, isEmpty_slice hj]
    refine ite_eq_some fun _ => ?_
    rw [allAt_eq hj, bind_some]
    refine ite_eq_some fun _ => ?_
    rw [bytesEqIgnoreCase_eq "chunked" (by decide) hj, bind_some]
    exact ite_eq_some fun _ => rfl

lemma connectionElement_reads (mem : Bytes) :
    ReadsPart mem (connectionElement mem) IoHttpParser.connectionElement := by
  intro s p n h
  unfold connectionElement IoHttpParser.connectionElement
  rw [isEmpty_slice h, allAt_eq h, bytesEqIgnoreCase_eq "close" (by decide) h,
    bytesEqIgnoreCase_eq "keep-alive" (by decide) h, bytesEqIgnoreCase_eq "upgrade" (by decide) h]
  simp only [bind_some]
  by_cases hn : (n == 0) = true
  · rw [if_pos hn, hn]
    rfl
  · rw [if_neg hn, Bool.eq_false_iff.mpr hn, Bool.false_or]
    refine ite_eq_some fun _ => ?_
    exact ite_eq_some fun _ => ite_eq_some fun _ => ite_eq_some fun _ => rfl

lemma trailerElement_reads (mem : Bytes) :
    ReadsPart mem (trailerElement mem) IoHttpParser.trailerElement := by
  intro s p n h
  unfold trailerElement IoHttpParser.trailerElement
  rw [isEmpty_slice h, allAt_eq h, bind_some]
  by_cases hn : (n == 0) = true
  · rw [if_pos hn, hn]
    rfl
  · rw [if_neg hn, Bool.eq_false_iff.mpr hn, Bool.false_or]
    exact ite_eq_some fun _ => rfl

lemma parseTransferEncoding_eq (h : value + len ≤ mem.length) :
    parseTransferEncoding mem value len =
      some (IoHttpParser.parseTransferEncoding (slice mem value len)) := by
  unfold parseTransferEncoding IoHttpParser.parseTransferEncoding
  rw [parseList_eq (transferEncodingElement_reads mem) h, bind_some]
  rcases IoHttpParser.parseList IoHttpParser.transferEncodingElement ⟨false, 0⟩
    (slice mem value len) with ⟨_ | _, s⟩ <;> rfl

lemma parseConnectionHeader_eq (h : value + len ≤ mem.length) (s : ConnectionOptions) :
    parseConnectionHeader mem value len s =
      some (IoHttpParser.parseConnectionHeader (slice mem value len) s) :=
  parseList_eq (connectionElement_reads mem) h s

lemma parseTrailerHeader_eq (h : value + len ≤ mem.length) :
    parseTrailerHeader mem value len =
      some (IoHttpParser.parseTrailerHeader (slice mem value len)) := by
  unfold parseTrailerHeader IoHttpParser.parseTrailerHeader
  rw [parseList_eq (trailerElement_reads mem) h]
  rfl

lemma parseExpectHeader_eq (h : value + len ≤ mem.length) :
    parseExpectHeader mem value len =
      some (IoHttpParser.parseExpectHeader (slice mem value len)) := by
  obtain ⟨q, k, htrim, hqk, hslice⟩ := exists_trimPart h
  unfold parseExpectHeader IoHttpParser.parseExpectHeader
  rw [htrim, bind_some]
  dsimp only
  rw [← hslice, isEmpty_slice hqk, bytesEqIgnoreCase_eq "100-continue" (by decide) hqk, bind_some]
  exact ite_eq_some fun _ => rfl

end Parsers

section Headers

variable {mem : Bytes} {f : Framing} {v : Span} {h : Header Span}

lemma read_eq_slice : v.read mem = slice mem v.start v.len := rfl

lemma onTransferEncoding_eq (f : Framing) (hv : Within mem v) :
    onTransferEncoding mem f v = some (f.onTransferEncoding (v.read mem)) := by
  unfold onTransferEncoding Framing.onTransferEncoding
  rw [parseTransferEncoding_eq hv, bind_some, read_eq_slice]
  cases IoHttpParser.parseTransferEncoding (slice mem v.start v.len) <;> rfl

lemma onContentLength_eq (f : Framing) (hv : Within mem v) :
    onContentLength mem f v = some (f.onContentLength (v.read mem)) := by
  unfold onContentLength Framing.onContentLength
  rw [parseContentLength_eq hv, bind_some, read_eq_slice]
  cases IoHttpParser.parseContentLength (slice mem v.start v.len) with
  | none => rfl
  | some n => exact ite_eq_some fun _ => rfl

lemma onConnection_eq (f : Framing) (hv : Within mem v) :
    onConnection mem f v = some (f.onConnection (v.read mem)) := by
  unfold onConnection Framing.onConnection
  rw [parseConnectionHeader_eq hv, bind_some, read_eq_slice]
  rcases IoHttpParser.parseConnectionHeader (slice mem v.start v.len) f.connection with ⟨_ | _, c⟩ <;>
    rfl

lemma onUpgrade_eq (f : Framing) (hv : Within mem v) :
    onUpgrade mem f v = some (f.onUpgrade (v.read mem)) := by
  unfold onUpgrade Framing.onUpgrade
  rw [allAt_eq hv, bind_some]
  exact ite_eq_some fun _ => rfl

lemma onHost_eq (f : Framing) (hv : Within mem v) :
    onHost f v = some (f.onHost (v.read mem)) := by
  have hlen : (v.read mem).length = v.len := length_slice hv
  unfold onHost Framing.onHost
  rw [hlen]
  exact ite_eq_some fun _ => rfl

lemma onExpect_eq (f : Framing) (hv : Within mem v) :
    onExpect mem f v = some (match IoHttpParser.parseExpectHeader (v.read mem) with
      | none => none
      | some e => some ({ f with hasExpect := true }, e)) := by
  unfold onExpect
  rw [parseExpectHeader_eq hv, bind_some]
  change _ = some (match IoHttpParser.parseExpectHeader (slice mem v.start v.len) with
    | none => _
    | some e => _)
  cases IoHttpParser.parseExpectHeader (slice mem v.start v.len) <;> rfl

lemma onTrailer_eq (f : Framing) (hv : Within mem v) :
    onTrailer mem f v = some (f.onTrailer (v.read mem)) := by
  unfold onTrailer Framing.onTrailer
  rw [parseTrailerHeader_eq hv, bind_some]
  exact ite_eq_some fun _ => rfl

/-- The strings of a header lie in the buffer. -/
structure HeaderWithin (mem : Bytes) (h : Header Span) : Prop where
  name : Within mem h.name
  value : Within mem h.value

lemma ite_some_congr {α : Type} {c : Prop} [Decidable c] {x y : Option α} {a b : α}
    (hx : x = some a) (hy : y = some b) : (if c then x else y) = some (if c then a else b) := by
  rw [hx, hy]
  exact (apply_ite some c a b).symm

lemma requestHeader_eq (s : Framing × Bool) (hw : HeaderWithin mem h) :
    requestHeader mem s h = some (IoHttpParser.requestHeader s (h.resolve mem)) := by
  have hv := hw.value
  have hname {name : String} {n : Nat} (hn : (ascii name).length = n) := headerNameEq_eq hn hw.name
  unfold requestHeader IoHttpParser.requestHeader
  dsimp only
  rw [hname (by decide : (ascii "transfer-encoding").length = 17),
    hname (by decide : (ascii "content-length").length = 14),
    hname (by decide : (ascii "connection").length = 10),
    hname (by decide : (ascii "upgrade").length = 7), hname (by decide : (ascii "host").length = 4),
    hname (by decide : (ascii "expect").length = 6), hname (by decide : (ascii "trailer").length = 7),
    onTransferEncoding_eq s.1 hv, onContentLength_eq s.1 hv, onConnection_eq s.1 hv,
    onUpgrade_eq s.1 hv, onHost_eq s.1 hv, onExpect_eq s.1 hv, onTrailer_eq s.1 hv]
  simp only [bind_some, Option.map_some]
  refine ite_some_congr rfl (ite_some_congr rfl (ite_some_congr rfl (ite_some_congr rfl
    (ite_some_congr rfl (ite_some_congr rfl (ite_some_congr rfl rfl))))))

lemma responseHeader_eq (f : Framing) (hw : HeaderWithin mem h) :
    responseHeader mem f h = some (IoHttpParser.responseHeader f (h.resolve mem)) := by
  have hv := hw.value
  have hname {name : String} {n : Nat} (hn : (ascii name).length = n) := headerNameEq_eq hn hw.name
  unfold responseHeader IoHttpParser.responseHeader
  rw [hname (by decide : (ascii "transfer-encoding").length = 17),
    hname (by decide : (ascii "content-length").length = 14),
    hname (by decide : (ascii "connection").length = 10),
    hname (by decide : (ascii "upgrade").length = 7), hname (by decide : (ascii "trailer").length = 7),
    onTransferEncoding_eq f hv, onContentLength_eq f hv, onConnection_eq f hv, onUpgrade_eq f hv,
    onTrailer_eq f hv]
  simp only [bind_some]
  refine ite_some_congr rfl (ite_some_congr rfl (ite_some_congr rfl (ite_some_congr rfl
    (ite_some_congr rfl rfl))))

lemma headersLoop_eq {σ : Type} {stepAt : σ → Header Span → Option (Option σ)}
    {step : σ → Header Bytes → Option σ} {hs : List (Header Span)}
    (hstep : ∀ s, ∀ h ∈ hs, stepAt s h = some (step s (h.resolve mem))) (s : σ) :
    headersLoop stepAt s hs = some (IoHttpParser.headersLoop step s (hs.map (Header.resolve mem))) := by
  induction hs generalizing s with
  | nil => rfl
  | cons h hs ih =>
    unfold headersLoop
    rw [List.map_cons, IoHttpParser.headersLoop, hstep s h List.mem_cons_self, bind_some]
    cases step s (h.resolve mem) with
    | none => rfl
    | some s' => exact ih (fun s h hh => hstep s h (List.mem_cons_of_mem _ hh)) s'

end Headers

/-! ### The decision behind the loop -/

section Resolve

variable (mem : Bytes) (f : Framing) (policy : Policy)

lemma ite_map {α β : Type} {c : Prop} [Decidable c] (g : α → β) {a b : α} {a' b' : β}
    (ha : a' = g a) (hb : b' = g b) :
    (if c then a' else b') = g (if c then a else b) := by
  subst ha hb
  exact (apply_ite g c a b).symm

lemma requestConnection_resolve (req : Request Span) :
    f.requestConnection (req.resolve mem) = (f.requestConnection req).resolve mem :=
  ite_map _ rfl (ite_map _ rfl rfl)

lemma requestBodyMode_resolve (req : Request Span) :
    f.requestBodyMode (req.resolve mem) = (f.requestBodyMode req).resolve mem :=
  ite_map _ rfl (ite_map _ rfl rfl)

lemma requestPersistence_resolve (req : Request Span) :
    f.requestPersistence (req.resolve mem) = (f.requestPersistence req).resolve mem := by
  obtain ⟨method, methodStr, path, version, headers, bodyMode, contentLength, keepAlive,
    protocolUpgrade, expectsContinue, hasTrailerFields⟩ := req
  unfold Framing.requestPersistence
  cases f.hasExpect <;> cases (f.connection.close || f.connection.keepAlive) <;> cases version <;> rfl

lemma requestOutcome_resolve (req : Request Span) :
    f.requestOutcome policy (req.resolve mem) =
      (f.requestOutcome policy req).map id (Request.resolve mem) := by
  unfold Framing.requestOutcome
  refine ite_map _ rfl (ite_map _ rfl (ite_map _ rfl (ite_map _ rfl ?_)))
  rw [requestConnection_resolve, requestBodyMode_resolve]
  refine ite_map _ rfl ?_
  rw [requestPersistence_resolve]
  rfl

lemma responseConnection_resolve (resp : Response Span) :
    f.responseConnection (resp.resolve mem) = (f.responseConnection resp).resolve mem :=
  ite_map _ rfl (ite_map _ rfl rfl)

lemma responseBodyMode_resolve (resp : Response Span) :
    f.responseBodyMode (resp.resolve mem) = (f.responseBodyMode resp).resolve mem :=
  ite_map _ rfl (ite_map _ rfl (ite_map _ rfl rfl))

lemma responsePersistence_resolve (resp : Response Span) :
    f.responsePersistence (resp.resolve mem) = (f.responsePersistence resp).resolve mem := by
  unfold Framing.responsePersistence
  have hstatus : (resp.resolve mem).statusCode = resp.statusCode := rfl
  rw [hstatus]
  cases resp.statusCode == 101 && f.hasUpgrade && f.connection.upgrade && !f.connection.close with
  | true => exact ite_map (Response.resolve mem) rfl rfl
  | false => exact ite_map (Response.resolve mem) rfl rfl

lemma responseOutcome_resolve (resp : Response Span) :
    f.responseOutcome policy (resp.resolve mem) =
      (f.responseOutcome policy resp).map id (Response.resolve mem) := by
  unfold Framing.responseOutcome
  refine ite_map _ rfl (ite_map _ rfl ?_)
  rw [responseConnection_resolve, responseBodyMode_resolve]
  refine ite_map _ rfl ?_
  rw [responsePersistence_resolve]
  rfl
end Resolve


/-! ### Messages left by the parser -/

/-- A call of `apply_semantics` on spans: it does not fault, decides what the decision on strings
is, and leaves every span where it was. -/
structure Applied {msg : Type → Type} (p : PointerParser (msg Span)) (resolve : msg Span → msg Bytes)
    (call : Option (Status × msg Span)) (m : msg Span) (decision : Status × msg Bytes) : Prop where
  no_fault : call.map (Prod.map id resolve) = some decision
  spans : ∀ r, call = some r → p.spans .done r.2 = p.spans .done m

section Messages

variable {mem : Bytes}

lemma requestApplySemantics_eq {req : Request Span} (hw : ∀ h ∈ req.headers, HeaderWithin mem h)
    (policy : Option Policy) :
    (requestApplySemantics mem req policy).map (Prod.map id (Request.resolve mem)) =
      some (IoHttpParser.requestApplySemantics (req.resolve mem) policy) := by
  have hheaders : IoHttpParser.headersLoop IoHttpParser.requestHeader
      (.init, (req.resolve mem).expectsContinue) (req.resolve mem).headers =
      IoHttpParser.headersLoop IoHttpParser.requestHeader (.init, req.expectsContinue)
        (req.headers.map (Header.resolve mem)) := rfl
  unfold requestApplySemantics IoHttpParser.requestApplySemantics
  rw [headersLoop_eq (fun s h hh => requestHeader_eq s (hw h hh)), bind_some, hheaders]
  cases IoHttpParser.headersLoop IoHttpParser.requestHeader (.init, req.expectsContinue)
      (req.headers.map (Header.resolve mem)) with
  | error s => rfl
  | ok s =>
    have hresolve := requestOutcome_resolve mem s.1 (resolvePolicy policy)
      { req with expectsContinue := s.2 }
    exact congrArg some hresolve.symm

lemma responseApplySemantics_eq {resp : Response Span} (hw : ∀ h ∈ resp.headers, HeaderWithin mem h)
    (policy : Option Policy) :
    (responseApplySemantics mem resp policy).map (Prod.map id (Response.resolve mem)) =
      some (IoHttpParser.responseApplySemantics (resp.resolve mem) policy) := by
  have hheaders : IoHttpParser.headersLoop IoHttpParser.responseHeader .init
      (resp.resolve mem).headers =
      IoHttpParser.headersLoop IoHttpParser.responseHeader .init
        (resp.headers.map (Header.resolve mem)) := rfl
  unfold responseApplySemantics IoHttpParser.responseApplySemantics
  rw [headersLoop_eq (fun f h hh => responseHeader_eq f (hw h hh)), bind_some, hheaders]
  cases IoHttpParser.headersLoop IoHttpParser.responseHeader .init
      (resp.headers.map (Header.resolve mem)) with
  | error f => rfl
  | ok f => exact congrArg some (responseOutcome_resolve mem f (resolvePolicy policy) resp).symm

lemma eq_of_ite {α β : Type} {c : Prop} [Decidable c] (g : α → β) {a b : α} {y : β} (ha : g a = y)
    (hb : g b = y) : g (if c then a else b) = y := by
  rw [apply_ite g, ha, hb, ite_self]

lemma requestOutcome_spans (f : Framing) (req : Request Span) (policy : Policy) :
    requestPointers.spans .done (f.requestOutcome policy req).2 = requestPointers.spans .done req := by
  have hconnection (req : Request Span) :
      requestPointers.spans .done (f.requestConnection req) = requestPointers.spans .done req :=
    eq_of_ite _ rfl (eq_of_ite _ rfl rfl)
  have hmode (req : Request Span) :
      requestPointers.spans .done (f.requestBodyMode req) = requestPointers.spans .done req :=
    eq_of_ite _ rfl (eq_of_ite _ rfl rfl)
  have houtputs (req : Request Span) :
      requestPointers.spans .done (f.requestPersistence req) = requestPointers.spans .done req := by
    obtain ⟨method, methodStr, path, version, headers, bodyMode, contentLength, keepAlive,
      protocolUpgrade, expectsContinue, hasTrailerFields⟩ := req
    unfold Framing.requestPersistence
    cases f.hasExpect <;> cases (f.connection.close || f.connection.keepAlive) <;> cases version <;>
      rfl
  let g (r : Status × Request Span) := requestPointers.spans .done r.2
  have hbody := (hmode (f.requestConnection req)).trans (hconnection req)
  exact eq_of_ite g rfl (eq_of_ite g rfl (eq_of_ite g rfl (eq_of_ite g rfl
    (eq_of_ite g hbody ((houtputs _).trans hbody)))))

lemma responseOutcome_spans (f : Framing) (resp : Response Span) (policy : Policy) :
    responsePointers.spans .done (f.responseOutcome policy resp).2 =
      responsePointers.spans .done resp := by
  have hconnection (resp : Response Span) :
      responsePointers.spans .done (f.responseConnection resp) = responsePointers.spans .done resp :=
    eq_of_ite _ rfl (eq_of_ite _ rfl rfl)
  have hmode (resp : Response Span) :
      responsePointers.spans .done (f.responseBodyMode resp) = responsePointers.spans .done resp :=
    eq_of_ite _ rfl (eq_of_ite _ rfl (eq_of_ite _ rfl rfl))
  have houtputs (resp : Response Span) :
      responsePointers.spans .done (f.responsePersistence resp) = responsePointers.spans .done resp := by
    unfold Framing.responsePersistence
    cases resp.statusCode == 101 && f.hasUpgrade && f.connection.upgrade && !f.connection.close with
    | true => exact eq_of_ite (responsePointers.spans .done) rfl rfl
    | false => exact eq_of_ite (responsePointers.spans .done) rfl rfl
  let g (r : Status × Response Span) := responsePointers.spans .done r.2
  have hbody := (hmode (f.responseConnection resp)).trans (hconnection resp)
  exact eq_of_ite g rfl (eq_of_ite g rfl (eq_of_ite g hbody ((houtputs _).trans hbody)))

lemma applied_request {req : Request Span} (hw : ∀ h ∈ req.headers, HeaderWithin mem h)
    (policy : Option Policy) :
    Applied requestPointers (Request.resolve mem) (requestApplySemantics mem req policy) req
      (IoHttpParser.requestApplySemantics (req.resolve mem) policy) where
  no_fault := requestApplySemantics_eq hw policy
  spans r hr := by
    unfold requestApplySemantics at hr
    rw [headersLoop_eq (fun s h hh => requestHeader_eq s (hw h hh)), bind_some] at hr
    cases hl : IoHttpParser.headersLoop IoHttpParser.requestHeader (.init, req.expectsContinue)
        (req.headers.map (Header.resolve mem)) with
    | error s =>
      rw [hl] at hr
      obtain rfl := Option.some.inj hr
      rfl
    | ok s =>
      rw [hl] at hr
      obtain rfl := Option.some.inj hr
      exact requestOutcome_spans s.1 { req with expectsContinue := s.2 } (resolvePolicy policy)

lemma applied_response {resp : Response Span} (hw : ∀ h ∈ resp.headers, HeaderWithin mem h)
    (policy : Option Policy) :
    Applied responsePointers (Response.resolve mem) (responseApplySemantics mem resp policy) resp
      (IoHttpParser.responseApplySemantics (resp.resolve mem) policy) where
  no_fault := responseApplySemantics_eq hw policy
  spans r hr := by
    unfold responseApplySemantics at hr
    rw [headersLoop_eq (fun f h hh => responseHeader_eq f (hw h hh)), bind_some] at hr
    cases hl : IoHttpParser.headersLoop IoHttpParser.responseHeader .init
        (resp.headers.map (Header.resolve mem)) with
    | error f =>
      rw [hl] at hr
      obtain rfl := Option.some.inj hr
      rfl
    | ok f =>
      rw [hl] at hr
      obtain rfl := Option.some.inj hr
      exact responseOutcome_spans f resp (resolvePolicy policy)

/-- Spans in order lie in the buffer, also when more bytes have arrived. -/
lemma headersWithin {out : Type} {p : PointerParser out} {buf : Bytes} {state : ParserState} {o : out}
    (h : p.InOrder buf state o) (hphase : state.phase ≠ .error) (more : Bytes) :
    ∀ h ∈ p.headers o, HeaderWithin (buf ++ more) h := by
  intro g hg
  have hlen : buf.length ≤ (buf ++ more).length := by
    rw [List.length_append]
    exact Nat.le_add_right _ _
  have hbelow (s : Span) (hs : s ∈ [g.name, g.value]) : Within (buf ++ more) s := by
    have hmem : s ∈ p.spans state.phase o :=
      List.mem_append_right _ (List.mem_flatMap.mpr ⟨g, hg, hs⟩)
    have hlt := (h.spans hphase).below s hmem
    have hcursor := h.cursor_le
    unfold Within
    omega
  exact ⟨hbelow _ (by simp), hbelow _ (by simp)⟩

end Messages

end Pointer

open Pointer in
/-- Whatever a run of a stateful parser leaves, as long as it has not failed, `apply_semantics` can
be called on it, at once or when more bytes have arrived: it reads nothing outside the buffer, ends,
and decides what the strings of the message decide. -/
theorem applySemantics_in_buffer :
    (∀ buf state req, requestPointers.Run .zero buf state req → state.phase ≠ .error →
      ∀ more policy, Applied requestPointers (Request.resolve (buf ++ more))
        (Pointer.requestApplySemantics (buf ++ more) req policy) req
        (requestApplySemantics (req.resolve (buf ++ more)) policy)) ∧
    (∀ buf state resp, responsePointers.Run .zero buf state resp → state.phase ≠ .error →
      ∀ more policy, Applied responsePointers (Response.resolve (buf ++ more))
        (Pointer.responseApplySemantics (buf ++ more) resp policy) resp
        (responseApplySemantics (resp.resolve (buf ++ more)) policy)) := by
  constructor
  · intro buf state req hrun hphase more policy
    have hbetween := PointerParser.between_of_run requestPointers_lawful (p := requestPointers) rfl
      (fun h => by cases h) hrun
    exact applied_request (headersWithin hbetween.inOrder hphase more) policy
  · intro buf state resp hrun hphase more policy
    have hbetween := PointerParser.between_of_run responsePointers_lawful (p := responsePointers) rfl
      (fun h => by cases h) hrun
    exact applied_response (headersWithin hbetween.inOrder hphase more) policy

/-- A request head up to a place inside a header name. -/
def uploadStart : Bytes := ascii "PUT / HTTP/1.0\r\nCont"

/-- The rest of the head. -/
def uploadEnd : Bytes := ascii "ent-Length: 1\r\n\r\n"

/-- What the parser has read at its start. -/
def uploadLine : Request Span :=
  { Request.zero with method := .put, methodStr := ⟨0, 3⟩, path := ⟨4, 1⟩ }

/-- What it has read in the end. -/
def uploadSpans : Request Span := { uploadLine with headers := [⟨⟨16, 14⟩, ⟨32, 1⟩⟩] }

/-- The request it declares. -/
def uploadRequest : Request Bytes :=
  { method := .put, methodStr := ascii "PUT", path := ascii "/", version := .http10
    headers := [⟨ascii "Content-Length", ascii "1"⟩]
    bodyMode := .fixed, contentLength := 1, keepAlive := false, protocolUpgrade := false
    expectsContinue := false, hasTrailerFields := false }

/-- The head arrives in two pieces, and the body is there when the semantics are applied. -/
theorem applySemantics_in_buffer_upload :
    Pointer.Applied requestPointers (Request.resolve ([] ++ uploadStart ++ uploadEnd ++ ascii "x"))
      (Pointer.requestApplySemantics ([] ++ uploadStart ++ uploadEnd ++ ascii "x") uploadSpans none)
      uploadSpans
      (.ok, uploadRequest) := by
  have hfirst : requestPointers.parseStatefulAt (parserStateInit .request) ([] ++ uploadStart) .zero
      none 0 = some ⟨.incomplete, ⟨.request, .headers, 16⟩, uploadLine, 0⟩ := by
    decide +kernel
  have hsecond : requestPointers.parseStatefulAt ⟨.request, .headers, 16⟩
      ([] ++ uploadStart ++ uploadEnd) uploadLine none 0 =
        some ⟨.ok, ⟨.request, .done, 37⟩, uploadSpans, 37⟩ := by
    decide +kernel
  have happlied := applySemantics_in_buffer.1 _ _ _
    (.call _ none 0 (.call _ none 0 (.init []) hfirst) hsecond) (by decide) (ascii "x") none
  have hdecision : requestApplySemantics
      (uploadSpans.resolve ([] ++ uploadStart ++ uploadEnd ++ ascii "x")) none =
        (.ok, uploadRequest) := by
    decide +kernel
  rwa [hdecision] at happlied

end IoHttpParser
