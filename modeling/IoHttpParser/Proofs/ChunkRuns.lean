import IoHttpParser.Proofs.InPlace
import IoHttpParser.Proofs.ChunkedBody

/-!
# The state of the chunked decoder

The bytes a decoder has read decide what its counters hold. The digits of a size line are never
more than sixteen, so that no size wraps around, and every iteration reads on or returns.
-/

namespace IoHttpParser
open Memory Streaming

/-! ### Size lines -/

section SizeLine

variable {w : Bytes} {c : UInt8}

lemma lastLine_concat (w : Bytes) (h : c ≠ lf) : lastLine (w ++ [c]) = lastLine w ++ [c] :=
  List.rtakeWhile_concat_pos _ w c (bne_iff_ne.mpr h)

lemma lastLine_lf (w : Bytes) : lastLine (w ++ [lf]) = [] :=
  List.rtakeWhile_concat_neg _ w lf (by decide)

lemma sizeDigits_of_hex (h : ∀ x ∈ lastLine w, isHexDigit x = true) : sizeDigits w = lastLine w :=
  List.takeWhile_eq_self_iff.mpr h

lemma sizeDigits_hex (w : Bytes) : ∀ x ∈ sizeDigits w, isHexDigit x = true :=
  fun _ hx => List.mem_takeWhile_imp hx

lemma sizeDigits_digit (h : ∀ x ∈ lastLine w, isHexDigit x = true) (hc : isHexDigit c = true)
    (hlf : c ≠ lf) : sizeDigits (w ++ [c]) = sizeDigits w ++ [c] := by
  have hall : ∀ x ∈ lastLine (w ++ [c]), isHexDigit x = true := by
    intro x hx
    rw [lastLine_concat w hlf, List.mem_append, List.mem_singleton] at hx
    cases hx with
    | inl hx => exact h x hx
    | inr hx => rwa [hx]
  rw [sizeDigits_of_hex hall, sizeDigits_of_hex h, lastLine_concat w hlf]

lemma sizeDigits_stop (hlf : c ≠ lf)
    (h : isHexDigit c = false ∨ ∃ x ∈ lastLine w, isHexDigit x = false) :
    sizeDigits (w ++ [c]) = sizeDigits w := by
  unfold sizeDigits
  rw [lastLine_concat w hlf, List.takeWhile_append]
  split
  · rename_i hlen
    have hself : (lastLine w).takeWhile isHexDigit = lastLine w :=
      (List.takeWhile_prefix isHexDigit).eq_of_length hlen
    cases h with
    | inl hc =>
      rw [List.takeWhile_cons_of_neg (by simp [hc]), List.append_nil, hself]
    | inr hx =>
      obtain ⟨x, hx, hno⟩ := hx
      rw [List.takeWhile_eq_self_iff.mp hself x hx] at hno
      cases hno
  · rfl

lemma hexValue_concat (digits : Bytes) (c : UInt8) :
    hexValue (digits ++ [c]) = hexValue digits * 16 + hexDigitValue c :=
  List.foldl_append

lemma hexValue_lt {digits : Bytes} (h : ∀ x ∈ digits, isHexDigit x = true) :
    hexValue digits < 16 ^ digits.length := by
  induction digits using List.reverseRecOn with
  | nil => exact Nat.one_pos
  | append_singleton digits c ih =>
    have hlt := ih (fun x hx => h x (List.mem_append_left _ hx))
    have hdigit := (hexDigitToU64_eq (h c (by simp))).2
    rw [hexValue_concat, List.length_append, List.length_singleton, Nat.pow_succ]
    omega

end SizeLine

/-! ### Transitions -/

namespace ChunkedDecoder

variable {w : Bytes} {d d' : ChunkedDecoder} {c : UInt8} {o : Bytes} {q : Bool}

lemma Invariant.of_sizeLine (hin : d.InSizeLine) (hk : d.hexCount ≤ 16)
    (hlen : (sizeDigits w).length = d.hexCount)
    (hsize : hexValue (sizeDigits w) = d.bytesLeftInChunk) : d.Invariant w := by
  have hlt : d.bytesLeftInChunk < 16 ^ d.hexCount := by
    rw [← hsize, ← hlen]
    exact hexValue_lt (sizeDigits_hex w)
  constructor
  · obtain h | h | h := hin <;> rw [h] <;> decide
  · exact fun _ => hk
  · exact fun _ => hlt
  · exact fun _ => hlen
  · exact fun _ => hsize
  · intro _ hk' x hx
    obtain ⟨hvalue, hdigit⟩ := hexDigitToU64_eq hx
    have hpow : 16 ^ (d.hexCount + 1) ≤ 16 ^ 16 := Nat.pow_le_pow_right (by decide) (by omega)
    rw [Nat.pow_succ] at hpow
    omega
  · intro hdata
    obtain h | h | h := hin <;> rw [h] at hdata <;> cases hdata
  · intro htrailer
    obtain h | h | h := hin <;> rw [h] at htrailer <;> cases htrailer

lemma Invariant.of_outside (hout : ¬d.InSizeLine) (hle : d.state ≤ chunkDone)
    (hdata : d.state = chunkData → 0 < d.bytesLeftInChunk)
    (htrailer : d.state = chunkTrailer → d.hexCount ≤ trailerLineLf) : d.Invariant w := by
  constructor
  · exact hle
  · exact fun h => absurd h hout
  · exact fun h => absurd h hout
  · exact fun h => absurd h hout
  · exact fun h => absurd h hout
  · exact fun h => absurd (Or.inl h) hout
  · exact hdata
  · exact htrailer

/-- The invariant, with what tells the digits of a size line from its extension. -/
structure Traced (w : Bytes) (d : ChunkedDecoder) : Prop where
  invariant : d.Invariant w
  digits : d.state = chunkSize → ∀ x ∈ lastLine w, isHexDigit x = true
  stopped : d.state = chunkExt ∨ d.state = chunkSizeLf → ∃ x ∈ lastLine w, isHexDigit x = false

lemma Traced.of_outside (hout : ¬d.InSizeLine) (hle : d.state ≤ chunkDone)
    (hdata : d.state = chunkData → 0 < d.bytesLeftInChunk)
    (htrailer : d.state = chunkTrailer → d.hexCount ≤ trailerLineLf) : d.Traced w :=
  ⟨.of_outside hout hle hdata htrailer, fun h => absurd (Or.inl h) hout,
    fun h => absurd (Or.inr h) hout⟩

lemma traced_zero (consumeTrailer : Bool) : (zero consumeTrailer).Traced [] := by
  refine ⟨.of_sizeLine (.inl rfl) (Nat.zero_le _) rfl rfl, ?_, ?_⟩
  · intro _ x hx
    cases hx
  · intro h
    cases h with
    | inl h => cases h
    | inr h => cases h

/-- A byte that ends the digits, or that follows one that did. -/
lemma Traced.stop {st : Nat} (h : d.Traced w) (hin : d.InSizeLine)
    (hst : st = chunkExt ∨ st = chunkSizeLf) (hlf : c ≠ lf)
    (hc : isHexDigit c = false ∨ ∃ x ∈ lastLine w, isHexDigit x = false) :
    { d with state := st }.Traced (w ++ [c]) := by
  have hdigits := sizeDigits_stop hlf hc
  refine ⟨.of_sizeLine (.inr hst) (h.invariant.count_le hin) ?_ ?_, ?_, ?_⟩
  · rw [hdigits]
    exact h.invariant.digits hin
  · rw [hdigits]
    exact h.invariant.size hin
  · intro hsize
    obtain rfl : st = chunkSize := hsize
    cases hst with
    | inl h => cases h
    | inr h => cases h
  · intro _
    rw [lastLine_concat w hlf]
    cases hc with
    | inl hc => exact ⟨c, by simp, hc⟩
    | inr hx =>
      obtain ⟨x, hx, hno⟩ := hx
      exact ⟨x, List.mem_append_left _ hx, hno⟩

lemma Traced.digit {b t k : Nat} {ct : Bool} (h : Traced w ⟨b, t, k, chunkSize, ct⟩)
    (hc : isHexDigit c = true) (hk : k < 16) :
    Traced (w ++ [c]) ⟨u64 (u64 (b * 16) + hexDigitToU64 c), t, k + 1, chunkSize, ct⟩ := by
  have hlf : c ≠ lf := by
    rintro rfl
    cases hc
  have hhex := h.digits rfl
  have hdigits := sizeDigits_digit hhex hc hlf
  have hlen : (sizeDigits w).length = k := h.invariant.digits (.inl rfl)
  have hsize : hexValue (sizeDigits w) = b := h.invariant.size (.inl rfl)
  have hnext : u64 (u64 (b * 16) + hexDigitToU64 c) = b * 16 + hexDigitToU64 c := by
    have hle : b * 16 + hexDigitToU64 c ≤ 2 ^ 64 - 1 := h.invariant.no_wrap rfl hk c hc
    exact u64_add_of_lt (by omega)
  rw [hnext]
  refine ⟨.of_sizeLine (.inl rfl) hk ?_ ?_, ?_, ?_⟩
  · rw [hdigits, List.length_append, hlen, List.length_singleton]
  · rw [hdigits, hexValue_concat, hsize, (hexDigitToU64_eq hc).1]
  · intro _ x hx
    rw [lastLine_concat w hlf, List.mem_append, List.mem_singleton] at hx
    cases hx with
    | inl hx => exact hhex x hx
    | inr hx => rwa [hx]
  · intro hst
    cases hst with
    | inl hst => cases hst
    | inr hst => cases hst

lemma Traced.step (h : d.Traced w) (hs : ChunkStep q d c d' o) : d'.Traced (w ++ [c]) := by
  cases hs with
  | digit hc hk => exact h.digit hc hk
  | extStart | sizeCr =>
    exact h.stop (.inl rfl) (by decide) (by decide) (.inl (by decide))
  | extByte _ hlf => exact h.stop (.inr (.inl rfl)) (.inl rfl) hlf (.inr (h.stopped (.inl rfl)))
  | extCr => exact h.stop (.inr (.inl rfl)) (.inr rfl) (by decide) (.inl (by decide))
  | dataLf =>
    have hline := lastLine_lf w
    have hdigits : sizeDigits (w ++ [lf]) = [] := by rw [sizeDigits, hline, List.takeWhile_nil]
    refine ⟨.of_sizeLine (.inl rfl) (Nat.zero_le _) ?_ ?_, ?_, ?_⟩
    · rw [hdigits]
      rfl
    · rw [hdigits]
      rfl
    · intro _ x hx
      rw [hline] at hx
      cases hx
    · intro hst
      cases hst with
      | inl hst => cases hst
      | inr hst => cases hst
  | sizeData hb | dataByte hb =>
    refine .of_outside ?_ (Nat.le_of_ble_eq_true rfl) (fun _ => Nat.pos_of_ne_zero hb) nofun
    rintro (hst | hst | hst) <;> cases hst
  | sizeDone | dataLast | dataCr | trailerDone =>
    refine .of_outside ?_ (Nat.le_of_ble_eq_true rfl) nofun nofun
    rintro (hst | hst | hst) <;> cases hst
  | sizeTrailer | trailerEnd | trailerStart | trailerByte | trailerCr | trailerLf =>
    refine .of_outside ?_ (Nat.le_of_ble_eq_true rfl) nofun (fun _ => Nat.le_of_ble_eq_true rfl)
    rintro (hst | hst | hst) <;> cases hst

lemma Traced.path {read : Bytes} (h : d.Traced w) (hp : (chunkMachine q).Path d read d' o) :
    d'.Traced (w ++ read) :=
  hp.invariant (fun h hs => h.step (feed_iff.mp hs)) h

end ChunkedDecoder

/-! ### Calls and iterations -/

section Calls

variable {consumeTrailer : Bool} {w : Bytes} {d : ChunkedDecoder} {buf : Bytes} {bufsz : Nat}
  {l l' : DecodeLoop}

/-- What the decoder out of place looks at is a path of the machine. -/
lemma exists_path_apart (d : ChunkedDecoder) (v : Bytes) :
    ∃ read, v = read ++ (decodeApart d v).rest ∧
      (chunkMachine false).Path d read (decodeApart d v).state (decodeApart d v).out := by
  by_cases hd : d.state = chunkDone
  · rw [decodeApart_done hd]
    exact ⟨[], rfl, .nil d⟩
  · rw [decodeApart_eq_run hd]
    exact Transducer.exists_path d v

lemma decodeChunked_decoder (hok : d.Ok) (h : bufsz ≤ buf.length) {r : DecodeResult}
    (hr : decodeChunked d buf bufsz = some r) :
    r.decoder = (decodeApart d (buf.take bufsz)).state := by
  obtain ⟨r', hr', href⟩ := decodeChunked_apart hok h
  obtain rfl := Option.some.inj (hr.symm.trans hr')
  exact href.decoder

/-- The bytes of every decoder that calls leave are known. -/
lemma ChunkedDecoder.Reachable.reads (hd : d.Reachable consumeTrailer) :
    ∃ w, d.Reads consumeTrailer w := by
  induction hd with
  | zero => exact ⟨[], .zero⟩
  | @call d buf bufsz r _ hsz hr ih =>
    obtain ⟨w, hw⟩ := ih
    obtain ⟨read, hread, -⟩ := exists_path_apart d (buf.take bufsz)
    exact ⟨w ++ read, .call hw hsz hr hread⟩

lemma ChunkedDecoder.Reads.reachable (hd : d.Reads consumeTrailer w) :
    d.Reachable consumeTrailer := by
  induction hd with
  | zero => exact .zero
  | call _ hsz hr _ ih => exact .call ih hsz hr

lemma ChunkedDecoder.Reads.traced (hd : d.Reads consumeTrailer w) : d.Traced w := by
  induction hd with
  | zero => exact traced_zero consumeTrailer
  | @call w read d buf bufsz r hd hsz hr hread ih =>
    obtain ⟨read', hread', hpath⟩ := exists_path_apart d (buf.take bufsz)
    obtain rfl : read = read' := List.append_cancel_right (hread.symm.trans hread')
    rw [decodeChunked_decoder hd.reachable.ok hsz hr]
    exact ih.path hpath

/-- The bytes an iteration reads are a path of the machine, and not the empty one. -/
lemma DecodeLoop.Intact.step_path (h : l.Intact buf bufsz) (hbuf : bufsz ≤ buf.length)
    (hlt : l.src < bufsz) (hstep : l.step bufsz (l.buf.getD l.src 0) = .next l') :
    l.src < l'.src ∧ ∃ read o, buf.take l'.src = buf.take l.src ++ read ∧
      (chunkMachine false).Path l.decoder read l'.decoder o := by
  have hlen := h.length
  obtain ⟨hdata, rfl⟩ | ⟨d', o, hdone, hfeed, rfl⟩ := step_cases h.ok hstep
  · set n := min (bufsz - l.src) l.decoder.bytesLeftInChunk with hn
    have hpos : 0 < n := by
      have hleft := h.ok.data_pos hdata
      omega
    have hread : ((buf.drop l.src).take n).length = n := by
      rw [List.length_take, List.length_drop]
      omega
    have hne : (buf.drop l.src).take n ≠ [] := by
      apply List.ne_nil_of_length_pos
      omega
    have hpath := path_data (q := false) hdata hne (by omega)
    rw [hread] at hpath
    exact ⟨Nat.lt_add_of_pos_right hpos, _, _, List.take_add, hpath⟩
  · have hbyte : buf[l.src]? = some (l.buf.getD l.src 0) := by
      have hhead := congrArg List.head? h.unread
      rw [List.head?_drop, List.head?_drop] at hhead
      rw [← hhead, List.getD_eq_getElem?_getD, List.getElem?_eq_getElem (by omega),
        Option.getD_some]
    refine ⟨Nat.lt_succ_self _, [l.buf.getD l.src 0], o, ?_, .single (halted_false hdone) hfeed⟩
    rw [DecodeLoop.skip_src, List.take_add_one, hbyte, Option.toList_some]

lemma DecodeLoop.Reaches.traced (hr : Reaches bufsz l l') (hbuf : bufsz ≤ buf.length)
    (hi : l.Intact buf bufsz) (ht : l.decoder.Traced (w ++ buf.take l.src)) :
    l'.decoder.Traced (w ++ buf.take l'.src) := by
  induction hr with
  | refl => exact ht
  | step hlt hstep _ ih =>
    obtain ⟨-, read, o, hread, hpath⟩ := hi.step_path hbuf hlt hstep
    apply ih (hi.step hbuf hlt hstep)
    rw [hread, ← List.append_assoc]
    exact ht.path hpath

/-- The state invariant holds between the calls of every run and in every iteration, each iteration
reads on or returns, and so every call does. -/
theorem decoder_invariant (hd : d.Reachable consumeTrailer) :
    (∃ w, d.Reads consumeTrailer w) ∧ ∀ w, d.Reads consumeTrailer w →
      d.Invariant w ∧ ∀ buf bufsz, bufsz ≤ buf.length →
        (∃ r, decodeChunked d buf bufsz = some r) ∧
        ∀ l, DecodeLoop.Reaches bufsz ⟨d, buf, 0, 0⟩ l →
          l.decoder.Invariant (w ++ buf.take l.src) ∧
          ∀ l', l.src < bufsz → l.step bufsz (l.buf.getD l.src 0) = .next l' →
            l.src < l'.src ∧ l'.src ≤ bufsz := by
  refine ⟨hd.reads, fun w hw => ⟨hw.traced.invariant, fun buf bufsz h => ⟨?_, fun l hl => ?_⟩⟩⟩
  · obtain ⟨r, hr, -⟩ := decodeChunked_apart hd.ok h
    exact ⟨r, hr⟩
  · have hstart : DecodeLoop.Intact buf bufsz ⟨d, buf, 0, 0⟩ :=
      ⟨hd.ok, Nat.le_refl 0, Nat.zero_le bufsz, rfl, rfl⟩
    have htraced : d.Traced (w ++ buf.take 0) := by
      rw [List.take_zero, List.append_nil]
      exact hw.traced
    have hi := hl.intact h hstart
    refine ⟨(hl.traced h hstart htraced).invariant, fun l' hlt hstep => ⟨?_, ?_⟩⟩
    · exact (hi.step_path h hlt hstep).1
    · exact (hi.step h hlt hstep).src_le

/-- A decoder that two calls left in the middle of a size line. -/
theorem decoder_invariant_resumed :
    ChunkedDecoder.Invariant (ascii "1" ++ ascii "a;") ⟨26, 0, 2, chunkExt, true⟩ := by
  have hfirst : decodeChunked (.zero true) (ascii "1") 1 =
      some ⟨Status.incomplete.code, ⟨1, 0, 1, chunkSize, true⟩, ascii "1", 0⟩ := by decide
  have hsecond : decodeChunked ⟨1, 0, 1, chunkSize, true⟩ (ascii "a;") 2 =
      some ⟨Status.incomplete.code, ⟨26, 0, 2, chunkExt, true⟩, ascii "a;", 0⟩ := by decide
  have hd : ChunkedDecoder.Reachable true ⟨26, 0, 2, chunkExt, true⟩ :=
    .call (.call .zero (by decide) hfirst) (by decide) hsecond
  have hreads : ChunkedDecoder.Reads true ([] ++ ascii "1" ++ ascii "a;")
      ⟨26, 0, 2, chunkExt, true⟩ :=
    .call (.call .zero (by decide) hfirst (by decide)) (by decide) hsecond (by decide)
  exact ((decoder_invariant hd).2 _ hreads).1

end Calls

end IoHttpParser
