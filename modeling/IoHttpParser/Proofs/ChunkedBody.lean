import IoHttpParser.Proofs.ChunkSlices
import IoHttpParser.Proofs.Text
import IoHttpParser.Spec.ChunkedBody

/-!
# Decoding undoes encoding

The machine reads every encoded body to its end and emits its payload, however its sizes,
extensions and trailer are spelled; it completes on nothing else but a body whose last size line
has an extension and no digit.
-/

namespace IoHttpParser
open Streaming

/-! ### Sizes -/

lemma isHexDigit_iff (c : UInt8) : isHexDigit c = true ↔ IsHexDigit c := by
  have h := forall_byte (fun c => isHexDigit c == decide (asciiLower c ∈ hexAlphabet))
    (by decide +kernel) c
  rw [beq_iff_eq] at h
  rw [h, IsHexDigit, decide_eq_true_eq]

lemma hexDigitToU64_eq {c : UInt8} (h : isHexDigit c = true) :
    hexDigitToU64 c = hexDigitValue c ∧ hexDigitValue c < 16 := by
  have hc := forall_byte (fun c => !isHexDigit c ||
    (hexDigitToU64 c == hexDigitValue c && decide (hexDigitValue c < 16))) (by decide +kernel) c
  simpa [h] using hc

/-- The size accumulated over some digits. -/
def accumulate (n : Nat) (digits : Bytes) : Nat :=
  digits.foldl (fun n c => u64 (u64 (n * 16) + hexDigitToU64 c)) n

lemma accumulate_eq {digits : Bytes} {n k : Nat} (hn : n < 16 ^ k)
    (hhex : ∀ c ∈ digits, isHexDigit c = true) (hk : k + digits.length ≤ 16) :
    accumulate n digits = digits.foldl (fun n c => n * 16 + hexDigitValue c) n := by
  induction digits generalizing n k with
  | nil => rfl
  | cons c digits ih =>
    rw [List.length_cons] at hk
    obtain ⟨hc, hlt⟩ := hexDigitToU64_eq (hhex c (by simp))
    have hpow : 16 ^ (k + 1) ≤ 16 ^ 16 := Nat.pow_le_pow_right (by decide) (by omega)
    have hnext : n * 16 + hexDigitValue c < 16 ^ (k + 1) := by
      rw [Nat.pow_succ]
      omega
    have hu : u64 (u64 (n * 16) + hexDigitToU64 c) = n * 16 + hexDigitValue c := by
      rw [hc]
      exact u64_add_of_lt (lt_of_lt_of_le hnext hpow)
    rw [accumulate, List.foldl_cons, hu, List.foldl_cons]
    exact ih hnext (fun d hd => hhex d (by simp [hd])) (by omega)

lemma accumulate_zero {digits : Bytes} (hhex : ∀ c ∈ digits, isHexDigit c = true)
    (hk : digits.length ≤ 16) : accumulate 0 digits = hexValue digits :=
  accumulate_eq (k := 0) (by decide) hhex (by omega)

/-! ### Reading what was encoded -/

section Steps

variable {q : Bool} {b t k : Nat} {s : Bool}

/-- A byte without payload in front of what the machine reads. -/
lemma steps_byte {d d' u : ChunkedDecoder} {c : UInt8} {xs o : Bytes} (h : ChunkStep q d c d' [])
    (hd : d.state ≠ chunkDone) (h' : (chunkMachine q).Steps d' xs u o) :
    (chunkMachine q).Steps d (c :: xs) u o :=
  .cons (halted_false hd) (feed_iff.mpr h) h'

lemma steps_refl (d : ChunkedDecoder) : (chunkMachine q).Steps d [] d [] :=
  .refl _ d

lemma steps_digits {digits : Bytes} (hhex : ∀ c ∈ digits, isHexDigit c = true)
    (hk : k + digits.length ≤ 16) :
    (chunkMachine q).Steps ⟨b, t, k, chunkSize, s⟩ digits
      ⟨accumulate b digits, t, k + digits.length, chunkSize, s⟩ [] := by
  induction digits generalizing b k with
  | nil => exact steps_refl _
  | cons c digits ih =>
    rw [List.length_cons] at hk
    have hrest := ih (b := u64 (u64 (b * 16) + hexDigitToU64 c)) (k := k + 1)
      (fun d hd => hhex d (by simp [hd])) (by omega)
    rw [Nat.add_assoc, Nat.add_comm 1] at hrest
    exact steps_byte (.digit (hhex c (by simp)) (by omega)) nofun hrest

lemma steps_extBytes {ext : Bytes} (hcr : cr ∉ ext) (hlf : lf ∉ ext) :
    (chunkMachine q).Steps ⟨b, t, k, chunkExt, s⟩ (ext ++ [cr]) ⟨b, t, k, chunkSizeLf, s⟩ [] := by
  induction ext with
  | nil => exact steps_byte .extCr nofun (steps_refl _)
  | cons c ext ih =>
    rw [List.mem_cons, not_or] at hcr hlf
    exact steps_byte (.extByte (Ne.symm hcr.1) (Ne.symm hlf.1)) nofun (ih hcr.2 hlf.2)

/-- A size line behind its digits; without any, only the machine that does not ask for them
goes on, and only to an extension. -/
lemma steps_extension {ext : Bytes} (hext : IsExtension ext) (hk : k ≠ 0 ∨ q = false ∧ ext ≠ []) :
    (chunkMachine q).Steps ⟨b, t, k, chunkSize, s⟩ (ext ++ [cr])
      ⟨b, t, k, chunkSizeLf, s⟩ [] := by
  rcases hext.start with rfl | ⟨rest, rfl⟩
  · obtain hk | ⟨_, hk⟩ := hk
    · exact steps_byte (.sizeCr hk) nofun (steps_refl _)
    · exact absurd rfl hk
  · have hcr := hext.no_cr
    have hlf := hext.no_lf
    rw [List.mem_cons, not_or] at hcr hlf
    refine steps_byte (.extStart fun hq => ?_) nofun (steps_extBytes hcr.2 hlf.2)
    obtain hk | ⟨hq', _⟩ := hk
    · exact hk
    · rw [hq'] at hq
      cases hq

lemma steps_data {data : Bytes} (hne : data ≠ []) :
    (chunkMachine q).Steps ⟨data.length, t, k, chunkData, s⟩ data
      ⟨0, u64 (t + data.length), k, chunkDataCr, s⟩ data := by
  have h := path_data (q := q) (d := ⟨data.length, t, k, chunkData, s⟩) rfl hne (Nat.le_refl _)
  have hafter : ChunkedDecoder.afterData ⟨data.length, t, k, chunkData, s⟩ data.length =
      ⟨0, u64 (t + data.length), k, chunkDataCr, s⟩ := by
    simp only [ChunkedDecoder.afterData, Nat.sub_self, if_true]
  rw [hafter] at h
  exact h.steps

lemma steps_chunk (c : Chunk) :
    (chunkMachine q).Steps ⟨0, t, 0, chunkSize, s⟩ c.wire
      ⟨0, u64 (t + c.data.length), 0, chunkSize, s⟩ c.data := by
  have hhex : ∀ d ∈ c.digits, isHexDigit d = true :=
    fun d hd => (isHexDigit_iff d).mpr (c.digits_hex d hd)
  have hpos := List.length_pos_of_ne_nil c.digits_nonempty
  have hdata := List.length_pos_of_ne_nil c.data_nonempty
  have hdigits := steps_digits (q := q) (b := 0) (t := t) (s := s) hhex
    (k := 0) (by rw [Nat.zero_add]; exact c.digits_le)
  rw [accumulate_zero hhex c.digits_le, c.size, Nat.zero_add] at hdigits
  have hext := steps_extension (q := q) (b := c.data.length) (t := t) (s := s) c.ext_ok
    (k := c.digits.length) (.inl (by omega))
  have hlf : (chunkMachine q).Steps ⟨c.data.length, t, c.digits.length, chunkSizeLf, s⟩ [lf]
      ⟨c.data.length, t, c.digits.length, chunkData, s⟩ [] :=
    steps_byte (.sizeData (by omega)) nofun (steps_refl _)
  have hend : (chunkMachine q).Steps
      ⟨0, u64 (t + c.data.length), c.digits.length, chunkDataCr, s⟩ crlf
      ⟨0, u64 (t + c.data.length), 0, chunkSize, s⟩ [] :=
    steps_byte .dataCr nofun (steps_byte .dataLf nofun (steps_refl _))
  have hall := (hdigits.trans (hext.trans hlf)).trans ((steps_data c.data_nonempty).trans hend)
  have hwire : c.wire = c.digits ++ (c.ext ++ [cr] ++ [lf]) ++ (c.data ++ crlf) := by
    simp only [Chunk.wire, List.append_assoc, List.singleton_append]
  rw [hwire]
  simpa using hall

lemma steps_chunks (chunks : List Chunk) (ht : t < 2 ^ 64) :
    (chunkMachine q).Steps ⟨0, t, 0, chunkSize, s⟩ (chunksWire chunks)
      ⟨0, u64 (t + (chunksPayload chunks).length), 0, chunkSize, s⟩ (chunksPayload chunks) := by
  induction chunks generalizing t with
  | nil =>
    rw [show u64 (t + (chunksPayload []).length) = t from u64_of_lt ht]
    exact steps_refl _
  | cons c chunks ih =>
    have hrest := ih (t := u64 (t + c.data.length)) (u64_lt _)
    rw [u64_add_u64, Nat.add_assoc, ← List.length_append] at hrest
    exact (steps_chunk c).trans hrest

lemma steps_trailerBytes {line : Bytes} (hcr : cr ∉ line) (hlf : lf ∉ line) :
    (chunkMachine q).Steps ⟨b, t, trailerLine, chunkTrailer, s⟩ (line ++ crlf)
      ⟨b, t, trailerLineStart, chunkTrailer, s⟩ [] := by
  induction line with
  | nil => exact steps_byte .trailerCr nofun (steps_byte .trailerLf nofun (steps_refl _))
  | cons c line ih =>
    rw [List.mem_cons, not_or] at hcr hlf
    exact steps_byte (.trailerByte (Ne.symm hcr.1) (Ne.symm hlf.1)) nofun (ih hcr.2 hlf.2)

lemma steps_trailerLine (l : TrailerLine) :
    (chunkMachine q).Steps ⟨b, t, trailerLineStart, chunkTrailer, s⟩ (l.line ++ crlf)
      ⟨b, t, trailerLineStart, chunkTrailer, s⟩ [] := by
  obtain ⟨line, hne, hcr, hlf⟩ := l
  obtain ⟨c, line, rfl⟩ := List.exists_cons_of_ne_nil hne
  rw [List.mem_cons, not_or] at hcr hlf
  exact steps_byte (.trailerStart (Ne.symm hcr.1) (Ne.symm hlf.1)) nofun
    (steps_trailerBytes hcr.2 hlf.2)

lemma steps_trailer (trailers : List TrailerLine) :
    (chunkMachine q).Steps ⟨b, t, trailerLineStart, chunkTrailer, s⟩ (trailerWire trailers)
      ⟨b, t, trailerDoneLf, chunkDone, s⟩ [] := by
  induction trailers with
  | nil => exact steps_byte .trailerEnd nofun (steps_byte .trailerDone nofun (steps_refl _))
  | cons l trailers ih =>
    have hwire : trailerWire (l :: trailers) = (l.line ++ crlf) ++ trailerWire trailers := by
      simp only [trailerWire, List.flatMap_cons, List.append_assoc]
    rw [hwire]
    exact (steps_trailerLine l).trans ih

lemma isHexDigit_zero : isHexDigit 0x30 = true := by decide

lemma hexValue_zeros {digits : Bytes} (h : ∀ c ∈ digits, c = 0x30) : hexValue digits = 0 := by
  rw [List.eq_replicate_of_mem h, hexValue]
  induction digits.length with
  | zero => rfl
  | succ n ih =>
    rw [List.replicate_succ, List.foldl_cons]
    exact ih

lemma eq_zero_of_hexValue {digits : Bytes} (hhex : ∀ c ∈ digits, isHexDigit c = true)
    (h : hexValue digits = 0) : ∀ c ∈ digits, c = 0x30 := by
  have key : ∀ n, digits.foldl (fun n c => n * 16 + hexDigitValue c) n = 0 →
      n = 0 ∧ ∀ c ∈ digits, c = 0x30 := by
    clear h
    induction digits with
    | nil => simp
    | cons d digits ih =>
      intro n hn
      rw [List.foldl_cons] at hn
      obtain ⟨hz, hall⟩ := ih (fun c hc => hhex c (by simp [hc])) _ hn
      have hd : d = 0x30 := by
        have hb := forall_byte (fun c => !isHexDigit c || hexDigitValue c != 0 || c == 0x30)
          (by decide +kernel) d
        have hv : hexDigitValue d = 0 := by omega
        simpa [hhex d (by simp), hv] using hb
      exact ⟨by omega, by simpa [hd] using hall⟩
  exact (key 0 h).2

lemma steps_last {digits ext : Bytes} (trailers : List TrailerLine)
    (hzero : ∀ c ∈ digits, c = 0x30) (hle : digits.length ≤ 16) (hext : IsExtension ext)
    (hk : digits ≠ [] ∨ q = false ∧ ext ≠ []) :
    ∃ k', (chunkMachine q).Steps ⟨0, t, 0, chunkSize, s⟩
      (digits ++ (ext ++ crlf) ++ if s then trailerWire trailers else [])
      ⟨0, t, k', chunkDone, s⟩ [] := by
  have hhex : ∀ c ∈ digits, isHexDigit c = true := by
    intro c hc
    rw [hzero c hc]
    exact isHexDigit_zero
  have hdigits := steps_digits (q := q) (b := 0) (t := t) (s := s) (k := 0) hhex (by omega)
  rw [accumulate_zero hhex hle, hexValue_zeros hzero, Nat.zero_add] at hdigits
  have hk' : digits.length ≠ 0 ∨ q = false ∧ ext ≠ [] := by
    rw [Ne, List.length_eq_zero_iff]
    exact hk
  have hline := hdigits.trans (steps_extension (b := 0) (t := t) (s := s) hext hk')
  have hwire : ∀ rest, digits ++ (ext ++ crlf) ++ rest = digits ++ (ext ++ [cr]) ++ lf :: rest := by
    intro rest
    simp only [List.append_assoc, List.cons_append, List.nil_append]
  rw [hwire]
  cases s with
  | true => exact ⟨_, hline.trans (steps_byte .sizeTrailer nofun (steps_trailer trailers))⟩
  | false => exact ⟨_, hline.trans (steps_byte .sizeDone nofun (steps_refl _))⟩

lemma steps_end (chunks : List Chunk) {digits ext : Bytes} (trailers : List TrailerLine)
    (hzero : ∀ c ∈ digits, c = 0x30) (hle : digits.length ≤ 16) (hext : IsExtension ext)
    (hk : digits ≠ [] ∨ q = false ∧ ext ≠ []) (s : Bool) :
    ∃ d : ChunkedDecoder, (chunkMachine q).Steps (.zero s)
        (chunksWire chunks ++
          (digits ++ (ext ++ crlf) ++ if s then trailerWire trailers else []))
        d (chunksPayload chunks) ∧
      d.state = chunkDone ∧ d.totalDecoded = u64 (chunksPayload chunks).length := by
  have hchunks := steps_chunks (q := q) (t := 0) (s := s) chunks (by decide)
  rw [Nat.zero_add] at hchunks
  obtain ⟨k', hlast⟩ := steps_last (q := q) (t := u64 (chunksPayload chunks).length) (s := s)
    trailers hzero hle hext hk
  have hall := hchunks.trans hlast
  rw [List.append_nil] at hall
  exact ⟨_, hall, rfl, rfl⟩

lemma ChunkedBody.consumed_eq (body : ChunkedBody) (s : Bool) :
    body.consumed s = chunksWire body.chunks ++
      (body.last.digits ++ (body.last.ext ++ crlf) ++
        if s then trailerWire body.trailers else []) := by
  cases s <;> simp [consumed, wire, framing, LastChunk.wire]

lemma steps_body (body : ChunkedBody) (s : Bool) :
    ∃ d : ChunkedDecoder, (chunkMachine q).Steps (.zero s) (body.consumed s) d body.payload ∧
      d.state = chunkDone ∧ d.totalDecoded = u64 body.payload.length := by
  rw [body.consumed_eq]
  exact steps_end body.chunks body.trailers body.last.digits_zero body.last.digits_le
    body.last.ext_ok (.inl body.last.digits_nonempty) s

end Steps

/-! ### Round trip -/

lemma decodeChunked_of_complete {d₀ d : ChunkedDecoder} (hok : d₀.Ok) (hdone : d₀.state ≠ chunkDone)
    {w out left : Bytes} (hlen : w.length < 2 ^ 31)
    (hrun : (chunkMachine false).run d₀ w = ⟨.complete, d, out, left⟩) :
    ∃ res, decodeChunked d₀ w w.length = some res ∧ res.decoder = d ∧ res.ret = left.length ∧
      res.bufsz = out.length ∧ res.buf.take res.bufsz = out ∧
      (res.buf.drop res.bufsz).take left.length = left ∧ out.length ≤ w.length := by
  obtain ⟨res, hres, href⟩ := decodeChunked_refines hok hdone (Nat.le_refl w.length)
  rw [List.take_length] at href
  have hsuffix := (Transducer.rest_suffix (m := chunkMachine false) d₀ w).length_le
  rw [hrun] at href hsuffix
  have hleft : left.length ≤ w.length := hsuffix
  obtain ⟨hret, hsz, htake, hdrop⟩ := href.of_complete rfl (by dsimp only; omega)
  have hle : out.length ≤ w.length := by
    have hl := congrArg List.length htake
    rw [List.length_take, href.length] at hl
    dsimp only at hl
    omega
  exact ⟨res, hres, href.decoder, hret, hsz, htake, hdrop, hle⟩

lemma run_of_decodeChunked {d : ChunkedDecoder} (hok : d.Ok) (hdone : d.state ≠ chunkDone)
    {w : Bytes} (hlen : w.length < 2 ^ 31) {res : DecodeResult}
    (h : decodeChunked d w w.length = some res) (hret : 0 ≤ res.ret) :
    ∃ out left, (chunkMachine false).run d w = ⟨.complete, res.decoder, out, left⟩ ∧
      res.ret = left.length ∧ res.buf.take res.bufsz = out ∧
      (res.buf.drop res.bufsz).take res.ret.toNat = left := by
  obtain ⟨res', hres', href⟩ := decodeChunked_refines hok hdone (Nat.le_refl w.length)
  rw [h] at hres'
  obtain rfl := Option.some.inj hres'
  rw [List.take_length] at href
  have hsuffix := (Transducer.rest_suffix (m := chunkMachine false) d w).length_le
  have hdec := href.decoder
  cases hrun : (chunkMachine false).run d w with
  | mk verdict state out left =>
    rw [hrun] at href hsuffix hdec
    cases verdict with
    | complete =>
      obtain ⟨hr, _, htake, hdrop⟩ := href.of_complete rfl (by dsimp only at hsuffix ⊢; omega)
      obtain rfl : res.decoder = state := hdec
      refine ⟨out, left, rfl, hr, htake, ?_⟩
      rw [hr, Int.toNat_natCast]
      exact hdrop
    | more => rw [(href.more rfl).1] at hret; exact absurd hret (by decide)
    | fail => rw [(href.fail rfl).1] at hret; exact absurd hret (by decide)

lemma run_body {q : Bool} (body : ChunkedBody) (s : Bool) (r : Bytes) :
    ∃ d : ChunkedDecoder, d.state = chunkDone ∧ d.totalDecoded = u64 body.payload.length ∧
      (chunkMachine q).run (.zero s) (body.consumed s ++ r) =
        ⟨.complete, d, body.payload, r⟩ := by
  obtain ⟨d, hsteps, hst, ht⟩ := steps_body (q := q) body s
  exact ⟨d, hst, ht, hsteps.complete (halted_true hst) r⟩

/-- Decoding an encoded body, with anything behind it, gives its payload and leaves what the
decoder was not told to read. -/
theorem decodeChunked_wire (body : ChunkedBody) (consumeTrailer : Bool) (r : Bytes)
    (hlen : (body.wire ++ r).length < 2 ^ 31) :
    ∃ res, decodeChunked (.zero consumeTrailer) (body.wire ++ r) (body.wire ++ r).length = some res ∧
      res.bufsz = body.payload.length ∧ res.buf.take res.bufsz = body.payload ∧
      res.decoder.totalDecoded = body.payload.length ∧ res.decoder.state = chunkDone ∧
      let left := if consumeTrailer then r else trailerWire body.trailers ++ r
      res.ret = left.length ∧ (res.buf.drop res.bufsz).take left.length = left := by
  set left := if consumeTrailer then r else trailerWire body.trailers ++ r with hleft
  have hsplit : body.wire ++ r = body.consumed consumeTrailer ++ left := by
    rw [hleft]
    cases consumeTrailer <;> simp [ChunkedBody.consumed, ChunkedBody.wire]
  obtain ⟨d, hst, ht, hrun⟩ := run_body (q := false) body consumeTrailer left
  rw [← hsplit] at hrun
  obtain ⟨res, hres, rfl, hret, hsz, htake, hdrop, hle⟩ :=
    decodeChunked_of_complete (ok_zero consumeTrailer) nofun hlen hrun
  have htotal : u64 body.payload.length = body.payload.length := u64_of_lt (by omega)
  exact ⟨res, hres, hsz, htake, ht.trans htotal, hst, hret, hdrop⟩

/-- A body whose data looks like the end of a body. -/
def endLookalike : ChunkedBody where
  chunks := [{
    digits := ascii "0005", ext := ascii ";name=value", data := ascii "0\r\n\r\n"
    digits_nonempty := by decide, digits_hex := by decide +kernel, digits_le := by decide
    size := by decide, data_nonempty := by decide
    ext_ok := ⟨.inr ⟨_, rfl⟩, by decide, by decide⟩ }]
  last := {
    digits := ascii "00", ext := [], digits_nonempty := by decide, digits_zero := by decide +kernel
    digits_le := by decide, ext_ok := ⟨.inl rfl, by decide, by decide⟩ }
  trailers := [⟨ascii "Expires: 0", by decide, by decide, by decide⟩]

/-- Without the trailer option its trailer section is left with the bytes behind it. -/
theorem decodeChunked_wire_lookalike :
    ∃ res, decodeChunked (.zero false) (endLookalike.wire ++ ascii "GET")
        (endLookalike.wire ++ ascii "GET").length = some res ∧
      res.bufsz = 5 ∧ res.buf.take res.bufsz = ascii "0\r\n\r\n" ∧
      res.decoder.totalDecoded = 5 ∧ res.decoder.state = chunkDone ∧
      res.ret = 17 ∧ (res.buf.drop res.bufsz).take 17 = ascii "Expires: 0\r\n\r\nGET" :=
  decodeChunked_wire endLookalike false (ascii "GET") (by decide)

/-! ### What a completed decoding has read -/

section Completes

variable {q : Bool} {b t k : Nat} {s : Bool} {xs out rest : Bytes}

lemma exists_step {d : ChunkedDecoder} (h : (chunkMachine q).Completes d xs out rest)
    (hd : d.state ≠ chunkDone) :
    ∃ c ys d' o₁ o₂, xs = c :: ys ∧ ChunkStep q d c d' o₁ ∧ out = o₁ ++ o₂ ∧
      (chunkMachine q).Completes d' ys o₂ rest := by
  obtain ⟨c, ys, d', o₁, o₂, hx, hs, ho, hc⟩ := h.exists_step (halted_false hd)
  exact ⟨c, ys, d', o₁, o₂, hx, feed_iff.mp hs, ho, hc⟩

lemma not_completes_nil {d : ChunkedDecoder} (hd : d.state ≠ chunkDone) :
    ¬(chunkMachine q).Completes d [] out rest := by
  intro h
  obtain ⟨c, ys, d', o₁, o₂, hx, -⟩ := exists_step h hd
  cases hx

lemma exists_step_cons {d : ChunkedDecoder} {x : UInt8}
    (h : (chunkMachine q).Completes d (x :: xs) out rest) (hd : d.state ≠ chunkDone) :
    ∃ d' o₁ o₂, ChunkStep q d x d' o₁ ∧ out = o₁ ++ o₂ ∧
      (chunkMachine q).Completes d' xs o₂ rest := by
  obtain ⟨c, ys, d', o₁, o₂, hx, hs, ho, hc⟩ := exists_step h hd
  cases hx
  exact ⟨d', o₁, o₂, hs, ho, hc⟩

lemma completes_sizeLf (h : (chunkMachine q).Completes ⟨b, t, k, chunkSizeLf, s⟩ xs out rest) :
    ∃ ys, xs = lf :: ys ∧
      (b ≠ 0 ∧ (chunkMachine q).Completes ⟨b, t, k, chunkData, s⟩ ys out rest ∨
       b = 0 ∧ s = true ∧
        (chunkMachine q).Completes ⟨0, t, trailerLineStart, chunkTrailer, true⟩ ys out rest ∨
       b = 0 ∧ s = false ∧ out = [] ∧ rest = ys) := by
  obtain ⟨c, ys, d', o₁, o₂, rfl, hs, rfl, hc⟩ := exists_step h nofun
  cases hs with
  | sizeData hb => exact ⟨ys, rfl, .inl ⟨hb, hc⟩⟩
  | sizeTrailer => exact ⟨ys, rfl, .inr (.inl ⟨rfl, rfl, hc⟩)⟩
  | sizeDone =>
    obtain ⟨rfl, rfl⟩ := hc.of_halted (halted_true rfl)
    exact ⟨_, rfl, .inr (.inr ⟨rfl, rfl, rfl, rfl⟩)⟩

lemma completes_ext (h : (chunkMachine q).Completes ⟨b, t, k, chunkExt, s⟩ xs out rest) :
    ∃ e ys, xs = e ++ cr :: ys ∧ cr ∉ e ∧ lf ∉ e ∧
      (chunkMachine q).Completes ⟨b, t, k, chunkSizeLf, s⟩ ys out rest := by
  induction xs with
  | nil => exact absurd h (not_completes_nil nofun)
  | cons x xs ih =>
    obtain ⟨d', o₁, o₂, hs, rfl, hc⟩ := exists_step_cons h nofun
    cases hs with
    | extCr => exact ⟨[], xs, rfl, by simp, by simp, hc⟩
    | extByte hcr hlf =>
      obtain ⟨e, ys, rfl, hecr, helf, hc'⟩ := ih hc
      exact ⟨x :: e, ys, rfl, by simp [hecr, Ne.symm hcr], by simp [helf, Ne.symm hlf], hc'⟩

lemma completes_size (h : (chunkMachine q).Completes ⟨b, t, k, chunkSize, s⟩ xs out rest)
    (hk : k ≤ 16) :
    ∃ digits ext ys, xs = digits ++ (ext ++ cr :: ys) ∧ (∀ c ∈ digits, isHexDigit c = true) ∧
      k + digits.length ≤ 16 ∧ IsExtension ext ∧
      (k + digits.length ≠ 0 ∨ q = false ∧ ext ≠ []) ∧
      (chunkMachine q).Completes
        ⟨accumulate b digits, t, k + digits.length, chunkSizeLf, s⟩ ys out rest := by
  induction xs generalizing b k with
  | nil => exact absurd h (not_completes_nil nofun)
  | cons x xs ih =>
    obtain ⟨d', o₁, o₂, hs, rfl, hc⟩ := exists_step_cons h nofun
    cases hs with
    | digit hdig hk' =>
      obtain ⟨digits, ext, ys, rfl, hhex, hle, hext, hne, hc'⟩ := ih hc hk'
      have hlen : k + 1 + digits.length = k + (x :: digits).length := by
        rw [List.length_cons]
        omega
      rw [hlen] at hle hne hc'
      exact ⟨x :: digits, ext, ys, rfl, by simpa [hdig] using hhex, hle, hext, hne, hc'⟩
    | extStart hq =>
      obtain ⟨e, ys, rfl, hecr, helf, hc'⟩ := completes_ext hc
      refine ⟨[], semicolon :: e, ys, rfl, by simp, hk,
        ⟨.inr ⟨e, rfl⟩, by simp [hecr, show cr ≠ semicolon by decide],
          by simp [helf, show lf ≠ semicolon by decide]⟩, ?_, hc'⟩
      cases q with
      | true => exact .inl (hq rfl)
      | false => exact .inr ⟨rfl, by simp⟩
    | sizeCr hk0 =>
      exact ⟨[], [], xs, rfl, by simp, hk, ⟨.inl rfl, by simp, by simp⟩, .inl hk0, hc⟩

lemma completes_data (h : (chunkMachine q).Completes ⟨b, t, k, chunkData, s⟩ xs out rest)
    (hb : 0 < b) :
    ∃ data ys o t', xs = data ++ (crlf ++ ys) ∧ data.length = b ∧ out = data ++ o ∧
      (chunkMachine q).Completes ⟨0, t', 0, chunkSize, s⟩ ys o rest := by
  induction xs generalizing b t out with
  | nil => exact absurd h (not_completes_nil nofun)
  | cons x xs ih =>
    obtain ⟨d', o₁, o₂, hs, rfl, hc⟩ := exists_step_cons h nofun
    cases hs with
    | dataByte hb' =>
      obtain ⟨data, ys, o, t', rfl, hlen, rfl, hc'⟩ := ih hc (Nat.pos_of_ne_zero hb')
      exact ⟨x :: data, ys, o, t', rfl, by rw [List.length_cons]; omega, rfl, hc'⟩
    | dataLast hb' =>
      obtain ⟨c₁, ys₁, d₁, p₁, o₁, rfl, hs₁, rfl, hc₁⟩ := exists_step hc nofun
      cases hs₁
      obtain ⟨c₂, ys₂, d₂, p₂, o₂, rfl, hs₂, rfl, hc₂⟩ := exists_step hc₁ nofun
      cases hs₂
      exact ⟨[x], ys₂, o₂, _, rfl, by rw [List.length_singleton]; omega, rfl, hc₂⟩

lemma completes_trailerLine
    (h : (chunkMachine q).Completes ⟨b, t, trailerLine, chunkTrailer, s⟩ xs out rest) :
    ∃ l ys, xs = l ++ (crlf ++ ys) ∧ cr ∉ l ∧ lf ∉ l ∧
      (chunkMachine q).Completes ⟨b, t, trailerLineStart, chunkTrailer, s⟩ ys out rest := by
  induction xs with
  | nil => exact absurd h (not_completes_nil nofun)
  | cons x xs ih =>
    obtain ⟨d', o₁, o₂, hs, rfl, hc⟩ := exists_step_cons h nofun
    cases hs with
    | trailerByte hcr hlf =>
      obtain ⟨l, ys, rfl, hlcr, hllf, hc'⟩ := ih hc
      exact ⟨x :: l, ys, rfl, by simp [hlcr, Ne.symm hcr], by simp [hllf, Ne.symm hlf], hc'⟩
    | trailerCr =>
      obtain ⟨c₁, ys₁, d₁, p₁, o₁, rfl, hs₁, rfl, hc₁⟩ := exists_step hc nofun
      cases hs₁
      exact ⟨[], ys₁, rfl, by simp, by simp, hc₁⟩

lemma completes_trailer
    (h : (chunkMachine q).Completes ⟨b, t, trailerLineStart, chunkTrailer, s⟩ xs out rest) :
    out = [] ∧ ∃ trailers, xs = trailerWire trailers ++ rest := by
  induction hn : xs.length using Nat.strong_induction_on generalizing xs with
  | _ n ih =>
    obtain ⟨c, ys, d', o₁, o₂, rfl, hs, rfl, hc⟩ := exists_step h nofun
    cases hs with
    | trailerEnd =>
      obtain ⟨c₁, ys₁, d₁, p₁, o₁, rfl, hs₁, rfl, hc₁⟩ := exists_step hc nofun
      cases hs₁
      obtain ⟨rfl, rfl⟩ := hc₁.of_halted (halted_true rfl)
      exact ⟨rfl, [], rfl⟩
    | trailerStart hcr hlf =>
      obtain ⟨l, ys', rfl, hlcr, hllf, hc'⟩ := completes_trailerLine hc
      have hlt : ys'.length < n := by
        rw [← hn]
        simp only [List.length_cons, List.length_append]
        omega
      obtain ⟨ho, trailers, rfl⟩ := ih _ hlt hc' rfl
      refine ⟨ho, ⟨c :: l, by simp, by simp [hlcr, Ne.symm hcr], by simp [hllf, Ne.symm hlf]⟩ ::
        trailers, ?_⟩
      simp only [trailerWire, List.flatMap_cons, List.cons_append, List.append_assoc]

/-- A completed decoding has read chunks, a size line of value zero, and the trailer section if
it was told to. Only the machine that asks for no digit takes a size line without one. -/
lemma completes_body (h : (chunkMachine q).Completes ⟨0, t, 0, chunkSize, s⟩ xs out rest) :
    ∃ chunks digits ext trailers,
      xs = chunksWire chunks ++ (digits ++ (ext ++ crlf) ++
        if s then trailerWire trailers else []) ++ rest ∧
      (∀ c ∈ digits, c = 0x30) ∧ digits.length ≤ 16 ∧ IsExtension ext ∧
      (digits ≠ [] ∨ q = false ∧ ext ≠ []) ∧ out = chunksPayload chunks := by
  induction hn : xs.length using Nat.strong_induction_on generalizing xs out t with
  | _ n ih =>
    obtain ⟨digits, ext, ys, rfl, hhex, hle, hext, hne, hc⟩ := completes_size h (Nat.zero_le _)
    rw [Nat.zero_add] at hle hne hc
    rw [Ne, List.length_eq_zero_iff] at hne
    rw [accumulate_zero hhex hle] at hc
    obtain ⟨ys, rfl, ⟨hv, hd⟩ | ⟨hv, rfl, ht⟩ | ⟨hv, rfl, rfl, rfl⟩⟩ := completes_sizeLf hc
    · obtain ⟨data, zs, o, t', rfl, hsize, rfl, hc'⟩ := completes_data hd (Nat.pos_of_ne_zero hv)
      have hlt : zs.length < n := by
        rw [← hn]
        simp only [List.length_append, List.length_cons]
        omega
      obtain ⟨chunks, digits', ext', trailers, rfl, hzero', hle', hext', hne', ho⟩ :=
        ih _ hlt hc' rfl
      have hdig : digits ≠ [] := by
        rintro rfl
        exact hv rfl
      have hdata : data ≠ [] := by
        rintro rfl
        exact hv hsize.symm
      let c : Chunk := ⟨digits, ext, data, hdig, fun d hd => (isHexDigit_iff d).mp (hhex d hd), hle,
        hsize.symm, hdata, hext⟩
      refine ⟨c :: chunks, digits', ext', trailers, ?_, hzero', hle', hext', hne', ?_⟩
      · simp only [chunksWire, List.flatMap_cons, Chunk.wire, List.append_assoc, List.cons_append,
          List.nil_append, c]
      · rw [ho, chunksPayload, chunksPayload, List.flatMap_cons]
    · obtain ⟨rfl, trailers, rfl⟩ := completes_trailer ht
      refine ⟨[], digits, ext, trailers, ?_, eq_zero_of_hexValue hhex hv, hle, hext, hne, rfl⟩
      simp [chunksWire]
    · refine ⟨[], digits, ext, [], ?_, eq_zero_of_hexValue hhex hv, hle, hext, hne, rfl⟩
      simp [chunksWire]

end Completes

/-! ### Framing that is not a chunked body -/

/-- Chunks, then a size line that starts with its extension. -/
def NoDigitEnd (consumeTrailer : Bool) (w : Bytes) : Prop :=
  ∃ (chunks : List Chunk) (ext : Bytes) (trailers : List TrailerLine) (rest : Bytes),
    IsExtension ext ∧ ext ≠ [] ∧
    w = chunksWire chunks ++ (ext ++ crlf ++ if consumeTrailer then trailerWire trailers else []) ++
      rest

/-- A completed decoding of `w` has consumed a chunked body and decoded its payload. -/
def SoundOn (consumeTrailer : Bool) (w : Bytes) : Prop :=
  ∀ res, decodeChunked (.zero consumeTrailer) w w.length = some res → 0 ≤ res.ret →
    ∃ body : ChunkedBody, w.take (w.length - res.ret.toNat) = body.consumed consumeTrailer ∧
      res.buf.take res.bufsz = body.payload

/-- The machine that asks for a digit does not complete where the decoder ends on a size line
without one. -/
lemma not_completes_of_noDigitEnd {s : Bool} {w out rest : Bytes} (h : NoDigitEnd s w) :
    ¬(chunkMachine true).Completes (.zero s) w out rest := by
  obtain ⟨chunks, ext, trailers, tail, hext, hne, rfl⟩ := h
  obtain rfl | ⟨e, rfl⟩ := hext.start
  · exact absurd rfl hne
  · intro hc
    have hv := hc.verdict
    have hchunks := steps_chunks (q := true) (t := 0) (s := s) chunks (by decide)
    rw [List.append_assoc, ChunkedDecoder.zero, hchunks] at hv
    simp only [List.cons_append] at hv
    rw [Transducer.run_cons_none rfl rfl] at hv
    cases hv

lemma run_of_noDigitEnd {s : Bool} {w : Bytes} (h : NoDigitEnd s w) :
    ∃ d out rest, (chunkMachine false).run (.zero s) w = ⟨.complete, d, out, rest⟩ := by
  obtain ⟨chunks, ext, trailers, tail, hext, hne, rfl⟩ := h
  have hzero : ∀ c ∈ ([] : Bytes), c = 0x30 := nofun
  obtain ⟨d, hsteps, hst, _⟩ := steps_end (q := false) chunks trailers hzero (Nat.zero_le _) hext
    (.inr ⟨rfl, hne⟩) s
  exact ⟨d, _, tail, hsteps.complete (halted_true hst) tail⟩

/-- Decoding completes on chunked bodies only, but for a last size line without a digit. -/
theorem soundOn_iff (consumeTrailer : Bool) (w : Bytes) (hlen : w.length < 2 ^ 31) :
    SoundOn consumeTrailer w ↔ ¬NoDigitEnd consumeTrailer w := by
  constructor
  · intro hsound hend
    obtain ⟨d, out, rest, hrun⟩ := run_of_noDigitEnd hend
    obtain ⟨res, hres, _, hret, _⟩ :=
      decodeChunked_of_complete (ok_zero consumeTrailer) nofun hlen hrun
    obtain ⟨body, hbody, _⟩ := hsound res hres (by omega)
    obtain ⟨d', _, _, hrun'⟩ := run_body (q := true) body consumeTrailer
      (w.drop (w.length - res.ret.toNat))
    rw [← hbody, List.take_append_drop] at hrun'
    refine not_completes_of_noDigitEnd hend ⟨?_, rfl, rfl⟩
    rw [hrun']
  · intro hend res hres hret
    obtain ⟨out, left, hrun, hr, htake, _⟩ :=
      run_of_decodeChunked (ok_zero consumeTrailer) nofun hlen hres hret
    obtain ⟨chunks, digits, ext, trailers, hw, hzero, hle, hext, hne, hout⟩ :=
      completes_body (t := 0) (s := consumeTrailer) (.of_run hrun)
    by_cases hdig : digits = []
    · subst hdig
      obtain hne | ⟨_, hne⟩ := hne
      · exact absurd rfl hne
      · exact absurd ⟨chunks, ext, trailers, _, hext, hne, hw⟩ hend
    · let body : ChunkedBody := ⟨chunks, ⟨digits, ext, hdig, hzero, hle, hext⟩, trailers⟩
      have hsplit : w = body.consumed consumeTrailer ++ left := by
        rw [body.consumed_eq]
        exact hw
      refine ⟨body, ?_, htake.trans hout⟩
      have hlen' := congrArg List.length hsplit
      rw [List.length_append] at hlen'
      have hn : w.length - res.ret.toNat = (body.consumed consumeTrailer).length := by omega
      rw [hn, hsplit, List.take_left]

/-- The end of a body with the trailer option, and a request behind it. -/
theorem soundOn_iff_noDigit : ¬SoundOn true (ascii ";x\r\n\r\nGET") := by
  rw [soundOn_iff true (ascii ";x\r\n\r\nGET") (by decide), not_not]
  exact ⟨[], ascii ";x", [], ascii "GET", ⟨.inr ⟨_, rfl⟩, by decide, by decide⟩, by decide, rfl⟩

/-- A lone `;` in place of the last chunk's size ends the body. -/
theorem semicolon_not_sound :
    decodeChunked (.zero false) (ascii ";\r\n") 3 =
      some ⟨0, ⟨0, 0, 0, chunkDone, false⟩, ascii ";\r\n", 0⟩ ∧
    ¬SoundOn false (ascii ";\r\n") := by
  have hdec : decodeChunked (.zero false) (ascii ";\r\n") 3 =
      some ⟨0, ⟨0, 0, 0, chunkDone, false⟩, ascii ";\r\n", 0⟩ := by decide
  refine ⟨hdec, fun hsound => ?_⟩
  obtain ⟨body, hbody, _⟩ := hsound _ hdec (by decide)
  obtain ⟨d, _, _, hrun⟩ := run_body (q := true) body false []
  rw [← hbody] at hrun
  have hfail : ((chunkMachine true).run (.zero false) (ascii ";\r\n" ++ [])).verdict = .fail := by
    decide
  have hv : ((chunkMachine true).run (.zero false) (ascii ";\r\n" ++ [])).verdict = .complete :=
    congrArg Run.verdict hrun
  rw [hfail] at hv
  cases hv

end IoHttpParser
