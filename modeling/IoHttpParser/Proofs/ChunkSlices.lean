import IoHttpParser.Proofs.ChunkMachine

/-!
# Slices of a chunked stream

A consumer feeds a chunked stream as it arrives, one call per slice with the same decoder. It
gets what a single call on the whole stream would give it.
-/

namespace IoHttpParser
open Streaming

/-- What a call tells its caller: a return value that is not negative is the number of bytes
behind the payload; after an error the buffer holds nothing of use. -/
def DecodeResult.observe (r : DecodeResult) : Run ChunkedDecoder UInt8 UInt8 :=
  if 0 ≤ r.ret then
    ⟨.complete, r.decoder, r.buf.take r.bufsz, (r.buf.drop r.bufsz).take r.ret.toNat⟩
  else if r.ret = Status.incomplete.code then ⟨.more, r.decoder, r.buf.take r.bufsz, []⟩
  else ⟨.fail, r.decoder, [], []⟩

/-- One call on a slice, in a buffer of its own. -/
def decodeSlice (d : ChunkedDecoder) (w : Bytes) : Option (Run ChunkedDecoder UInt8 UInt8) :=
  (decodeChunked d w w.length).map DecodeResult.observe

/-- Calls on the slices in order, up to the first that does not ask for more; the slices that
were not fed follow the bytes that call left. -/
def decodeSlices (d : ChunkedDecoder) : List Bytes → Option (Run ChunkedDecoder UInt8 UInt8)
  | [] => some ⟨.more, d, [], []⟩
  | w :: ws =>
    match decodeSlice d w with
    | none => none
    | some r =>
      match r.verdict with
      | .more => (decodeSlices r.state ws).map (fun r' => { r' with out := r.out ++ r'.out })
      | _ => some { r with rest := r.rest ++ ws.flatten }

/-- The same verdict and decoder; the same payload unless the stream is malformed, and on
completion the same bytes left. -/
structure SameDecoding (a b : Run ChunkedDecoder UInt8 UInt8) : Prop where
  verdict : a.verdict = b.verdict
  decoder : a.state = b.state
  payload : a.verdict ≠ .fail → a.out = b.out
  trailing : a.verdict = .complete → a.rest = b.rest

lemma SameDecoding.symm {a b : Run ChunkedDecoder UInt8 UInt8} (h : SameDecoding a b) :
    SameDecoding b a where
  verdict := h.verdict.symm
  decoder := h.decoder.symm
  payload hv := (h.payload (by rwa [h.verdict])).symm
  trailing hv := (h.trailing (by rwa [h.verdict])).symm

lemma SameDecoding.trans {a b c : Run ChunkedDecoder UInt8 UInt8} (h : SameDecoding a b)
    (h' : SameDecoding b c) : SameDecoding a c where
  verdict := h.verdict.trans h'.verdict
  decoder := h.decoder.trans h'.decoder
  payload hv := (h.payload hv).trans (h'.payload (by rwa [← h.verdict]))
  trailing hv := (h.trailing hv).trans (h'.trailing (by rwa [← h.verdict]))

lemma statusOfCount_of_lt {n : Nat} (h : n < 2 ^ 31) : statusOfCount n = n :=
  Int.bmod_eq_of_le_mul_two (by omega) (by omega)

lemma Refines.of_complete {w : Bytes} {avail : Nat} {run : Run ChunkedDecoder UInt8 UInt8}
    {r : DecodeResult} (h : Refines [] w avail run r) (hv : run.verdict = .complete)
    (hlen : run.rest.length < 2 ^ 31) :
    r.ret = run.rest.length ∧ r.bufsz = run.out.length ∧ r.buf.take r.bufsz = run.out ∧
      (r.buf.drop r.bufsz).take run.rest.length = run.rest := by
  obtain ⟨hsz, hout⟩ := h.payload (by rw [hv]; decide)
  obtain ⟨hret, hrest⟩ := h.trailing hv
  rw [statusOfCount_of_lt hlen] at hret
  exact ⟨hret, hsz, hout, hrest⟩

lemma Refines.observe {w : Bytes} {run : Run ChunkedDecoder UInt8 UInt8} {r : DecodeResult}
    (h : Refines [] w w.length run r) (hlen : run.rest.length < 2 ^ 31) :
    SameDecoding r.observe run := by
  cases hv : run.verdict with
  | complete =>
    obtain ⟨hret, _, hout, hrest⟩ := h.of_complete hv hlen
    have hn : r.ret.toNat = run.rest.length := by omega
    rw [DecodeResult.observe, if_pos (by omega), hn]
    exact ⟨hv.symm, h.decoder, fun _ => hout, fun _ => hrest⟩
  | more =>
    obtain ⟨hret, -⟩ := h.more hv
    obtain ⟨-, hout⟩ := h.payload (by rw [hv]; decide)
    rw [DecodeResult.observe, if_neg (by rw [hret]; decide), if_pos hret]
    exact ⟨hv.symm, h.decoder, fun _ => hout, nofun⟩
  | fail =>
    obtain ⟨hret, _⟩ := h.fail hv
    rw [DecodeResult.observe, if_neg (by rw [hret]; decide), if_neg (by rw [hret]; decide)]
    exact ⟨hv.symm, h.decoder, fun hne => absurd rfl hne, nofun⟩

lemma decodeSlice_run {d : ChunkedDecoder} (hok : d.Ok) (hdone : d.state ≠ chunkDone) {w : Bytes}
    (hlen : w.length < 2 ^ 31) :
    ∃ a, decodeSlice d w = some a ∧ SameDecoding a ((chunkMachine false).run d w) := by
  obtain ⟨r, hr, href⟩ := decodeChunked_refines hok hdone (Nat.le_refl w.length)
  rw [List.take_length] at href
  have hrest := (Transducer.rest_suffix (m := chunkMachine false) d w).length_le
  exact ⟨r.observe, by rw [decodeSlice, hr]; rfl, href.observe (by omega)⟩

/-- A run that asks for more leaves a decoder the next slice can be fed to. -/
lemma resumable {d : ChunkedDecoder} (hok : d.Ok) {w : Bytes}
    (h : ((chunkMachine false).run d w).verdict = .more) :
    ((chunkMachine false).run d w).state.Ok ∧
      ((chunkMachine false).run d w).state.state ≠ chunkDone := by
  have hinv := Transducer.state_invariant (m := chunkMachine false) (I := ChunkedDecoder.Ok)
    (fun _ hs => (feed_iff.mp hs).ok) hok w
  refine ⟨hinv, fun hd => ?_⟩
  have hh := Transducer.not_halted_of_more h
  rw [halted_true hd] at hh
  cases hh

lemma decodeSlices_run {d : ChunkedDecoder} (hok : d.Ok) (hdone : d.state ≠ chunkDone)
    {ws : List Bytes} (hlen : ws.flatten.length < 2 ^ 31) :
    ∃ a, decodeSlices d ws = some a ∧ SameDecoding a ((chunkMachine false).runSlices d ws) := by
  induction ws generalizing d with
  | nil =>
    refine ⟨_, rfl, ?_⟩
    rw [Transducer.runSlices, halted_false hdone]
    exact ⟨rfl, rfl, fun _ => rfl, fun _ => rfl⟩
  | cons w ws ih =>
    rw [List.flatten_cons, List.length_append] at hlen
    obtain ⟨a, ha, hs⟩ := decodeSlice_run hok hdone (w := w) (by omega)
    rw [decodeSlices, Transducer.runSlices, ha]
    have hva := hs.verdict
    dsimp only
    cases hv : ((chunkMachine false).run d w).verdict with
    | more =>
      rw [hv] at hva
      simp only [hva]
      obtain ⟨hok', hdone'⟩ := resumable hok hv
      obtain ⟨a', ha', hs'⟩ := ih hok' hdone' (by omega)
      have hne : a.verdict ≠ .fail := by
        rw [hva]
        decide
      have hout := hs.payload hne
      rw [hs.decoder, ha', hout]
      refine ⟨_, rfl, hs'.verdict, hs'.decoder, fun hne => ?_, hs'.trailing⟩
      simp only [hs'.payload hne]
    | complete =>
      rw [hv] at hva
      simp only [hva]
      have hne : a.verdict ≠ .fail := by
        rw [hva]
        decide
      exact ⟨_, rfl, rfl, hs.decoder, fun _ => hs.payload hne, fun _ => by rw [hs.trailing hva]⟩
    | fail =>
      rw [hv] at hva
      simp only [hva]
      have hne : Verdict.fail ≠ .complete := by decide
      exact ⟨_, rfl, rfl, hs.decoder, fun hne => absurd rfl hne, fun h => absurd h hne⟩

/-- Decoding a stream slice by slice is decoding it at once. -/
theorem decodeSlices_eq_decodeSlice (consumeTrailer : Bool) (ws : List Bytes)
    (hlen : ws.flatten.length < 2 ^ 31) :
    ∃ a b, decodeSlices (.zero consumeTrailer) ws = some a ∧
      decodeSlice (.zero consumeTrailer) ws.flatten = some b ∧ SameDecoding a b := by
  have hok := ok_zero consumeTrailer
  have hdone : (ChunkedDecoder.zero consumeTrailer).state ≠ chunkDone := nofun
  obtain ⟨a, ha, hsa⟩ := decodeSlices_run hok hdone hlen
  obtain ⟨b, hb, hsb⟩ := decodeSlice_run hok hdone hlen
  rw [Transducer.runSlices_eq_run] at hsa
  exact ⟨a, b, ha, hb, hsa.trans hsb.symm⟩

/-- Slices that cut a size line, a CRLF and the data. -/
theorem decodeSlices_eq_decodeSlice_hello :
    ∃ a b, decodeSlices (.zero true) [ascii "0", ascii "5\r", ascii "\nhel", [],
        ascii "lo\r\n0\r\n\r", ascii "\nrest"] = some a ∧
      decodeSlice (.zero true) (ascii "05\r\nhello\r\n0\r\n\r\nrest") = some b ∧
      SameDecoding a b :=
  decodeSlices_eq_decodeSlice true [ascii "0", ascii "5\r", ascii "\nhel", [],
    ascii "lo\r\n0\r\n\r", ascii "\nrest"] (by decide)

end IoHttpParser
