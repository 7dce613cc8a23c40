import IoHttpParser.Proofs.ChunkedBody
import IoHttpParser.Proofs.HeadReader

/-!
# Trailer ownership

A trailer section may be left to `ihtp_parse_headers` or skipped by the decoder. Both find the
same end of it: the field lines of a strict header block are trailer lines of the decoder.
-/

namespace IoHttpParser
open Memory Incremental Streaming

/-- A strict header parse that accepts has read field lines and the empty line. -/
lemma exists_fields_of_parseHeaders {buf : Bytes} {maxHeaders n : Nat} {hs : List (Header Span)}
    (h : parseHeaders buf maxHeaders none = (.ok, hs, n)) :
    ∃ (fs : List FieldLine) (post : Bytes), buf = fieldsWire fs ++ (crlf ++ post) ∧
      n = (fieldsWire fs ++ crlf).length := by
  obtain ⟨phase, hread⟩ := done_of_parseHeaders h
  obtain ⟨fs, post, hbuf, hle, hcap⟩ := MessageParser.exists_fields_of_done hread (Nat.zero_le _)
  refine ⟨fs, post, hbuf, ?_⟩
  have hdone := MessageParser.read_fields (headersParser_lawful maxHeaders .strict) fs 0 [] post
    hle hcap
  rw [← hbuf, Nat.zero_add] at hdone
  exact (Outcome.done.inj (hread.symm.trans hdone)).1

def FieldLine.trailerLine (f : FieldLine) : TrailerLine := ⟨f.line, f.ne_nil, f.notMem.2, f.notMem.1⟩

lemma fieldsWire_eq_trailerWire (fs : List FieldLine) :
    fieldsWire fs ++ crlf = trailerWire (fs.map FieldLine.trailerLine) := by
  unfold fieldsWire trailerWire
  rw [List.flatMap_map]
  rfl

/-- A decoder that owns the trailer section reads what the one that does not leaves to the header
parser. -/
lemma run_trailer {w out : Bytes} {d : ChunkedDecoder} (trailers : List TrailerLine) (post : Bytes)
    (hrun : (chunkMachine false).run (.zero false) w =
      ⟨.complete, d, out, trailerWire trailers ++ post⟩) :
    ∃ d', (chunkMachine false).run (.zero true) w = ⟨.complete, d', out, post⟩ ∧
      d'.totalDecoded = d.totalDecoded := by
  obtain ⟨chunks, digits, ext, _, hw, hzero, hle, hext, hne, rfl⟩ :=
    completes_body (t := 0) (s := false) (.of_run hrun)
  simp only [Bool.false_eq_true, if_false] at hw
  obtain ⟨d₀, hsteps₀, hdone₀, htotal₀⟩ := steps_end (q := false) chunks [] hzero hle hext hne false
  obtain ⟨d₁, hsteps₁, hdone₁, htotal₁⟩ :=
    steps_end (q := false) chunks trailers hzero hle hext hne true
  have hleave := hsteps₀.complete (halted_true hdone₀) (trailerWire trailers ++ post)
  have hown := hsteps₁.complete (halted_true hdone₁) post
  simp only [Bool.false_eq_true, if_false] at hleave
  rw [← hw, hrun] at hleave
  obtain rfl : d = d₀ := (Run.mk.inj hleave).2.1
  have hw' : w = chunksWire chunks ++ (digits ++ (ext ++ crlf) ++ trailerWire trailers) ++ post := by
    rw [hw, List.append_nil]
    simp only [List.append_assoc]
  refine ⟨d₁, ?_, htotal₁.trans htotal₀.symm⟩
  rw [hw']
  exact hown

/-- Both trailer-ownership paths end at the same byte. -/
theorem trailer_paths_agree {w : Bytes} {maxHeaders n : Nat} {r : DecodeResult}
    {hs : List (Header Span)} (hlen : w.length < 2 ^ 31)
    (hleave : decodeChunked (.zero false) w w.length = some r) (hret : 0 ≤ r.ret)
    (hparse : parseHeaders ((r.buf.drop r.bufsz).take r.ret.toNat) maxHeaders none = (.ok, hs, n)) :
    ∃ r', decodeChunked (.zero true) w w.length = some r' ∧ 0 ≤ r'.ret ∧
      r'.buf.take r'.bufsz = r.buf.take r.bufsz ∧
      r'.decoder.totalDecoded = r.decoder.totalDecoded ∧
      r'.ret = r.ret - n ∧
      (r'.buf.drop r'.bufsz).take r'.ret.toNat = ((r.buf.drop r.bufsz).take r.ret.toNat).drop n := by
  obtain ⟨out, left, hrun, hr, hout, hleft⟩ :=
    run_of_decodeChunked (ok_zero false) nofun hlen hleave hret
  rw [hleft] at hparse
  obtain ⟨fs, post, rfl, rfl⟩ := exists_fields_of_parseHeaders hparse
  rw [← List.append_assoc, fieldsWire_eq_trailerWire] at hrun
  obtain ⟨d', hrun', htotal⟩ := run_trailer _ post hrun
  obtain ⟨r', hr', hdec, hret', hsz, htake, hdrop, _⟩ :=
    decodeChunked_of_complete (ok_zero true) nofun hlen hrun'
  refine ⟨r', hr', by omega, htake.trans hout.symm, by rw [hdec, htotal], ?_, ?_⟩
  · rw [hret', hr]
    simp only [List.length_append]
    omega
  · rw [hleft, hret', Int.toNat_natCast, hdrop, ← List.append_assoc, List.drop_left]

/-- Two trailer fields, with a request behind them. -/
theorem trailer_paths_agree_digest :
    ∃ r', decodeChunked (.zero true)
        (ascii "3\r\nabc\r\n0\r\nDigest: x\r\nExpires: 0\r\n\r\nGET")
        (ascii "3\r\nabc\r\n0\r\nDigest: x\r\nExpires: 0\r\n\r\nGET").length = some r' ∧ 0 ≤ r'.ret ∧
      r'.buf.take r'.bufsz = ascii "abc" ∧ r'.decoder.totalDecoded = 3 ∧ r'.ret = 28 - 25 ∧
      (r'.buf.drop r'.bufsz).take r'.ret.toNat = ascii "GET" := by
  have hleave : decodeChunked (.zero false)
      (ascii "3\r\nabc\r\n0\r\nDigest: x\r\nExpires: 0\r\n\r\nGET")
      (ascii "3\r\nabc\r\n0\r\nDigest: x\r\nExpires: 0\r\n\r\nGET").length =
        some ⟨28, ⟨0, 3, 1, chunkDone, false⟩,
          ascii "abcDigest: x\r\nExpires: 0\r\n\r\nGET0\r\n\r\nGET", 3⟩ := by
    decide
  have hparse : parseHeaders (ascii "Digest: x\r\nExpires: 0\r\n\r\nGET") 2 none =
      (.ok, [⟨⟨0, 6⟩, ⟨8, 1⟩⟩, ⟨⟨11, 7⟩, ⟨20, 1⟩⟩], 25) := by
    decide
  exact trailer_paths_agree (by decide) hleave (by decide) hparse

end IoHttpParser
