import IoHttpParser.Proofs.ChunkMachine
import IoHttpParser.Spec.ChunkRuns

/-!
# Decoding in place

The chunked decoder rewrites the buffer it reads. It does what a decoder with an output of its own
would do on the original bytes, because it never writes beyond what it has read.
-/

namespace IoHttpParser
open Memory Streaming

/-- What is unread is as it was passed, and writing stays behind reading. -/
structure DecodeLoop.Intact (buf : Bytes) (avail : Nat) (l : DecodeLoop) : Prop where
  ok : l.decoder.Ok
  dst_le : l.dst ≤ l.src
  src_le : l.src ≤ avail
  length : l.buf.length = buf.length
  unread : l.buf.drop l.src = buf.drop l.src

section Iteration

variable {buf : Bytes} {avail : Nat} {l l' : DecodeLoop}

lemma DecodeLoop.Intact.skip (h : l.Intact buf avail) (hlt : l.src < avail) {d : ChunkedDecoder}
    (hok : d.Ok) : (l.skip d).Intact buf avail where
  ok := hok
  dst_le := Nat.le_succ_of_le h.dst_le
  src_le := hlt
  length := h.length
  unread := by
    have hd := congrArg (List.drop 1) h.unread
    rwa [List.drop_drop, List.drop_drop] at hd

lemma DecodeLoop.Intact.copyData (h : l.Intact buf avail) (havail : avail ≤ buf.length) {n : Nat}
    (hn : n ≤ avail - l.src) : (l.copyData n).Intact buf avail := by
  have hsrc := h.src_le
  have hlen := h.length
  have hmove : l.src + n ≤ l.buf.length := by omega
  refine ⟨(afterData_ok l.decoder n).1, Nat.add_le_add_right h.dst_le n, ?_, ?_, ?_⟩
  · change l.src + n ≤ avail
    omega
  · exact (length_memmove h.dst_le hmove).trans hlen
  · have hd := congrArg (List.drop n) h.unread
    rw [List.drop_drop, List.drop_drop] at hd
    exact (drop_memmove h.dst_le hmove (Nat.le_refl _)).trans hd

lemma DecodeLoop.Intact.step (h : l.Intact buf avail) (havail : avail ≤ buf.length)
    (hlt : l.src < avail) (hstep : l.step avail (l.buf.getD l.src 0) = .next l') :
    l'.Intact buf avail := by
  obtain ⟨-, rfl⟩ | ⟨d', o, -, hfeed, rfl⟩ := step_cases h.ok hstep
  · exact h.copyData havail (Nat.min_le_left _ _)
  · exact h.skip hlt (feed_iff.mp hfeed).ok

lemma DecodeLoop.Reaches.intact (hr : Reaches avail l l') (havail : avail ≤ buf.length)
    (h : l.Intact buf avail) : l'.Intact buf avail := by
  induction hr with
  | refl => exact h
  | step hlt hstep _ ih => exact ih (h.step havail hlt hstep)

end Iteration

/-- Until it is done, the decoder out of place is the machine. -/
lemma decodeApart_eq_run {d : ChunkedDecoder} (hd : d.state ≠ chunkDone) (w : Bytes) :
    decodeApart d w = (chunkMachine false).run d w := by
  induction w generalizing d with
  | nil => rw [Transducer.run_nil (halted_false hd), decodeApart]
  | cons c w ih =>
    rw [decodeApart, if_neg hd]
    cases hfeed : d.feed false c with
    | none => rw [Transducer.run_cons_none (halted_false hd) hfeed]
    | some p =>
      obtain ⟨d', o⟩ := p
      rw [Transducer.run_cons_some (halted_false hd) hfeed]
      dsimp only
      by_cases hd' : d'.state = chunkDone
      · rw [if_pos hd', Transducer.run_halted (halted_true hd'), List.append_nil]
      · rw [if_neg hd', ih hd']

lemma decodeApart_done {d : ChunkedDecoder} (hd : d.state = chunkDone) (w : Bytes) :
    decodeApart d w = ⟨if w = [] then .more else .complete, d, [], w⟩ := by
  cases w with
  | nil => rfl
  | cons c w => rw [decodeApart, if_pos hd, if_neg (List.cons_ne_nil c w)]

lemma decodeApart_rest_suffix (d : ChunkedDecoder) (w : Bytes) : (decodeApart d w).rest <:+ w := by
  by_cases hd : d.state = chunkDone
  · rw [decodeApart_done hd]
  · rw [decodeApart_eq_run hd]
    exact Transducer.rest_suffix d w

lemma decodeChunked_done {d : ChunkedDecoder} (hd : d.state = chunkDone) {buf : Bytes} {bufsz : Nat}
    (h : bufsz ≤ buf.length) :
    ∃ r, decodeChunked d buf bufsz = some r ∧
      Refines [] buf bufsz (decodeApart d (buf.take bufsz)) r := by
  rw [decodeApart_done hd]
  unfold decodeChunked
  rw [DecodeLoop.loop]
  by_cases hpos : 0 < bufsz
  · have hstep : (⟨d, buf, 0, 0⟩ : DecodeLoop).step bufsz (buf.getD 0 0) =
        (⟨d, buf, 0, 0⟩ : DecodeLoop).complete bufsz :=
      step_eq_complete hd
    have hne : buf.take bufsz ≠ [] := by
      apply List.ne_nil_of_length_pos
      rw [List.length_take]
      omega
    obtain ⟨r, hr, href⟩ := complete_refines (l := ⟨d, buf, 0, 0⟩) (Nat.le_refl 0)
      (Nat.zero_le bufsz) h
    rw [if_pos hpos, hstep, hr, if_neg hne]
    exact ⟨r, rfl, href⟩
  · obtain rfl : bufsz = 0 := by omega
    rw [if_neg hpos]
    refine ⟨_, rfl, ?_⟩
    constructor
    · rfl
    · rfl
    · rfl
    · intro hv
      cases hv
    · intro _
      exact ⟨rfl, rfl, rfl⟩
    · intro hv
      cases hv

/-- A call does to its buffer what the decoder out of place does with the original bytes. -/
lemma decodeChunked_apart {d : ChunkedDecoder} (hok : d.Ok) {buf : Bytes} {bufsz : Nat}
    (h : bufsz ≤ buf.length) :
    ∃ r, decodeChunked d buf bufsz = some r ∧
      Refines [] buf bufsz (decodeApart d (buf.take bufsz)) r := by
  by_cases hd : d.state = chunkDone
  · exact decodeChunked_done hd h
  · rw [decodeApart_eq_run hd]
    exact decodeChunked_refines hok hd h

lemma ChunkedDecoder.Reachable.ok {consumeTrailer : Bool} {d : ChunkedDecoder}
    (hd : d.Reachable consumeTrailer) : d.Ok := by
  induction hd with
  | zero => exact ok_zero consumeTrailer
  | @call d buf bufsz r _ hsz hr ih =>
    obtain ⟨r', hr', href⟩ := decodeChunked_apart ih hsz
    rw [hr] at hr'
    obtain rfl := Option.some.inj hr'
    rw [href.decoder]
    by_cases hdone : d.state = chunkDone
    · rw [decodeApart_done hdone]
      exact ih
    · rw [decodeApart_eq_run hdone]
      have hkeep {s t : ChunkedDecoder} {c : UInt8} {o : Bytes} (_ : s.Ok)
          (hs : (chunkMachine false).step s c = some (t, o)) : t.Ok :=
        ChunkStep.ok (feed_iff.mp hs)
      exact Transducer.state_invariant hkeep ih _

/-- The in-place decoder equals an out-of-place one, whatever calls came before, and in every
iteration what it has not read yet is untouched. -/
theorem decodeChunked_inPlace {consumeTrailer : Bool} {d : ChunkedDecoder}
    (hd : d.Reachable consumeTrailer) {buf : Bytes} {bufsz : Nat} (h : bufsz ≤ buf.length) :
    let apart := decodeApart d (buf.take bufsz)
    (∃ r, decodeChunked d buf bufsz = some r ∧
      r.decoder = apart.state ∧
      r.buf.length = buf.length ∧ r.buf.drop bufsz = buf.drop bufsz ∧
      (apart.verdict = .more → r.ret = Status.incomplete.code ∧ r.bufsz = apart.out.length ∧
        r.buf.take r.bufsz = apart.out) ∧
      (apart.verdict = .complete → r.ret = statusOfCount apart.rest.length ∧
        r.bufsz = apart.out.length ∧ r.buf.take r.bufsz = apart.out ∧
        (r.buf.drop r.bufsz).take apart.rest.length = apart.rest) ∧
      (apart.verdict = .fail → r.ret = Status.error.code)) ∧
    apart.rest <:+ buf.take bufsz ∧
    ∀ l, DecodeLoop.Reaches bufsz ⟨d, buf, 0, 0⟩ l →
      l.dst ≤ l.src ∧ l.src ≤ bufsz ∧ l.buf.drop l.src = buf.drop l.src := by
  dsimp only
  obtain ⟨r, hr, href⟩ := decodeChunked_apart hd.ok h
  refine ⟨⟨r, hr, href.decoder, href.length, href.frame, ?_, ?_, fun hv => (href.fail hv).1⟩,
    decodeApart_rest_suffix d _, ?_⟩
  · intro hv
    exact ⟨(href.more hv).1, href.payload (by rw [hv]; decide)⟩
  · intro hv
    obtain ⟨hsz, hout⟩ := href.payload (by rw [hv]; decide)
    obtain ⟨hret, hrest⟩ := href.trailing hv
    exact ⟨hret, hsz, hout, hrest⟩
  · intro l hl
    have hstart : DecodeLoop.Intact buf bufsz ⟨d, buf, 0, 0⟩ :=
      ⟨hd.ok, Nat.le_refl 0, Nat.zero_le bufsz, rfl, rfl⟩
    have hi := hl.intact h hstart
    exact ⟨hi.dst_le, hi.src_le, hi.unread⟩

/-- A call that resumes inside a chunk, in a buffer longer than what is available. -/
theorem decodeChunked_inPlace_resumed :
    ∃ r, decodeChunked ⟨2, 3, 1, chunkData, false⟩ (ascii "lo\r\n0\r\nGET!!") 10 = some r ∧
      r.ret = 3 ∧ r.buf.take r.bufsz = ascii "lo" ∧ (r.buf.drop r.bufsz).take 3 = ascii "GET" ∧
      r.buf.drop 10 = ascii "!!" := by
  have hfirst : decodeChunked (.zero false) (ascii "5\r\nhel") 6 =
      some ⟨Status.incomplete.code, ⟨2, 3, 1, chunkData, false⟩, ascii "helhel", 3⟩ := by
    decide
  have hd : (⟨2, 3, 1, chunkData, false⟩ : ChunkedDecoder).Reachable false :=
    .call .zero (by decide) hfirst
  obtain ⟨⟨r, hr, -, -, hframe, -, hdone, -⟩, -, -⟩ :=
    decodeChunked_inPlace hd (show 10 ≤ (ascii "lo\r\n0\r\nGET!!").length by decide)
  obtain ⟨hret, -, hout, hrest⟩ := hdone (by decide)
  refine ⟨r, hr, hret.trans (by decide), hout.trans (by decide), ?_, hframe⟩
  have hthree : (decodeApart ⟨2, 3, 1, chunkData, false⟩
      ((ascii "lo\r\n0\r\nGET!!").take 10)).rest = ascii "GET" := by decide
  rwa [hthree] at hrest

end IoHttpParser
