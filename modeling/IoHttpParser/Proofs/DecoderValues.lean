import IoHttpParser.Model.BodyDecoder

/-!
# The chunked decoder from any value

The decoder is a public structure that a caller can fill as it likes. From whatever it holds, a
call of `ihtp_decode_chunked` keeps to its buffer, and it returns, unless the phase number is none
of the eight: then the switch matches nothing, and the loop goes round on the first byte for ever.
-/

namespace IoHttpParser
open Memory

namespace DecodeLoop

/-- What holds at the head of the loop of a call on the first `avail` bytes of `buf`. -/
structure Inside (l : DecodeLoop) (buf : Bytes) (avail : Nat) : Prop where
  phase : l.decoder.state ≤ chunkDone
  dst_le : l.dst ≤ l.src
  src_le : l.src ≤ avail
  avail_le : avail ≤ l.buf.length
  length_buf : l.buf.length = buf.length
  beyond : l.buf.drop avail = buf.drop avail

/-- The iterations that are left, at most: each takes a byte, but for the one that finds an empty
chunk in its data phase. -/
def left (l : DecodeLoop) (avail : Nat) : Nat :=
  avail - l.src +
    if l.decoder.state = chunkData ∧ l.decoder.bytesLeftInChunk = 0 then 1 else 0

end DecodeLoop

/-- What a call on the first `bufsz` bytes of `buf` leaves in its arguments. -/
structure DecodeResult.Inside (r : DecodeResult) (buf : Bytes) (bufsz : Nat) : Prop where
  phase : r.decoder.state ≤ chunkDone
  bufsz_le : r.bufsz ≤ bufsz
  length_buf : r.buf.length = buf.length
  beyond : r.buf.drop bufsz = buf.drop bufsz

/-- One iteration stays inside and gets nearer to the end, or the call returns inside. -/
def DecodeStep.Inside (buf : Bytes) (avail bound : Nat) : DecodeStep → Prop
  | .next l => l.Inside buf avail ∧ l.left avail < bound
  | .ret r => r.Inside buf avail

namespace DecodeLoop

variable {l : DecodeLoop} {buf : Bytes} {avail : Nat}

lemma Inside.error (h : l.Inside buf avail) {bound : Nat} :
    (l.error avail).Inside buf avail bound :=
  ⟨h.phase, le_rfl, h.length_buf, h.beyond⟩

/-- A byte is taken, and the decoder is left in a phase that is no empty data phase. -/
lemma Inside.skip (h : l.Inside buf avail) (hlt : l.src < avail) {d : ChunkedDecoder}
    (hphase : d.state ≤ chunkDone) (hdata : d.state = chunkData → d.bytesLeftInChunk ≠ 0) :
    (DecodeStep.next (l.skip d)).Inside buf avail (l.left avail) := by
  refine ⟨⟨hphase, Nat.le_succ_of_le h.dst_le, hlt, h.avail_le, h.length_buf, h.beyond⟩, ?_⟩
  rw [left, left, if_neg fun hd => hdata hd.1 hd.2]
  simp only [DecodeLoop.skip]
  omega

/-- The trailing bytes move up inside the first `avail`. -/
lemma Inside.complete (h : l.Inside buf avail) {bound : Nat} :
    (l.complete avail).Inside buf avail bound := by
  have hdst := h.dst_le
  have hsrc := h.src_le
  have havail := h.avail_le
  unfold DecodeLoop.complete
  dsimp only
  split_ifs with hlt
  · have hmove : l.src + (avail - l.src) ≤ l.buf.length := by omega
    exact ⟨h.phase, hdst.trans hsrc, (length_memmove hdst hmove).trans h.length_buf,
      (drop_memmove hdst hmove (by omega)).trans h.beyond⟩
  · exact ⟨h.phase, hdst.trans hsrc, h.length_buf, h.beyond⟩

/-- The data phase takes what is there and wanted, which may be nothing once. -/
lemma Inside.copy (h : l.Inside buf avail) (hlt : l.src < avail)
    (hdata : l.decoder.state = chunkData) (c : UInt8) :
    (l.step avail c).Inside buf avail (l.left avail) := by
  have hdst := h.dst_le
  have havail := h.avail_le
  set n := min (avail - l.src) l.decoder.bytesLeftInChunk with hn
  have hmove : l.src + n ≤ l.buf.length := by omega
  rw [DecodeLoop.step, hdata]
  refine ⟨⟨?_, ?_, ?_, ?_, ?_, ?_⟩, ?_⟩
  · dsimp only
    split_ifs <;> decide
  · exact Nat.add_le_add_right hdst n
  · dsimp only
    omega
  · exact havail.trans (length_memmove hdst hmove).ge
  · exact (length_memmove hdst hmove).trans h.length_buf
  · exact (drop_memmove hdst hmove (by omega)).trans h.beyond
  · simp only [left, hdata, true_and, beq_iff_eq]
    split_ifs <;> simp_all <;> omega

lemma Inside.step (h : l.Inside buf avail) (hlt : l.src < avail) (c : UInt8) :
    (l.step avail c).Inside buf avail (l.left avail) := by
  by_cases hdata : l.decoder.state = chunkData
  · exact h.copy hlt hdata c
  have hphase := h.phase
  -- a byte is taken within a phase, or on the way to another one
  have hstay {d : ChunkedDecoder} (hd : d.state = l.decoder.state) :
      (DecodeStep.next (l.skip d)).Inside buf avail (l.left avail) :=
    h.skip hlt (hd ▸ hphase) fun h' => absurd (hd ▸ h') hdata
  have hto {d : ChunkedDecoder} (k : Nat) (hd : d.state = k) (hk : k ≤ chunkDone)
      (hne : k ≠ chunkData) : (DecodeStep.next (l.skip d)).Inside buf avail (l.left avail) :=
    h.skip hlt (hd ▸ hk) fun h' => absurd (hd ▸ h') hne
  have hdone : ((l.skip { l.decoder with state := chunkDone }).complete avail).Inside buf avail
      (l.left avail) :=
    (hto chunkDone rfl (by decide) (by decide)).1.complete
  unfold DecodeLoop.step
  dsimp only
  split
  case h_1 =>
    split_ifs
    · exact h.error
    · exact hstay rfl
    · exact hto chunkExt rfl (by decide) (by decide)
    · exact h.error
    · exact hto chunkSizeLf rfl (by decide) (by decide)
    · exact h.error
  case h_2 =>
    split_ifs
    · exact hto chunkSizeLf rfl (by decide) (by decide)
    · exact h.error
    · exact hstay rfl
  case h_3 =>
    split_ifs with hlf hzero
    · exact h.error
    · exact hto chunkTrailer rfl (by decide) (by decide)
    · exact hdone
    · exact h.skip hlt (Nat.le_of_ble_eq_true rfl) fun _ => by simpa using hzero
  case h_4 hstate => exact absurd hstate hdata
  case h_5 =>
    split_ifs
    · exact h.error
    · exact hto chunkDataLf rfl (by decide) (by decide)
  case h_6 =>
    split_ifs
    · exact h.error
    · exact hto chunkSize rfl (by decide) (by decide)
  case h_7 =>
    split
    · split_ifs
      · exact hstay rfl
      · exact h.error
      · exact hstay rfl
    · split_ifs
      · exact h.error
      · exact hdone
    · split_ifs
      · exact hstay rfl
      · exact h.error
      · exact hstay rfl
    · split_ifs
      · exact h.error
      · exact hstay rfl
    · exact h.error
  case h_8 => exact h.complete
  case h_9 h0 h1 h2 h3 h4 h5 h6 h7 =>
    have hle : l.decoder.state ≤ 7 := hphase
    simp only [imp_false] at h0 h1 h2 h3 h4 h5 h6 h7
    omega

/-- The loop returns, inside, as soon as the fuel exceeds the iterations that are left. -/
lemma Inside.loop (h : l.Inside buf avail) {fuel : Nat} (hfuel : l.left avail < fuel) :
    ∃ r, l.loop avail fuel = some r ∧ r.Inside buf avail := by
  induction fuel generalizing l with
  | zero => omega
  | succ fuel ih =>
    rw [DecodeLoop.loop]
    by_cases hlt : l.src < avail
    · have hstep := h.step hlt (l.buf.getD l.src 0)
      rw [if_pos hlt]
      cases hs : l.step avail (l.buf.getD l.src 0) with
      | next l' =>
        rw [hs] at hstep
        have hless := hstep.2
        exact ih hstep.1 (by omega)
      | ret r =>
        rw [hs] at hstep
        exact ⟨r, rfl, hstep⟩
    · rw [if_neg hlt]
      exact ⟨_, rfl, h.phase, h.dst_le.trans h.src_le, h.length_buf, h.beyond⟩

/-- In no phase at all, the loop stays on a byte for ever. -/
lemma loop_stuck (hphase : chunkDone < l.decoder.state) (hlt : l.src < avail) (fuel : Nat) :
    l.loop avail fuel = none := by
  induction fuel with
  | zero => rfl
  | succ fuel ih =>
    have hstep : l.step avail (l.buf.getD l.src 0) = .next l := by
      unfold DecodeLoop.step
      dsimp only
      split
      case h_9 => rfl
      all_goals
        rename_i hstate
        exact absurd hphase (by rw [hstate]; decide)
    rw [DecodeLoop.loop, if_pos hlt, hstep]
    exact ih

/-- More fuel changes nothing. -/
lemma loop_mono {fuel more : Nat} (hle : fuel ≤ more) {r : DecodeResult}
    (h : l.loop avail fuel = some r) : l.loop avail more = some r := by
  induction fuel generalizing l more with
  | zero => cases h
  | succ fuel ih =>
    obtain ⟨more, rfl⟩ : ∃ m, more = m + 1 := ⟨more - 1, by omega⟩
    rw [DecodeLoop.loop] at h ⊢
    by_cases hlt : l.src < avail
    · rw [if_pos hlt] at h ⊢
      cases hs : l.step avail (l.buf.getD l.src 0) with
      | next l' =>
        rw [hs] at h
        exact ih (by omega) h
      | ret r' =>
        rw [hs] at h
        exact h
    · rw [if_neg hlt] at h ⊢
      exact h

end DecodeLoop

/-- From any value of the decoder, on any part of any buffer: the loop of `ihtp_decode_chunked`
returns if and only if it is given no byte, or one of the eight phases. `bufsz + 2` iterations are
enough then, and in such a phase the call leaves a phase of the eight, reports no more bytes than it
was given, keeps the length of the buffer and touches nothing after those bytes. -/
theorem decodeChunked_anyValue (d : ChunkedDecoder) {buf : Bytes} {bufsz : Nat}
    (h : bufsz ≤ buf.length) :
    ((∃ fuel r, DecodeLoop.loop bufsz fuel ⟨d, buf, 0, 0⟩ = some r) ↔
      bufsz = 0 ∨ d.state ≤ chunkDone) ∧
    (∀ fuel r, DecodeLoop.loop bufsz fuel ⟨d, buf, 0, 0⟩ = some r →
      decodeChunked d buf bufsz = some r) ∧
    (d.state ≤ chunkDone → ∃ r, decodeChunked d buf bufsz = some r ∧ r.Inside buf bufsz) := by
  have hinside (hphase : d.state ≤ chunkDone) :
      ∃ r, decodeChunked d buf bufsz = some r ∧ r.Inside buf bufsz := by
    have hstart : DecodeLoop.Inside ⟨d, buf, 0, 0⟩ buf bufsz :=
      ⟨hphase, le_rfl, Nat.zero_le _, h, rfl, rfl⟩
    apply hstart.loop
    rw [DecodeLoop.left]
    split_ifs <;> omega
  have hempty : decodeChunked d buf 0 = some ⟨Status.incomplete.code, d, buf, 0⟩ := rfl
  refine ⟨⟨?_, ?_⟩, ?_, hinside⟩
  · rintro ⟨fuel, r, hr⟩
    by_contra hnot
    simp only [not_or, not_le] at hnot
    rw [DecodeLoop.loop_stuck hnot.2 (Nat.pos_of_ne_zero hnot.1)] at hr
    cases hr
  · rintro (rfl | hphase)
    · exact ⟨_, _, hempty⟩
    · obtain ⟨r, hr, -⟩ := hinside hphase
      exact ⟨_, r, hr⟩
  · intro fuel r hr
    obtain rfl | hpos := Nat.eq_zero_or_pos bufsz
    · cases fuel with
      | zero => cases hr
      | succ fuel => exact hempty.trans hr
    · by_cases hphase : d.state ≤ chunkDone
      · obtain ⟨r', hr', -⟩ := hinside hphase
        have hmax := DecodeLoop.loop_mono (le_max_left fuel (bufsz + 2)) hr
        rw [DecodeLoop.loop_mono (le_max_right fuel (bufsz + 2)) hr'] at hmax
        rw [hr', hmax]
      · rw [DecodeLoop.loop_stuck (not_le.mp hphase) hpos] at hr
        cases hr

/-- In a ninth phase one byte is enough to keep a call for ever; with nothing left of a chunk in
the data phase it is read as the byte after the chunk. -/
theorem decodeChunked_anyValue_outside :
    (¬∃ fuel r, DecodeLoop.loop 1 fuel ⟨⟨0, 0, 0, 8, false⟩, [cr], 0, 0⟩ = some r) ∧
    ∃ r, decodeChunked ⟨0, 0, 0, chunkData, false⟩ [cr] 1 = some r ∧
      r.decoder.state = chunkDataLf := by
  constructor
  · have hone : 1 ≤ [cr].length := le_rfl
    rw [(decodeChunked_anyValue ⟨0, 0, 0, 8, false⟩ hone).1]
    decide
  · exact ⟨_, rfl, rfl⟩

end IoHttpParser
