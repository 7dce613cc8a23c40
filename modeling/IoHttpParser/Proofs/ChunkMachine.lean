import IoHttpParser.Spec.ChunkMachine

/-!
# The chunked decoder runs the machine

The loop of `ihtp_decode_chunked`, with its bulk copies inside one buffer, computes a run of the
byte machine: the same verdict and state, the machine's output at the front of the buffer and,
on completion, the unread bytes right behind it.
-/

namespace IoHttpParser
open Memory Streaming

section Feed

variable {q : Bool} {d d' : ChunkedDecoder} {c : UInt8} {o : Bytes}

lemma ChunkStep.feed (h : ChunkStep q d c d' o) : d.feed q c = some (d', o) := by
  cases h with
  | digit hc hk => simp [ChunkedDecoder.feed, hc, hk]
  | extStart hk =>
    have hx : isHexDigit semicolon = false := by decide
    simpa [ChunkedDecoder.feed, hx] using hk
  | sizeCr hk =>
    have hx : isHexDigit cr = false := by decide
    simp [ChunkedDecoder.feed, hx, hk, show cr ≠ semicolon by decide]
  | extByte hcr hlf => simp [ChunkedDecoder.feed, hcr, hlf]
  | sizeData hb => simp [ChunkedDecoder.feed, hb]
  | dataByte hb => simp [ChunkedDecoder.feed, hb]
  | dataLast hb => simp [ChunkedDecoder.feed, hb]
  | trailerStart hcr hlf | trailerByte hcr hlf => simp [ChunkedDecoder.feed, hcr, hlf]
  | extCr | sizeTrailer | sizeDone | dataCr | dataLf | trailerEnd | trailerDone | trailerCr |
    trailerLf => rfl

section Of

variable {b t k : Nat} {ct : Bool}

lemma ChunkStep.of_feed_size (h : ChunkedDecoder.feed q ⟨b, t, k, chunkSize, ct⟩ c = some (d', o)) :
    ChunkStep q ⟨b, t, k, chunkSize, ct⟩ c d' o := by
  simp only [ChunkedDecoder.feed] at h
  by_cases hx : isHexDigit c = true
  · rw [if_pos hx] at h
    split at h <;> cases h
    rename_i hk
    exact .digit hx (Nat.lt_of_not_le hk)
  rw [if_neg hx] at h
  by_cases hsemi : c = semicolon
  · rw [if_pos hsemi] at h
    split at h <;> cases h
    rename_i hk
    rw [hsemi]
    exact .extStart fun hq hk0 => hk ⟨hq, hk0⟩
  rw [if_neg hsemi] at h
  by_cases hcr : c = cr
  · rw [if_pos hcr] at h
    split at h <;> cases h
    rename_i hk
    rw [hcr]
    exact .sizeCr hk
  · rw [if_neg hcr] at h
    cases h

lemma ChunkStep.of_feed_ext (h : ChunkedDecoder.feed q ⟨b, t, k, chunkExt, ct⟩ c = some (d', o)) :
    ChunkStep q ⟨b, t, k, chunkExt, ct⟩ c d' o := by
  simp only [ChunkedDecoder.feed] at h
  by_cases hcr : c = cr
  · rw [if_pos hcr] at h
    cases h
    rw [hcr]
    exact .extCr
  · rw [if_neg hcr] at h
    split at h <;> cases h
    rename_i hlf
    exact .extByte hcr hlf

lemma ChunkStep.of_feed_sizeLf
    (h : ChunkedDecoder.feed q ⟨b, t, k, chunkSizeLf, ct⟩ c = some (d', o)) :
    ChunkStep q ⟨b, t, k, chunkSizeLf, ct⟩ c d' o := by
  simp only [ChunkedDecoder.feed] at h
  by_cases hlf : c = lf
  · rw [if_neg (not_not.mpr hlf)] at h
    rw [hlf]
    by_cases hb : b = 0
    · subst hb
      rw [if_pos rfl] at h
      cases ct <;> cases h
      · exact .sizeDone
      · exact .sizeTrailer
    · rw [if_neg hb] at h
      cases h
      exact .sizeData hb
  · rw [if_pos hlf] at h
    cases h

lemma ChunkStep.of_feed_data
    (h : ChunkedDecoder.feed q ⟨b, t, k, chunkData, ct⟩ c = some (d', o)) :
    ChunkStep q ⟨b, t, k, chunkData, ct⟩ c d' o := by
  simp only [ChunkedDecoder.feed] at h
  cases h
  by_cases hb : b - 1 = 0
  · simp only [hb, if_true]
    exact .dataLast hb
  · simp only [hb, if_false]
    exact .dataByte hb

lemma ChunkStep.of_feed_trailer
    (h : ChunkedDecoder.feed q ⟨b, t, k, chunkTrailer, ct⟩ c = some (d', o)) :
    ChunkStep q ⟨b, t, k, chunkTrailer, ct⟩ c d' o := by
  simp only [ChunkedDecoder.feed] at h
  split at h
  · by_cases hcr : c = cr
    · rw [if_pos hcr] at h
      cases h
      rw [hcr]
      exact .trailerEnd
    · rw [if_neg hcr] at h
      split at h <;> cases h
      rename_i hlf
      exact .trailerStart hcr hlf
  · split at h <;> cases h
    rename_i hlf
    rw [not_not.mp hlf]
    exact .trailerDone
  · by_cases hcr : c = cr
    · rw [if_pos hcr] at h
      cases h
      rw [hcr]
      exact .trailerCr
    · rw [if_neg hcr] at h
      split at h <;> cases h
      rename_i hlf
      exact .trailerByte hcr hlf
  · split at h <;> cases h
    rename_i hlf
    rw [not_not.mp hlf]
    exact .trailerLf
  · cases h

end Of

lemma feed_iff : d.feed q c = some (d', o) ↔ ChunkStep q d c d' o := by
  refine ⟨fun h => ?_, ChunkStep.feed⟩
  obtain ⟨b, t, k, st, ct⟩ := d
  have hst := h
  rw [ChunkedDecoder.feed] at hst
  split at hst <;> rename_i hstate
  · obtain rfl : st = chunkSize := hstate
    exact .of_feed_size h
  · obtain rfl : st = chunkExt := hstate
    exact .of_feed_ext h
  · obtain rfl : st = chunkSizeLf := hstate
    exact .of_feed_sizeLf h
  · obtain rfl : st = chunkData := hstate
    exact .of_feed_data h
  · obtain rfl : st = chunkDataCr := hstate
    split at hst <;> cases hst
    rename_i hcr
    rw [not_not.mp hcr]
    exact .dataCr
  · obtain rfl : st = chunkDataLf := hstate
    split at hst <;> cases hst
    rename_i hlf
    rw [not_not.mp hlf]
    exact .dataLf
  · obtain rfl : st = chunkTrailer := hstate
    exact .of_feed_trailer h
  · cases hst

lemma ChunkStep.out (h : ChunkStep q d c d' o) (hd : d.state ≠ chunkData) : o = [] := by
  cases h <;> first | rfl | exact absurd rfl hd

lemma ChunkStep.ok (h : ChunkStep q d c d' o) : d'.Ok := by
  cases h with
  | sizeData hb | dataByte hb =>
    exact ⟨Nat.le_of_ble_eq_true rfl, fun _ => Nat.pos_of_ne_zero hb⟩
  | _ => exact ⟨Nat.le_of_ble_eq_true rfl, fun h => by cases h⟩

lemma ok_zero (consumeTrailer : Bool) : (ChunkedDecoder.zero consumeTrailer).Ok :=
  ⟨Nat.le_of_ble_eq_true rfl, fun h => by cases h⟩

end Feed

/-! ### One iteration -/

/-- Outside the data state an iteration feeds one byte. -/
lemma step_eq_feed {l : DecodeLoop} {avail : Nat} {c : UInt8} (hok : l.decoder.Ok)
    (hdata : l.decoder.state ≠ chunkData) (hdone : l.decoder.state ≠ chunkDone) :
    l.step avail c =
      match l.decoder.feed false c with
      | none => l.error avail
      | some (d', _) =>
        if d'.state = chunkDone then (l.skip d').complete avail else .next (l.skip d') := by
  obtain ⟨⟨b, t, k, st, ct⟩, buf, src, dst⟩ := l
  have hle : st ≤ 7 := hok.state_le
  have hne : st ≠ 3 := hdata
  have hne' : st ≠ 7 := hdone
  clear hok hdata hdone
  obtain rfl | rfl | rfl | rfl | rfl | rfl :
      st = 0 ∨ st = 1 ∨ st = 2 ∨ st = 4 ∨ st = 5 ∨ st = 6 := by omega
  · simp only [DecodeLoop.step, ChunkedDecoder.feed, beq_iff_eq, Bool.false_eq_true, false_and,
      if_false]
    split_ifs <;> rfl
  · simp only [DecodeLoop.step, ChunkedDecoder.feed, beq_iff_eq]
    split_ifs <;> rfl
  · simp only [DecodeLoop.step, ChunkedDecoder.feed, beq_iff_eq, bne_iff_ne]
    split_ifs <;> rfl
  · simp only [DecodeLoop.step, ChunkedDecoder.feed, bne_iff_ne]
    split_ifs <;> rfl
  · simp only [DecodeLoop.step, ChunkedDecoder.feed, bne_iff_ne]
    split_ifs <;> rfl
  · obtain rfl | rfl | rfl | rfl | hk : k = 0 ∨ k = 1 ∨ k = 2 ∨ k = 3 ∨ 4 ≤ k := by omega
    · simp only [DecodeLoop.step, ChunkedDecoder.feed, beq_iff_eq]
      split_ifs <;> rfl
    · simp only [DecodeLoop.step, ChunkedDecoder.feed, bne_iff_ne]
      split_ifs <;> rfl
    · simp only [DecodeLoop.step, ChunkedDecoder.feed, beq_iff_eq]
      split_ifs <;> rfl
    · simp only [DecodeLoop.step, ChunkedDecoder.feed, bne_iff_ne]
      split_ifs <;> rfl
    · obtain ⟨m, rfl⟩ : ∃ m, k = m + 4 := ⟨k - 4, by omega⟩
      rfl

/-- The decoder after `n` bytes of chunk data. -/
def ChunkedDecoder.afterData (d : ChunkedDecoder) (n : Nat) : ChunkedDecoder :=
  { d with
    bytesLeftInChunk := d.bytesLeftInChunk - n
    totalDecoded := u64 (d.totalDecoded + n)
    state := if d.bytesLeftInChunk - n = 0 then chunkDataCr else chunkData }

lemma feed_data {q : Bool} {d : ChunkedDecoder} (h : d.state = chunkData) (c : UInt8) :
    d.feed q c = some (d.afterData 1, [c]) := by
  obtain ⟨b, t, k, st, ct⟩ := d
  obtain rfl : st = chunkData := h
  rfl

/-- A block of chunk data is fed byte by byte. -/
lemma path_data {q : Bool} {d : ChunkedDecoder} (hst : d.state = chunkData) {xs : Bytes}
    (hne : xs ≠ []) (hle : xs.length ≤ d.bytesLeftInChunk) :
    (chunkMachine q).Path d xs (d.afterData xs.length) xs := by
  induction xs generalizing d with
  | nil => exact absurd rfl hne
  | cons x xs ih =>
    have hh : (chunkMachine q).halted d = false := by simp [chunkMachine, hst]
    have hfeed : (chunkMachine q).step d x = some (d.afterData 1, [x]) := feed_data hst x
    rw [List.length_cons] at hle
    by_cases hx : xs = []
    · subst hx
      exact .single hh hfeed
    · have hpos := List.length_pos_of_ne_nil hx
      have hst' : (d.afterData 1).state = chunkData := by
        rw [ChunkedDecoder.afterData]
        dsimp only
        rw [if_neg (by omega)]
      have hafter : (d.afterData 1).afterData xs.length = d.afterData (x :: xs).length := by
        simp only [ChunkedDecoder.afterData, u64_add_u64, List.length_cons]
        have h1 : d.bytesLeftInChunk - 1 - xs.length = d.bytesLeftInChunk - (xs.length + 1) := by
          omega
        have h2 : d.totalDecoded + 1 + xs.length = d.totalDecoded + (xs.length + 1) := by omega
        simp only [h1, h2]
      have hle' : xs.length ≤ (d.afterData 1).bytesLeftInChunk := by
        rw [ChunkedDecoder.afterData]
        dsimp only
        omega
      have htail := ih hst' hx hle'
      rw [hafter] at htail
      exact .cons hh hfeed htail

/-- The variables after a copy of `n` bytes of chunk data. -/
def DecodeLoop.copyData (l : DecodeLoop) (n : Nat) : DecodeLoop :=
  { decoder := l.decoder.afterData n, buf := memmove l.buf l.dst l.src n, src := l.src + n,
    dst := l.dst + n }

lemma step_eq_copyData {l : DecodeLoop} {avail : Nat} {c : UInt8}
    (hdata : l.decoder.state = chunkData) :
    l.step avail c = .next (l.copyData (min (avail - l.src) l.decoder.bytesLeftInChunk)) := by
  obtain ⟨⟨b, t, k, st, ct⟩, buf, src, dst⟩ := l
  obtain rfl : st = chunkData := hdata
  simp only [DecodeLoop.step, DecodeLoop.copyData, ChunkedDecoder.afterData, beq_iff_eq]

@[simp] lemma DecodeLoop.skip_src (l : DecodeLoop) (d : ChunkedDecoder) :
    (l.skip d).src = l.src + 1 := rfl

lemma step_eq_complete {l : DecodeLoop} {avail : Nat} {c : UInt8}
    (hdone : l.decoder.state = chunkDone) : l.step avail c = l.complete avail := by
  unfold DecodeLoop.step
  dsimp only
  rw [hdone]
  rfl

/-- What an iteration that goes on can do: it copies chunk data, or it feeds one byte. -/
lemma step_cases {l l' : DecodeLoop} {avail : Nat} {c : UInt8} (hok : l.decoder.Ok)
    (hstep : l.step avail c = .next l') :
    l.decoder.state = chunkData ∧
      l' = l.copyData (min (avail - l.src) l.decoder.bytesLeftInChunk) ∨
    ∃ d' o, l.decoder.state ≠ chunkDone ∧ l.decoder.feed false c = some (d', o) ∧
      l' = l.skip d' := by
  by_cases hdata : l.decoder.state = chunkData
  · rw [step_eq_copyData hdata] at hstep
    cases hstep
    exact .inl ⟨hdata, rfl⟩
  by_cases hdone : l.decoder.state = chunkDone
  · rw [step_eq_complete hdone] at hstep
    cases hstep
  rw [step_eq_feed hok hdata hdone] at hstep
  cases hfeed : l.decoder.feed false c with
  | none => rw [hfeed] at hstep; cases hstep
  | some p =>
    obtain ⟨d', o⟩ := p
    rw [hfeed] at hstep
    dsimp only at hstep
    split at hstep <;> cases hstep
    exact .inr ⟨d', o, hdone, rfl, rfl⟩

/-! ### The loop -/

/-- What a call does with the machine's run on its input: `before` is what the buffer's front
already held, and bytes at or beyond `avail` stay as they were. -/
structure Refines (before buf : Bytes) (avail : Nat) (run : Run ChunkedDecoder UInt8 UInt8)
    (r : DecodeResult) : Prop where
  decoder : r.decoder = run.state
  length : r.buf.length = buf.length
  frame : r.buf.drop avail = buf.drop avail
  complete : run.verdict = .complete → r.ret = statusOfCount run.rest.length ∧
    r.bufsz = (before ++ run.out).length ∧
    r.buf.take ((before ++ run.out).length + run.rest.length) = before ++ run.out ++ run.rest
  more : run.verdict = .more → r.ret = Status.incomplete.code ∧
    r.bufsz = (before ++ run.out).length ∧
    r.buf.take (before ++ run.out).length = before ++ run.out
  fail : run.verdict = .fail → r.ret = Status.error.code ∧ r.bufsz = avail

/-- Payload emitted earlier counts as buffer front. -/
lemma Refines.shift {before buf buf' out : Bytes} {avail : Nat}
    {run : Run ChunkedDecoder UInt8 UInt8} {r : DecodeResult}
    (h : Refines (before ++ out) buf' avail run r) (hlen : buf'.length = buf.length)
    (hframe : buf'.drop avail = buf.drop avail) :
    Refines before buf avail { run with out := out ++ run.out } r where
  decoder := h.decoder
  length := h.length.trans hlen
  frame := h.frame.trans hframe
  complete hv := by
    have hc := h.complete hv
    rwa [List.append_assoc] at hc
  more hv := by
    have hm := h.more hv
    rwa [List.append_assoc] at hm
  fail hv := h.fail hv

/-- After anything but an error the payload stands at the front of the buffer. -/
lemma Refines.payload {buf : Bytes} {avail : Nat} {run : Run ChunkedDecoder UInt8 UInt8}
    {r : DecodeResult} (h : Refines [] buf avail run r) (hv : run.verdict ≠ .fail) :
    r.bufsz = run.out.length ∧ r.buf.take r.bufsz = run.out := by
  cases hverdict : run.verdict with
  | complete =>
    obtain ⟨-, hsz, htake⟩ := h.complete hverdict
    rw [List.nil_append] at hsz htake
    have hout := congrArg (List.take run.out.length) htake
    rw [List.take_take, Nat.min_eq_left (Nat.le_add_right _ _), List.take_left, ← hsz] at hout
    exact ⟨hsz, hout⟩
  | more =>
    obtain ⟨-, hsz, htake⟩ := h.more hverdict
    rw [List.nil_append] at hsz htake
    rw [← hsz] at htake
    exact ⟨hsz, htake⟩
  | fail => exact absurd hverdict hv

/-- After completion the bytes left stand behind the payload. -/
lemma Refines.trailing {buf : Bytes} {avail : Nat} {run : Run ChunkedDecoder UInt8 UInt8}
    {r : DecodeResult} (h : Refines [] buf avail run r) (hv : run.verdict = .complete) :
    r.ret = statusOfCount run.rest.length ∧
      (r.buf.drop r.bufsz).take run.rest.length = run.rest := by
  obtain ⟨hret, hsz, htake⟩ := h.complete hv
  rw [List.nil_append] at hsz htake
  have hrest := congrArg (List.drop run.out.length) htake
  rw [List.drop_take, Nat.add_sub_cancel_left, List.drop_left, ← hsz] at hrest
  exact ⟨hret, hrest⟩

/-- The bytes an iteration has not read. -/
def DecodeLoop.unread (l : DecodeLoop) (avail : Nat) : Bytes := (l.buf.take avail).drop l.src

lemma DecodeLoop.length_unread {l : DecodeLoop} {avail : Nat} (h : avail ≤ l.buf.length) :
    (l.unread avail).length = avail - l.src := by
  rw [unread, List.length_drop, List.length_take, Nat.min_eq_left h]

lemma DecodeLoop.unread_eq_cons {l : DecodeLoop} {avail : Nat} (hsrc : l.src < avail)
    (h : avail ≤ l.buf.length) (d : ChunkedDecoder) :
    l.unread avail = l.buf.getD l.src 0 :: (l.skip d).unread avail := by
  have hlt : l.src < (l.buf.take avail).length := by
    rw [List.length_take, Nat.min_eq_left h]
    exact hsrc
  rw [unread, List.drop_eq_getElem_cons hlt]
  have hget : (l.buf.take avail)[l.src] = l.buf.getD l.src 0 := by
    rw [List.getElem_take, List.getD_eq_getElem?_getD, List.getElem?_eq_getElem (by omega),
      Option.getD_some]
  rw [hget]
  rfl

/-- A copy takes the bytes it reads off the unread ones and puts them behind the payload. -/
lemma copyData_front {l : DecodeLoop} {n : Nat} (avail : Nat) (hdst : l.dst ≤ l.src)
    (hmove : l.src + n ≤ l.buf.length) (hn : n ≤ avail - l.src) :
    (l.copyData n).unread avail = (l.unread avail).drop n ∧
      (l.copyData n).buf.take (l.copyData n).dst =
        l.buf.take l.dst ++ (l.unread avail).take n := by
  constructor
  · simp only [DecodeLoop.unread, DecodeLoop.copyData, List.drop_take, List.drop_drop,
      drop_memmove hdst hmove (Nat.le_refl _), Nat.sub_sub]
  · rw [DecodeLoop.unread, List.drop_take, List.take_take, Nat.min_eq_left hn]
    exact take_memmove hdst hmove

lemma complete_buf {l : DecodeLoop} {avail : Nat} (hdst : l.dst ≤ l.src) (hsrc : l.src ≤ avail)
    (havail : avail ≤ l.buf.length) :
    let buf := if l.src < avail then memmove l.buf l.dst l.src (avail - l.src) else l.buf
    buf.length = l.buf.length ∧ buf.drop avail = l.buf.drop avail ∧
      buf.take (l.dst + (avail - l.src)) = l.buf.take l.dst ++ l.unread avail := by
  dsimp only
  have hunread : (l.buf.drop l.src).take (avail - l.src) = l.unread avail := by
    rw [DecodeLoop.unread, List.drop_take]
  split
  · have hs : l.src + (avail - l.src) ≤ l.buf.length := by omega
    refine ⟨length_memmove hdst hs, drop_memmove hdst hs (by omega), ?_⟩
    rw [take_memmove hdst hs, hunread]
  · have hz : avail - l.src = 0 := by omega
    refine ⟨rfl, rfl, ?_⟩
    rw [← hunread, hz, Nat.add_zero, List.take_zero, List.append_nil]

/-- The completing exit leaves the unread bytes right behind the payload. -/
lemma complete_refines {l : DecodeLoop} {avail : Nat} (hdst : l.dst ≤ l.src) (hsrc : l.src ≤ avail)
    (havail : avail ≤ l.buf.length) :
    ∃ r, l.complete avail = .ret r ∧
      Refines (l.buf.take l.dst) l.buf avail ⟨.complete, l.decoder, [], l.unread avail⟩ r := by
  obtain ⟨hlen, hframe, htake⟩ := complete_buf hdst hsrc havail
  have hunread := DecodeLoop.length_unread (l := l) havail
  have hdlen : (l.buf.take l.dst).length = l.dst := by
    rw [List.length_take]
    omega
  refine ⟨_, rfl, rfl, hlen, hframe, fun _ => ⟨?_, ?_, ?_⟩, nofun, nofun⟩
  · rw [hunread]
  · rw [List.append_nil, hdlen]
  · rw [List.append_nil, hdlen, hunread]
    exact htake

/-- At the end of the input the call asks for more. -/
lemma end_refines {l : DecodeLoop} {avail : Nat} (hdst : l.dst ≤ l.src)
    (hsrc : l.src ≤ avail) (havail : avail ≤ l.buf.length) :
    Refines (l.buf.take l.dst) l.buf avail ⟨.more, l.decoder, [], []⟩
      ⟨Status.incomplete.code, l.decoder, l.buf, l.dst⟩ := by
  have hdlen : (l.buf.take l.dst).length = l.dst := by
    rw [List.length_take]
    omega
  refine ⟨rfl, rfl, rfl, nofun, fun _ => ⟨rfl, ?_, ?_⟩, nofun⟩
  · rw [List.append_nil, hdlen]
  · rw [List.append_nil, hdlen]

lemma halted_false {q : Bool} {d : ChunkedDecoder} (h : d.state ≠ chunkDone) :
    (chunkMachine q).halted d = false := beq_false_of_ne h

lemma halted_true {q : Bool} {d : ChunkedDecoder} (h : d.state = chunkDone) :
    (chunkMachine q).halted d = true := beq_iff_eq.mpr h

lemma afterData_ok (d : ChunkedDecoder) (n : Nat) :
    (d.afterData n).Ok ∧ (d.afterData n).state ≠ chunkDone := by
  rw [ChunkedDecoder.afterData]
  by_cases h : d.bytesLeftInChunk - n = 0
  · rw [if_pos h]
    exact ⟨⟨Nat.le_of_ble_eq_true rfl, fun hd => by cases hd⟩, fun hd => by cases hd⟩
  · rw [if_neg h]
    exact ⟨⟨Nat.le_of_ble_eq_true rfl, fun _ => Nat.pos_of_ne_zero h⟩, fun hd => by cases hd⟩

/-- The loop computes the machine's run on the unread bytes. -/
theorem loop_refines {avail : Nat} (fuel : Nat) {l : DecodeLoop} (hok : l.decoder.Ok)
    (hdone : l.decoder.state ≠ chunkDone) (hdst : l.dst ≤ l.src) (hsrc : l.src ≤ avail)
    (havail : avail ≤ l.buf.length) (hfuel : avail - l.src < fuel) :
    ∃ r, l.loop avail fuel = some r ∧
      Refines (l.buf.take l.dst) l.buf avail
        ((chunkMachine false).run l.decoder (l.unread avail)) r := by
  induction fuel generalizing l with
  | zero => omega
  | succ fuel ih =>
    have hh := halted_false (q := false) hdone
    rw [DecodeLoop.loop]
    by_cases hlt : l.src < avail
    · rw [if_pos hlt]
      by_cases hdata : l.decoder.state = chunkData
      · -- the machine reads byte by byte what the iteration copies at once
        rw [step_eq_copyData hdata]
        set n := min (avail - l.src) l.decoder.bytesLeftInChunk with hn
        have hpos : 0 < n := by
          have hleft := hok.data_pos hdata
          omega
        have hmove : l.src + n ≤ l.buf.length := by omega
        have hunread := DecodeLoop.length_unread (l := l) havail
        have hxs : ((l.unread avail).take n).length = n := by
          rw [List.length_take]
          omega
        have hne : (l.unread avail).take n ≠ [] := by
          intro h0
          rw [h0] at hxs
          exact absurd hxs (by simp; omega)
        have hbuf : (l.copyData n).buf.length = l.buf.length := length_memmove hdst hmove
        obtain ⟨hrest, hfront⟩ := copyData_front avail hdst hmove (by omega)
        have hafter := afterData_ok l.decoder n
        obtain ⟨r, hr, href⟩ := ih (l := l.copyData n) hafter.1 hafter.2
          (Nat.add_le_add_right hdst n) (by simp only [DecodeLoop.copyData]; omega)
          (by rw [hbuf]; exact havail) (by simp only [DecodeLoop.copyData]; omega)
        refine ⟨r, hr, ?_⟩
        have hrun := (path_data (q := false) hdata hne (by rw [hxs]; omega)).steps
          ((l.unread avail).drop n)
        rw [List.take_append_drop, hxs] at hrun
        rw [hrun]
        rw [hfront, hrest] at href
        exact href.shift hbuf (drop_memmove hdst hmove (by omega))
      · rw [step_eq_feed hok hdata hdone, DecodeLoop.unread_eq_cons hlt havail l.decoder]
        cases hfeed : l.decoder.feed false (l.buf.getD l.src 0) with
        | none =>
          rw [Transducer.run_cons_none hh hfeed]
          exact ⟨_, rfl, rfl, rfl, rfl, nofun, nofun, fun _ => ⟨rfl, rfl⟩⟩
        | some p =>
          obtain ⟨d', o⟩ := p
          have hstep := feed_iff.mp hfeed
          obtain rfl := hstep.out hdata
          rw [Transducer.run_cons_some hh hfeed]
          dsimp only
          by_cases hd' : d'.state = chunkDone
          · obtain ⟨r, hr, href⟩ := complete_refines (l := l.skip d')
              (Nat.le_succ_of_le hdst) hlt havail
            rw [if_pos hd', hr, Transducer.run_halted (halted_true hd')]
            exact ⟨r, rfl, href⟩
          · rw [if_neg hd']
            exact ih (l := l.skip d') hstep.ok hd' (Nat.le_succ_of_le hdst) hlt havail
              (by rw [DecodeLoop.skip_src]; omega)
    · have hnil : l.unread avail = [] := by
        apply List.eq_nil_of_length_eq_zero
        rw [DecodeLoop.length_unread havail]
        omega
      rw [if_neg hlt, hnil, Transducer.run_nil hh]
      exact ⟨_, rfl, end_refines hdst hsrc havail⟩

/-- A call runs the machine on the bytes it is given. -/
theorem decodeChunked_refines {d : ChunkedDecoder} (hok : d.Ok) (hdone : d.state ≠ chunkDone)
    {buf : Bytes} {bufsz : Nat} (h : bufsz ≤ buf.length) :
    ∃ r, decodeChunked d buf bufsz = some r ∧
      Refines [] buf bufsz ((chunkMachine false).run d (buf.take bufsz)) r :=
  loop_refines (bufsz + 2) (l := ⟨d, buf, 0, 0⟩) hok hdone (Nat.le_refl _) (Nat.zero_le _) h
    (by dsimp only; omega)

end IoHttpParser
