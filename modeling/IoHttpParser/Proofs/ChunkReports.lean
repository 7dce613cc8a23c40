import IoHttpParser.Proofs.ChunkRuns

/-!
# What the chunked decoder reports

The payload count of a call is right unless the call ends in an error, where `*bufsz` keeps the
size of the input. The returned value is right while it fits in an `int`, and once the body is
complete as long as there is any input at all.
-/

namespace IoHttpParser
open Memory Streaming

/-! ### Payload -/

section Payload

variable {q : Bool} {d d' : ChunkedDecoder} {c : UInt8} {o v : Bytes}

lemma ChunkStep.total (h : ChunkStep q d c d' o) (ht : d.totalDecoded < 2 ^ 64) :
    d'.totalDecoded = u64 (d.totalDecoded + o.length) ∧ o.length ≤ 1 := by
  cases h with
  | dataByte | dataLast => exact ⟨rfl, Nat.le_refl 1⟩
  | _ => exact ⟨(u64_of_lt ht).symm, Nat.zero_le 1⟩

/-- Along a path the counter grows by the payload, which is no longer than the path. -/
lemma path_total {read : Bytes} (h : (chunkMachine q).Path d read d' o)
    (ht : d.totalDecoded < 2 ^ 64) :
    d'.totalDecoded = u64 (d.totalDecoded + o.length) ∧ o.length ≤ read.length := by
  induction h with
  | nil => exact ⟨(u64_of_lt ht).symm, Nat.le_refl 0⟩
  | @cons s t u a as o o' _ hs _ ih =>
    obtain ⟨htotal, hlen⟩ := (feed_iff.mp hs).total ht
    have hlt : t.totalDecoded < 2 ^ 64 := by
      rw [htotal]
      exact u64_lt _
    obtain ⟨htotal', hlen'⟩ := ih hlt
    rw [htotal', htotal, u64_add_u64, List.length_append, List.length_cons]
    exact ⟨by rw [Nat.add_assoc], by omega⟩

lemma apart_total (v : Bytes) (ht : d.totalDecoded < 2 ^ 64) :
    (decodeApart d v).state.totalDecoded = u64 (d.totalDecoded + (decodeApart d v).out.length) ∧
      (decodeApart d v).out.length + (decodeApart d v).rest.length ≤ v.length := by
  obtain ⟨read, hread, hpath⟩ := exists_path_apart d v
  obtain ⟨htotal, hlen⟩ := path_total hpath ht
  have hsplit := congrArg List.length hread
  rw [List.length_append] at hsplit
  exact ⟨htotal, by omega⟩

lemma admits_apart (d : ChunkedDecoder) (v : Bytes) :
    (chunkMachine false).Admits d v ↔ (decodeApart d v).verdict ≠ .fail := by
  rw [Transducer.admits_iff]
  by_cases hd : d.state = chunkDone
  · rw [decodeApart_done hd, Transducer.run_halted (halted_true hd)]
    by_cases hv : v = []
    · rw [if_pos hv]
      exact iff_of_true nofun nofun
    · rw [if_neg hv]
  · rw [decodeApart_eq_run hd]

lemma apart_rest_ne_nil (h : (decodeApart d v).verdict = .fail) : (decodeApart d v).rest ≠ [] := by
  by_cases hd : d.state = chunkDone
  · rw [decodeApart_done hd] at h
    dsimp only at h
    split at h <;> cases h
  · rw [decodeApart_eq_run hd] at h ⊢
    exact Transducer.rest_ne_nil_of_fail h

end Payload

/-! ### Accounting -/

section Accounting

variable {consumeTrailer : Bool} {d : ChunkedDecoder} {calls : List DecodeCall} {c : DecodeCall}

lemma ChunkedDecoder.Reachable.total_lt (hd : d.Reachable consumeTrailer) :
    d.totalDecoded < 2 ^ 64 := by
  induction hd with
  | zero => exact Nat.two_pow_pos 64
  | @call d buf bufsz r hd hsz hr ih =>
    rw [decodeChunked_decoder hd.ok hsz hr, (apart_total (buf.take bufsz) ih).1]
    exact u64_lt _

lemma DecodeCall.length_input (c : DecodeCall) (hsz : c.bufsz ≤ c.buf.length) :
    c.input.length = c.bufsz := by
  rw [DecodeCall.input, List.length_take, Nat.min_eq_left hsz]

/-- A call reports at least the payload, and no more than it exactly when it is admitted. -/
lemma DecodeCall.reported_iff (hd : c.decoder.Reachable consumeTrailer)
    (hsz : c.bufsz ≤ c.buf.length)
    (hr : decodeChunked c.decoder c.buf c.bufsz = some c.result) :
    c.payload.length ≤ c.result.bufsz ∧ (c.result.bufsz = c.payload.length ↔ c.Admitted) := by
  obtain ⟨r, hr', href⟩ := decodeChunked_apart hd.ok hsz
  obtain rfl := Option.some.inj (hr.symm.trans hr')
  have hlen := (apart_total c.input hd.total_lt).2
  unfold DecodeCall.Admitted
  rw [admits_apart]
  by_cases hv : (decodeApart c.decoder c.input).verdict = .fail
  · have hrest := List.length_pos_of_ne_nil (apart_rest_ne_nil hv)
    have hinput := c.length_input hsz
    have hbufsz := (href.fail hv).2
    unfold DecodeCall.payload
    exact ⟨by omega, iff_of_false (by omega) (fun h => h hv)⟩
  · have hbufsz := (href.payload hv).1
    exact ⟨hbufsz.ge, iff_of_true hbufsz hv⟩

lemma DecodeCall.accounted_iff (hd : c.decoder.Reachable consumeTrailer)
    (hsz : c.bufsz ≤ c.buf.length)
    (hr : decodeChunked c.decoder c.buf c.bufsz = some c.result) : c.Accounted ↔ c.Admitted := by
  have hreported := (c.reported_iff hd hsz hr).2
  constructor
  · intro h
    exact hreported.mp h.bufsz
  · intro h
    have hbufsz := hreported.mpr h
    obtain ⟨r, hr', href⟩ := decodeChunked_apart hd.ok hsz
    obtain rfl := Option.some.inj (hr.symm.trans hr')
    obtain ⟨htotal, hlen⟩ := apart_total c.input hd.total_lt
    have hinput := c.length_input hsz
    unfold DecodeCall.payload at hbufsz
    refine ⟨hbufsz, by omega, ?_, (href.payload ((admits_apart _ _).mp h)).2⟩
    rw [href.decoder, hbufsz]
    exact htotal

lemma ChunkedDecoder.Calls.reachable (h : d.Calls consumeTrailer calls) :
    d.Reachable consumeTrailer := by
  induction h with
  | zero => exact .zero
  | call _ hsz hr ih => exact .call ih hsz hr

/-- The counter of a run counts the payload, whatever the calls report. -/
lemma ChunkedDecoder.Calls.total (h : d.Calls consumeTrailer calls) :
    d.totalDecoded = u64 (calls.flatMap DecodeCall.payload).length := by
  induction h with
  | zero => rfl
  | @call calls c hc hsz hr ih =>
    rw [decodeChunked_decoder hc.reachable.ok hsz hr,
      (apart_total (c.buf.take c.bufsz) hc.reachable.total_lt).1, ih, u64_add_u64,
      List.flatMap_append, List.flatMap_singleton, List.length_append]
    rfl

/-- The reports of a run add up to the payload exactly when every call is admitted. -/
lemma ChunkedDecoder.Calls.reported_iff (h : d.Calls consumeTrailer calls) :
    (calls.flatMap DecodeCall.payload).length ≤ reported calls ∧
      (reported calls = (calls.flatMap DecodeCall.payload).length ↔
        ∀ c ∈ calls, c.Admitted) := by
  induction h with
  | zero => exact ⟨Nat.le_refl 0, iff_of_true rfl nofun⟩
  | @call calls c hc hsz hr ih =>
    obtain ⟨hle, hiff⟩ := ih
    obtain ⟨hle', hiff'⟩ := c.reported_iff hc.reachable hsz hr
    have hsum : reported (calls ++ [c]) = reported calls + c.result.bufsz := by
      rw [reported, List.map_append, List.sum_append, List.map_singleton, List.sum_singleton]
      rfl
    rw [hsum, List.flatMap_append, List.flatMap_singleton, List.length_append, List.forall_mem_append,
      List.forall_mem_singleton, ← hiff, ← hiff']
    exact ⟨by omega, by omega⟩

/-- The payload of every call is accounted for, and with it that of the run, exactly when the
inputs go on with the coding. -/
theorem payload_accounted_iff (h : d.Calls consumeTrailer calls) :
    (∀ buf bufsz, bufsz ≤ buf.length → ∃ r, decodeChunked d buf bufsz = some r ∧
      ((DecodeCall.mk d buf bufsz r).Accounted ↔ (DecodeCall.mk d buf bufsz r).Admitted)) ∧
    (d.totalDecoded = u64 (reported calls) ∧
        reported calls = (calls.flatMap DecodeCall.payload).length ↔
      ∀ c ∈ calls, c.Admitted) := by
  refine ⟨fun buf bufsz hsz => ?_, ?_⟩
  · obtain ⟨r, hr, -⟩ := decodeChunked_apart h.reachable.ok hsz
    exact ⟨r, hr, (DecodeCall.mk d buf bufsz r).accounted_iff h.reachable hsz hr⟩
  · rw [← h.reported_iff.2]
    constructor
    · exact And.right
    · intro hsum
      rw [hsum]
      exact ⟨h.total, rfl⟩

/-- An error behind five bytes of payload leaves the size of the input. -/
theorem error_unaccounted :
    (ChunkedDecoder.zero false).Reachable false ∧
      ∃ r, decodeChunked (.zero false) (ascii "5\r\nhelloX") 9 = some r ∧
        r.ret = Status.error.code ∧ r.decoder.totalDecoded = 5 ∧ r.bufsz = 9 ∧
        ¬(DecodeCall.mk (.zero false) (ascii "5\r\nhelloX") 9 r).Accounted := by
  refine ⟨.zero, ⟨-1, ⟨0, 5, 1, chunkDataCr, false⟩, ascii "hellolloX", 9⟩, by decide, rfl, rfl, rfl,
    fun h => ?_⟩
  have hbufsz := h.bufsz
  revert hbufsz
  decide

/-- A body that arrives in two slices. -/
theorem payload_accounted_hello :
    ∃ r, decodeChunked ⟨3, 2, 1, chunkData, false⟩ (ascii "llo\r\n") 5 = some r ∧
      (DecodeCall.mk ⟨3, 2, 1, chunkData, false⟩ (ascii "llo\r\n") 5 r).Accounted := by
  have hfirst : decodeChunked (.zero false) (ascii "5\r\nhe") 5 =
      some ⟨Status.incomplete.code, ⟨3, 2, 1, chunkData, false⟩, ascii "he\nhe", 2⟩ := by decide
  have hrun : ChunkedDecoder.Calls false ([] ++ [⟨.zero false, ascii "5\r\nhe", 5,
      ⟨Status.incomplete.code, ⟨3, 2, 1, chunkData, false⟩, ascii "he\nhe", 2⟩⟩])
      ⟨3, 2, 1, chunkData, false⟩ := .call .zero (by decide) hfirst
  obtain ⟨r, hr, hiff⟩ := (payload_accounted_iff hrun).1 (ascii "llo\r\n") 5 (by decide)
  have hverdict : (decodeApart ⟨3, 2, 1, chunkData, false⟩ ((ascii "llo\r\n").take 5)).verdict ≠
      .fail := by decide
  exact ⟨r, hr, hiff.mpr ((admits_apart _ _).mpr hverdict)⟩

end Accounting

/-! ### The returned value -/

section Return

variable {consumeTrailer : Bool} {d : ChunkedDecoder} {v : Bytes} {c : DecodeCall}

/-- The 32-bit value is the count exactly when its top bit is clear. -/
lemma statusOfCount_iff {n : Nat} :
    0 ≤ statusOfCount n ∧ statusOfCount n = n ↔ n < 2 ^ 31 := by
  constructor
  · rintro ⟨-, heq⟩
    have hlt : statusOfCount n < (2 ^ 32 + 1) / 2 := Int.bmod_lt (by decide)
    omega
  · intro h
    rw [statusOfCount_of_lt h]
    exact ⟨Int.natCast_nonneg n, rfl⟩

lemma decodeApart_eq_run_of_ne (h : d.state = chunkDone → v ≠ []) :
    decodeApart d v = (chunkMachine false).run d v := by
  by_cases hd : d.state = chunkDone
  · rw [decodeApart_done hd, if_neg (h hd), Transducer.run_halted (halted_true hd)]
  · exact decodeApart_eq_run hd v

/-- There is one way to read up to the end of the body. -/
lemma trailing_iff {bound : Nat} :
    (∀ read rest d' o, v = read ++ rest → (chunkMachine false).Path d read d' o →
        d'.state = chunkDone → rest.length < bound) ↔
      (((chunkMachine false).run d v).verdict = .complete →
        ((chunkMachine false).run d v).rest.length < bound) := by
  constructor
  · intro h hv
    obtain ⟨read, hread, hpath⟩ := Transducer.exists_path (m := chunkMachine false) d v
    exact h read _ _ _ hread hpath (beq_iff_eq.mp (Transducer.halted_iff.mpr hv))
  · rintro h read rest d' o rfl hpath hd'
    rw [hpath.steps.complete (halted_true hd')] at h
    exact h rfl

lemma decodeChunked_zero (d : ChunkedDecoder) (buf : Bytes) :
    decodeChunked d buf 0 = some ⟨Status.incomplete.code, d, buf, 0⟩ := rfl

/-- What is left for the count to fit, once the decoder is done exactly when the body is complete. -/
lemma DecodeCall.unambiguous_iff_fits
    (href : Refines [] c.buf c.bufsz (decodeApart c.decoder c.input) c.result)
    (hdone : c.result.decoder.state = chunkDone ↔
      (decodeApart c.decoder c.input).verdict = .complete) :
    c.Unambiguous ↔ ((decodeApart c.decoder c.input).verdict = .complete →
      (decodeApart c.decoder c.input).rest.length < 2 ^ 31) := by
  by_cases hv : (decodeApart c.decoder c.input).verdict = .complete
  · have hret := (href.complete hv).1
    rw [imp_iff_right hv, ← statusOfCount_iff, ← hret]
    constructor
    · intro h
      exact h.complete (hdone.mpr hv)
    · intro hcount
      refine ⟨fun _ => hcount, fun hneg => ?_⟩
      have hnonneg : 0 ≤ c.result.ret := hcount.1
      have hneg' : c.result.ret = -2 ∨ c.result.ret = -1 := hneg
      omega
  · exact iff_of_true ⟨fun h => absurd (hdone.mp h) hv, fun _ h => hv (hdone.mp h)⟩
      (fun h => absurd h hv)

/-- The returned value is unambiguous exactly when fewer than 2^31 bytes follow the end of the body,
and some if the end came in an earlier call. -/
theorem unambiguous_iff (hd : d.Reachable consumeTrailer) {buf : Bytes} {bufsz : Nat}
    (hsz : bufsz ≤ buf.length) :
    ∃ r, decodeChunked d buf bufsz = some r ∧
      ((DecodeCall.mk d buf bufsz r).Unambiguous ↔ (DecodeCall.mk d buf bufsz r).ShortTail) := by
  obtain ⟨r, hr, href⟩ := decodeChunked_apart hd.ok hsz
  refine ⟨r, hr, ?_⟩
  by_cases hne : d.state = chunkDone → buf.take bufsz ≠ []
  · have hapart := decodeApart_eq_run_of_ne hne
    have hdone : r.decoder.state = chunkDone ↔
        (decodeApart d (buf.take bufsz)).verdict = .complete := by
      rw [href.decoder, hapart, ← Transducer.halted_iff]
      exact beq_iff_eq.symm
    have hfits := DecodeCall.unambiguous_iff_fits (c := ⟨d, buf, bufsz, r⟩) href hdone
    dsimp only [DecodeCall.input] at hfits
    rw [hapart] at hfits
    rw [hfits]
    exact ⟨fun h => ⟨trailing_iff.mpr h, hne⟩, fun h => trailing_iff.mp h.trailing⟩
  · -- nothing is read, and the decoder stays as it is
    rw [Classical.not_imp, not_not] at hne
    obtain ⟨hd', hnil⟩ := hne
    have hzero : bufsz = 0 := by
      have hlen := congrArg List.length hnil
      rw [List.length_take, Nat.min_eq_left hsz] at hlen
      exact hlen
    subst hzero
    obtain rfl := Option.some.inj ((decodeChunked_zero d buf).symm.trans hr)
    exact iff_of_false (fun h => h.incomplete (.inl rfl) hd') (fun h => h.nonempty hd' hnil)

lemma decodeChunked_last (tail : Bytes) :
    ∃ r, decodeChunked (.zero false) (ascii "0\r\n" ++ tail) (ascii "0\r\n" ++ tail).length =
        some r ∧ r.decoder.state = chunkDone ∧ r.ret = statusOfCount tail.length := by
  have hdone : (ChunkedDecoder.zero false).state ≠ chunkDone := nofun
  have hpath : (chunkMachine false).Path (.zero false) (ascii "0\r\n")
      ⟨0, 0, 1, chunkDone, false⟩ ([] ++ ([] ++ ([] ++ []))) :=
    .cons (t := ⟨0, 0, 1, chunkSize, false⟩) rfl rfl
      (.cons (t := ⟨0, 0, 1, chunkSizeLf, false⟩) rfl rfl (.cons rfl rfl (.nil _)))
  obtain ⟨r, hr, href⟩ := decodeChunked_refines (ok_zero false) hdone
    (Nat.le_refl (ascii "0\r\n" ++ tail).length)
  rw [List.take_length, hpath.steps.complete rfl] at href
  refine ⟨r, hr, ?_, (href.complete rfl).1⟩
  rw [href.decoder]

/-- Behind a complete body, 2^32 - 2 bytes are returned as `IHTP_INCOMPLETE`. -/
theorem complete_reads_incomplete :
    let buf := ascii "0\r\n" ++ List.replicate (2 ^ 32 - 2) 0
    (ChunkedDecoder.zero false).Reachable false ∧
      ∃ r, decodeChunked (.zero false) buf buf.length = some r ∧
        r.decoder.state = chunkDone ∧ r.ret = Status.incomplete.code := by
  dsimp only
  obtain ⟨r, hr, hdone, hret⟩ := decodeChunked_last (List.replicate (2 ^ 32 - 2) 0)
  refine ⟨.zero, r, hr, hdone, ?_⟩
  rw [hret, List.length_replicate]
  decide

/-- Three bytes behind the body. -/
theorem unambiguous_get :
    ∃ r, decodeChunked (.zero false) (ascii "0\r\nGET") 6 = some r ∧
      (DecodeCall.mk (.zero false) (ascii "0\r\nGET") 6 r).Unambiguous := by
  have hzero : (ChunkedDecoder.zero false).Reachable false := .zero
  obtain ⟨r, hr, hiff⟩ := unambiguous_iff hzero
    (show 6 ≤ (ascii "0\r\nGET").length by decide)
  refine ⟨r, hr, hiff.mpr ⟨fun read rest d o hsplit _ _ => ?_, fun h => by cases h⟩⟩
  have hlen := congrArg List.length hsplit
  have hsix : (DecodeCall.mk (.zero false) (ascii "0\r\nGET") 6 r).input.length = 6 := rfl
  rw [hsix, List.length_append] at hlen
  omega

end Return

/-! ### After the end -/

section Completed

variable {consumeTrailer : Bool} {d : ChunkedDecoder}

lemma ChunkedDecoder.Completed.done (hd : d.Completed consumeTrailer) : d.state = chunkDone := by
  induction hd with
  | @report d buf bufsz r hd hsz hr hret =>
    obtain ⟨r', hr', href⟩ := decodeChunked_apart hd.ok hsz
    obtain rfl := Option.some.inj (hr.symm.trans hr')
    rw [href.decoder]
    cases hv : (decodeApart d (buf.take bufsz)).verdict with
    | complete =>
      by_cases hdone : d.state = chunkDone
      · rw [decodeApart_done hdone]
        exact hdone
      · rw [decodeApart_eq_run hdone] at hv ⊢
        exact beq_iff_eq.mp (Transducer.halted_iff.mpr hv)
    | more =>
      rw [(href.more hv).1] at hret
      exact absurd hret (by decide)
    | fail =>
      rw [(href.fail hv).1] at hret
      exact absurd hret (by decide)
  | @call d buf bufsz r _ hsz hr ih =>
    have hok : d.Ok := ⟨ih.le, fun h => by rw [ih] at h; cases h⟩
    rw [decodeChunked_decoder hok hsz hr, decodeApart_done ih]
    exact ih

/-- After a reported completion every call reports it again, and leaves the decoder and the bytes
alone, exactly when its slice is not empty. -/
theorem completion_stable_iff (hd : d.Completed consumeTrailer) {buf : Bytes} {bufsz : Nat}
    (hsz : bufsz ≤ buf.length) (hlt : bufsz < 2 ^ 31) :
    decodeChunked d buf bufsz = some ⟨bufsz, d, buf, 0⟩ ↔ bufsz ≠ 0 := by
  constructor
  · rintro h rfl
    rw [decodeChunked_zero] at h
    cases h
  · intro hne
    have hpos : 0 < bufsz := Nat.pos_of_ne_zero hne
    have hstep : (⟨d, buf, 0, 0⟩ : DecodeLoop).step bufsz (buf.getD 0 0) =
        (⟨d, buf, 0, 0⟩ : DecodeLoop).complete bufsz :=
      step_eq_complete hd.done
    unfold decodeChunked
    rw [DecodeLoop.loop, if_pos hpos, hstep]
    unfold DecodeLoop.complete
    dsimp only
    rw [if_pos hpos, memmove_self, Nat.sub_zero, statusOfCount_of_lt hlt]

/-- Polled without any bytes after the end, the decoder asks for more. -/
theorem poll_asks_for_more :
    (⟨0, 0, 1, chunkDone, false⟩ : ChunkedDecoder).Completed false ∧
      decodeChunked ⟨0, 0, 1, chunkDone, false⟩ [] 0 =
        some ⟨Status.incomplete.code, ⟨0, 0, 1, chunkDone, false⟩, [], 0⟩ := by
  have hlast : decodeChunked (.zero false) (ascii "0\r\n") 3 =
      some ⟨0, ⟨0, 0, 1, chunkDone, false⟩, ascii "0\r\n", 0⟩ := by decide
  exact ⟨.report .zero (by decide) hlast (Int.le_refl 0), rfl⟩

/-- A poll with three bytes. -/
theorem completion_stable_get :
    decodeChunked ⟨0, 0, 1, chunkDone, false⟩ (ascii "GET") 3 =
      some ⟨3, ⟨0, 0, 1, chunkDone, false⟩, ascii "GET", 0⟩ := by
  have hlast : decodeChunked (.zero false) (ascii "0\r\n") 3 =
      some ⟨0, ⟨0, 0, 1, chunkDone, false⟩, ascii "0\r\n", 0⟩ := by decide
  have hd : (⟨0, 0, 1, chunkDone, false⟩ : ChunkedDecoder).Completed false :=
    .report .zero (by decide) hlast (Int.le_refl 0)
  exact (completion_stable_iff hd (by decide) (by decide)).mpr (by decide)

end Completed

end IoHttpParser
