import IoHttpParser.Proofs.FieldLists

/-!
# The header loops

The variables that the loops of `ihtp_semantics.c` leave are functions of the values of each
field, and a loop gets to its end exactly when those values are well formed.
-/

namespace IoHttpParser
open Memory CheckedFold

lemma headersLoop_ok_iff {σ : Type} {step : σ → Header Bytes → Option σ} {hs : List (Header Bytes)}
    {s s' : σ} : headersLoop step s hs = .ok s' ↔ hs.foldlM step s = some s' := by
  induction hs generalizing s with
  | nil => simp [headersLoop]
  | cons h hs ih =>
    rw [headersLoop, List.foldlM_cons]
    cases step s h with
    | none => simp
    | some s₁ => exact ih

/-- A loop stops at the first header that a step refuses. -/
lemma headersLoop_error_iff {σ : Type} {step : σ → Header Bytes → Option σ}
    {hs : List (Header Bytes)} {s s' : σ} : headersLoop step s hs = .error s' ↔
      ∃ p x t, hs = p ++ x :: t ∧ headersLoop step s p = .ok s' ∧ step s' x = none := by
  constructor
  · intro h
    induction hs generalizing s with
    | nil => cases h
    | cons x hs ih =>
      rw [headersLoop] at h
      cases hx : step s x with
      | none =>
        rw [hx] at h
        obtain rfl := Except.error.inj h
        exact ⟨[], x, hs, rfl, rfl, hx⟩
      | some s₁ =>
        rw [hx] at h
        obtain ⟨p, y, t, rfl, hp, hy⟩ := ih h
        refine ⟨x :: p, y, t, rfl, ?_, hy⟩
        rw [headersLoop, hx]
        exact hp
  · rintro ⟨p, x, t, rfl, hp, hx⟩
    induction p generalizing s with
    | nil =>
      obtain rfl := Except.ok.inj hp
      rw [List.nil_append, headersLoop, hx]
    | cons y p ih =>
      rw [headersLoop] at hp
      rw [List.cons_append, headersLoop]
      cases hy : step s y with
      | none =>
        rw [hy] at hp
        cases hp
      | some s₁ =>
        rw [hy] at hp
        exact ih hp

lemma fieldValues_append (hs hs' : List (Header Bytes)) (name : String) :
    fieldValues (hs ++ hs') name = fieldValues hs name ++ fieldValues hs' name := by
  rw [fieldValues, List.filter_append, List.map_append, fieldValues, fieldValues]

lemma fieldValues_cons (h : Header Bytes) (hs : List (Header Bytes)) (other : String) :
    fieldValues (h :: hs) other = fieldValues [h] other ++ fieldValues hs other :=
  fieldValues_append [h] hs other

lemma fieldValues_singleton (h : Header Bytes) (name : String) :
    fieldValues [h] name = if SameName h.name (ascii name) then [h.value] else [] := by
  rw [fieldValues, List.filter_singleton]
  by_cases hn : SameName h.name (ascii name) <;> simp [hn]

lemma fieldValues_concat_of {h : Header Bytes} {name : String} (hn : SameName h.name (ascii name))
    (hs : List (Header Bytes)) :
    fieldValues (hs ++ [h]) name = fieldValues hs name ++ [h.value] := by
  rw [fieldValues_append, fieldValues_singleton, if_pos hn]

lemma fieldValues_concat_of_not {h : Header Bytes} {name : String}
    (hn : ¬SameName h.name (ascii name)) (hs : List (Header Bytes)) :
    fieldValues (hs ++ [h]) name = fieldValues hs name := by
  rw [fieldValues_append, fieldValues_singleton, if_neg hn, List.append_nil]

/-- A header adds its value to the fields of its name, and to no others. -/
lemma fieldValues_concat {h : Header Bytes} {name : String} (hn : SameName h.name (ascii name))
    (hs : List (Header Bytes)) (other : String) : fieldValues (hs ++ [h]) other =
      if SameName (ascii name) (ascii other) then fieldValues hs other ++ [h.value]
      else fieldValues hs other := by
  have hiff : SameName h.name (ascii other) ↔ SameName (ascii name) (ascii other) :=
    ⟨hn.symm.trans, hn.trans⟩
  rw [fieldValues_append, fieldValues_singleton]
  by_cases ho : SameName (ascii name) (ascii other)
  · rw [if_pos ho, if_pos (hiff.mpr ho)]
  · rw [if_neg ho, if_neg (fun h => ho (hiff.mp h)), List.append_nil]

lemma headerNameEq_eq (h : Header Bytes) (name : String) :
    headerNameEq h name = decide (SameName h.name (ascii name)) := bytesEqIgnoreCase_eq _ _

lemma hasField_of_mem {hs : List (Header Bytes)} {name : String} {v : Bytes}
    (hv : v ∈ fieldValues hs name) : hasField hs name = true := by
  rw [hasField, Bool.not_eq_true', List.isEmpty_eq_false_iff]
  exact List.ne_nil_of_mem hv

lemma exists_of_hasField {hs : List (Header Bytes)} {name : String}
    (hf : hasField hs name = true) : ∃ v, v ∈ fieldValues hs name := by
  rw [hasField, Bool.not_eq_true', List.isEmpty_eq_false_iff] at hf
  exact List.exists_mem_of_ne_nil _ hf

lemma transferCodings_eq_nil {hs : List (Header Bytes)}
    (h : hasField hs "transfer-encoding" = false) : transferCodings hs = [] := by
  rw [hasField, Bool.not_eq_false', List.isEmpty_iff] at h
  rw [transferCodings, h, List.flatMap_nil]

lemma exists_getLast?_transferCodings {hs : List (Header Bytes)}
    (h : hasField hs "transfer-encoding" = true) :
    ∃ e, (transferCodings hs).getLast? = some e := by
  obtain ⟨v, hv⟩ := exists_of_hasField h
  obtain ⟨x, hx⟩ := List.exists_mem_of_ne_nil _ (listElements_ne_nil v)
  have hmem : x ∈ transferCodings hs := List.mem_flatMap.mpr ⟨v, hv, hx⟩
  exact ⟨_, List.getLast?_eq_some_getLast (List.ne_nil_of_mem hmem)⟩

lemma contentLengthOf_eq {hs : List (Header Bytes)} (hw : WellFormedFields hs) {v : Bytes}
    (hv : v ∈ fieldValues hs "content-length") : contentLengthOf hs = decimalValue v := by
  have hlast := List.getLast?_eq_some_getLast (List.ne_nil_of_mem hv)
  rw [contentLengthOf, hlast]
  exact hw.contentLength_eq _ (List.mem_of_getLast? hlast) v hv

/-- The loop variables after the headers `hs`, apart from those only a request has. -/
def Framing.ofHeaders (hs : List (Header Bytes)) (hasHost hasExpect : Bool) : Framing :=
  { hasTe := hasField hs "transfer-encoding"
    hasCl := hasField hs "content-length"
    chunked := (transferCodings hs).getLast?.any (fun e => IsChunked e)
    hasHost
    hasUpgrade := hasField hs "upgrade"
    hasExpect
    hasTrailer := hasField hs "trailer"
    connection := ⟨hasOption hs "close", hasOption hs "keep-alive", hasOption hs "upgrade"⟩
    chunkedCount := (transferCodings hs).countP (fun e => IsChunked e)
    contentLength := contentLengthOf hs }

section Branches

lemma onTransferEncoding_cases {f f' : Framing} {v : Bytes} :
    f.onTransferEncoding v = some f' ↔ ∃ t, parseTransferEncoding v = some t ∧
      f' = { f with hasTe := true, chunked := t.endsWithChunked,
                    chunkedCount := f.chunkedCount + t.chunkedCount } := by
  rw [Framing.onTransferEncoding]
  cases parseTransferEncoding v <;> simp [eq_comm]

lemma onContentLength_cases {f f' : Framing} {v : Bytes} :
    f.onContentLength v = some f' ↔ ∃ n, parseContentLength v = some n ∧
      (f.hasCl = true → n = f.contentLength) ∧
        f' = { f with hasCl := true, contentLength := n } := by
  rw [Framing.onContentLength]
  cases parseContentLength v with
  | none => simp
  | some n =>
    have hiff : (f.hasCl && n != f.contentLength) = false ↔
        (f.hasCl = true → n = f.contentLength) := by simp
    cases hb : f.hasCl && n != f.contentLength with
    | false =>
      simp only [hb, Bool.false_eq_true, if_false]
      constructor
      · intro hf
        exact ⟨n, rfl, hiff.mp hb, (Option.some.inj hf).symm⟩
      · rintro ⟨_, ⟨⟩, _, rfl⟩
        rfl
    | true =>
      have hdiff : ¬(f.hasCl = true → n = f.contentLength) := by
        rw [← hiff, hb]
        nofun
      simp [hb, hdiff]

lemma onConnection_cases {f f' : Framing} {v : Bytes} :
    f.onConnection v = some f' ↔ ∃ connection,
      parseConnectionHeader v f.connection = (true, connection) ∧ f' = { f with connection } := by
  rw [Framing.onConnection]
  rcases parseConnectionHeader v f.connection with ⟨_ | _, s⟩ <;> simp [eq_comm]

variable {hs : List (Header Bytes)} {h : Header Bytes} {hasHost hasExpect : Bool} {f : Framing}

lemma onTransferEncoding_iff (hn : SameName h.name (ascii "transfer-encoding"))
    (hw : WellFormedFields hs) :
    (Framing.ofHeaders hs hasHost hasExpect).onTransferEncoding h.value = some f ↔
      WellFormedFields (hs ++ [h]) ∧ f = .ofHeaders (hs ++ [h]) hasHost hasExpect := by
  have hwell : WellFormedFields (hs ++ [h]) ↔ ∀ e ∈ listElements h.value, IsCoding e := by
    rw [wellFormedFields_iff] at hw
    simp +decide only [wellFormedFields_iff, transferCodings, fieldValues_concat hn, if_true,
      if_false, List.flatMap_append, List.flatMap_singleton, List.forall_mem_append] at hw ⊢
    exact ⟨fun h => h.2.2.1.2, fun h => ⟨hw.1, hw.2.1, ⟨hw.2.2.1, h⟩, hw.2.2.2⟩⟩
  have hframing : Framing.ofHeaders (hs ++ [h]) hasHost hasExpect =
      let t := (listElements h.value).foldl TransferCodings.push ⟨false, 0⟩
      { Framing.ofHeaders hs hasHost hasExpect with
        hasTe := true
        chunked := t.endsWithChunked
        chunkedCount := (Framing.ofHeaders hs hasHost hasExpect).chunkedCount + t.chunkedCount } := by
    have he := List.getLast?_eq_some_getLast (listElements_ne_nil h.value)
    simp +decide [Framing.ofHeaders, hasField, transferCodings, hasOption, contentLengthOf,
      fieldValues_concat hn, foldl_push, he]
  rw [hwell, hframing, onTransferEncoding_cases]
  constructor
  · rintro ⟨t, ht, rfl⟩
    obtain ⟨hall, rfl⟩ := parseTransferEncoding_iff.mp ht
    exact ⟨hall, rfl⟩
  · rintro ⟨hall, rfl⟩
    exact ⟨_, parseTransferEncoding_iff.mpr ⟨hall, rfl⟩, rfl⟩

lemma onContentLength_iff (hn : SameName h.name (ascii "content-length"))
    (hw : WellFormedFields hs) :
    (Framing.ofHeaders hs hasHost hasExpect).onContentLength h.value = some f ↔
      WellFormedFields (hs ++ [h]) ∧ f = .ofHeaders (hs ++ [h]) hasHost hasExpect := by
  have hwell : WellFormedFields (hs ++ [h]) ↔ IsContentLength h.value ∧
      (hasField hs "content-length" = true → decimalValue h.value = contentLengthOf hs) := by
    have hsplit : WellFormedFields (hs ++ [h]) ↔ IsContentLength h.value ∧
        ∀ v ∈ fieldValues hs "content-length", decimalValue h.value = decimalValue v := by
      rw [wellFormedFields_iff] at hw
      simp +decide only [wellFormedFields_iff, transferCodings, fieldValues_concat hn, if_true,
        if_false, List.forall_mem_append, List.forall_mem_singleton] at hw ⊢
      refine ⟨fun h => ⟨h.2.2.2.1.2, h.2.2.2.2.1.2.1⟩, fun h => ?_⟩
      exact ⟨hw.1, hw.2.1, hw.2.2.1, ⟨hw.2.2.2.1, h.1⟩,
        ⟨fun v hv => ⟨hw.2.2.2.2.1 v hv, (h.2 v hv).symm⟩, h.2, trivial⟩, hw.2.2.2.2.2⟩
    rw [hsplit, and_congr_right_iff]
    intro _
    constructor
    · intro hall hfield
      obtain ⟨v, hv⟩ := exists_of_hasField hfield
      rw [contentLengthOf_eq hw hv]
      exact hall v hv
    · intro hsame v hv
      rw [← contentLengthOf_eq hw hv]
      exact hsame (hasField_of_mem hv)
  have hframing : Framing.ofHeaders (hs ++ [h]) hasHost hasExpect =
      { Framing.ofHeaders hs hasHost hasExpect with
        hasCl := true
        contentLength := decimalValue h.value } := by
    simp +decide [Framing.ofHeaders, hasField, transferCodings, hasOption, contentLengthOf,
      fieldValues_concat hn]
  rw [hwell, hframing, onContentLength_cases]
  constructor
  · rintro ⟨n, hn, hsame, rfl⟩
    obtain ⟨hall, rfl⟩ := parseContentLength_iff.mp hn
    exact ⟨⟨hall, hsame⟩, rfl⟩
  · rintro ⟨⟨hall, hsame⟩, rfl⟩
    exact ⟨_, parseContentLength_iff.mpr ⟨hall, rfl⟩, hsame, rfl⟩

lemma onConnection_iff (hn : SameName h.name (ascii "connection")) (hw : WellFormedFields hs) :
    (Framing.ofHeaders hs hasHost hasExpect).onConnection h.value = some f ↔
      WellFormedFields (hs ++ [h]) ∧ f = .ofHeaders (hs ++ [h]) hasHost hasExpect := by
  have hwell : WellFormedFields (hs ++ [h]) ↔ IsTokenList h.value := by
    rw [wellFormedFields_iff] at hw
    simp +decide only [wellFormedFields_iff, transferCodings, fieldValues_concat hn, if_true,
      if_false, List.forall_mem_append, List.forall_mem_singleton] at hw ⊢
    exact ⟨fun h => h.1.2, fun h => ⟨⟨hw.1, h⟩, hw.2⟩⟩
  have hframing : Framing.ofHeaders (hs ++ [h]) hasHost hasExpect =
      { Framing.ofHeaders hs hasHost hasExpect with
        connection := (listElements h.value).foldl ConnectionOptions.push
          (Framing.ofHeaders hs hasHost hasExpect).connection } := by
    simp +decide [Framing.ofHeaders, hasField, transferCodings, hasOption, contentLengthOf,
      fieldValues_concat hn, foldl_push_options]
  rw [hwell, hframing, onConnection_cases]
  constructor
  · rintro ⟨s, hs, rfl⟩
    obtain ⟨hall, rfl⟩ := parseConnectionHeader_iff.mp hs
    exact ⟨hall, rfl⟩
  · rintro ⟨hall, rfl⟩
    exact ⟨_, parseConnectionHeader_iff.mpr ⟨hall, rfl⟩, rfl⟩

lemma onUpgrade_iff (hn : SameName h.name (ascii "upgrade")) (hw : WellFormedFields hs) :
    (Framing.ofHeaders hs hasHost hasExpect).onUpgrade h.value = some f ↔
      WellFormedFields (hs ++ [h]) ∧ f = .ofHeaders (hs ++ [h]) hasHost hasExpect := by
  have hwell : WellFormedFields (hs ++ [h]) ↔ scanIsToken h.value = true := by
    rw [wellFormedFields_iff] at hw
    simp +decide only [wellFormedFields_iff, transferCodings, fieldValues_concat hn, if_true,
      if_false, List.forall_mem_append, List.forall_mem_singleton, scanIsToken_iff] at hw ⊢
    exact ⟨fun h => h.2.2.2.2.2.2, fun h => ⟨hw.1, hw.2.1, hw.2.2.1, hw.2.2.2.1, hw.2.2.2.2.1,
      hw.2.2.2.2.2, h⟩⟩
  have hframing : Framing.ofHeaders (hs ++ [h]) hasHost hasExpect =
      { Framing.ofHeaders hs hasHost hasExpect with hasUpgrade := true } := by
    simp +decide [Framing.ofHeaders, hasField, transferCodings, hasOption, contentLengthOf,
      fieldValues_concat hn]
  rw [hwell, hframing, Framing.onUpgrade]
  cases scanIsToken h.value <;> simp [eq_comm]

lemma onTrailer_iff (hn : SameName h.name (ascii "trailer")) (hw : WellFormedFields hs) :
    (Framing.ofHeaders hs hasHost hasExpect).onTrailer h.value = some f ↔
      WellFormedFields (hs ++ [h]) ∧ f = .ofHeaders (hs ++ [h]) hasHost hasExpect := by
  have hwell : WellFormedFields (hs ++ [h]) ↔ parseTrailerHeader h.value = true := by
    rw [wellFormedFields_iff] at hw
    simp +decide only [wellFormedFields_iff, transferCodings, fieldValues_concat hn, if_true,
      if_false, List.forall_mem_append, List.forall_mem_singleton, parseTrailerHeader_iff] at hw ⊢
    exact ⟨fun h => h.2.1.2, fun h => ⟨hw.1, ⟨hw.2.1, h⟩, hw.2.2⟩⟩
  have hframing : Framing.ofHeaders (hs ++ [h]) hasHost hasExpect =
      { Framing.ofHeaders hs hasHost hasExpect with hasTrailer := true } := by
    simp +decide [Framing.ofHeaders, hasField, transferCodings, hasOption, contentLengthOf,
      fieldValues_concat hn]
  rw [hwell, hframing, Framing.onTrailer]
  cases parseTrailerHeader h.value <;> simp [eq_comm]

lemma ofHeaders_concat_of_not (hs : List (Header Bytes)) (hasHost hasExpect : Bool)
    (hte : ¬SameName h.name (ascii "transfer-encoding"))
    (hcl : ¬SameName h.name (ascii "content-length"))
    (hco : ¬SameName h.name (ascii "connection")) (hup : ¬SameName h.name (ascii "upgrade"))
    (htr : ¬SameName h.name (ascii "trailer")) :
    (WellFormedFields (hs ++ [h]) ↔ WellFormedFields hs) ∧
      Framing.ofHeaders (hs ++ [h]) hasHost hasExpect = .ofHeaders hs hasHost hasExpect := by
  simp only [wellFormedFields_iff, Framing.ofHeaders, hasField, transferCodings, hasOption,
    contentLengthOf, fieldValues_concat_of_not hte, fieldValues_concat_of_not hcl,
    fieldValues_concat_of_not hco, fieldValues_concat_of_not hup, fieldValues_concat_of_not htr,
    and_self]

lemma responseHeader_iff (hw : WellFormedFields hs) :
    responseHeader (.ofHeaders hs hasHost hasExpect) h = some f ↔
      WellFormedFields (hs ++ [h]) ∧ f = .ofHeaders (hs ++ [h]) hasHost hasExpect := by
  rw [responseHeader]
  simp only [headerNameEq_eq, decide_eq_true_eq]
  by_cases hte : SameName h.name (ascii "transfer-encoding")
  · rw [if_pos hte]
    exact onTransferEncoding_iff hte hw
  rw [if_neg hte]
  by_cases hcl : SameName h.name (ascii "content-length")
  · rw [if_pos hcl]
    exact onContentLength_iff hcl hw
  rw [if_neg hcl]
  by_cases hco : SameName h.name (ascii "connection")
  · rw [if_pos hco]
    exact onConnection_iff hco hw
  rw [if_neg hco]
  by_cases hup : SameName h.name (ascii "upgrade")
  · rw [if_pos hup]
    exact onUpgrade_iff hup hw
  rw [if_neg hup]
  by_cases htr : SameName h.name (ascii "trailer")
  · rw [if_pos htr]
    exact onTrailer_iff htr hw
  obtain ⟨hwell, hframing⟩ := ofHeaders_concat_of_not hs hasHost hasExpect hte hcl hco hup htr
  rw [if_neg htr, hwell, hframing, Option.some.injEq, and_iff_right hw]
  exact eq_comm

end Branches

/-! ### Whole loops -/

lemma fieldValues_subset_append (hs hs' : List (Header Bytes)) (name : String) :
    fieldValues hs name ⊆ fieldValues (hs ++ hs') name := by
  rw [fieldValues_append]
  exact List.subset_append_left _ _

lemma WellFormedFields.of_append {hs hs' : List (Header Bytes)}
    (h : WellFormedFields (hs ++ hs')) : WellFormedFields hs where
  connection v hv := h.connection v (fieldValues_subset_append _ _ _ hv)
  trailer v hv := h.trailer v (fieldValues_subset_append _ _ _ hv)
  transferEncoding e he := by
    apply h.transferEncoding
    rw [transferCodings, fieldValues_append, List.flatMap_append]
    exact List.mem_append_left _ he
  contentLength v hv := h.contentLength v (fieldValues_subset_append _ _ _ hv)
  contentLength_eq v hv w hw := h.contentLength_eq v (fieldValues_subset_append _ _ _ hv) w
    (fieldValues_subset_append _ _ _ hw)
  upgrade v hv := h.upgrade v (fieldValues_subset_append _ _ _ hv)

lemma wellFormedFields_nil : WellFormedFields [] := by
  constructor <;> exact nofun

/-- The response loop reads well-formed fields to the end, and no others. -/
theorem responseLoop_iff {hs : List (Header Bytes)} {f : Framing} :
    headersLoop responseHeader .init hs = .ok f ↔
      WellFormedFields hs ∧ f = .ofHeaders hs false false := by
  rw [headersLoop_ok_iff]
  exact foldlM_iff_of_concat (fun hs => Framing.ofHeaders hs false false)
    wellFormedFields_nil (fun _ _ h => h.of_append) (fun _ _ _ hw => responseHeader_iff hw) hs f

end IoHttpParser
