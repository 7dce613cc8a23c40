import IoHttpParser.Proofs.RequestFraming
import IoHttpParser.Proofs.ResponseFraming

/-!
# Order, case and other fields

What a header list decides is a function of the values of each field, up to order and letter case
where these do not matter.
-/

namespace IoHttpParser
open Memory

/-- A value in lower case. -/
def foldCase (s : Bytes) : Bytes := s.map asciiLower

section FoldCase

lemma asciiLower_class (c : UInt8) :
    (asciiLower c = comma ↔ c = comma) ∧ (asciiLower c = semicolon ↔ c = semicolon) ∧
      isLws (asciiLower c) = isLws c ∧ isTchar (asciiLower c) = isTchar c ∧
      asciiLower (asciiLower c) = asciiLower c :=
  of_decide_eq_true (forall_byte (fun c => decide
    ((asciiLower c = comma ↔ c = comma) ∧ (asciiLower c = semicolon ↔ c = semicolon) ∧
      isLws (asciiLower c) = isLws c ∧ isTchar (asciiLower c) = isTchar c ∧
      asciiLower (asciiLower c) = asciiLower c)) (by decide +kernel) c)

lemma asciiLower_eq_iff {d : UInt8} (hd : d = comma ∨ d = semicolon) (c : UInt8) :
    asciiLower c = d ↔ c = d := by
  cases hd with
  | inl hd => rw [hd]; exact (asciiLower_class c).1
  | inr hd => rw [hd]; exact (asciiLower_class c).2.1

lemma isLws_comp_asciiLower : isLws ∘ asciiLower = isLws := by
  funext c
  exact (asciiLower_class c).2.2.1

lemma sameName_foldCase (e x : Bytes) : SameName (foldCase e) x ↔ SameName e x := by
  have h : (foldCase e).map asciiLower = e.map asciiLower := by
    rw [foldCase, List.map_map]
    exact List.map_congr_left (fun c _ => (asciiLower_class c).2.2.2.2)
  rw [SameName, SameName, h]

lemma trim_foldCase (s : Bytes) : trim isLws (foldCase s) = foldCase (trim isLws s) := by
  unfold trim foldCase List.rdropWhile
  rw [List.dropWhile_map, isLws_comp_asciiLower, ← List.map_reverse, List.dropWhile_map,
    isLws_comp_asciiLower, ← List.map_reverse]

lemma mem_foldCase {d : UInt8} (hd : d = comma ∨ d = semicolon) (s : Bytes) :
    d ∈ foldCase s ↔ d ∈ s := by
  unfold foldCase
  rw [List.mem_map]
  constructor
  · rintro ⟨c, hc, h⟩
    rwa [← (asciiLower_eq_iff hd c).mp h]
  · intro h
    exact ⟨d, h, (asciiLower_eq_iff hd d).mpr rfl⟩

/-- Cutting a list into elements does not look at letter case. -/
lemma listElements_foldCase (v : Bytes) :
    listElements (foldCase v) = (listElements v).map foldCase := by
  induction hn : v.length using Nat.strong_induction_on generalizing v with
  | _ n ih =>
    by_cases hm : comma ∈ v
    · obtain ⟨x, y, rfl, hx⟩ := List.eq_append_cons_of_mem hm
      have hsplit : foldCase (x ++ comma :: y) = foldCase x ++ comma :: foldCase y := by
        unfold foldCase
        rw [List.map_append, List.map_cons, (asciiLower_eq_iff (.inl rfl) comma).mpr rfl]
      have hlen : y.length < n := by
        rw [← hn, List.length_append, List.length_cons]
        omega
      rw [hsplit, listElements_append, listElements_append, List.map_append, ih _ hlen y rfl,
        listElements_of_notMem hx,
        listElements_of_notMem (fun h => hx ((mem_foldCase (.inl rfl) x).mp h)), trim_foldCase]
      rfl
    · rw [listElements_of_notMem hm,
        listElements_of_notMem (fun h => hm ((mem_foldCase (.inl rfl) v).mp h)), trim_foldCase]
      rfl

lemma isToken_foldCase (e : Bytes) : IsToken (foldCase e) ↔ IsToken e := by
  have htchar (c : UInt8) : isTchar (asciiLower c) = isTchar c := (asciiLower_class c).2.2.2.1
  rw [isToken_iff, isToken_iff, scanIsToken_iff, scanIsToken_iff, foldCase, List.forall_mem_map]
  simp only [htchar, List.isEmpty_map]

lemma codingName_foldCase (e : Bytes) : codingName (foldCase e) = foldCase (codingName e) := by
  have hsemi : (fun c => c != semicolon) ∘ asciiLower = (fun c => c != semicolon) := by
    funext c
    rw [Function.comp_apply, Bool.eq_iff_iff, bne_iff_ne, bne_iff_ne, Ne, Ne,
      asciiLower_eq_iff (.inr rfl)]
  unfold codingName foldCase List.rdropWhile
  rw [List.takeWhile_map, hsemi, ← List.map_reverse, List.dropWhile_map, isLws_comp_asciiLower,
    ← List.map_reverse]

lemma isChunked_foldCase (e : Bytes) : IsChunked (foldCase e) ↔ IsChunked e := by
  rw [IsChunked, IsChunked, codingName_foldCase, sameName_foldCase]

lemma isCoding_foldCase (e : Bytes) : IsCoding (foldCase e) ↔ IsCoding e := by
  have hiff (e : Bytes) : IsCoding e ↔ IsToken (codingName e) ∧ (IsChunked e → semicolon ∉ e) :=
    ⟨fun h => ⟨h.name, h.no_params⟩, fun h => ⟨h.1, h.2⟩⟩
  rw [hiff, hiff, codingName_foldCase, isToken_foldCase, isChunked_foldCase,
    mem_foldCase (.inr rfl)]

lemma isTokenList_foldCase (v : Bytes) : IsTokenList (foldCase v) ↔ IsTokenList v := by
  rw [IsTokenList, IsTokenList, listElements_foldCase, List.forall_mem_map]
  simp only [isToken_foldCase]

end FoldCase

/-! ### The values of a field -/

/-- What matters of a value. -/
def foldValue (field : String) : Bytes → Bytes := if field ∈ caselessFields then foldCase else id

/-- Values of one field that differ where it does not matter. -/
def ValuesAlike (field : String) (vs vs' : List Bytes) : Prop :=
  if field ∈ orderedFields then vs.map (foldValue field) = vs'.map (foldValue field)
  else (vs.map (foldValue field)).Perm (vs'.map (foldValue field))

/-- Header lists that differ where it does not matter. -/
def FieldsAlike (fields : List String) (hs hs' : List (Header Bytes)) : Prop :=
  ∀ field ∈ fields, ValuesAlike field (fieldValues hs field) (fieldValues hs' field)

section Alike

variable {field : String} {fields : List String} {vs vs' vs'' : List Bytes}
  {hs hs' : List (Header Bytes)}

lemma ValuesAlike.of_map_eq (h : vs.map (foldValue field) = vs'.map (foldValue field)) :
    ValuesAlike field vs vs' := by
  unfold ValuesAlike
  split_ifs
  · exact h
  · rw [h]

lemma ValuesAlike.symm (h : ValuesAlike field vs vs') : ValuesAlike field vs' vs := by
  unfold ValuesAlike at h ⊢
  split_ifs with ho
  · rw [if_pos ho] at h
    exact h.symm
  · rw [if_neg ho] at h
    exact h.symm

lemma ValuesAlike.trans (h : ValuesAlike field vs vs') (h' : ValuesAlike field vs' vs'') :
    ValuesAlike field vs vs'' := by
  unfold ValuesAlike at h h' ⊢
  split_ifs with ho
  · rw [if_pos ho] at h h'
    exact h.trans h'
  · rw [if_neg ho] at h h'
    exact h.trans h'

lemma ValuesAlike.perm (h : ValuesAlike field vs vs') :
    (vs.map (foldValue field)).Perm (vs'.map (foldValue field)) := by
  unfold ValuesAlike at h
  split_ifs at h with ho
  · rw [h]
  · exact h

lemma Recased.foldValue_eq {h h' : Header Bytes} (hr : Recased h h') (hf : field ∈ requestFields)
    (hn : SameName h.name (ascii field)) : foldValue field h.value = foldValue field h'.value := by
  cases hr.value with
  | inl heq => rw [heq]
  | inr hcase =>
    obtain ⟨⟨other, ho, hother⟩, hsame⟩ := hcase
    have hdistinct : ∀ f ∈ requestFields, ∀ o ∈ caselessFields,
        SameName (ascii f) (ascii o) → f ∈ caselessFields := by decide
    have hmem := hdistinct field hf other ho (hn.symm.trans hother)
    unfold foldValue
    rw [if_pos hmem]
    exact hsame

lemma map_foldValue_of_recased (hf : field ∈ requestFields) (h : List.Forall₂ Recased hs hs') :
    (fieldValues hs field).map (foldValue field) =
      (fieldValues hs' field).map (foldValue field) := by
  induction h with
  | nil => rfl
  | @cons h h' hs hs' hr _ ih =>
    rw [fieldValues_cons h, fieldValues_cons h', List.map_append, List.map_append, ih,
      fieldValues_singleton, fieldValues_singleton]
    have hiff : SameName h'.name (ascii field) ↔ SameName h.name (ascii field) :=
      ⟨hr.name.trans, hr.name.symm.trans⟩
    by_cases hn : SameName h.name (ascii field)
    · rw [if_pos hn, if_pos (hiff.mpr hn), List.map_singleton, List.map_singleton,
        hr.foldValue_eq hf hn]
    · rw [if_neg hn, if_neg (fun hn' => hn (hiff.mp hn'))]

/-- Order, case and other fields do not matter to the values of a field. -/
lemma SameFields.alike (hsub : fields ⊆ requestFields) (h : SameFields fields hs hs') :
    FieldsAlike fields hs hs' := by
  induction h with
  | @perm hs hs' h ordered =>
    intro field hf
    unfold ValuesAlike
    split_ifs with ho
    · unfold fieldValues
      rw [ordered field ho]
    · exact ((h.filter _).map _).map _
  | recase h =>
    intro field hf
    exact .of_map_eq (map_foldValue_of_recased (hsub hf) h)
  | @insert before after h other =>
    intro field hf
    apply ValuesAlike.of_map_eq
    rw [fieldValues_append, fieldValues_append, fieldValues_cons h, fieldValues_singleton,
      if_neg (other field hf), List.nil_append]
  | symm _ ih => exact fun field hf => (ih field hf).symm
  | trans _ _ ih ih' => exact fun field hf => (ih field hf).trans (ih' field hf)

lemma ValuesAlike.forall_iff {p : Bytes → Prop} (hp : ∀ v, p (foldValue field v) ↔ p v)
    (h : ValuesAlike field vs vs') : (∀ v ∈ vs, p v) ↔ ∀ v ∈ vs', p v := by
  have hfold (vs : List Bytes) : (∀ v ∈ vs, p v) ↔ ∀ v ∈ vs.map (foldValue field), p v := by
    rw [List.forall_mem_map]
    simp only [hp]
  rw [hfold vs, hfold vs']
  simp only [h.perm.mem_iff]

lemma ValuesAlike.perm_of_notMem (hf : field ∉ caselessFields) (h : ValuesAlike field vs vs') :
    vs.Perm vs' := by
  have hp := h.perm
  have hid : foldValue field = id := if_neg hf
  rwa [hid, List.map_id, List.map_id] at hp

lemma FieldsAlike.hasField_eq (h : FieldsAlike fields hs hs') (hf : field ∈ fields) :
    hasField hs' field = hasField hs field := by
  have hp := (h field hf).perm
  have hempty (vs : List Bytes) : vs.isEmpty = (vs.map (foldValue field)).isEmpty := by simp
  unfold hasField
  rw [hempty, hempty (fieldValues hs field), hp.isEmpty_eq]

lemma FieldsAlike.hasOption_eq (h : FieldsAlike fields hs hs') (hf : "connection" ∈ fields)
    (name : String) : hasOption hs' name = hasOption hs name := by
  have hnone (hs : List (Header Bytes)) : hasOption hs name = false ↔
      ∀ v ∈ fieldValues hs "connection", ∀ e ∈ listElements v, ¬SameName e (ascii name) := by
    unfold hasOption
    rw [List.any_eq_false]
    simp only [List.mem_flatMap, decide_eq_true_eq, forall_exists_index, and_imp]
    exact ⟨fun h v hv e he => h e v hv he, fun h e v hv he => h v hv e he⟩
  have hiff := (h "connection" hf).forall_iff
    (p := fun v => ∀ e ∈ listElements v, ¬SameName e (ascii name)) (by
      intro v
      rw [show foldValue "connection" = foldCase from rfl, listElements_foldCase,
        List.forall_mem_map]
      simp only [sameName_foldCase])
  rw [← hnone, ← hnone] at hiff
  cases ho : hasOption hs name with
  | false => exact hiff.mp ho
  | true =>
    cases ho' : hasOption hs' name with
    | false => rw [hiff.mpr ho'] at ho; exact ho
    | true => rfl

lemma FieldsAlike.codings_eq (h : FieldsAlike fields hs hs') (hf : "transfer-encoding" ∈ fields) :
    (transferCodings hs').map foldCase = (transferCodings hs).map foldCase := by
  have hfold (hs : List (Header Bytes)) : (transferCodings hs).map foldCase =
      ((fieldValues hs "transfer-encoding").map foldCase).flatMap listElements := by
    unfold transferCodings
    rw [List.map_flatMap, List.flatMap_map]
    simp only [listElements_foldCase]
  have heq : (fieldValues hs "transfer-encoding").map foldCase =
      (fieldValues hs' "transfer-encoding").map foldCase := h "transfer-encoding" hf
  rw [hfold, hfold, heq]

lemma FieldsAlike.contentLengthOf_eq (h : FieldsAlike fields hs hs') (hf : "content-length" ∈ fields)
    (hw : WellFormedFields hs) (hw' : WellFormedFields hs') :
    contentLengthOf hs' = contentLengthOf hs := by
  have hp := (h "content-length" hf).perm_of_notMem (by decide)
  by_cases hnone : fieldValues hs "content-length" = []
  · have hnone' : fieldValues hs' "content-length" = [] := by
      rw [hnone] at hp
      exact hp.symm.eq_nil
    unfold contentLengthOf
    rw [hnone, hnone']
  · obtain ⟨v, hv⟩ := List.exists_mem_of_ne_nil _ hnone
    rw [IoHttpParser.contentLengthOf_eq hw hv,
      IoHttpParser.contentLengthOf_eq hw' (hp.mem_iff.mp hv)]

end Alike

section Response

variable {hs hs' : List (Header Bytes)}

lemma FieldsAlike.wellFormedFields_iff (h : FieldsAlike responseFields hs hs') :
    WellFormedFields hs' ↔ WellFormedFields hs := by
  have hco := (h "connection" (by decide)).forall_iff isTokenList_foldCase
  have htr := (h "trailer" (by decide)).forall_iff (p := IsTokenList) (fun _ => Iff.rfl)
  have hup := (h "upgrade" (by decide)).forall_iff (p := fun v => ∀ c ∈ v, isTchar c = true)
    (fun _ => Iff.rfl)
  have hcl := (h "content-length" (by decide)).perm_of_notMem (by decide)
  have hte (hs : List (Header Bytes)) : (∀ e ∈ transferCodings hs, IsCoding e) ↔
      ∀ e ∈ (transferCodings hs).map foldCase, IsCoding e := by
    rw [List.forall_mem_map]
    simp only [isCoding_foldCase]
  rw [IoHttpParser.wellFormedFields_iff, IoHttpParser.wellFormedFields_iff, hte hs', hte hs,
    h.codings_eq (by decide), hco, htr, hup]
  simp only [hcl.mem_iff]

lemma FieldsAlike.ofHeaders_eq (h : FieldsAlike responseFields hs hs') (hw : WellFormedFields hs)
    (hasHost hasExpect : Bool) :
    Framing.ofHeaders hs' hasHost hasExpect = .ofHeaders hs hasHost hasExpect := by
  have hcodings := h.codings_eq (by decide)
  have hcount (hs : List (Header Bytes)) : (transferCodings hs).countP (fun e => IsChunked e) =
      ((transferCodings hs).map foldCase).countP (fun e => IsChunked e) := by
    rw [List.countP_map]
    simp only [Function.comp_def, isChunked_foldCase]
  have hlast (hs : List (Header Bytes)) :
      (transferCodings hs).getLast?.any (fun e => decide (IsChunked e)) =
        ((transferCodings hs).map foldCase).getLast?.any (fun e => decide (IsChunked e)) := by
    rw [List.getLast?_map, Option.any_map]
    simp only [isChunked_foldCase]
  unfold Framing.ofHeaders
  rw [hcount hs', hcount hs, hlast hs', hlast hs, hcodings,
    h.contentLengthOf_eq (by decide) hw (h.wellFormedFields_iff.mpr hw)]
  simp only [h.hasOption_eq (by decide), h.hasField_eq (show "transfer-encoding" ∈ _ by decide),
    h.hasField_eq (show "content-length" ∈ _ by decide),
    h.hasField_eq (show "upgrade" ∈ _ by decide), h.hasField_eq (show "trailer" ∈ _ by decide)]

end Response

section Request

variable {hs hs' : List (Header Bytes)}

lemma FieldsAlike.response (h : FieldsAlike requestFields hs hs') :
    FieldsAlike responseFields hs hs' := fun field hf => h field (List.mem_append_left _ hf)

lemma FieldsAlike.requestFields_iff (h : FieldsAlike requestFields hs hs') :
    RequestFields hs' ↔ RequestFields hs := by
  have hhost := (h "host" (by decide)).perm_of_notMem (by decide)
  have hexpect := (h "expect" (by decide)).forall_iff (p := fun v => trim isLws v ≠ []) (by
    intro v
    rw [show foldValue "expect" = foldCase from rfl, trim_foldCase, foldCase, Ne, Ne,
      List.map_eq_nil_iff])
  rw [IoHttpParser.requestFields_iff, IoHttpParser.requestFields_iff,
    h.response.wellFormedFields_iff, hexpect, hhost.length_eq]
  simp only [hhost.mem_iff]

lemma FieldsAlike.expectsContinueOf_eq (h : FieldsAlike requestFields hs hs') (before : Bool) :
    expectsContinueOf hs' before = expectsContinueOf hs before := by
  have hfold (hs : List (Header Bytes)) : expectsContinueOf hs before =
      (((fieldValues hs "expect").map foldCase).getLast?.map
        (fun v => decide (SameName (trim isLws v) (ascii "100-continue")))).getD before := by
    rw [List.getLast?_map, Option.map_map]
    simp only [Function.comp_def, trim_foldCase, sameName_foldCase]
    rfl
  have heq : (fieldValues hs "expect").map foldCase = (fieldValues hs' "expect").map foldCase :=
    h "expect" (by decide)
  rw [hfold, hfold, heq]

lemma FieldsAlike.requestLoopState_eq (h : FieldsAlike requestFields hs hs')
    (hw : WellFormedFields hs) (before : Bool) :
    requestLoopState before hs' = requestLoopState before hs := by
  unfold requestLoopState
  rw [h.response.ofHeaders_eq hw, h.expectsContinueOf_eq before,
    h.hasField_eq (show "host" ∈ _ by decide), h.hasField_eq (show "expect" ∈ _ by decide)]

end Request

/-! ### The two decisions -/

lemma FieldsAlike.requestApplySemantics_ok {req req' out : Request Bytes} {policy : Option Policy}
    (h : FieldsAlike requestFields req.headers req'.headers) (hversion : req'.version = req.version)
    (houtputs : req'.outputs = req.outputs) (hok : requestApplySemantics req policy = (.ok, out)) :
    ∃ out', requestApplySemantics req' policy = (.ok, out') ∧ out'.outputs = out.outputs := by
  obtain ⟨hr, hc, rfl⟩ := requestApplySemantics_ok_iff.mp hok
  have hexpects : req'.expectsContinue = req.expectsContinue :=
    congrArg Outputs.expectsContinue houtputs
  have hlength : req'.contentLength = req.contentLength := congrArg Outputs.contentLength houtputs
  have hstate : requestLoopState req'.expectsContinue req'.headers =
      requestLoopState req.expectsContinue req.headers := by
    rw [hexpects, h.requestLoopState_eq hr.fields]
  refine ⟨_, requestApplySemantics_ok_iff.mpr ⟨h.requestFields_iff.mpr hr, ?_, rfl⟩, ?_⟩
  · rw [hstate, hversion]
    exact hc
  · rw [hstate]
    unfold Framing.decideRequest Request.outputs
    dsimp only
    rw [hversion, hlength]

lemma FieldsAlike.responseApplySemantics_ok {resp resp' out : Response Bytes}
    {policy : Option Policy} (h : FieldsAlike responseFields resp.headers resp'.headers)
    (hversion : resp'.version = resp.version) (hcode : resp'.statusCode = resp.statusCode)
    (houtputs : resp'.outputs = resp.outputs) (hok : responseApplySemantics resp policy = (.ok, out)) :
    ∃ out', responseApplySemantics resp' policy = (.ok, out') ∧ out'.outputs = out.outputs := by
  obtain ⟨hw, hc, rfl⟩ := responseApplySemantics_ok_iff.mp hok
  have hlength : resp'.contentLength = resp.contentLength :=
    congrArg Outputs.contentLength houtputs
  have hkeep : resp'.keepAlive = resp.keepAlive := congrArg Outputs.keepAlive houtputs
  have hframing := h.ofHeaders_eq hw false false
  refine ⟨_, responseApplySemantics_ok_iff.mpr ⟨h.wellFormedFields_iff.mpr hw, ?_, rfl⟩, ?_⟩
  · rw [hframing, hcode]
    exact hc
  · rw [hframing]
    unfold Framing.decideResponse Response.outputs
    dsimp only
    rw [hversion, hcode, hlength, hkeep]

lemma status_eq_of_ok {α : Type} {outputs : α → Outputs} {x y : Status × α}
    (hx : x.1 = .ok ∨ x.1 = .error) (hy : y.1 = .ok ∨ y.1 = .error)
    (hxy : ∀ out, x = (.ok, out) → ∃ out', y = (.ok, out') ∧ outputs out' = outputs out)
    (hyx : ∀ out, y = (.ok, out) → ∃ out', x = (.ok, out') ∧ outputs out' = outputs out) :
    y.1 = x.1 ∧ (x.1 = .ok → outputs y.2 = outputs x.2) := by
  obtain ⟨st, v⟩ := x
  obtain ⟨st', v'⟩ := y
  cases hx with
  | inl hok =>
    obtain rfl : st = .ok := hok
    obtain ⟨out', hout, heq⟩ := hxy v rfl
    obtain ⟨rfl, rfl⟩ := Prod.mk.inj hout
    exact ⟨rfl, fun _ => heq⟩
  | inr herror =>
    obtain rfl : st = .error := herror
    refine ⟨?_, fun h => by cases h⟩
    cases hy with
    | inl hok =>
      obtain rfl : st' = .ok := hok
      obtain ⟨out', hout, -⟩ := hyx v' rfl
      cases hout
    | inr herror' => exact herror'

/-- The decisions do not depend on header order, letter case or other fields. -/
theorem applySemantics_sameFields (policy : Option Policy) :
    (∀ req req' : Request Bytes, req'.version = req.version → req'.outputs = req.outputs →
      SameFields requestFields req.headers req'.headers →
      let r := requestApplySemantics req policy
      let r' := requestApplySemantics req' policy
      r'.1 = r.1 ∧ (r.1 = .ok → r'.2.outputs = r.2.outputs)) ∧
    ∀ resp resp' : Response Bytes, resp'.version = resp.version →
      resp'.statusCode = resp.statusCode → resp'.outputs = resp.outputs →
      SameFields responseFields resp.headers resp'.headers →
      let r := responseApplySemantics resp policy
      let r' := responseApplySemantics resp' policy
      r'.1 = r.1 ∧ (r.1 = .ok → r'.2.outputs = r.2.outputs) := by
  constructor
  · intro req req' hversion houtputs hsame
    apply status_eq_of_ok (requestApplySemantics_status _ _) (requestApplySemantics_status _ _)
    · intro out hok
      exact (hsame.alike (List.Subset.refl _)).requestApplySemantics_ok hversion houtputs hok
    · intro out hok
      exact (hsame.symm.alike (List.Subset.refl _)).requestApplySemantics_ok hversion.symm
        houtputs.symm hok
  · intro resp resp' hversion hcode houtputs hsame
    have hsub : responseFields ⊆ requestFields := List.subset_append_left _ _
    apply status_eq_of_ok (responseApplySemantics_status _ _) (responseApplySemantics_status _ _)
    · intro out hok
      exact (hsame.alike hsub).responseApplySemantics_ok hversion hcode houtputs hok
    · intro out hok
      exact (hsame.symm.alike hsub).responseApplySemantics_ok hversion.symm hcode.symm
        houtputs.symm hok

section Example

/-- Headers of which two decide the framing. -/
def tracedHeaders : List (Header Bytes) :=
  [⟨ascii "Host", ascii "a"⟩, ⟨ascii "X-Trace", ascii "1"⟩,
    ⟨ascii "Transfer-Encoding", ascii "chunked"⟩]

/-- The two, in another order and another case. -/
def shoutedHeaders : List (Header Bytes) :=
  [⟨ascii "TRANSFER-ENCODING", ascii "Chunked"⟩, ⟨ascii "host", ascii "a"⟩]

lemma tracedHeaders_same {fields : List String} (hf : fields ⊆ requestFields) :
    SameFields fields tracedHeaders shoutedHeaders := by
  have hother : ∀ field ∈ requestFields, ¬SameName (ascii "X-Trace") (ascii field) := by decide
  have hremove : SameFields fields tracedHeaders
      [⟨ascii "Host", ascii "a"⟩, ⟨ascii "Transfer-Encoding", ascii "chunked"⟩] :=
    .symm (.insert [⟨ascii "Host", ascii "a"⟩] [⟨ascii "Transfer-Encoding", ascii "chunked"⟩]
      (fun field hfield => hother field (hf hfield)))
  have hswap : SameFields fields
      [⟨ascii "Host", ascii "a"⟩, ⟨ascii "Transfer-Encoding", ascii "chunked"⟩]
      [⟨ascii "Transfer-Encoding", ascii "chunked"⟩, ⟨ascii "Host", ascii "a"⟩] :=
    .perm (.swap _ _ _) (by decide)
  have hcase : SameFields fields
      [⟨ascii "Transfer-Encoding", ascii "chunked"⟩, ⟨ascii "Host", ascii "a"⟩] shoutedHeaders := by
    apply SameFields.recase
    refine .cons ⟨by decide, .inr ⟨⟨"transfer-encoding", by decide, by decide⟩, by decide⟩⟩ ?_
    exact .cons ⟨by decide, .inl rfl⟩ .nil
  exact hremove.trans (hswap.trans hcase)

theorem applySemantics_sameFields_shouted :
    let req := { Request.zero.resolve [] with version := .http11 }
    let resp := { Response.zero.resolve [] with version := .http11, statusCode := 200 }
    (requestApplySemantics { req with headers := shoutedHeaders } none).2.outputs =
      (requestApplySemantics { req with headers := tracedHeaders } none).2.outputs ∧
    (responseApplySemantics { resp with headers := shoutedHeaders } none).2.outputs =
      (responseApplySemantics { resp with headers := tracedHeaders } none).2.outputs := by
  intro req resp
  obtain ⟨hrequest, hresponse⟩ := applySemantics_sameFields none
  have hreq := hrequest { req with headers := tracedHeaders } { req with headers := shoutedHeaders }
    rfl rfl (tracedHeaders_same (List.Subset.refl _))
  have hresp := hresponse { resp with headers := tracedHeaders }
    { resp with headers := shoutedHeaders } rfl rfl rfl
    (tracedHeaders_same (List.subset_append_left _ _))
  exact ⟨hreq.2 (by decide), hresp.2 (by decide)⟩

end Example

end IoHttpParser
