import IoHttpParser.Proofs.RequestFraming
import IoHttpParser.Proofs.ResponseFraming

/-!
# Splitting a list field

A list in one field and the same list over two adjacent fields of that name are read alike.
-/

namespace IoHttpParser
open Memory

/-- The fields whose values are comma lists. -/
def listFields : List String := ["transfer-encoding", "connection", "trailer"]

section Split

variable {before after : List (Header Bytes)} {name a b : Bytes} {field : String}

/-- A list in one field. -/
def joinedHeaders (before after : List (Header Bytes)) (name a b : Bytes) : List (Header Bytes) :=
  before ++ ⟨name, a ++ comma :: b⟩ :: after

/-- The same list in two fields. -/
def splitHeaders (before after : List (Header Bytes)) (name a b : Bytes) : List (Header Bytes) :=
  before ++ ⟨name, a⟩ :: ⟨name, b⟩ :: after

lemma fieldValues_split_of_not {other : String} (h : ¬SameName name (ascii other)) :
    fieldValues (splitHeaders before after name a b) other =
      fieldValues (joinedHeaders before after name a b) other := by
  rw [splitHeaders, joinedHeaders, fieldValues_append, fieldValues_append, fieldValues_cons,
    fieldValues_cons ⟨name, b⟩, fieldValues_cons ⟨name, _⟩ after, fieldValues_singleton,
    fieldValues_singleton, fieldValues_singleton, if_neg h, if_neg h, if_neg h]
  rfl

lemma fieldValues_joined {other : String} (h : SameName name (ascii other)) :
    fieldValues (joinedHeaders before after name a b) other =
      fieldValues before other ++ (a ++ comma :: b) :: fieldValues after other := by
  rw [joinedHeaders, fieldValues_append, fieldValues_cons, fieldValues_singleton, if_pos h]
  rfl

lemma fieldValues_split {other : String} (h : SameName name (ascii other)) :
    fieldValues (splitHeaders before after name a b) other =
      fieldValues before other ++ a :: b :: fieldValues after other := by
  rw [splitHeaders, fieldValues_append, fieldValues_cons, fieldValues_cons ⟨name, b⟩,
    fieldValues_singleton, fieldValues_singleton, if_pos h, if_pos h]
  rfl

/-- The elements of all fields of a name are the same. -/
lemma elements_split (other : String) :
    (fieldValues (splitHeaders before after name a b) other).flatMap listElements =
      (fieldValues (joinedHeaders before after name a b) other).flatMap listElements := by
  by_cases h : SameName name (ascii other)
  · rw [fieldValues_split h, fieldValues_joined h, List.flatMap_append, List.flatMap_append,
      List.flatMap_cons, List.flatMap_cons, List.flatMap_cons, listElements_append,
      List.append_assoc]
  · rw [fieldValues_split_of_not h]

lemma hasField_split (other : String) :
    hasField (splitHeaders before after name a b) other =
      hasField (joinedHeaders before after name a b) other := by
  rw [hasField, hasField]
  by_cases h : SameName name (ascii other)
  · rw [fieldValues_split h, fieldValues_joined h]
    cases fieldValues before other <;> rfl
  · rw [fieldValues_split_of_not h]

lemma isTokenList_values_iff (vs : List Bytes) :
    (∀ v ∈ vs, IsTokenList v) ↔ ∀ e ∈ vs.flatMap listElements, IsToken e := by
  simp only [IsTokenList, List.mem_flatMap, forall_exists_index, and_imp]
  exact ⟨fun h e v hv he => h v hv e he, fun h v hv e he => h e v hv he⟩

section Listed

variable (hf : SameName name (ascii field)) (hlist : field ∈ listFields)
include hf hlist

/-- A list field is not one of the fields with a single value. -/
lemma not_sameName_of_list {other : String}
    (ho : other ∈ ["content-length", "upgrade", "host", "expect"]) :
    ¬SameName name (ascii other) := by
  have hall : ∀ f ∈ listFields, ∀ o ∈ ["content-length", "upgrade", "host", "expect"],
      ¬SameName (ascii f) (ascii o) := by decide
  exact hf.exclusive (hall field hlist other ho)

lemma fieldValues_split_single (other : String)
    (ho : other ∈ ["content-length", "upgrade", "host", "expect"]) :
    fieldValues (splitHeaders before after name a b) other =
      fieldValues (joinedHeaders before after name a b) other :=
  fieldValues_split_of_not (not_sameName_of_list hf hlist ho)

lemma wellFormedFields_split :
    WellFormedFields (splitHeaders before after name a b) ↔
      WellFormedFields (joinedHeaders before after name a b) := by
  rw [wellFormedFields_iff, wellFormedFields_iff, isTokenList_values_iff, isTokenList_values_iff,
    isTokenList_values_iff, isTokenList_values_iff, transferCodings, transferCodings,
    elements_split, elements_split, elements_split,
    fieldValues_split_single hf hlist "content-length" (by simp),
    fieldValues_split_single hf hlist "upgrade" (by simp)]

lemma ofHeaders_split (hasHost hasExpect : Bool) :
    Framing.ofHeaders (splitHeaders before after name a b) hasHost hasExpect =
      .ofHeaders (joinedHeaders before after name a b) hasHost hasExpect := by
  rw [Framing.ofHeaders, Framing.ofHeaders, hasField_split, hasField_split, hasField_split,
    hasField_split, hasOption, hasOption, hasOption, hasOption, hasOption, hasOption,
    transferCodings, transferCodings, elements_split, elements_split, contentLengthOf,
    contentLengthOf, fieldValues_split_single hf hlist "content-length" (by simp)]

lemma requestFields_split :
    RequestFields (splitHeaders before after name a b) ↔
      RequestFields (joinedHeaders before after name a b) := by
  rw [requestFields_iff, requestFields_iff, wellFormedFields_split hf hlist,
    fieldValues_split_single hf hlist "host" (by simp),
    fieldValues_split_single hf hlist "expect" (by simp)]

lemma requestLoopState_split (e : Bool) :
    requestLoopState e (splitHeaders before after name a b) =
      requestLoopState e (joinedHeaders before after name a b) := by
  rw [requestLoopState, requestLoopState, ofHeaders_split hf hlist, hasField_split, hasField_split,
    expectsContinueOf, expectsContinueOf,
    fieldValues_split_single hf hlist "expect" (by simp)]

end Listed

end Split

lemma outcome_eq {α : Type} {x y : Status × α} {g : α → α} (hx : x.1 = .ok ∨ x.1 = .error)
    (hy : y.1 = .ok ∨ y.1 = .error) (hxy : ∀ out, x = (.ok, out) → y = (.ok, g out))
    (hyx : ∀ out, y = (.ok, out) → x.1 = .ok) : y.1 = x.1 ∧ (x.1 = .ok → y.2 = g x.2) := by
  obtain ⟨st, v⟩ := x
  obtain ⟨st', v'⟩ := y
  rcases hx with rfl | rfl
  · obtain ⟨rfl, rfl⟩ := Prod.mk.inj (hxy v rfl)
    exact ⟨rfl, fun _ => rfl⟩
  · rcases hy with rfl | rfl
    · exact absurd (hyx v' rfl) nofun
    · exact ⟨rfl, nofun⟩

/-- A list over two fields of one name is decided like the list in one field. -/
theorem applySemantics_split {field : String} (hlist : field ∈ listFields) {name : Bytes}
    (hf : SameName name (ascii field)) (policy : Option Policy)
    (before after : List (Header Bytes)) (a b : Bytes) :
    let joinedHs := joinedHeaders before after name a b
    let splitHs := splitHeaders before after name a b
    (∀ req : Request Bytes,
      let joined := requestApplySemantics { req with headers := joinedHs } policy
      let split := requestApplySemantics { req with headers := splitHs } policy
      split.1 = joined.1 ∧ (joined.1 = .ok → split.2 = { joined.2 with headers := splitHs })) ∧
    ∀ resp : Response Bytes,
      let joined := responseApplySemantics { resp with headers := joinedHs } policy
      let split := responseApplySemantics { resp with headers := splitHs } policy
      split.1 = joined.1 ∧ (joined.1 = .ok → split.2 = { joined.2 with headers := splitHs }) := by
  refine ⟨fun req => ?_, fun resp => ?_⟩
  · apply outcome_eq (g := fun out => { out with headers := splitHeaders before after name a b })
      (requestApplySemantics_status _ _) (requestApplySemantics_status _ _)
    · intro out h
      obtain ⟨hr, hc, rfl⟩ := requestApplySemantics_ok_iff.mp h
      rw [requestApplySemantics_ok_iff]
      dsimp only
      rw [requestFields_split hf hlist, requestLoopState_split hf hlist]
      exact ⟨hr, hc, rfl⟩
    · intro out h
      obtain ⟨hr, hc, rfl⟩ := requestApplySemantics_ok_iff.mp h
      dsimp only at hr hc
      rw [requestFields_split hf hlist] at hr
      rw [requestLoopState_split hf hlist] at hc
      exact congrArg Prod.fst (requestApplySemantics_ok_iff.mpr ⟨hr, hc, rfl⟩)
  · apply outcome_eq (g := fun out => { out with headers := splitHeaders before after name a b })
      (responseApplySemantics_status _ _) (responseApplySemantics_status _ _)
    · intro out h
      obtain ⟨hw, hc, rfl⟩ := responseApplySemantics_ok_iff.mp h
      rw [responseApplySemantics_ok_iff]
      dsimp only
      rw [wellFormedFields_split hf hlist, ofHeaders_split hf hlist]
      exact ⟨hw, hc, rfl⟩
    · intro out h
      obtain ⟨hw, hc, rfl⟩ := responseApplySemantics_ok_iff.mp h
      dsimp only at hw hc
      rw [wellFormedFields_split hf hlist] at hw
      rw [ofHeaders_split hf hlist] at hc
      exact congrArg Prod.fst (responseApplySemantics_ok_iff.mpr ⟨hw, hc, rfl⟩)

/-- `Transfer-Encoding: gzip, chunked` over two fields. -/
theorem applySemantics_split_codings :
    let hs := splitHeaders [⟨ascii "Host", ascii "a"⟩] [] (ascii "Transfer-Encoding")
      (ascii "gzip") (ascii " chunked")
    let req := { Request.zero.resolve [] with version := .http11 }
    (requestApplySemantics { req with headers := hs } none).1 = .ok := by
  have hlist : "transfer-encoding" ∈ listFields := by decide
  have hname : SameName (ascii "Transfer-Encoding") (ascii "transfer-encoding") := by decide
  have hsplit := (applySemantics_split hlist hname none
    [⟨ascii "Host", ascii "a"⟩] [] (ascii "gzip") (ascii " chunked")).1
    { Request.zero.resolve [] with version := .http11 }
  exact hsplit.1.trans (by decide)

end IoHttpParser
