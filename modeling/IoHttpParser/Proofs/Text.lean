import IoHttpParser.Spec.Grammar

/-!
# Scanning helpers meet the grammar

The token table, the word-at-a-time validators and the delimiter searches of the parser
decide the byte classes of the grammar.
-/

namespace IoHttpParser
open Memory Lanes

lemma forall_byte (p : UInt8 → Bool)
    (h : (List.range 256).all (fun n => p (UInt8.ofNat n)) = true) (c : UInt8) : p c = true := by
  have hc := List.all_eq_true.mp h c.toNat (List.mem_range.mpr c.toNat_lt)
  simpa using hc

lemma isTokenChar_eq (c : UInt8) : isTokenChar c = isTchar c := by
  have h := forall_byte (fun c => isTokenChar c == isTchar c) (by decide +kernel) c
  simpa using h

lemma scanIsToken_iff {s : Bytes} : scanIsToken s = true ↔ ∀ c ∈ s, isTchar c = true := by
  simp only [scanIsToken, List.all_eq_true, isTokenChar_eq]

/-- What separates a token from the delimiters around it. -/
lemma isTchar_class (c : UInt8) (h : isTchar c = true) :
    c ≠ lf ∧ c ≠ cr ∧ c ≠ sp ∧ c ≠ htab ∧ c ≠ colon ∧ c ≠ comma ∧ c ≠ semicolon := by
  refine ⟨?_, ?_, ?_, ?_, ?_, ?_, ?_⟩ <;> rintro rfl <;> revert h <;> decide

lemma isLws_iff {c : UInt8} : isLws c = true ↔ c = sp ∨ c = htab := by simp [isLws]

lemma isDigit_iff {c : UInt8} : isDigit c = true ↔ 0x30 ≤ c.toNat ∧ c.toNat ≤ 0x39 := by
  rw [isDigit, Bool.and_eq_true, decide_eq_true_eq, decide_eq_true_eq]
  rfl

lemma isTchar_not_lws {c : UInt8} (h : isTchar c = true) : isLws c = false := by
  have hc := isTchar_class c h
  simp [isLws, hc.2.2.1, hc.2.2.2.1]

lemma isFieldByte_class {c : UInt8} (h : isFieldByte c = true) : c ≠ lf ∧ c ≠ cr := by
  constructor <;> rintro rfl <;> revert h <;> decide

lemma isLws_class {c : UInt8} (h : isLws c = true) :
    isFieldByte c = true ∧ c ≠ lf ∧ c ≠ cr := by
  rcases isLws_iff.mp h with rfl | rfl <;> decide

lemma isTargetByte_class {c : UInt8} (h : isTargetByte c = true) :
    c ≠ lf ∧ c ≠ cr ∧ c ≠ sp := by
  refine ⟨?_, ?_, ?_⟩ <;> rintro rfl <;> revert h <;> decide

/-! ### Word-at-a-time validators -/

lemma le_of_lowControls {bs : Bytes} (hl : bs.length = 8) {limit : UInt64} {n : Nat}
    (hn : n ≤ 128) (hc : (ones64 * limit).toNat = n * ones 8)
    (h : lowControls (load64 bs) limit = 0) : ∀ b ∈ bs, n ≤ b.toNat :=
  le_of_mask64_eq_zero hn hl (toNat_load64 hl) hc h

lemma ne_del_of_hasDel {bs : Bytes} (hl : bs.length = 8) (h : hasDel (load64 bs) = 0) :
    ∀ b ∈ bs, b ≠ 0x7f := by
  have hx : (load64 bs ^^^ (ones64 * 0x7f)).toNat = word (bs.map (· ^^^ 0x7f)) := by
    rw [UInt64.toNat_xor, toNat_load64 hl, ← word_xor, hl]
    congr 1
  have hm := le_of_mask64_eq_zero (n := 1) (by omega) (by simpa using hl) hx (c := ones64) rfl h
  intro b hb hdel
  have h1 := hm (b ^^^ 0x7f) (List.mem_map_of_mem hb)
  rw [hdel] at h1
  revert h1
  decide

/-- Skipping blocks whose bytes are all good leaves the verdict on the rest. -/
lemma skipWords_all {guard stride : Nat} {stop : Bytes → Bool} {ok : UInt8 → Bool}
    (h : ∀ p : Bytes, guard ≤ p.length → stop p = false → (p.take stride).all ok = true)
    (fuel : Nat) (p : Bytes) : (skipWords guard stride stop fuel p).all ok = p.all ok := by
  induction fuel generalizing p with
  | zero => rfl
  | succ fuel ih =>
    rw [skipWords]
    by_cases hg : guard ≤ p.length
    · rw [if_pos hg]
      cases hs : stop p with
      | true => rw [if_pos rfl]
      | false =>
        rw [if_neg (by simp), ih]
        conv_rhs => rw [← List.take_append_drop stride p, List.all_append, h p hg hs, Bool.true_and]
    · rw [if_neg hg]

/-- A word that passes both masks holds good bytes only. -/
lemma all_of_masks (bs : Bytes) (hl : bs.length = 8) {limit : UInt64} {n : Nat} (hn : n ≤ 128)
    (hc : (ones64 * limit).toNat = n * ones 8) {ok : UInt8 → Bool}
    (hok : ∀ b : UInt8, n ≤ b.toNat → b ≠ 0x7f → ok b = true)
    (h : lowControls (load64 bs) limit ||| hasDel (load64 bs) = 0) : bs.all ok = true := by
  obtain ⟨hlow, hdel⟩ := UInt64.or_eq_zero_iff.mp h
  exact List.all_eq_true.mpr fun b hb =>
    hok b (le_of_lowControls hl hn hc hlow b hb) (ne_del_of_hasDel hl hdel b hb)

theorem requestTargetIsValid_iff {buf : Bytes} {allowSpaces : Bool} :
    requestTargetIsValid buf allowSpaces = true ↔
      ∀ c ∈ buf, isTargetByte c = true ∨ allowSpaces = true ∧ c = sp := by
  have hslow : ∀ c : UInt8, ((c == sp && allowSpaces) || !(decide (c ≤ 0x20) || c == 0x7f)) = true ↔
      isTargetByte c = true ∨ allowSpaces = true ∧ c = sp := by
    intro c
    have hlt : 0x20 < c ↔ ¬c ≤ 0x20 := UInt8.not_le.symm
    simp only [isTargetByte, Bool.or_eq_true, Bool.and_eq_true, beq_iff_eq, Bool.not_eq_true',
      Bool.or_eq_false_iff, decide_eq_false_iff_not, beq_eq_false_iff_ne, decide_eq_true_eq,
      bne_iff_ne, hlt]
    tauto
  have hall : requestTargetIsValid buf allowSpaces =
      buf.all (fun c => (c == sp && allowSpaces) || !(decide (c ≤ 0x20) || c == 0x7f)) := by
    cases allowSpaces with
    | true => rfl
    | false =>
      refine skipWords_all (fun p hp hs => ?_) _ _
      rw [bne_eq_false_iff_eq] at hs
      refine all_of_masks (n := 0x21) _ (by simpa using hp) (by omega) rfl (fun b hb hd => ?_) hs
      have hle : ¬b ≤ 0x20 := by
        rw [UInt8.not_le, UInt8.lt_iff_toNat_lt]
        exact hb
      simp [hle, hd]
  rw [hall, List.all_eq_true]
  exact forall₂_congr fun c _ => hslow c

theorem fieldTextIsValid_iff {buf : Bytes} :
    fieldTextIsValid buf = true ↔ ∀ c ∈ buf, isFieldByte c = true := by
  have hok : ∀ b : UInt8, 0x20 ≤ b.toNat → b ≠ 0x7f → isFieldByte b = true := by
    intro b hb hd
    have hle : (0x20 : UInt8) ≤ b := UInt8.le_iff_toNat_le.mpr hb
    simp [isFieldByte, hle, hd]
  have hslow : (fun c : UInt8 => c == htab || !(decide (c < 0x20) || c == 0x7f)) = isFieldByte := by
    funext c
    have hge : decide ((0x20 : UInt8) ≤ c) = !decide (c < 0x20) := by
      rw [← decide_not, decide_eq_decide]
      exact UInt8.not_lt.symm
    simp [isFieldByte, hge, bne]
  rw [fieldTextIsValid, hslow]
  dsimp only
  rw [skipWords_all, skipWords_all, List.all_eq_true]
  · intro p hp hs
    rw [bne_eq_false_iff_eq] at hs
    obtain ⟨hab, hdelB⟩ := UInt64.or_eq_zero_iff.mp hs
    obtain ⟨ha, hlowB⟩ := UInt64.or_eq_zero_iff.mp hab
    have hA := all_of_masks (n := 0x20) (p.take 8) (by simp; omega) (by omega) rfl hok ha
    have hB := all_of_masks (n := 0x20) ((p.drop 8).take 8) (by simp; omega) (by omega) rfl
      hok (UInt64.or_eq_zero_iff.mpr ⟨hlowB, hdelB⟩)
    rw [show p.take 16 = p.take 8 ++ (p.drop 8).take 8 from List.take_add (i := 8) (j := 8),
      List.all_append, hA, hB, Bool.and_self]
  · intro p hp hs
    rw [bne_eq_false_iff_eq] at hs
    exact all_of_masks (n := 0x20) _ (by simpa using hp) (by omega) rfl hok hs

/-! ### Delimiters -/

lemma IsToken.all {s : Bytes} (h : IsToken s) : s.all isTokenChar = true := by
  rw [List.all_eq_true]
  intro c hc
  rw [isTokenChar_eq]
  exact h.chars c hc

lemma IsToken.notMem {s : Bytes} (h : IsToken s) :
    lf ∉ s ∧ cr ∉ s ∧ sp ∉ s ∧ colon ∉ s := by
  refine ⟨?_, ?_, ?_, ?_⟩ <;> intro hm <;> have hc := isTchar_class _ (h.chars _ hm)
  · exact hc.1 rfl
  · exact hc.2.1 rfl
  · exact hc.2.2.1 rfl
  · exact hc.2.2.2.2.1 rfl

lemma findHeaderNameColon_append {name : Bytes} (h : IsToken name) (rest : Bytes) :
    findHeaderNameColon (name ++ colon :: rest) = some name.length := by
  have hne : (name.length == 0) = false := by
    rw [beq_eq_false_iff_ne, Ne, List.length_eq_zero_iff]
    exact h.nonempty
  simp [findHeaderNameColon, memchr_append_cons h.notMem.2.2.2, hne, h.all]

lemma exists_of_findHeaderNameColon {line : Bytes} {n : Nat}
    (h : findHeaderNameColon line = some n) :
    ∃ name rest, line = name ++ colon :: rest ∧ IsToken name ∧ n = name.length := by
  by_cases hm : colon ∈ line
  · obtain ⟨name, rest, rfl, hn⟩ := List.eq_append_cons_of_mem hm
    simp only [findHeaderNameColon, memchr_append_cons hn, List.take_left'] at h
    split at h
    · cases h
    · rename_i hne
      split at h
      · rename_i hall
        refine ⟨name, rest, rfl, ⟨?_, ?_⟩, (Option.some.inj h).symm⟩
        · rintro rfl
          simp at hne
        · intro c hc
          rw [← isTokenChar_eq]
          exact List.all_eq_true.mp hall c hc
      · cases h
  · rw [findHeaderNameColon, memchr_eq_none.mpr hm] at h
    cases h

lemma findHeaderNameColon_lt {line : Bytes} {n : Nat} (h : findHeaderNameColon line = some n) :
    n < line.length := by
  obtain ⟨name, rest, rfl, -, hn⟩ := exists_of_findHeaderNameColon h
  rw [List.length_append, List.length_cons]
  omega

lemma findMethodSpaceFrom_append {m : Bytes} (h : ∀ c ∈ m, isTchar c = true) {i : Nat}
    (hi : i + m.length ≠ 0) (rest : Bytes) :
    findMethodSpaceFrom i (m ++ sp :: rest) = some (i + m.length) := by
  induction m generalizing i with
  | nil =>
    have hi' : (i == 0) = false := by simpa using hi
    simp [findMethodSpaceFrom, hi']
  | cons c m ih =>
    have hc := h c (by simp)
    have hsp : (c == sp) = false := beq_eq_false_iff_ne.mpr (isTchar_class c hc).2.2.1
    rw [List.cons_append, findMethodSpaceFrom, hsp, if_neg (by simp), isTokenChar_eq, hc,
      if_neg (by simp), ih (fun d hd => h d (by simp [hd])) (by simp), List.length_cons]
    congr 1
    omega

lemma findMethodSpace_append {m : Bytes} (h : IsToken m) (rest : Bytes) :
    findMethodSpace (m ++ sp :: rest) = some m.length := by
  have hne : 0 + m.length ≠ 0 := by simpa using h.nonempty
  simpa [findMethodSpace] using findMethodSpaceFrom_append h.chars hne rest

lemma exists_of_findMethodSpaceFrom {line : Bytes} {i n : Nat}
    (h : findMethodSpaceFrom i line = some n) :
    ∃ m rest, line = m ++ sp :: rest ∧ (∀ c ∈ m, isTchar c = true) ∧ n = i + m.length ∧ n ≠ 0 := by
  induction line generalizing i with
  | nil => cases h
  | cons c line ih =>
    rw [findMethodSpaceFrom] at h
    by_cases hsp : c = sp
    · subst hsp
      rw [if_pos (by simp)] at h
      split at h
      · cases h
      · rename_i hi
        refine ⟨[], line, rfl, by simp, by simpa using (Option.some.inj h).symm, ?_⟩
        rw [← Option.some.inj h]
        simpa using hi
    · rw [if_neg (by simpa using hsp)] at h
      split at h
      · cases h
      · rename_i htok
        obtain ⟨m, rest, rfl, hm, hn, h0⟩ := ih h
        refine ⟨c :: m, rest, rfl, ?_, ?_, h0⟩
        · intro d hd
          rcases List.mem_cons.mp hd with rfl | hd
          · rw [← isTokenChar_eq]
            simpa using htok
          · exact hm d hd
        · rw [hn, List.length_cons]
          omega

lemma exists_of_findMethodSpace {line : Bytes} {n : Nat} (h : findMethodSpace line = some n) :
    ∃ m rest, line = m ++ sp :: rest ∧ IsToken m ∧ n = m.length := by
  obtain ⟨m, rest, hl, hm, hn, h0⟩ := exists_of_findMethodSpaceFrom h
  rw [Nat.zero_add] at hn
  refine ⟨m, rest, hl, ⟨?_, hm⟩, hn⟩
  rintro rfl
  exact h0 hn

lemma findMethodSpace_lt {line : Bytes} {n : Nat} (h : findMethodSpace line = some n) :
    n < line.length := by
  obtain ⟨m, rest, rfl, -, hn⟩ := exists_of_findMethodSpace h
  rw [List.length_append, List.length_cons]
  omega

end IoHttpParser
