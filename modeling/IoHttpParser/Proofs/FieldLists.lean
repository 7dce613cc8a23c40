import IoHttpParser.Spec.Framing
import IoHttpParser.Proofs.Text
import IoHttpParser.Lib.CheckedFold
import IoHttpParser.Lib.Words

/-!
# Field values

The cursor loops of `ihtp_semantics.c` fold over the trimmed elements of a comma list, and stop
at the first they refuse. Each field parser accepts exactly the values declared well formed, and
reads from them what is declared.
-/

namespace IoHttpParser
open Memory CheckedFold

lemma bytesEqIgnoreCase_iff {a b : Bytes} : bytesEqIgnoreCase a b = true ↔ SameName a b := by
  rw [bytesEqIgnoreCase, Bool.and_eq_true, beq_iff_eq, beq_iff_eq]
  constructor
  · exact And.right
  · intro h
    have hl := congrArg List.length h
    rw [List.length_map, List.length_map] at hl
    exact ⟨hl, h⟩

lemma bytesEqIgnoreCase_eq (a b : Bytes) : bytesEqIgnoreCase a b = decide (SameName a b) := by
  rw [Bool.eq_iff_iff, bytesEqIgnoreCase_iff, decide_eq_true_eq]

lemma SameName.exclusive {a b c : Bytes} (h : SameName a b) (hbc : ¬SameName b c) :
    ¬SameName a c := fun hc => hbc (h.symm.trans hc)

/-! ### Comma lists -/

lemma listElements_ne_nil (v : Bytes) : listElements v ≠ [] := by
  rw [listElements, Ne, List.map_eq_nil_iff]
  exact List.splitOn_ne_nil comma v

/-- A comma in a value separates the elements before it from those behind it. -/
lemma listElements_append (a b : Bytes) :
    listElements (a ++ comma :: b) = listElements a ++ listElements b := by
  rw [listElements, List.splitOn_append_cons_self, List.map_append, listElements, listElements]

lemma listElements_of_notMem {v : Bytes} (h : comma ∉ v) : listElements v = [trim isLws v] := by
  rw [listElements, List.splitOn_eq_singleton h]
  rfl

lemma trimmed_of_mem_listElements {v e : Bytes} (h : e ∈ listElements v) : Trimmed isLws e := by
  obtain ⟨x, _, rfl⟩ := List.mem_map.mp h
  exact trimmed_trim x

lemma ne_of_notMem {d : UInt8} {x : Bytes} (h : d ∉ x) : ∀ c ∈ x, (c != d) = true := by
  intro c hc
  rw [bne_iff_ne]
  rintro rfl
  exact h hc

section Loop

variable {σ : Type} {element : σ → Bytes → Option σ}

lemma listLoop_succ {v : Bytes} (hv : v ≠ []) (fuel : Nat) (saw : Bool) (s : σ) :
    listLoop element (fuel + 1) saw s v =
      match element s (trim isLws (v.takeWhile (· != comma))) with
      | none => (false, s)
      | some s =>
        match v.dropWhile (· != comma) with
        | [] => (true, s)
        | _ :: rest => if rest.isEmpty then (false, s) else listLoop element fuel true s rest := by
  obtain ⟨c, rest, rfl⟩ := List.exists_cons_of_ne_nil hv
  rfl

lemma listLoop_eq (hempty : ∀ s, element s [] = none) (fuel : Nat) (saw : Bool) (s : σ) {v : Bytes}
    (hv : v ≠ []) (hfuel : v.length ≤ fuel) :
    (let r := listLoop element fuel saw s v; if r.1 then some r.2 else none) =
      (listElements v).foldlM element s := by
  induction fuel generalizing saw s v with
  | zero => exact absurd (List.length_eq_zero_iff.mp (Nat.le_zero.mp hfuel)) hv
  | succ fuel ih =>
    rw [listLoop_succ hv]
    by_cases hm : comma ∈ v
    · obtain ⟨x, y, rfl, hx⟩ := List.eq_append_cons_of_mem hm
      have htake : (x ++ comma :: y).takeWhile (· != comma) = x := by
        rw [List.takeWhile_append_of_pos (ne_of_notMem hx)]
        simp
      have hdrop : (x ++ comma :: y).dropWhile (· != comma) = comma :: y := by
        rw [List.dropWhile_append_of_pos (ne_of_notMem hx)]
        simp
      rw [htake, hdrop, listElements_append, listElements_of_notMem hx, List.singleton_append,
        List.foldlM_cons]
      cases helem : element s (trim isLws x) with
      | none => rfl
      | some s' =>
        by_cases hy : y = []
        · subst hy
          have hlast : (listElements []).foldlM element s' = none := by
            rw [listElements_of_notMem (by simp), List.foldlM_cons,
              show trim isLws [] = ([] : Bytes) from rfl, hempty]
            rfl
          exact hlast.symm
        · have hlen : y.length ≤ fuel := by
            rw [List.length_append, List.length_cons] at hfuel
            omega
          have hne : y.isEmpty = false := by simpa using hy
          simp only [hne, Bool.false_eq_true, if_false]
          exact ih true s' hy hlen
    · have htake : v.takeWhile (· != comma) = v :=
        List.takeWhile_eq_self_iff.mpr (ne_of_notMem hm)
      have hdrop : v.dropWhile (· != comma) = [] :=
        List.dropWhile_eq_nil_iff.mpr (ne_of_notMem hm)
      rw [htake, hdrop, listElements_of_notMem hm, List.foldlM_cons]
      cases element s (trim isLws v) with
      | none => rfl
      | some s' => rfl

lemma parseList_eq (hempty : ∀ s, element s [] = none) (s : σ) (v : Bytes) :
    (if (parseList element s v).1 then some (parseList element s v).2 else none) =
      (listElements v).foldlM element s := by
  by_cases hv : v = []
  · subst hv
    rw [listElements_of_notMem (by simp), List.foldlM_cons,
      show trim isLws [] = ([] : Bytes) from rfl, hempty]
    rfl
  · exact listLoop_eq hempty v.length false s hv (Nat.le_refl _)

end Loop

/-! ### Transfer-Encoding -/

lemma isToken_iff {e : Bytes} : IsToken e ↔ e.isEmpty = false ∧ scanIsToken e = true := by
  rw [scanIsToken_iff, List.isEmpty_eq_false_iff]
  exact ⟨fun h => ⟨h.nonempty, h.chars⟩, fun h => ⟨h.1, h.2⟩⟩

lemma codingName_of_notMem {e : Bytes} (h : Trimmed isLws e) (hm : semicolon ∉ e) :
    codingName e = e := by
  rw [codingName, List.takeWhile_eq_self_iff.mpr (ne_of_notMem hm), h.rdropWhile]

lemma codingName_append_cons {x : Bytes} (y : Bytes) (hm : semicolon ∉ x) :
    codingName (x ++ semicolon :: y) = x.rdropWhile isLws := by
  rw [codingName, List.takeWhile_append_of_pos (ne_of_notMem hm)]
  simp

/-- One more coding. -/
def TransferCodings.push (s : TransferCodings) (e : Bytes) : TransferCodings :=
  ⟨decide (IsChunked e), s.chunkedCount + if IsChunked e then 1 else 0⟩

lemma transferEncodingElement_append_cons {x : Bytes} (y : Bytes) (hx : semicolon ∉ x)
    (s : TransferCodings) : transferEncodingElement s (x ++ semicolon :: y) =
      if (x.rdropWhile isLws).isEmpty || !scanIsToken (x.rdropWhile isLws) ||
        bytesEqIgnoreCase (x.rdropWhile isLws) (ascii "chunked") then none
      else some ⟨false, s.chunkedCount⟩ := by
  have hne : (x ++ semicolon :: y).isEmpty = false := by simp
  rw [transferEncodingElement, hne, memchr_append_cons hx]
  simp only [List.take_left', Option.isSome_some, Bool.true_and, Bool.and_true, Bool.false_eq_true,
    if_false]
  cases (x.rdropWhile isLws).isEmpty <;> cases scanIsToken (x.rdropWhile isLws) <;>
    cases bytesEqIgnoreCase (x.rdropWhile isLws) (ascii "chunked") <;> rfl

lemma transferEncodingElement_of_notMem {e : Bytes} (he : semicolon ∉ e) (s : TransferCodings) :
    transferEncodingElement s e =
      if e.isEmpty || !scanIsToken e then none
      else some ⟨bytesEqIgnoreCase e (ascii "chunked"), s.chunkedCount +
        if bytesEqIgnoreCase e (ascii "chunked") then 1 else 0⟩ := by
  rw [transferEncodingElement, memchr_eq_none.mpr he]
  simp only [Option.isSome_none, Bool.false_and, Bool.and_false, Bool.false_eq_true, if_false]
  cases e.isEmpty <;> cases scanIsToken e <;> cases bytesEqIgnoreCase e (ascii "chunked") <;> rfl

lemma bytesEqIgnoreCase_chunked (e : Bytes) :
    bytesEqIgnoreCase (codingName e) (ascii "chunked") = decide (IsChunked e) :=
  bytesEqIgnoreCase_eq _ _

lemma transferEncodingElement_iff {e : Bytes} (h : Trimmed isLws e) (s s' : TransferCodings) :
    transferEncodingElement s e = some s' ↔ IsCoding e ∧ s' = s.push e := by
  by_cases hm : semicolon ∈ e
  · obtain ⟨x, y, rfl, hx⟩ := List.eq_append_cons_of_mem hm
    have hname := codingName_append_cons y hx
    have hchunked : bytesEqIgnoreCase (x.rdropWhile isLws) (ascii "chunked") =
        decide (IsChunked (x ++ semicolon :: y)) := by
      have h := bytesEqIgnoreCase_chunked (x ++ semicolon :: y)
      rwa [hname] at h
    have hcoding : IsCoding (x ++ semicolon :: y) ↔
        IsToken (x.rdropWhile isLws) ∧ ¬IsChunked (x ++ semicolon :: y) := by
      rw [← hname]
      exact ⟨fun hc => ⟨hc.name, fun hch => hc.no_params hch hm⟩,
        fun hc => ⟨hc.1, fun hch => absurd hch hc.2⟩⟩
    rw [transferEncodingElement_append_cons y hx, hchunked, hcoding, isToken_iff,
      TransferCodings.push]
    by_cases hch : IsChunked (x ++ semicolon :: y)
    · simp [hch]
    · cases (x.rdropWhile isLws).isEmpty <;> cases scanIsToken (x.rdropWhile isLws) <;>
        simp [hch, eq_comm]
  · have hname := codingName_of_notMem h hm
    have hchunked : bytesEqIgnoreCase e (ascii "chunked") = decide (IsChunked e) := by
      have h := bytesEqIgnoreCase_chunked e
      rwa [hname] at h
    have hcoding : IsCoding e ↔ IsToken e := by
      constructor
      · intro hc
        rw [← hname]
        exact hc.name
      · intro ht
        rw [← hname] at ht
        exact ⟨ht, fun _ => hm⟩
    rw [transferEncodingElement_of_notMem hm, hchunked, hcoding, isToken_iff, TransferCodings.push]
    cases e.isEmpty <;> cases scanIsToken e <;> simp [eq_comm]

/-- The codings of one value, read from left to right. -/
theorem parseTransferEncoding_iff {v : Bytes} {t : TransferCodings} :
    parseTransferEncoding v = some t ↔
      (∀ e ∈ listElements v, IsCoding e) ∧ t = (listElements v).foldl .push ⟨false, 0⟩ := by
  have hempty (s : TransferCodings) : transferEncodingElement s [] = none := rfl
  have hfold := foldlM_eq_some_iff (l := listElements v)
    (fun e he => transferEncodingElement_iff (trimmed_of_mem_listElements he)) ⟨false, 0⟩ t
  rw [← hfold, ← parseList_eq hempty, parseTransferEncoding]
  rcases parseList transferEncodingElement ⟨false, 0⟩ v with ⟨_ | _, s⟩ <;> simp

lemma foldl_push (l : List Bytes) (s : TransferCodings) :
    l.foldl .push s =
      ⟨(l.getLast?.map (fun e => decide (IsChunked e))).getD s.endsWithChunked,
        s.chunkedCount + l.countP IsChunked⟩ := by
  induction l using List.reverseRecOn with
  | nil => rfl
  | append_singleton l e ih =>
    rw [List.foldl_append, ih, List.foldl_cons, List.foldl_nil, TransferCodings.push,
      List.getLast?_concat, List.countP_append, List.countP_singleton]
    simp [Nat.add_assoc]

/-! ### Connection, Trailer and Expect -/

/-- One more connection option. -/
def ConnectionOptions.push (s : ConnectionOptions) (e : Bytes) : ConnectionOptions :=
  { close := s.close || SameName e (ascii "close")
    keepAlive := s.keepAlive || SameName e (ascii "keep-alive")
    upgrade := s.upgrade || SameName e (ascii "upgrade") }

lemma foldl_push_options (l : List Bytes) (s : ConnectionOptions) :
    l.foldl .push s =
      ⟨s.close || l.any (fun e => SameName e (ascii "close")),
        s.keepAlive || l.any (fun e => SameName e (ascii "keep-alive")),
        s.upgrade || l.any (fun e => SameName e (ascii "upgrade"))⟩ := by
  induction l generalizing s with
  | nil => simp
  | cons e l ih => rw [List.foldl_cons, ih, ConnectionOptions.push]; simp [Bool.or_assoc]

lemma connectionElement_iff {e : Bytes} (s s' : ConnectionOptions) :
    connectionElement s e = some s' ↔ IsToken e ∧ s' = s.push e := by
  rw [isToken_iff, connectionElement, ConnectionOptions.push]
  simp only [bytesEqIgnoreCase_iff]
  cases e.isEmpty <;> cases scanIsToken e <;> try simp
  by_cases hc : SameName e (ascii "close")
  · have hk : ¬SameName e (ascii "keep-alive") := hc.exclusive (by decide)
    have hu : ¬SameName e (ascii "upgrade") := hc.exclusive (by decide)
    simp [hc, hk, hu, eq_comm]
  · by_cases hk : SameName e (ascii "keep-alive")
    · have hu : ¬SameName e (ascii "upgrade") := hk.exclusive (by decide)
      simp [hc, hk, hu, eq_comm]
    · by_cases hu : SameName e (ascii "upgrade")
      · simp [hc, hk, hu, eq_comm]
      · simp only [hc, hk, hu, if_false, decide_false, Bool.or_false]
        rw [Option.some.injEq]
        exact eq_comm

/-- The options of one value, added to those of the values before it. -/
theorem parseConnectionHeader_iff {v : Bytes} {s s' : ConnectionOptions} :
    parseConnectionHeader v s = (true, s') ↔
      IsTokenList v ∧ s' = (listElements v).foldl .push s := by
  have hempty (s : ConnectionOptions) : connectionElement s [] = none := rfl
  have hfold := foldlM_eq_some_iff (l := listElements v)
    (fun e _ => connectionElement_iff (e := e)) s s'
  rw [IsTokenList, ← hfold, ← parseList_eq hempty, parseConnectionHeader]
  rcases parseList connectionElement s v with ⟨_ | _, s⟩ <;> simp

theorem parseTrailerHeader_iff {v : Bytes} : parseTrailerHeader v = true ↔ IsTokenList v := by
  have hempty (s : Unit) : trailerElement s [] = none := rfl
  have helement (e : Bytes) (s s' : Unit) :
      trailerElement s e = some s' ↔ IsToken e ∧ s' = s := by
    rw [isToken_iff, trailerElement]
    cases e.isEmpty <;> cases scanIsToken e <;> simp
  have hfold := foldlM_eq_some_iff (l := listElements v) (fun e _ => helement e) () ()
  rw [← parseList_eq hempty, List.foldl_fixed] at hfold
  rw [IsTokenList, ← and_iff_left (a := ∀ e ∈ listElements v, IsToken e) (rfl : () = ()), ← hfold,
    parseTrailerHeader]
  cases (parseList trailerElement () v).1 <;> simp

lemma foldl_push_init (l : List Bytes) :
    l.foldl TransferCodings.push ⟨false, 0⟩ = ⟨l.getLast?.any IsChunked, l.countP IsChunked⟩ := by
  rw [foldl_push, Nat.zero_add]
  cases l.getLast? with
  | none => rfl
  | some e => rfl

lemma isCoding_iff {e : Bytes} :
    IsCoding e ↔ IsToken (codingName e) ∧ (semicolon ∈ e → ¬IsChunked e) :=
  ⟨fun h => ⟨h.name, fun hm hc => h.no_params hc hm⟩, fun h => ⟨h.1, fun hc hm => h.2 hm hc⟩⟩

/-- The comma-list parsers accept exactly the lists all of whose trimmed elements are good, and
leave what the elements say: connection options are turned on, never off. -/
theorem list_parsers_exact (v : Bytes) :
    (∀ s s', parseConnectionHeader v s = (true, s') ↔
      (∀ e ∈ listElements v, IsToken e) ∧
        s' = ⟨s.close || (listElements v).any (fun e => SameName e (ascii "close")),
          s.keepAlive || (listElements v).any (fun e => SameName e (ascii "keep-alive")),
          s.upgrade || (listElements v).any (fun e => SameName e (ascii "upgrade"))⟩) ∧
    (parseTrailerHeader v = true ↔ ∀ e ∈ listElements v, IsToken e) ∧
    ∀ t, parseTransferEncoding v = some t ↔
      (∀ e ∈ listElements v, IsToken (codingName e) ∧ (semicolon ∈ e → ¬IsChunked e)) ∧
        t = ⟨(listElements v).getLast?.any IsChunked, (listElements v).countP IsChunked⟩ := by
  refine ⟨fun s s' => ?_, parseTrailerHeader_iff, fun t => ?_⟩
  · rw [parseConnectionHeader_iff, foldl_push_options]
    rfl
  · rw [parseTransferEncoding_iff, foldl_push_init]
    exact and_congr_left fun _ => forall₂_congr fun _ _ => isCoding_iff

theorem parseExpectHeader_iff {v : Bytes} {b : Bool} :
    parseExpectHeader v = some b ↔
      trim isLws v ≠ [] ∧ b = decide (SameName (trim isLws v) (ascii "100-continue")) := by
  rw [parseExpectHeader, bytesEqIgnoreCase_eq]
  by_cases h : trim isLws v = []
  · simp [h]
  · have hne : (trim isLws v).isEmpty = false := by simpa using h
    simp only [hne, Bool.false_eq_true, if_false, Option.some.injEq]
    exact ⟨fun hb => ⟨h, hb.symm⟩, fun hb => hb.2.symm⟩

/-! ### Content-Length -/

lemma le_decimalFrom (n : Nat) (digits : Bytes) : n ≤ decimalFrom n digits := by
  induction digits generalizing n with
  | nil => exact Nat.le_refl n
  | cons c digits ih =>
    have h := ih (n * 10 + (c.toNat - 0x30))
    rw [decimalFrom, List.foldl_cons, ← decimalFrom]
    omega

lemma contentLengthLoop_iff {digits : Bytes} {result n : Nat} (hr : result ≤ 2 ^ 64 - 1) :
    contentLengthLoop result digits = some n ↔
      (∀ c ∈ digits, 0x30 ≤ c.toNat ∧ c.toNat ≤ 0x39) ∧ decimalFrom result digits ≤ 2 ^ 64 - 1 ∧
        n = decimalFrom result digits := by
  induction digits generalizing result with
  | nil =>
    rw [contentLengthLoop, decimalFrom, List.foldl_nil, Option.some.injEq]
    exact ⟨fun h => ⟨nofun, hr, h.symm⟩, fun h => h.2.2.symm⟩
  | cons c digits ih =>
    have hstep : decimalFrom result (c :: digits) =
        decimalFrom (result * 10 + (c.toNat - 0x30)) digits := rfl
    rw [contentLengthLoop, List.forall_mem_cons, hstep]
    by_cases hd : isDigit c = true
    · have hrange := isDigit_iff.mp hd
      have hroom : c.toNat - 0x30 ≤ 2 ^ 64 - 1 := by omega
      have hle := le_decimalFrom (result * 10 + (c.toNat - 0x30)) digits
      simp only [hd, Bool.not_true, Bool.false_eq_true, if_false]
      by_cases hbig : result > (2 ^ 64 - 1 - (c.toNat - 0x30)) / 10
      · have hover := (Words.guard_iff (by decide) hroom).mp hbig
        rw [if_pos hbig]
        exact ⟨nofun, fun h => absurd h.2.1 (Nat.not_le_of_lt (Nat.lt_of_lt_of_le hover hle))⟩
      · have hnext := Words.le_of_guard (by decide) hroom hbig
        have hwrap : u64 (u64 (result * 10) + (c.toNat - 0x30)) =
            result * 10 + (c.toNat - 0x30) := u64_add_of_lt (by omega)
        rw [if_neg hbig, hwrap]
        exact (ih hnext).trans ⟨fun h => ⟨⟨hrange, h.1⟩, h.2⟩, fun h => ⟨h.1.2, h.2⟩⟩
    · have hno : ¬(0x30 ≤ c.toNat ∧ c.toNat ≤ 0x39) := fun h => hd (isDigit_iff.mpr h)
      simp [hd, hno]

theorem parseContentLength_iff {v : Bytes} {n : Nat} :
    parseContentLength v = some n ↔ IsContentLength v ∧ n = decimalValue v := by
  rw [parseContentLength]
  by_cases hv : v = []
  · subst hv
    exact ⟨nofun, fun h => absurd rfl h.1.nonempty⟩
  · have hlen : (v.length == 0) = false := by simpa using hv
    rw [hlen]
    simp only [Bool.false_eq_true, if_false]
    rw [contentLengthLoop_iff (Nat.zero_le _)]
    constructor
    · rintro ⟨hd, hb, rfl⟩
      exact ⟨⟨hv, hd, hb⟩, rfl⟩
    · rintro ⟨h, rfl⟩
      exact ⟨h.digits, h.bounded, rfl⟩

end IoHttpParser
