import IoHttpParser.Model.Perf
import IoHttpParser.Proofs.HeadBounds

/-!
# What the counters cost and count

The counters change nothing that the parser returns, and no counter runs ahead of the bytes: one
call adds to each of them one more, at most, than the bytes up to where it stops, if it accepts, and
else up to the end of the input.
-/

namespace IoHttpParser
open Memory Lanes Incremental Counting

namespace Perf

/-! ### What is returned -/

@[simp] lemma val_findLineEnd (buf : Bytes) (policy : Policy) :
    (findLineEnd buf policy).val = IoHttpParser.findLineEnd buf policy := by
  unfold findLineEnd IoHttpParser.findLineEnd
  rw [val_bind]
  cases memchr lf buf <;> rfl

@[simp] lemma val_findHeaderNameColon (buf : Bytes) :
    (findHeaderNameColon buf).val = IoHttpParser.findHeaderNameColon buf := by
  unfold findHeaderNameColon IoHttpParser.findHeaderNameColon
  rw [val_bind]
  cases memchr colon buf <;> rfl

lemma val_findMethodSpaceFrom (i : Nat) (buf : Bytes) :
    (findMethodSpaceFrom i buf).val = IoHttpParser.findMethodSpaceFrom i buf := by
  induction buf generalizing i with
  | nil => rfl
  | cons c rest ih =>
    rw [findMethodSpaceFrom, IoHttpParser.findMethodSpaceFrom, val_bind, ← ih]
    split_ifs <;> rfl

@[simp] lemma val_findMethodSpace (buf : Bytes) :
    (findMethodSpace buf).val = IoHttpParser.findMethodSpace buf :=
  val_findMethodSpaceFrom 0 buf

@[simp] lemma val_skipWords (field : PerfCounter) (guard stride : Nat) (stop : Bytes → Bool)
    (fuel : Nat) (p : Bytes) :
    (skipWords field guard stride stop fuel p).val =
      IoHttpParser.skipWords guard stride stop fuel p := by
  induction fuel generalizing p with
  | zero => rfl
  | succ fuel ih =>
    rw [skipWords, IoHttpParser.skipWords, ← ih]
    split_ifs <;> rfl

@[simp] lemma val_all (field : PerfCounter) (ok : UInt8 → Bool) (p : Bytes) :
    (all field ok p).val = p.all ok := by
  induction p with
  | nil => rfl
  | cons c p ih =>
    rw [all, val_bind, List.all_cons, ← ih]
    cases ok c <;> rfl

@[simp] lemma val_requestTargetIsValid (buf : Bytes) (allowSpaces : Bool) :
    (requestTargetIsValid buf allowSpaces).val =
      IoHttpParser.requestTargetIsValid buf allowSpaces := by
  simp only [requestTargetIsValid, IoHttpParser.requestTargetIsValid, val_bind]
  cases allowSpaces <;> simp

@[simp] lemma val_fieldTextIsValid (buf : Bytes) :
    (fieldTextIsValid buf).val = IoHttpParser.fieldTextIsValid buf := by
  simp only [fieldTextIsValid, IoHttpParser.fieldTextIsValid, val_bind, val_all, val_skipWords]

@[simp] lemma val_trimAndValidateFieldValue (buf : Bytes) :
    (trimAndValidateFieldValue buf).val = IoHttpParser.trimAndValidateFieldValue buf := by
  simp only [trimAndValidateFieldValue, IoHttpParser.trimAndValidateFieldValue, val_bind]
  split_ifs <;> simp_all

lemma val_parseStatusLine (base : Nat) (buf : Bytes) (resp : Response Span) (policy : Policy) :
    (parseStatusLine base buf resp policy).val =
      IoHttpParser.parseStatusLine base buf resp policy := by
  unfold parseStatusLine IoHttpParser.parseStatusLine
  rw [val_bind, val_findLineEnd]
  cases IoHttpParser.findLineEnd buf policy with
  | error status => rfl
  | ok v =>
    obtain ⟨lineLen, lineEndingLen⟩ := v
    dsimp only
    cases versionOfByte buf[7]? with
    | none => split_ifs <;> rfl
    | some version =>
      simp only [gt_iff_lt, Bool.and_eq_true, decide_eq_true_eq]
      by_cases hreason : 13 < lineLen
      · simp only [hreason, true_and]
        split_ifs <;> simp_all
      · simp only [hreason, false_and, if_false]
        split_ifs <;> rfl

lemma val_parseRequestLine (base : Nat) (buf : Bytes) (req : Request Span) (policy : Policy) :
    (parseRequestLine base buf req policy).val =
      IoHttpParser.parseRequestLine base buf req policy := by
  unfold parseRequestLine IoHttpParser.parseRequestLine
  rw [val_bind, val_bind, val_findLineEnd]
  cases IoHttpParser.findLineEnd buf policy with
  | error status => cases status <;> rfl
  | ok v =>
    obtain ⟨lineLen, lineEndingLen⟩ := v
    dsimp only
    split_ifs
    · rfl
    rw [val_bind, val_findMethodSpace]
    cases IoHttpParser.findMethodSpace (buf.take lineLen) with
    | none => rfl
    | some sp1 =>
      dsimp only
      cases findLastCharOffset ((buf.drop (sp1 + 1)).take (lineLen - sp1 - 1)) sp with
      | none => rfl
      | some sp2 =>
        dsimp only
        cases versionOfByte buf[sp1 + 1 + sp2 + 1 + 7]? with
        | none => split_ifs <;> simp_all
        | some version => split_ifs <;> simp_all

lemma val_headerStep (maxHeaders : Nat) (policy : Policy) (base : Nat)
    (headers : List (Header Span)) (rest : Bytes) :
    (headerStep maxHeaders policy base headers rest).val =
      IoHttpParser.headerStep maxHeaders policy base headers rest := by
  unfold headerStep IoHttpParser.headerStep
  cases rest with
  | nil => rfl
  | cons c tail =>
    dsimp only
    by_cases hfold : (policy.rejectObsFold && isLws c) = true
    · rw [if_pos hfold, if_pos hfold]
      rfl
    rw [if_neg hfold, if_neg hfold, val_bind, val_findLineEnd]
    cases IoHttpParser.findLineEnd (c :: tail) policy with
    | error status => cases status <;> rfl
    | ok v =>
      obtain ⟨lineLen, lineEndingLen⟩ := v
      dsimp only
      by_cases hmax : lineLen > ihtpMaxHeaderLine
      · rw [if_pos hmax, if_pos hmax]
        rfl
      by_cases hempty : (lineLen == 0) = true
      · rw [if_neg hmax, if_neg hmax, if_pos hempty, if_pos hempty]
        rfl
      rw [if_neg hmax, if_neg hmax, if_neg hempty, if_neg hempty]
      by_cases hcontinuation : isLws c = true
      · rw [if_pos hcontinuation, if_pos hcontinuation]
        cases headers.getLast? with
        | none => rfl
        | some h =>
          simp only [val_bind, val_fieldTextIsValid, val_pure]
      · rw [if_neg hcontinuation, if_neg hcontinuation, val_bind, val_findHeaderNameColon]
        cases IoHttpParser.findHeaderNameColon ((c :: tail).take lineLen) with
        | none => rfl
        | some n =>
          dsimp only
          split_ifs
          · rfl
          rw [val_bind, val_trimAndValidateFieldValue]
          cases IoHttpParser.trimAndValidateFieldValue
            (((c :: tail).drop (n + 1)).take (lineLen - (n + 1))) <;> rfl

lemma val_headerLoop (maxHeaders : Nat) (policy : Policy) (base initialCount fuel pos : Nat)
    (headers : List (Header Span)) (rest : Bytes) :
    (headerLoop maxHeaders policy base initialCount fuel pos headers rest).val =
      IoHttpParser.headerLoop maxHeaders policy base initialCount fuel pos headers rest := by
  induction fuel generalizing pos headers rest with
  | zero => rfl
  | succ fuel ih =>
    rw [headerLoop, IoHttpParser.headerLoop, val_bind, val_headerStep]
    cases IoHttpParser.headerStep maxHeaders policy (base + pos) headers rest with
    | more => rfl
    | fail status => rfl
    | advance n headers => exact ih _ _ _
    | finish n headers => rfl

lemma val_parseHeaderBlock (base : Nat) (buf : Bytes) (headers : List (Header Span))
    (maxHeaders : Nat) (policy : Policy) :
    (parseHeaderBlock base buf headers maxHeaders policy).val =
      IoHttpParser.parseHeaderBlock base buf headers maxHeaders policy :=
  val_headerLoop _ _ _ _ _ _ _ _

/-! ### What is counted -/

/-- The counters of `find_line_end`. -/
def lineEndFields : List PerfCounter := [.findLineEndCalls, .findLineEndBytes]

/-- The counters of `find_method_space`. -/
def methodFields : List PerfCounter := [.findMethodSpaceCalls, .findMethodSpaceBytes]

/-- The counters of `request_target_is_valid`. -/
def targetFields : List PerfCounter :=
  [.requestTargetCalls, .requestTargetBytes, .requestTargetFastBytes, .requestTargetSlowBytes]

/-- The counters of `find_header_name_colon`. -/
def colonFields : List PerfCounter := [.findHeaderNameColonCalls, .findHeaderNameColonBytes]

/-- The counters of `trim_and_validate_field_value` itself. -/
def trimFields : List PerfCounter := [.trimFieldValueCalls, .trimFieldValueBytes]

/-- The counters of `field_text_is_valid`. -/
def textFields : List PerfCounter :=
  [.fieldTextCalls, .fieldTextBytes, .fieldTextFastBytes, .fieldTextSlowBytes]

/-- The loops of the two validators get through no more bytes than these were given. -/
structure Balanced (count : PerfCounters) : Prop where
  target : count .requestTargetFastBytes + count .requestTargetSlowBytes ≤
    count .requestTargetBytes
  text : count .fieldTextFastBytes + count .fieldTextSlowBytes ≤ count .fieldTextBytes

lemma Balanced.add {count count' : PerfCounters} (h : Balanced count) (h' : Balanced count') :
    Balanced (count + count') := by
  have ht := h.target
  have ht' := h'.target
  have hx := h.text
  have hx' := h'.text
  constructor <;> simp only [Pi.add_apply] <;> omega

/-- Some counters, by `n` at most, with the loops in balance. -/
structure Within (fields : List PerfCounter) (n : Nat) (count : PerfCounters) : Prop where
  confined : Confined fields n count
  balanced : Balanced count

section Within

variable {fields fields' : List PerfCounter} {m n : Nat} {count count' : PerfCounters}

lemma within_zero (fields : List PerfCounter) (n : Nat) : Within fields n 0 :=
  ⟨confined_zero _ _, ⟨le_rfl, le_rfl⟩⟩

lemma Within.mono (h : Within fields m count) (hf : fields ⊆ fields') (hm : m ≤ n) :
    Within fields' n count :=
  ⟨h.confined.mono hf hm, h.balanced⟩

lemma Within.add (h : Within fields n count) (h' : Within fields' n count')
    (hd : ∀ i ∈ fields, i ∉ fields') : Within (fields ++ fields') n (count + count') :=
  ⟨h.confined.add h'.confined hd, h.balanced.add h'.balanced⟩

lemma Within.add_same (h : Within fields m count) (h' : Within fields n count') :
    Within fields (m + n) (count + count') :=
  ⟨h.confined.add_same h'.confined, h.balanced.add h'.balanced⟩

/-- The counters of the loops. -/
def loopFields : List PerfCounter :=
  [.requestTargetFastBytes, .requestTargetSlowBytes, .fieldTextFastBytes, .fieldTextSlowBytes]

/-- A counter that no loop adds to. -/
lemma within_single {field : PerfCounter} (hloop : field ∉ loopFields) (hm : m ≤ n) :
    Within [field] n (Pi.single field m) := by
  refine ⟨confined_single (List.mem_singleton_self field) hm, ?_⟩
  simp only [loopFields, List.mem_cons, List.not_mem_nil, or_false, not_or] at hloop
  obtain ⟨htargetFast, htargetSlow, htextFast, htextSlow⟩ := hloop
  constructor
  · rw [Pi.single_eq_of_ne' htargetFast, Pi.single_eq_of_ne' htargetSlow]
    exact Nat.zero_le _
  · rw [Pi.single_eq_of_ne' htextFast, Pi.single_eq_of_ne' htextSlow]
    exact Nat.zero_le _

/-- A call and the bytes that it has looked at. -/
lemma within_call {calls bytes : PerfCounter} (hne : calls ≠ bytes) (hcalls : calls ∉ loopFields)
    (hbytes : bytes ∉ loopFields) (hn : 0 < n) (hm : m ≤ n) :
    Within [calls, bytes] n (Pi.single calls 1 + Pi.single bytes m) :=
  (within_single hcalls hn).add (within_single hbytes hm) (by simpa using hne)

end Within

variable {buf : Bytes} {policy : Policy} {n : Nat}

lemma findLineEnd_count (hn : 0 < n) (hbuf : buf.length ≤ n) :
    Within lineEndFields n (findLineEnd buf policy).count := by
  rw [findLineEnd, count_bind]
  cases h : memchr lf buf with
  | none => exact within_call (by decide) (by decide) (by decide) hn hbuf
  | some i => exact within_call (by decide) (by decide) (by decide) hn ((Pointer.memchr_lt h).trans_le hbuf)

lemma findLineEnd_count_ok {l k : Nat} (h : IoHttpParser.findLineEnd buf policy = .ok (l, k)) :
    0 < l + k ∧ l + k ≤ buf.length ∧
      Within lineEndFields (l + k) (findLineEnd buf policy).count := by
  rw [findLineEnd, count_bind]
  rw [IoHttpParser.findLineEnd] at h
  cases hm : memchr lf buf with
  | none =>
    rw [hm] at h
    cases h
  | some i =>
    have hi := Pointer.memchr_lt hm
    have hsum : l + k = i + 1 := by
      simp only [hm, Bool.and_eq_true, decide_eq_true_eq] at h
      split_ifs at h with hcr
      · cases h
        omega
      · cases h
        rfl
    rw [hsum]
    exact ⟨by omega, hi, within_call (by decide) (by decide) (by decide) (by omega) le_rfl⟩

lemma findHeaderNameColon_count (hn : 0 < n) (hbuf : buf.length ≤ n) :
    Within colonFields n (findHeaderNameColon buf).count := by
  rw [findHeaderNameColon, count_bind]
  cases h : memchr colon buf with
  | none => exact within_call (by decide) (by decide) (by decide) hn hbuf
  | some i => exact within_call (by decide) (by decide) (by decide) hn ((Pointer.memchr_lt h).trans_le hbuf)

/-- The bytes that the loop of `find_method_space` reads. -/
lemma findMethodSpaceFrom_count (i : Nat) (buf : Bytes) :
    ∃ m ≤ buf.length,
      (findMethodSpaceFrom i buf).count = Pi.single .findMethodSpaceBytes m := by
  induction buf generalizing i with
  | nil => exact ⟨0, le_rfl, (Pi.single_zero _).symm⟩
  | cons c rest ih =>
    rw [findMethodSpaceFrom, count_bind]
    by_cases hsp : (c == sp) = true
    · rw [if_pos hsp]
      exact ⟨1, by simp, add_zero _⟩
    by_cases htoken : (!isTokenChar c) = true
    · rw [if_neg hsp, if_pos htoken]
      exact ⟨1, by simp, add_zero _⟩
    · obtain ⟨m, hm, hcount⟩ := ih (i + 1)
      rw [if_neg hsp, if_neg htoken, hcount]
      exact ⟨1 + m, by rw [List.length_cons]; omega, (Pi.single_add _ _ _).symm⟩

lemma findMethodSpace_count (hn : 0 < n) (hbuf : buf.length ≤ n) :
    Within methodFields n (findMethodSpace buf).count := by
  obtain ⟨m, hm, hcount⟩ := findMethodSpaceFrom_count 0 buf
  rw [findMethodSpace, count_bind, hcount]
  exact within_call (by decide) (by decide) (by decide) hn (hm.trans hbuf)

/-- A word loop counts what it steps over. -/
lemma skipWords_count (field : PerfCounter) {guard stride : Nat} (hguard : stride ≤ guard)
    (stop : Bytes → Bool) (fuel : Nat) (p : Bytes) :
    ∃ m, (skipWords field guard stride stop fuel p).count = Pi.single field m ∧
      m + (IoHttpParser.skipWords guard stride stop fuel p).length = p.length := by
  induction fuel generalizing p with
  | zero => exact ⟨0, (Pi.single_zero _).symm, Nat.zero_add _⟩
  | succ fuel ih =>
    rw [skipWords, IoHttpParser.skipWords]
    split_ifs with hlong hstop
    · exact ⟨0, (Pi.single_zero _).symm, Nat.zero_add _⟩
    · obtain ⟨m, hcount, hlen⟩ := ih (p.drop stride)
      rw [List.length_drop] at hlen
      rw [count_bind, hcount]
      exact ⟨stride + m, (Pi.single_add _ _ _).symm, by omega⟩
    · exact ⟨0, (Pi.single_zero _).symm, Nat.zero_add _⟩

/-- A byte loop counts what it reads. -/
lemma all_count (field : PerfCounter) (ok : UInt8 → Bool) (p : Bytes) :
    ∃ m ≤ p.length, (all field ok p).count = Pi.single field m := by
  induction p with
  | nil => exact ⟨0, le_rfl, (Pi.single_zero _).symm⟩
  | cons c p ih =>
    rw [all, count_bind]
    split_ifs
    · obtain ⟨m, hm, hcount⟩ := ih
      rw [hcount]
      exact ⟨1 + m, by rw [List.length_cons]; omega, (Pi.single_add _ _ _).symm⟩
    · exact ⟨1, by simp, add_zero _⟩

/-- A validator counts one call, the bytes it is given, and those of them that its word loops and
its byte loop get through. -/
lemma requestTargetIsValid_count (buf : Bytes) (allowSpaces : Bool) :
    ∃ fast slow, fast + slow ≤ buf.length ∧
      (requestTargetIsValid buf allowSpaces).count =
        Pi.single .requestTargetCalls 1 + (Pi.single .requestTargetBytes buf.length +
          (Pi.single .requestTargetFastBytes fast + Pi.single .requestTargetSlowBytes slow)) := by
  simp only [requestTargetIsValid, count_bind]
  cases allowSpaces with
  | false =>
    simp only [Bool.not_false, if_true, count_bind, val_skipWords]
    obtain ⟨fast, hfast, hlen⟩ := skipWords_count .requestTargetFastBytes (le_refl 8)
      (fun p => lowControls (load64 (p.take 8)) 0x21 ||| hasDel (load64 (p.take 8)) != 0)
      buf.length buf
    obtain ⟨slow, hle, hslow⟩ := all_count .requestTargetSlowBytes
      (fun c => (c == sp && false) || !(c ≤ 0x20 || c == 0x7f)) _
    rw [hfast, hslow]
    exact ⟨fast, slow, by omega, rfl⟩
  | true =>
    obtain ⟨slow, hle, hslow⟩ := all_count .requestTargetSlowBytes
      (fun c => (c == sp && true) || !(c ≤ 0x20 || c == 0x7f)) buf
    simp only [Bool.not_true, Bool.false_eq_true, if_false, count_bind, count_pure, val_pure, hslow]
    exact ⟨0, slow, by omega, by rw [Pi.single_zero]; rfl⟩

lemma fieldTextIsValid_count (buf : Bytes) :
    ∃ fast slow, fast + slow ≤ buf.length ∧
      (fieldTextIsValid buf).count =
        Pi.single .fieldTextCalls 1 + (Pi.single .fieldTextBytes buf.length +
          (Pi.single .fieldTextFastBytes fast + Pi.single .fieldTextSlowBytes slow)) := by
  simp only [fieldTextIsValid, count_bind, val_skipWords]
  obtain ⟨m, hm, hmlen⟩ := skipWords_count .fieldTextFastBytes (show 16 ≤ 32 by decide)
    (fun p => lowControls (load64 (p.take 8)) 0x20 ||| hasDel (load64 (p.take 8)) |||
      lowControls (load64 ((p.drop 8).take 8)) 0x20 ||| hasDel (load64 ((p.drop 8).take 8)) != 0)
    buf.length buf
  rw [hm]
  set mid := IoHttpParser.skipWords 32 16 _ buf.length buf
  obtain ⟨n, hn, hnlen⟩ := skipWords_count .fieldTextFastBytes (le_refl 8)
    (fun p => lowControls (load64 (p.take 8)) 0x20 ||| hasDel (load64 (p.take 8)) != 0)
    mid.length mid
  obtain ⟨slow, hle, hslow⟩ := all_count .fieldTextSlowBytes
    (fun c => c == htab || !(c < 0x20 || c == 0x7f)) _
  rw [hn, hslow]
  refine ⟨m + n, slow, by omega, ?_⟩
  simp only [Pi.single_add, add_assoc]
  rfl

/-- What a validator counts keeps to its four counters. -/
lemma confined_validator {calls bytes fast slow : PerfCounter}
    (hd : [calls, bytes, fast, slow].Nodup) {m a b : Nat} (hn : 0 < n) (hm : m ≤ n)
    (hab : a + b ≤ m) :
    Confined [calls, bytes, fast, slow] n
      (Pi.single calls 1 + (Pi.single bytes m + (Pi.single fast a + Pi.single slow b))) := by
  have hsingle (field : PerfCounter) {k : Nat} (hk : k ≤ n) :
      Confined [field] n (Pi.single field k) :=
    confined_single (List.mem_singleton_self field) hk
  have hcalls := (List.nodup_cons.mp hd).1
  have hbytes := (List.nodup_cons.mp (List.nodup_cons.mp hd).2).1
  have hfast := (List.nodup_cons.mp (List.nodup_cons.mp (List.nodup_cons.mp hd).2).2).1
  exact (hsingle calls hn).add ((hsingle bytes hm).add ((hsingle fast (by omega)).add
    (hsingle slow (by omega)) (List.forall_mem_singleton.mpr hfast))
    (List.forall_mem_singleton.mpr hbytes)) (List.forall_mem_singleton.mpr hcalls)

lemma requestTargetIsValid_within (hn : 0 < n) (hbuf : buf.length ≤ n) (allowSpaces : Bool) :
    Within targetFields n (requestTargetIsValid buf allowSpaces).count := by
  obtain ⟨fast, slow, hle, hcount⟩ := requestTargetIsValid_count buf allowSpaces
  rw [hcount]
  refine ⟨confined_validator (by decide) hn hbuf hle, ?_, ?_⟩
  · simpa using hle
  · simp

lemma fieldTextIsValid_within (hn : 0 < n) (hbuf : buf.length ≤ n) :
    Within textFields n (fieldTextIsValid buf).count := by
  obtain ⟨fast, slow, hle, hcount⟩ := fieldTextIsValid_count buf
  rw [hcount]
  refine ⟨confined_validator (by decide) hn hbuf hle, ?_, ?_⟩
  · simp
  · simpa using hle

lemma trimAndValidateFieldValue_within (hn : 0 < n) (hbuf : buf.length ≤ n) :
    Within (trimFields ++ textFields) n (trimAndValidateFieldValue buf).count := by
  simp only [trimAndValidateFieldValue, count_bind]
  rw [← add_assoc]
  refine (within_call (by decide) (by decide) (by decide) hn hbuf).add ?_ (by decide)
  split_ifs
  · exact within_zero _ _
  · rw [count_bind, count_pure, add_zero]
    apply fieldTextIsValid_within hn
    rw [List.length_take, List.length_drop]
    omega

/-- The counters of a status line. -/
def statusFields : List PerfCounter := lineEndFields ++ textFields

/-- The counters of a request line. -/
def requestFields : List PerfCounter :=
  .parseRequestLineCalls :: (lineEndFields ++ (methodFields ++ targetFields))

/-- The counters of a header line. -/
def headerFields : List PerfCounter :=
  lineEndFields ++ (colonFields ++ (trimFields ++ textFields))

/-- How far a start line or a header block is read, at most: to its end when it is accepted, and else
to the end of the input. -/
def reach (status : Status) (stop size : Nat) : Nat := if status = .ok then stop else size

section Line

variable {out : Type} {fields : List PerfCounter} {x : Perf (Status × out × Nat)}

/-- A line that is found, and what is counted on it. -/
lemma within_line {l k : Nat} (hfind : IoHttpParser.findLineEnd buf policy = .ok (l, k))
    (hd : ∀ i ∈ lineEndFields, i ∉ fields) (hx : Within fields (l + k) x.count)
    (hok : x.val.1 = .ok → x.val.2.2 = l + k) :
    Within (lineEndFields ++ fields) (max 1 (reach x.val.1 x.val.2.2 buf.length))
        ((findLineEnd buf policy).count + x.count) ∧
      (x.val.1 = .ok → 0 < x.val.2.2 ∧ x.val.2.2 ≤ buf.length) := by
  obtain ⟨hpos, hle, hcount⟩ := findLineEnd_count_ok hfind
  constructor
  · apply (hcount.add hx hd).mono (List.Subset.refl _)
    rw [reach]
    split_ifs with hst
    · rw [hok hst]
      exact le_max_right _ _
    · exact hle.trans (le_max_right _ _)
  · intro hst
    rw [hok hst]
    exact ⟨hpos, hle⟩

variable (buf policy fields) in
/-- A line that is not found. -/
lemma within_noLine (hx : x.count = 0) (hok : x.val.1 ≠ .ok) :
    Within (lineEndFields ++ fields) (max 1 (reach x.val.1 x.val.2.2 buf.length))
        ((findLineEnd buf policy).count + x.count) ∧
      (x.val.1 = .ok → 0 < x.val.2.2 ∧ x.val.2.2 ≤ buf.length) := by
  rw [hx, add_zero, reach, if_neg hok]
  exact ⟨(findLineEnd_count (by omega) (le_max_right _ _)).mono (List.subset_append_left _ _) le_rfl,
    fun hst => absurd hst hok⟩

lemma ne_ok_of_findLineEnd {status : Status}
    (hfind : IoHttpParser.findLineEnd buf policy = .error status) : status ≠ .ok := by
  rw [IoHttpParser.findLineEnd] at hfind
  cases hm : memchr lf buf with
  | none =>
    rw [hm] at hfind
    cases hfind
    decide
  | some i =>
    rw [hm] at hfind
    dsimp only at hfind
    split_ifs at hfind
    cases hfind
    decide

end Line

lemma parseStatusLine_within (base : Nat) (buf : Bytes) (resp : Response Span) (policy : Policy) :
    let r := parseStatusLine base buf resp policy
    Within statusFields (max 1 (reach r.val.1 r.val.2.2 buf.length)) r.count ∧
      (r.val.1 = .ok → 0 < r.val.2.2 ∧ r.val.2.2 ≤ buf.length) := by
  rw [parseStatusLine]
  simp only [val_bind, count_bind, val_findLineEnd]
  cases hfind : IoHttpParser.findLineEnd buf policy with
  | error status => exact within_noLine _ _ _ rfl (ne_ok_of_findLineEnd hfind)
  | ok v =>
    obtain ⟨l, k⟩ := v
    obtain ⟨hpos, hle, -⟩ := findLineEnd_count_ok hfind
    apply within_line hfind (by decide)
    · dsimp only
      cases versionOfByte buf[7]? with
      | none => split_ifs <;> exact within_zero _ _
      | some version =>
        dsimp only
        have htext := fieldTextIsValid_within hpos
          (show ((buf.drop 13).take (l - 13)).length ≤ l + k by rw [List.length_take]; omega)
        split_ifs
        · exact within_zero _ _
        · exact within_zero _ _
        · exact within_zero _ _
        · exact within_zero _ _
        · exact within_zero _ _
        · rw [count_bind, count_pure, add_zero]
          exact htext
        · exact within_zero _ _
    · dsimp only
      cases versionOfByte buf[7]? with
      | none => split_ifs <;> exact nofun
      | some version =>
        dsimp only
        split_ifs
        · exact nofun
        · exact nofun
        · exact nofun
        · exact nofun
        · exact nofun
        · rw [val_bind, val_fieldTextIsValid]
          cases IoHttpParser.fieldTextIsValid ((buf.drop 13).take (l - 13)) with
          | false => exact nofun
          | true => exact fun _ => rfl
        · exact fun _ => rfl

lemma parseRequestLine_within (base : Nat) (buf : Bytes) (req : Request Span) (policy : Policy) :
    let r := parseRequestLine base buf req policy
    Within requestFields (max 1 (reach r.val.1 r.val.2.2 buf.length)) r.count ∧
      (r.val.1 = .ok → 0 < r.val.2.2 ∧ r.val.2.2 ≤ buf.length) := by
  have hcall {m : Nat} {count : PerfCounters}
      (h : Within (lineEndFields ++ (methodFields ++ targetFields)) (max 1 m) count) :
      Within requestFields (max 1 m) (Pi.single .parseRequestLineCalls 1 + count) :=
    (within_single (by decide) (le_max_left _ _)).add h (by decide)
  rw [parseRequestLine]
  simp only [val_bind, count_bind, val_findLineEnd]
  cases hfind : IoHttpParser.findLineEnd buf policy with
  | error status =>
    have hstatus := ne_ok_of_findLineEnd hfind
    cases status with
    | incomplete =>
      have h := within_noLine buf policy (methodFields ++ targetFields)
        (x := pure (if buf.length > ihtpMaxRequestLine then (.errorTooLong, req, 0)
          else (.incomplete, req, 0))) rfl (by rw [val_pure]; split_ifs <;> exact nofun)
      exact ⟨hcall h.1, h.2⟩
    | ok => exact absurd rfl hstatus
    | error | errorTooLong | errorTooManyHeaders =>
      have h := within_noLine buf policy (methodFields ++ targetFields)
        (x := pure (_, req, 0)) rfl hstatus
      exact ⟨hcall h.1, h.2⟩
  | ok v =>
    obtain ⟨l, k⟩ := v
    obtain ⟨hpos, hle, -⟩ := findLineEnd_count_ok hfind
    have hline (x : Perf (Status × Request Span × Nat))
        (hx : Within (methodFields ++ targetFields) (l + k) x.count)
        (hok : x.val.1 = .ok → x.val.2.2 = l + k) :
        Within requestFields (max 1 (reach x.val.1 x.val.2.2 buf.length))
            (Pi.single .parseRequestLineCalls 1 + ((findLineEnd buf policy).count + x.count)) ∧
          (x.val.1 = .ok → 0 < x.val.2.2 ∧ x.val.2.2 ≤ buf.length) :=
      have h := within_line hfind (by decide) hx hok
      ⟨hcall h.1, h.2⟩
    apply hline <;> dsimp only
    · by_cases hmax : l > ihtpMaxRequestLine
      · rw [if_pos hmax]
        exact within_zero _ _
      rw [if_neg hmax, count_bind, val_findMethodSpace]
      refine (findMethodSpace_count hpos (by rw [List.length_take]; omega)).add ?_ (by decide)
      cases IoHttpParser.findMethodSpace (buf.take l) with
      | none => exact within_zero _ _
      | some sp1 =>
        dsimp only
        cases hlast : findLastCharOffset ((buf.drop (sp1 + 1)).take (l - sp1 - 1)) sp with
        | none => exact within_zero _ _
        | some sp2 =>
          dsimp only
          by_cases hzero : (sp2 == 0) = true
          · rw [if_pos hzero]
            exact within_zero _ _
          rw [if_neg hzero, count_bind]
          have hsp2 := Pointer.memrchr_lt hlast
          rw [List.length_take, List.length_drop] at hsp2
          have htarget := requestTargetIsValid_within hpos
            (show ((buf.drop (sp1 + 1)).take sp2).length ≤ l + k by rw [List.length_take]; omega)
            policy.allowSpacesInUri
          rw [val_requestTargetIsValid]
          split_ifs
          · exact htarget
          · exact htarget
          · cases versionOfByte buf[sp1 + 1 + sp2 + 1 + 7]? <;> exact htarget
    · by_cases hmax : l > ihtpMaxRequestLine
      · rw [if_pos hmax]
        exact nofun
      rw [if_neg hmax, val_bind, val_findMethodSpace]
      cases IoHttpParser.findMethodSpace (buf.take l) with
      | none => exact nofun
      | some sp1 =>
        dsimp only
        cases findLastCharOffset ((buf.drop (sp1 + 1)).take (l - sp1 - 1)) sp with
        | none => exact nofun
        | some sp2 =>
          dsimp only
          by_cases hzero : (sp2 == 0) = true
          · rw [if_pos hzero]
            exact nofun
          rw [if_neg hzero, val_bind]
          cases versionOfByte buf[sp1 + 1 + sp2 + 1 + 7]? with
          | none => split_ifs <;> exact nofun
          | some version =>
            split_ifs
            · exact nofun
            · exact nofun
            · exact fun _ => rfl

section HeaderBlock

variable (maxHeaders : Nat) (policy : Policy)

/-- How far one iteration has read. -/
def decisionReach (d : Decision (List (Header Span)) Status) (size : Nat) : Nat :=
  match d with
  | .more | .fail _ => size
  | .advance n _ | .finish n _ => n

lemma headerStep_within (base : Nat) (headers : List (Header Span)) (rest : Bytes) :
    let r := headerStep maxHeaders policy base headers rest
    Within headerFields (decisionReach r.val rest.length) r.count ∧
      decisionReach r.val rest.length ≤ rest.length := by
  unfold headerStep
  cases rest with
  | nil => exact ⟨within_zero _ _, le_rfl⟩
  | cons c tail =>
    dsimp only
    by_cases hfold : (policy.rejectObsFold && isLws c) = true
    · rw [if_pos hfold]
      exact ⟨within_zero _ _, le_rfl⟩
    rw [if_neg hfold, val_bind, count_bind, val_findLineEnd]
    cases hfind : IoHttpParser.findLineEnd (c :: tail) policy with
    | error status =>
      have hcount : Within headerFields (c :: tail).length (findLineEnd (c :: tail) policy).count :=
        (findLineEnd_count (List.length_pos_of_ne_nil (List.cons_ne_nil c tail)) le_rfl).mono
          (List.subset_append_left _ _) le_rfl
      cases status with
      | incomplete => split_ifs <;> exact ⟨hcount, le_rfl⟩
      | ok | error | errorTooLong | errorTooManyHeaders => exact ⟨hcount, le_rfl⟩
    | ok v =>
      obtain ⟨l, k⟩ := v
      obtain ⟨hpos, hle, hcount⟩ := findLineEnd_count_ok hfind
      -- what is counted on the line, and how far the iteration has read
      have hline (x : Perf (Decision (List (Header Span)) Status))
          (hx : Within (colonFields ++ (trimFields ++ textFields)) (l + k) x.count)
          (hreach : decisionReach x.val (c :: tail).length = l + k ∨
            decisionReach x.val (c :: tail).length = (c :: tail).length) :
          Within headerFields (decisionReach x.val (c :: tail).length)
              ((findLineEnd (c :: tail) policy).count + x.count) ∧
            decisionReach x.val (c :: tail).length ≤ (c :: tail).length := by
        have h := hcount.add hx (by decide)
        obtain he | he := hreach <;> rw [he]
        · exact ⟨h, hle⟩
        · exact ⟨h.mono (List.Subset.refl _) hle, le_rfl⟩
      apply hline <;> dsimp only
      · by_cases hmax : l > ihtpMaxHeaderLine
        · rw [if_pos hmax]
          exact within_zero _ _
        by_cases hempty : (l == 0) = true
        · rw [if_neg hmax, if_pos hempty]
          exact within_zero _ _
        rw [if_neg hmax, if_neg hempty]
        by_cases hcontinuation : isLws c = true
        · rw [if_pos hcontinuation]
          cases headers.getLast? with
          | none => exact within_zero _ _
          | some h =>
            have htext := fieldTextIsValid_within hpos
              (show ((c :: tail).take l).length ≤ l + k by rw [List.length_take]; omega)
            rw [count_bind, count_pure, add_zero]
            exact htext.mono (fun _ hf => List.mem_append_right _ (List.mem_append_right _ hf))
              le_rfl
        · rw [if_neg hcontinuation, count_bind, val_findHeaderNameColon]
          refine (findHeaderNameColon_count hpos (by rw [List.length_take]; omega)).add ?_
            (by decide)
          cases IoHttpParser.findHeaderNameColon ((c :: tail).take l) with
          | none => exact within_zero _ _
          | some m =>
            dsimp only
            by_cases hcap : headers.length ≥ maxHeaders
            · rw [if_pos hcap]
              exact within_zero _ _
            rw [if_neg hcap, count_bind]
            have htrim := trimAndValidateFieldValue_within hpos
              (show (((c :: tail).drop (m + 1)).take (l - (m + 1))).length ≤ l + k by
                rw [List.length_take]; omega)
            cases (trimAndValidateFieldValue
              (((c :: tail).drop (m + 1)).take (l - (m + 1)))).val <;> exact htrim
      · by_cases hmax : l > ihtpMaxHeaderLine
        · rw [if_pos hmax]
          exact .inr rfl
        by_cases hempty : (l == 0) = true
        · rw [if_neg hmax, if_pos hempty]
          left
          simpa [decisionReach] using hempty
        rw [if_neg hmax, if_neg hempty]
        by_cases hcontinuation : isLws c = true
        · rw [if_pos hcontinuation]
          cases headers.getLast? with
          | none => exact .inr rfl
          | some h =>
            rw [val_bind, val_pure]
            split_ifs
            · exact .inr rfl
            · exact .inl rfl
        · rw [if_neg hcontinuation, val_bind]
          cases (findHeaderNameColon ((c :: tail).take l)).val with
          | none => exact .inr rfl
          | some m =>
            dsimp only
            split_ifs
            · exact .inr rfl
            · rw [val_bind]
              cases (trimAndValidateFieldValue
                (((c :: tail).drop (m + 1)).take (l - (m + 1)))).val with
              | none => exact .inr rfl
              | some v => exact .inl rfl

lemma headerLoop_within (base initialCount fuel pos : Nat) (headers : List (Header Span))
    (rest : Bytes) :
    let r := headerLoop maxHeaders policy base initialCount fuel pos headers rest
    Within headerFields (reach r.val.1 (r.val.2.2 - pos) rest.length) r.count ∧
      (r.val.1 = .ok → pos ≤ r.val.2.2 ∧ r.val.2.2 ≤ pos + rest.length) := by
  induction fuel generalizing pos headers rest with
  | zero => exact ⟨within_zero _ _, nofun⟩
  | succ fuel ih =>
    obtain ⟨hcount, hn⟩ := headerStep_within maxHeaders policy (base + pos) headers rest
    simp only [headerLoop, val_bind, count_bind]
    cases hd : (headerStep maxHeaders policy (base + pos) headers rest).val with
    | more =>
      rw [hd] at hcount
      exact ⟨hcount, nofun⟩
    | fail status =>
      rw [hd] at hcount
      rw [val_headerStep] at hd
      have hstatus : status ≠ .ok := by
        rintro rfl
        cases MessageParser.headerStep_fail hd
      simp only [val_pure, count_pure, add_zero, reach, if_neg hstatus]
      exact ⟨hcount, fun hst => absurd hst hstatus⟩
    | finish n headers' =>
      rw [hd] at hcount hn
      simp only [val_pure, count_pure, add_zero, reach, if_true, Nat.add_sub_cancel_left]
      exact ⟨hcount, fun _ => ⟨Nat.le_add_right _ _, Nat.add_le_add_left hn _⟩⟩
    | advance n headers' =>
      rw [hd] at hcount hn
      obtain ⟨hloop, hstop⟩ := ih (pos + n) headers' (rest.drop n)
      rw [List.length_drop] at hloop hstop
      have hn' : n ≤ rest.length := hn
      dsimp only
      constructor
      · apply (hcount.add_same hloop).mono (List.Subset.refl _)
        simp only [decisionReach, reach]
        split_ifs with hst
        · have := hstop hst
          omega
        · omega
      · intro hst
        have := hstop hst
        omega

lemma parseHeaderBlock_within (base : Nat) (buf : Bytes) (headers : List (Header Span)) :
    let r := parseHeaderBlock base buf headers maxHeaders policy
    Within (.parseHeaderBlockCalls :: headerFields)
        (max 1 (reach r.val.1 r.val.2.2 buf.length)) r.count ∧
      (r.val.1 = .ok → r.val.2.2 ≤ buf.length) := by
  obtain ⟨hcount, hstop⟩ := headerLoop_within maxHeaders policy base headers.length
    (buf.length + 1) 0 headers buf
  rw [Nat.sub_zero] at hcount
  rw [Nat.zero_add] at hstop
  exact ⟨(within_single (by decide) (le_max_left _ _)).add
    (hcount.mono (List.Subset.refl _) (le_max_right _ _)) (by decide), fun hst => (hstop hst).2⟩

end HeaderBlock

end Perf

end IoHttpParser
