import Mathlib.Data.List.DropRight
import Mathlib.Tactic.Lemma

/-!
# Memory primitives on lists

The C library functions `memchr`, `memrchr` and `memmove` over the list of items a buffer
holds, and trimming at both ends. The search functions return offsets.
-/

namespace Memory

variable {α : Type*}

section Search

variable [DecidableEq α]

/-- The offset of the first occurrence of `c`. -/
def memchr (c : α) (xs : List α) : Option Nat := xs.idxOf? c

/-- The offset of the last occurrence of `c`. -/
def memrchr (c : α) (xs : List α) : Option Nat :=
  (xs.reverse.idxOf? c).map (fun i => xs.length - 1 - i)

@[simp] lemma memchr_eq_none {c : α} {xs : List α} : memchr c xs = none ↔ c ∉ xs :=
  List.idxOf?_eq_none_iff

lemma memchr_append_cons {c : α} {a : List α} (h : c ∉ a) (b : List α) :
    memchr c (a ++ c :: b) = some a.length := by
  induction a with
  | nil => simp [memchr, List.idxOf?_cons]
  | cons x a ih =>
    rw [List.mem_cons, not_or] at h
    have hx : (x == c) = false := beq_false_of_ne (Ne.symm h.1)
    have hi := ih h.2
    rw [memchr] at hi
    simp [memchr, List.idxOf?_cons, hx, hi]

@[simp] lemma memrchr_eq_none {c : α} {xs : List α} : memrchr c xs = none ↔ c ∉ xs := by
  simp [memrchr]

lemma memrchr_append_cons {c : α} {b : List α} (h : c ∉ b) (a : List α) :
    memrchr c (a ++ c :: b) = some a.length := by
  have hr := memchr_append_cons (a := b.reverse) (by simpa using h) a.reverse
  rw [memchr] at hr
  simp only [memrchr, List.reverse_append, List.reverse_cons, List.append_assoc,
    List.singleton_append, hr, Option.map_some, List.length_reverse, List.length_append,
    List.length_cons]
  congr 1
  omega

omit [DecidableEq α] in
lemma exists_last_split {c : α} {xs : List α} (h : c ∈ xs) :
    ∃ a b, xs = a ++ c :: b ∧ c ∉ b := by
  obtain ⟨a, b, hab, ha⟩ := List.eq_append_cons_of_mem (List.mem_reverse.mpr h)
  refine ⟨b.reverse, a.reverse, ?_, by simpa using ha⟩
  have hx := congrArg List.reverse hab
  simpa using hx

end Search

section Move

/-- `memmove(buf + dst, buf + src, n)` for `dst ≤ src` and `src + n ≤ buf.length`. -/
def memmove (buf : List α) (dst src n : Nat) : List α :=
  buf.take dst ++ (buf.drop src).take n ++ buf.drop (dst + n)

variable {buf : List α} {dst src n : Nat}

lemma length_memmove (hd : dst ≤ src) (hs : src + n ≤ buf.length) :
    (memmove buf dst src n).length = buf.length := by
  simp only [memmove, List.length_append, List.length_take, List.length_drop]
  omega

lemma memmove_self (buf : List α) (src n : Nat) : memmove buf src src n = buf := by
  rw [memmove, List.append_assoc, ← List.drop_drop, List.take_append_drop, List.take_append_drop]

lemma take_memmove (hd : dst ≤ src) (hs : src + n ≤ buf.length) :
    (memmove buf dst src n).take (dst + n) = buf.take dst ++ (buf.drop src).take n := by
  have hlen : (buf.take dst ++ (buf.drop src).take n).length = dst + n := by
    simp only [List.length_append, List.length_take, List.length_drop]
    omega
  rw [memmove, List.take_append_of_le_length (by omega), List.take_of_length_le (by omega)]

lemma drop_memmove (hd : dst ≤ src) (hs : src + n ≤ buf.length) {k : Nat} (hk : src + n ≤ k) :
    (memmove buf dst src n).drop k = buf.drop k := by
  have hlen : (buf.take dst ++ (buf.drop src).take n).length = dst + n := by
    simp only [List.length_append, List.length_take, List.length_drop]
    omega
  rw [memmove, List.drop_append, List.drop_eq_nil_of_le (by omega), List.nil_append, hlen,
    List.drop_drop]
  congr 1
  omega

end Move

section Trim

variable (p : α → Bool)

/-- Removes the items satisfying `p` at both ends. -/
def trim (xs : List α) : List α := (xs.dropWhile p).rdropWhile p

/-- The ends of a trimmed list do not satisfy `p`. -/
structure Trimmed (xs : List α) : Prop where
  head : ∀ x, xs.head? = some x → p x = false
  last : ∀ x, xs.getLast? = some x → p x = false

variable {p}

lemma Trimmed.of_forall {xs : List α} (h : ∀ x ∈ xs, p x = false) : Trimmed p xs :=
  ⟨fun x hx => h x (List.mem_of_head? hx), fun x hx => h x (List.mem_of_getLast? hx)⟩

lemma dropWhile_append_of_all {ws xs : List α} (hw : ∀ x ∈ ws, p x = true) :
    (ws ++ xs).dropWhile p = xs.dropWhile p := by
  induction ws with
  | nil => rfl
  | cons w ws ih =>
    rw [List.cons_append, List.dropWhile_cons_of_pos (hw w (by simp))]
    exact ih (fun x hx => hw x (by simp [hx]))

lemma rdropWhile_append_of_all {ws xs : List α} (hw : ∀ x ∈ ws, p x = true) :
    (xs ++ ws).rdropWhile p = xs.rdropWhile p := by
  simp only [List.rdropWhile, List.reverse_append]
  rw [dropWhile_append_of_all (by simpa using hw)]

lemma Trimmed.dropWhile {xs : List α} (h : Trimmed p xs) : xs.dropWhile p = xs := by
  cases xs with
  | nil => rfl
  | cons x xs => rw [List.dropWhile_cons_of_neg (by simp [h.head x rfl])]

lemma Trimmed.rdropWhile {xs : List α} (h : Trimmed p xs) : xs.rdropWhile p = xs := by
  rw [List.rdropWhile_eq_self_iff]
  intro hl
  have hx := h.last (xs.getLast hl) (List.getLast?_eq_some_getLast hl)
  simp [hx]

lemma head?_dropWhile_false (xs : List α) : ∀ x, (xs.dropWhile p).head? = some x → p x = false := by
  intro x hx
  have h := List.head?_dropWhile_not p xs
  rw [hx] at h
  simpa using h

lemma getLast?_rdropWhile_false (xs : List α) :
    ∀ x, (xs.rdropWhile p).getLast? = some x → p x = false := by
  intro x hx
  rw [List.rdropWhile, List.getLast?_reverse] at hx
  exact head?_dropWhile_false _ x hx

lemma trimmed_trim (xs : List α) : Trimmed p (trim p xs) := by
  refine ⟨fun x hx => ?_, getLast?_rdropWhile_false _⟩
  obtain ⟨t, ht⟩ := List.rdropWhile_prefix p (l := xs.dropWhile p)
  apply head?_dropWhile_false xs x
  rw [← ht, List.head?_append, show (xs.dropWhile p).rdropWhile p = trim p xs from rfl, hx]
  rfl

/-- Every list is its trimmed part between two runs of `p`. -/
lemma exists_pad (xs : List α) : ∃ ws ws', xs = ws ++ trim p xs ++ ws' ∧
    (∀ x ∈ ws, p x = true) ∧ ∀ x ∈ ws', p x = true := by
  refine ⟨xs.takeWhile p, (xs.dropWhile p).rtakeWhile p, ?_, fun x => List.mem_takeWhile_imp,
    fun x => List.mem_rtakeWhile_imp⟩
  rw [List.append_assoc, trim, List.rdropWhile_append_rtakeWhile, List.takeWhile_append_dropWhile]

lemma trim_eq_nil_iff {xs : List α} : trim p xs = [] ↔ ∀ x ∈ xs, p x = true := by
  constructor
  · intro h
    obtain ⟨ws, ws', hx, hw, hw'⟩ := exists_pad (p := p) xs
    rw [h, List.append_nil] at hx
    rw [hx]
    intro x hm
    rcases List.mem_append.mp hm with hm | hm
    · exact hw x hm
    · exact hw' x hm
  · intro h
    have hd : xs.dropWhile p = [] := List.dropWhile_eq_nil_iff.mpr h
    rw [trim, hd, List.rdropWhile_nil]

end Trim

end Memory
