import Mathlib.Data.List.DropRight
import Mathlib.Tactic.Lemma

/-!
# Regions of memory

Reads of a buffer at absolute positions, as a program with pointers makes them. A read outside the
buffer and a subtraction below zero are faults, which `none` stands for. What a loop over a region
computes is a function of the items of the region, as long as the region is one of the buffer.
-/

namespace Region

variable {α : Type*}

/-- The items of the region of `n` items at `p`. -/
def slice (mem : List α) (p n : Nat) : List α := (mem.drop p).take n

/-- The item at `p`. -/
def load (mem : List α) (p : Nat) : Option α := mem[p]?

/-- `a - b`, where it is not below zero. -/
def sub (a b : Nat) : Option Nat := if b ≤ a then some (a - b) else none

/-- The whole region of `n` items at `p`. -/
def region (mem : List α) (p n : Nat) : Option (List α) :=
  if p + n ≤ mem.length then some (slice mem p n) else none

/-- `for (i = 0; i < n; i++) if (!f(mem[p + i])) return false; return true;` -/
def allAt (f : α → Bool) (mem : List α) : Nat → Nat → Option Bool
  | _, 0 => some true
  | p, n + 1 => (load mem p).bind fun c =>
    if f c then allAt f mem (p + 1) n else some false

/-- `k = 0; while (k < n && f(mem[p + k])) k++;` -/
def leadWhile (f : α → Bool) (mem : List α) : Nat → Nat → Option Nat
  | _, 0 => some 0
  | p, n + 1 => (load mem p).bind fun c =>
    if f c then (leadWhile f mem (p + 1) n).map (· + 1) else some 0

/-- `k = n; while (k > 0 && f(mem[p + k - 1])) k--;` -/
def trailWhile (f : α → Bool) (mem : List α) (p : Nat) : Nat → Option Nat
  | 0 => some 0
  | n + 1 => (load mem (p + n)).bind fun c =>
    if f c then trailWhile f mem p n else some (n + 1)

/-- `f` tests every item of `xs`, wherever `xs` lies, and reads nothing else: with nothing else in
memory it does not fault. -/
structure TestsItems (f : List α → Nat → Nat → Option Bool) (ok : α → Bool) (xs : List α) : Prop where
  alone : f xs 0 xs.length = some (xs.all ok)
  within : ∀ pre post, f (pre ++ xs ++ post) pre.length xs.length = some (xs.all ok)

lemma sub_of_le {a b : Nat} (h : b ≤ a) : sub a b = some (a - b) := if_pos h

lemma add_sub (a b : Nat) : sub (a + b) a = some b := by
  rw [sub_of_le (Nat.le_add_right a b), Nat.add_sub_cancel_left]

section

variable {mem : List α} {p n i k : Nat}

lemma region_of_le (h : p + n ≤ mem.length) : region mem p n = some (slice mem p n) := if_pos h

lemma length_slice (h : p + n ≤ mem.length) : (slice mem p n).length = n := by
  unfold slice
  rw [List.length_take, List.length_drop]
  omega

lemma slice_rest (mem : List α) (p : Nat) : slice mem p (mem.length - p) = mem.drop p := by
  unfold slice
  rw [← List.length_drop, List.take_length]

lemma take_slice (h : k ≤ n) : (slice mem p n).take k = slice mem p k := by
  unfold slice
  rw [List.take_take, Nat.min_eq_left h]

lemma drop_slice (mem : List α) (p n i : Nat) :
    (slice mem p n).drop i = slice mem (p + i) (n - i) := by
  unfold slice
  rw [List.drop_take, List.drop_drop]

lemma take_drop_slice (h : i + k ≤ n) : ((slice mem p n).drop i).take k = slice mem (p + i) k := by
  rw [drop_slice, take_slice (by omega)]

lemma slice_append (pre xs post : List α) : slice (pre ++ xs ++ post) pre.length xs.length = xs := by
  unfold slice
  rw [List.append_assoc, List.drop_left, List.take_left]

/-- A test that does not fault on any region of memory reads only the region. -/
lemma TestsItems.of_region {f : List α → Nat → Nat → Option Bool} {ok : α → Bool}
    (h : ∀ {mem : List α} {p n : Nat}, p + n ≤ mem.length → f mem p n = some ((slice mem p n).all ok))
    (xs : List α) : TestsItems f ok xs := by
  have hwithin (pre post : List α) :
      f (pre ++ xs ++ post) pre.length xs.length = some (xs.all ok) := by
    rw [h (by rw [List.length_append, List.length_append]; omega), slice_append]
  have halone := hwithin [] []
  rw [List.nil_append, List.append_nil] at halone
  exact ⟨halone, hwithin⟩

lemma getElem?_slice (h : i < n) : (slice mem p n)[i]? = load mem (p + i) := by
  unfold slice load
  rw [List.getElem?_take_of_lt h, List.getElem?_drop]

lemma exists_load (h : p < mem.length) : ∃ c, load mem p = some c :=
  ⟨mem[p], List.getElem?_eq_getElem h⟩

lemma slice_succ {c : α} (h : load mem p = some c) (n : Nat) :
    slice mem p (n + 1) = c :: slice mem (p + 1) n := by
  obtain ⟨hp, rfl⟩ := List.getElem?_eq_some_iff.mp h
  unfold slice
  rw [List.drop_eq_getElem_cons hp, List.take_succ_cons]

lemma slice_concat {c : α} (h : load mem (p + n) = some c) :
    slice mem p (n + 1) = slice mem p n ++ [c] := by
  unfold slice
  rw [List.take_add_one, List.getElem?_drop]
  unfold load at h
  rw [h, Option.toList_some]

variable {f : α → Bool}

lemma length_slice_le (mem : List α) (p n : Nat) : (slice mem p n).length ≤ n :=
  List.length_take_le n _

lemma takeWhile_slice (f : α → Bool) (mem : List α) (p n : Nat) :
    (slice mem p n).takeWhile f = slice mem p ((slice mem p n).takeWhile f).length := by
  have hprefix := List.takeWhile_prefix f (l := slice mem p n)
  have hle := hprefix.length_le.trans (length_slice_le mem p n)
  have htake := List.prefix_iff_eq_take.mp hprefix
  rwa [take_slice hle] at htake

lemma dropWhile_slice (f : α → Bool) (mem : List α) (p n : Nat) :
    (slice mem p n).dropWhile f =
      slice mem (p + ((slice mem p n).takeWhile f).length)
        (n - ((slice mem p n).takeWhile f).length) := by
  have hsplit := congrArg (List.drop ((slice mem p n).takeWhile f).length)
    (List.takeWhile_append_dropWhile (p := f) (l := slice mem p n))
  rwa [List.drop_left, drop_slice] at hsplit

lemma rdropWhile_slice (f : α → Bool) (mem : List α) (p n : Nat) :
    (slice mem p n).rdropWhile f = slice mem p ((slice mem p n).rdropWhile f).length := by
  have hprefix := List.rdropWhile_prefix f (l := slice mem p n)
  have hle := hprefix.length_le.trans (length_slice_le mem p n)
  have htake := List.prefix_iff_eq_take.mp hprefix
  rwa [take_slice hle] at htake

lemma allAt_eq (h : p + n ≤ mem.length) : allAt f mem p n = some ((slice mem p n).all f) := by
  induction n generalizing p with
  | zero => rfl
  | succ n ih =>
    obtain ⟨c, hc⟩ := exists_load (show p < mem.length by omega)
    rw [slice_succ hc, List.all_cons, allAt, hc]
    cases hf : f c with
    | true =>
      rw [Option.bind_some, if_pos hf, ih (by omega), Bool.true_and]
    | false =>
      rw [Option.bind_some, if_neg (by rw [hf]; decide), Bool.false_and]

lemma leadWhile_eq (h : p + n ≤ mem.length) :
    leadWhile f mem p n = some ((slice mem p n).takeWhile f).length := by
  induction n generalizing p with
  | zero => rfl
  | succ n ih =>
    obtain ⟨c, hc⟩ := exists_load (show p < mem.length by omega)
    rw [slice_succ hc, leadWhile, hc, Option.bind_some]
    by_cases hf : f c = true
    · rw [if_pos hf, ih (by omega), List.takeWhile_cons_of_pos hf]
      rfl
    · rw [if_neg hf, List.takeWhile_cons_of_neg hf]
      rfl

lemma trailWhile_eq (h : p + n ≤ mem.length) :
    trailWhile f mem p n = some ((slice mem p n).rdropWhile f).length := by
  induction n with
  | zero => rfl
  | succ n ih =>
    obtain ⟨c, hc⟩ := exists_load (show p + n < mem.length by omega)
    rw [slice_concat hc, trailWhile, hc, Option.bind_some]
    by_cases hf : f c = true
    · rw [if_pos hf, ih (by omega), List.rdropWhile_concat_pos f _ c hf]
    · rw [if_neg hf, List.rdropWhile_concat_neg f _ c hf, List.length_append,
        length_slice (by omega), List.length_singleton]

end

end Region
