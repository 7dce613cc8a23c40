import Mathlib.Algebra.Group.Pi.Basic
import Mathlib.Tactic

/-!
# Counting computations

A computation that counts as it goes, in any additive monoid, and the bounds of counts that are
families of numbers: a count is confined when it is zero outside some fields and bounded on them,
and counts that are confined to different fields add up without adding their bounds.
-/

namespace Counting

/-- A value, and what was counted on the way to it. -/
@[ext]
structure Counted (κ : Type) (α : Type*) where
  val : α
  count : κ

section Monad

variable {κ α β : Type} [AddMonoid κ]

instance : Monad (Counted κ) where
  pure a := ⟨a, 0⟩
  bind x f := ⟨(f x.val).val, x.count + (f x.val).count⟩

/-- Counts `n`. -/
def Counted.add (n : κ) : Counted κ Unit := ⟨(), n⟩

@[simp] lemma val_pure (a : α) : (pure a : Counted κ α).val = a := rfl

@[simp] lemma count_pure (a : α) : (pure a : Counted κ α).count = 0 := rfl

@[simp] lemma val_bind (x : Counted κ α) (f : α → Counted κ β) :
    (x >>= f).val = (f x.val).val := rfl

@[simp] lemma count_bind (x : Counted κ α) (f : α → Counted κ β) :
    (x >>= f).count = x.count + (f x.val).count := rfl

omit [AddMonoid κ] in
@[simp] lemma count_add (n : κ) : (Counted.add n).count = n := rfl

end Monad

section Confined

variable {ι : Type} [DecidableEq ι]

/-- A count that is zero outside `fields` and at most `n` on them. -/
def Confined (fields : List ι) (n : Nat) (count : ι → Nat) : Prop :=
  ∀ i, count i ≤ if i ∈ fields then n else 0

variable {fields fields' : List ι} {m n : Nat} {count count' : ι → Nat} {i : ι}

lemma confined_zero (fields : List ι) (n : Nat) : Confined fields n 0 := fun _ => Nat.zero_le _

lemma confined_single (h : i ∈ fields) (hm : m ≤ n) : Confined fields n (Pi.single i m) := by
  intro j
  rw [Pi.single_apply]
  by_cases hj : j = i
  · rw [if_pos hj, if_pos (hj ▸ h)]
    exact hm
  · rw [if_neg hj]
    exact Nat.zero_le _

lemma Confined.mono (h : Confined fields m count) (hf : fields ⊆ fields') (hm : m ≤ n) :
    Confined fields' n count := by
  intro i
  have hi := h i
  by_cases hmem : i ∈ fields
  · rw [if_pos hmem] at hi
    rw [if_pos (hf hmem)]
    exact hi.trans hm
  · rw [if_neg hmem] at hi
    exact hi.trans (Nat.zero_le _)

/-- Counts of different fields do not meet. -/
lemma Confined.add (h : Confined fields n count) (h' : Confined fields' n count')
    (hd : ∀ i ∈ fields, i ∉ fields') : Confined (fields ++ fields') n (count + count') := by
  intro i
  have hi := h i
  have hi' := h' i
  rw [Pi.add_apply]
  by_cases hmem : i ∈ fields
  · rw [if_neg (hd i hmem)] at hi'
    rw [if_pos hmem] at hi
    rw [if_pos (List.mem_append_left _ hmem)]
    omega
  · rw [if_neg hmem] at hi
    by_cases hmem' : i ∈ fields'
    · rw [if_pos hmem'] at hi'
      rw [if_pos (List.mem_append_right _ hmem')]
      omega
    · rw [if_neg hmem'] at hi'
      omega

/-- Counts of the same fields add their bounds. -/
lemma Confined.add_same (h : Confined fields m count) (h' : Confined fields n count') :
    Confined fields (m + n) (count + count') := by
  intro i
  have hi := h i
  have hi' := h' i
  rw [Pi.add_apply]
  by_cases hmem : i ∈ fields
  · rw [if_pos hmem] at hi hi' ⊢
    omega
  · rw [if_neg hmem] at hi hi' ⊢
    omega

lemma Confined.le (h : Confined fields n count) (i : ι) : count i ≤ n := by
  have hi := h i
  by_cases hmem : i ∈ fields
  · rwa [if_pos hmem] at hi
  · rw [if_neg hmem] at hi
    omega

end Confined

end Counting
