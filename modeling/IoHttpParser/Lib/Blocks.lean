import Mathlib.Tactic.Lemma
import Mathlib.Tactic.TypeStar

/-!
# Searches in blocks

A search that takes a list a block at a time, and what is left of it item by item, finds what the
search item by item finds. A block is any procedure that searches the items of one block.
-/

namespace Blocks

variable {α : Type*}

/-- `for (; i < len; i++) if (p(xs[i])) return i; return len;`, at index `i` with the items left. -/
def findFrom (p : α → Bool) : Nat → List α → Nat
  | i, [] => i
  | i, x :: xs => if p x then i else findFrom p (i + 1) xs

/-- `for (; i + size <= len; i += size) { idx = block(xs + i); if (idx < size) return i + idx; }`,
and `tail` on the items left. -/
def findBlocks (size : Nat) (block : List α → Nat) (tail : Nat → List α → Nat) :
    Nat → Nat → List α → Nat
  | 0, i, xs => tail i xs
  | fuel + 1, i, xs =>
    if size ≤ xs.length then
      let idx := block (xs.take size)
      if idx < size then i + idx
      else findBlocks size block tail fuel (i + size) (xs.drop size)
    else tail i xs

/-- `for (; i + size <= len; i += size) if (!block(xs + i)) return false;`, and `tail` on the items
left. -/
def allBlocks (size : Nat) (block tail : List α → Bool) : Nat → List α → Bool
  | 0, xs => tail xs
  | fuel + 1, xs =>
    if size ≤ xs.length then
      if !block (xs.take size) then false
      else allBlocks size block tail fuel (xs.drop size)
    else tail xs

variable {p : α → Bool}

lemma findFrom_eq (i : Nat) (xs : List α) : findFrom p i xs = i + xs.findIdx p := by
  induction xs generalizing i with
  | nil => rfl
  | cons x xs ih =>
    rw [findFrom, List.findIdx_cons]
    cases p x with
    | true => rfl
    | false =>
      rw [if_neg (by decide), ih, cond_false]
      omega

lemma findBlocks_eq {size : Nat} {block : List α → Nat} {tail : Nat → List α → Nat}
    (hblock : ∀ b : List α, b.length = size → block b = b.findIdx p)
    (htail : ∀ i xs, tail i xs = i + xs.findIdx p) (fuel i : Nat) (xs : List α) :
    findBlocks size block tail fuel i xs = i + xs.findIdx p := by
  induction fuel generalizing i xs with
  | zero => exact htail i xs
  | succ fuel ih =>
    rw [findBlocks]
    by_cases hsize : size ≤ xs.length
    · have hlen : (xs.take size).length = size := List.length_take_of_le hsize
      have hsplit : (xs.take size ++ xs.drop size).findIdx p =
          if (xs.take size).findIdx p < (xs.take size).length then (xs.take size).findIdx p
          else (xs.drop size).findIdx p + (xs.take size).length := List.findIdx_append
      rw [List.take_append_drop, hlen] at hsplit
      rw [if_pos hsize, hblock _ hlen, hsplit, ih]
      dsimp only
      split
      · rfl
      · omega
    · rw [if_neg hsize]
      exact htail i xs

lemma allBlocks_eq {size : Nat} {block tail : List α → Bool}
    (hblock : ∀ b : List α, b.length = size → block b = b.all p) (htail : ∀ xs, tail xs = xs.all p)
    (fuel : Nat) (xs : List α) : allBlocks size block tail fuel xs = xs.all p := by
  induction fuel generalizing xs with
  | zero => exact htail xs
  | succ fuel ih =>
    rw [allBlocks]
    by_cases hsize : size ≤ xs.length
    · have hsplit : (xs.take size ++ xs.drop size).all p =
          ((xs.take size).all p && (xs.drop size).all p) := List.all_append
      rw [List.take_append_drop] at hsplit
      rw [if_pos hsize, hblock _ (List.length_take_of_le hsize), ih, hsplit]
      cases (xs.take size).all p <;> rfl
    · rw [if_neg hsize]
      exact htail xs

end Blocks
