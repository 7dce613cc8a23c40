import Mathlib.Data.Nat.Digits.Defs
import Mathlib.Tactic.Lemma

/-!
# Word arithmetic

Sums and products of unsigned words that are at most `top`. One that wraps around is a fault, which
`none` stands for. A division in front of `n * b + d` tells exactly whether it fits in a word.
-/

namespace Words

/-- `a + b`, where it does not wrap around. -/
def add (top a b : Nat) : Option Nat := if a + b ≤ top then some (a + b) else none

/-- `a * b`, where it does not wrap around. -/
def mul (top a b : Nat) : Option Nat := if a * b ≤ top then some (a * b) else none

variable {top b d n : Nat}

lemma add_of_le {a : Nat} (h : a + b ≤ top) : add top a b = some (a + b) := if_pos h

lemma mul_of_le {a : Nat} (h : a * b ≤ top) : mul top a b = some (a * b) := if_pos h

/-- The guard `n > (top - d) / b` refuses the digits that do not fit, and no others. -/
lemma guard_iff (hb : 0 < b) (hd : d ≤ top) : (top - d) / b < n ↔ top < n * b + d := by
  rw [Nat.div_lt_iff_lt_mul hb]
  omega

lemma le_of_guard (hb : 0 < b) (hd : d ≤ top) (h : ¬(top - d) / b < n) : n * b + d ≤ top := by
  rw [guard_iff hb hd] at h
  exact Nat.le_of_not_lt h

/-- Digits taken in from the left spell what they spell in positional notation. -/
lemma foldl_mul_add (b : Nat) (digits : List Nat) :
    digits.foldl (fun n d => n * b + d) 0 = Nat.ofDigits b digits.reverse := by
  rw [Nat.ofDigits_eq_foldr, List.foldr_reverse]
  congr 1
  funext n d
  rw [Nat.cast_id, Nat.mul_comm, Nat.add_comm]

end Words
