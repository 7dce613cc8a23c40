import Mathlib.Data.List.Basic
import Mathlib.Tactic.Lemma

/-!
# Delimited streams

A reader takes one item off the front of a stream. Where the wire form of every item shows its
own end, reading item after item recovers a concatenation of wire forms, whatever follows it.
-/

namespace Framed

variable {α β γ : Type*}

/-- Reads a number of items in turn, and returns them with what is left. -/
def readMany (read : List α → Option (β × List α)) : Nat → List α → Option (List β × List α)
  | 0, xs => some ([], xs)
  | n + 1, xs =>
    match read xs with
    | none => none
    | some (item, rest) => (readMany read n rest).map (fun (items, rest) => (item :: items, rest))

/-- The reader finds the end of a wire form in every stream that fits. -/
def Delimits (read : List α → Option (β × List α)) (fits : List α → Prop) (wire : List α)
    (item : β) : Prop :=
  ∀ post, fits (wire ++ post) → read (wire ++ post) = some (item, post)

variable {read : List α → Option (β × List α)} {wire : γ → List α} {item : γ → β}

/-- Delimited items do not run into each other, nor into what follows. -/
theorem readMany_flatMap (fits : List α → Prop) (hfits : ∀ xs ys, fits (xs ++ ys) → fits ys) (ms : List γ)
    (h : ∀ m ∈ ms, Delimits read fits (wire m) (item m)) (post : List α)
    (hpost : fits (ms.flatMap wire ++ post)) :
    readMany read ms.length (ms.flatMap wire ++ post) = some (ms.map item, post) := by
  induction ms with
  | nil => rfl
  | cons m ms ih =>
    rw [List.flatMap_cons, List.append_assoc] at hpost ⊢
    have hhead := h m List.mem_cons_self _ hpost
    have htail := ih (fun m' hm' => h m' (List.mem_cons_of_mem _ hm')) (hfits _ _ hpost)
    rw [List.length_cons, readMany, hhead]
    dsimp only
    rw [htail]
    rfl

end Framed
