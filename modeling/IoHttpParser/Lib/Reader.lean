import Mathlib.Tactic

/-!
# Incremental readers

A reader looks at the unread part of an input that only ever grows at its end. From a
position and a state it either waits for more input, fails, accepts a prefix and goes on,
or accepts a prefix and finishes. A reader never revokes what it accepted when the input
grows; whether it may revoke a failure is left open, and studied by the modules that use
it. Reading in several calls, each resumed where the last one stopped, is then the same
as reading the longest input at once.
-/

namespace Incremental

/-- What a reader decides from the unread input. -/
inductive Decision (σ ε : Type*) where
  | more
  | fail (e : ε)
  | advance (n : Nat) (s : σ)
  | finish (n : Nat) (s : σ)

/-- Where a read stopped, and why. -/
inductive Outcome (σ ε : Type*) where
  | more (pos : Nat) (s : σ)
  | fail (pos : Nat) (s : σ) (e : ε)
  | done (pos : Nat) (s : σ)

/-- The read ended in a failure. -/
def Outcome.isFail {σ ε : Type*} : Outcome σ ε → Bool
  | .fail _ _ _ => true
  | .more _ _ | .done _ _ => false

/-- A decision procedure whose acceptances survive any extension of the input. -/
structure Reader (α σ ε : Type*) where
  decide : Nat → σ → List α → Decision σ ε
  advance_le : ∀ {p s xs n t}, decide p s xs = .advance n t → 0 < n ∧ n ≤ xs.length
  finish_le : ∀ {p s xs n t}, decide p s xs = .finish n t → n ≤ xs.length
  advance_append : ∀ {p s xs n t} (ys : List α),
    decide p s xs = .advance n t → decide p s (xs ++ ys) = .advance n t
  finish_append : ∀ {p s xs n t} (ys : List α),
    decide p s xs = .finish n t → decide p s (xs ++ ys) = .finish n t

namespace Reader

variable {α σ ε : Type*} (r : Reader α σ ε)

/-- At most `fuel` decisions in a row. -/
def run : Nat → Nat → σ → List α → Outcome σ ε
  | 0, p, s, _ => .more p s
  | fuel + 1, p, s, xs =>
    match r.decide p s xs with
    | .more => .more p s
    | .fail e => .fail p s e
    | .advance n t => run fuel (p + n) t (xs.drop n)
    | .finish n t => .done (p + n) t

/-- Reads until the input gives no further decision. -/
def read (p : Nat) (s : σ) (xs : List α) : Outcome σ ε := r.run (xs.length + 1) p s xs

variable {r}

/-- Every advance consumes input, so any two fuels above its length agree. -/
lemma run_fuel {f g p : Nat} {s : σ} {xs : List α} (hf : xs.length < f) (hg : xs.length < g) :
    r.run f p s xs = r.run g p s xs := by
  induction f generalizing g p s xs with
  | zero => omega
  | succ f ih =>
    obtain ⟨g, rfl⟩ : ∃ m, g = m + 1 := ⟨g - 1, by omega⟩
    simp only [run]
    cases hd : r.decide p s xs with
    | more => rfl
    | fail e => rfl
    | finish n t => rfl
    | advance n t =>
      have hn := r.advance_le hd
      exact ih (by rw [List.length_drop]; omega) (by rw [List.length_drop]; omega)

/-- A chain of advances from one position of the input to another. -/
inductive Reach (r : Reader α σ ε) : Nat → σ → List α → Nat → σ → List α → Prop where
  | refl (p : Nat) (s : σ) (xs : List α) : Reach r p s xs p s xs
  | advance {p n q : Nat} {s t u : σ} {xs rest : List α} (hd : r.decide p s xs = .advance n t)
      (h : Reach r (p + n) t (xs.drop n) q u rest) : Reach r p s xs q u rest

lemma read_of_more {p : Nat} {s : σ} {xs : List α} (h : r.decide p s xs = .more) :
    r.read p s xs = .more p s := by
  simp [read, run, h]

lemma read_of_fail {p : Nat} {s : σ} {xs : List α} {e : ε} (h : r.decide p s xs = .fail e) :
    r.read p s xs = .fail p s e := by
  simp [read, run, h]

lemma read_of_finish {p n : Nat} {s t : σ} {xs : List α} (h : r.decide p s xs = .finish n t) :
    r.read p s xs = .done (p + n) t := by
  simp [read, run, h]

lemma read_of_advance {p n : Nat} {s t : σ} {xs : List α} (h : r.decide p s xs = .advance n t) :
    r.read p s xs = r.read (p + n) t (xs.drop n) := by
  have hn := r.advance_le h
  conv_lhs => rw [read, run]
  simp only [h]
  exact run_fuel (by rw [List.length_drop]; omega) (by omega)

namespace Reach

variable {p q : Nat} {s t : σ} {xs rest : List α}

/-- Reading can be picked up at any position that was reached. -/
lemma read_eq (h : Reach r p s xs q t rest) : r.read p s xs = r.read q t rest := by
  induction h with
  | refl => rfl
  | advance hd _ ih => rw [read_of_advance hd, ih]

lemma rest_eq (h : Reach r p s xs q t rest) :
    p ≤ q ∧ q - p ≤ xs.length ∧ rest = xs.drop (q - p) := by
  induction h with
  | refl => simp
  | @advance p n q s t u xs rest hd _ ih =>
    have hn := r.advance_le hd
    rw [List.length_drop] at ih
    refine ⟨by omega, by omega, ?_⟩
    rw [ih.2.2, List.drop_drop]
    congr 1
    omega

lemma append (h : Reach r p s xs q t rest) (ys : List α) :
    Reach r p s (xs ++ ys) q t (rest ++ ys) := by
  induction h with
  | refl => exact .refl _ _ _
  | @advance p n q s t u xs rest hd _ ih =>
    have hn := r.advance_le hd
    refine .advance (r.advance_append ys hd) ?_
    rw [List.drop_append_of_le_length hn.2]
    exact ih

lemma trans {q' : Nat} {u : σ} {rest' : List α} (h : Reach r p s xs q t rest)
    (h' : Reach r q t rest q' u rest') : Reach r p s xs q' u rest' := by
  induction h with
  | refl => exact h'
  | advance hd _ ih => exact .advance hd (ih h')

lemma invariant {I : Nat → σ → List α → Prop}
    (hI : ∀ {p s xs n t}, I p s xs → r.decide p s xs = .advance n t → I (p + n) t (xs.drop n))
    (h : Reach r p s xs q t rest) (h0 : I p s xs) : I q t rest := by
  induction h with
  | refl => exact h0
  | advance hd _ ih => exact ih (hI h0 hd)

end Reach

/-- The final decision of a read, at the position where it was taken. -/
theorem exists_reach (r : Reader α σ ε) (p : Nat) (s : σ) (xs : List α) :
    ∃ q t rest, Reach r p s xs q t rest ∧
      ((r.decide q t rest = .more ∧ r.read p s xs = .more q t) ∨
       (∃ e, r.decide q t rest = .fail e ∧ r.read p s xs = .fail q t e) ∨
       (∃ n u, r.decide q t rest = .finish n u ∧ r.read p s xs = .done (q + n) u)) := by
  induction hk : xs.length using Nat.strong_induction_on generalizing p s xs with
  | _ k ih =>
    cases hd : r.decide p s xs with
    | more => exact ⟨p, s, xs, .refl _ _ _, .inl ⟨hd, read_of_more hd⟩⟩
    | fail e => exact ⟨p, s, xs, .refl _ _ _, .inr (.inl ⟨e, hd, read_of_fail hd⟩)⟩
    | finish n t => exact ⟨p, s, xs, .refl _ _ _, .inr (.inr ⟨n, t, hd, read_of_finish hd⟩)⟩
    | advance n t =>
      have hn := r.advance_le hd
      obtain ⟨q, u, rest, hr, hfin⟩ := ih (xs.drop n).length
        (by rw [List.length_drop]; omega) (p + n) t (xs.drop n) rfl
      refine ⟨q, u, rest, .advance hd hr, ?_⟩
      rw [read_of_advance hd]
      exact hfin

lemma reach_of_more {p q : Nat} {s t : σ} {xs : List α} (h : r.read p s xs = .more q t) :
    Reach r p s xs q t (xs.drop (q - p)) ∧ r.decide q t (xs.drop (q - p)) = .more := by
  obtain ⟨q', t', rest, hr, h' | ⟨e, _, h'⟩ | ⟨n, u, _, h'⟩⟩ := exists_reach r p s xs
  · rw [h] at h'
    obtain ⟨rfl, rfl⟩ := Outcome.more.inj h'.2
    rw [← hr.rest_eq.2.2]
    exact ⟨hr, h'.1⟩
  · rw [h] at h'; cases h'
  · rw [h] at h'; cases h'

/-- A read that is done ends inside its input, and reads the same with anything behind it. -/
lemma done_append {p q : Nat} {s t : σ} {xs : List α} (h : r.read p s xs = .done q t) (ys : List α) :
    q - p ≤ xs.length ∧ r.read p s (xs ++ ys) = .done q t := by
  obtain ⟨q', t', rest, hr, h' | ⟨e, _, h'⟩ | ⟨n, u, hd, h'⟩⟩ := exists_reach r p s xs
  · rw [h] at h'; cases h'.2
  · rw [h] at h'; cases h'
  · rw [h] at h'
    obtain ⟨rfl, rfl⟩ := Outcome.done.inj h'
    obtain ⟨hle, hlen, hrest⟩ := hr.rest_eq
    have hn := r.finish_le hd
    rw [hrest, List.length_drop] at hn
    refine ⟨by omega, ?_⟩
    rw [(hr.append ys).read_eq, read_of_finish (r.finish_append ys hd)]

/-- A position is reached at which the decision is a failure that a longer input takes back. -/
def Revocable (r : Reader α σ ε) (p : Nat) (s : σ) (xs : List α) : Prop :=
  ∃ q t rest e ys, Reach r p s xs q t rest ∧ r.decide q t rest = .fail e ∧
    (r.read q t (rest ++ ys)).isFail = false

/-- A failure stands on every longer input unless it is revocable. -/
theorem fail_final_iff {p : Nat} {s : σ} {xs : List α} :
    ((r.read p s xs).isFail = true → ∀ ys, (r.read p s (xs ++ ys)).isFail = true) ↔
      ¬Revocable r p s xs := by
  constructor
  · rintro h ⟨q, t, rest, e, ys, hr, hd, hys⟩
    have hfail : (r.read p s xs).isFail = true := by
      rw [hr.read_eq, read_of_fail hd]
      rfl
    have hlong := h hfail ys
    rw [(hr.append ys).read_eq, hys] at hlong
    cases hlong
  · intro h hfail ys
    obtain ⟨q, t, rest, hr, h' | ⟨e, hd, h'⟩ | ⟨n, u, _, h'⟩⟩ := exists_reach r p s xs
    · rw [h'.2] at hfail; cases hfail
    · rw [(hr.append ys).read_eq]
      by_contra hys
      exact h ⟨q, t, rest, e, ys, hr, hd, by simpa using hys⟩
    · rw [h'] at hfail; cases hfail

section Revocable

variable {p n : Nat} {s t : σ} {xs : List α} {e : ε}

lemma revocable_of_advance (h : r.decide p s xs = .advance n t) :
    Revocable r p s xs ↔ Revocable r (p + n) t (xs.drop n) := by
  constructor
  · rintro ⟨q, u, rest, e, ys, hr, hd, hys⟩
    cases hr with
    | refl => rw [h] at hd; cases hd
    | advance hd' hr =>
      rw [h] at hd'
      cases hd'
      exact ⟨q, u, rest, e, ys, hr, hd, hys⟩
  · rintro ⟨q, u, rest, e, ys, hr, hd, hys⟩
    exact ⟨q, u, rest, e, ys, .advance h hr, hd, hys⟩

lemma revocable_of_fail (h : r.decide p s xs = .fail e) :
    Revocable r p s xs ↔ ∃ ys, (r.read p s (xs ++ ys)).isFail = false := by
  constructor
  · rintro ⟨q, u, rest, e, ys, hr, hd, hys⟩
    cases hr with
    | refl => exact ⟨ys, hys⟩
    | advance hd' _ => rw [h] at hd'; cases hd'
  · rintro ⟨ys, hys⟩
    exact ⟨p, s, xs, e, ys, .refl _ _ _, h, hys⟩

lemma not_revocable_of_more (h : r.decide p s xs = .more) : ¬Revocable r p s xs := by
  rintro ⟨q, u, rest, e, ys, hr, hd, _⟩
  cases hr with
  | refl => rw [h] at hd; cases hd
  | advance hd' _ => rw [h] at hd'; cases hd'

lemma Reach.revocable {q : Nat} {rest : List α} (h : Reach r p s xs q t rest)
    (h' : Revocable r q t rest) : Revocable r p s xs := by
  obtain ⟨q', u, rest', e, ys, hr, hd, hys⟩ := h'
  exact ⟨q', u, rest', e, ys, h.trans hr, hd, hys⟩

end Revocable

/-- Reads the prefixes of the given lengths in turn, each from where the last one waited;
`none` if one of them did anything but wait. -/
def feed (r : Reader α σ ε) (xs : List α) : List Nat → Nat → σ → Option (Nat × σ)
  | [], p, s => some (p, s)
  | l :: ls, p, s =>
    match r.read p s ((xs.take l).drop p) with
    | .more q t => feed r xs ls q t
    | _ => none

lemma Reach.take_mono {s₀ t : σ} {xs : List α} {k l q : Nat} (hkl : k ≤ l)
    (h : Reach r 0 s₀ (xs.take k) q t ((xs.take k).drop q)) :
    Reach r 0 s₀ (xs.take l) q t ((xs.take l).drop q) := by
  have hq : q ≤ (xs.take k).length := by simpa using h.rest_eq.2.1
  have hsplit : xs.take l = xs.take k ++ (xs.take l).drop k := by
    have h' := List.take_append_drop k (xs.take l)
    rwa [List.take_take, Nat.min_eq_left hkl, eq_comm] at h'
  have ha := h.append ((xs.take l).drop k)
  rw [← List.drop_append_of_le_length hq, ← hsplit] at ha
  exact ha

lemma feed_reach {s₀ s t : σ} {xs : List α} {ls : List Nat} {k l p q : Nat}
    (hsort : (k :: (ls ++ [l])).Pairwise (· ≤ ·))
    (h : Reach r 0 s₀ (xs.take k) p s ((xs.take k).drop p))
    (hfeed : feed r xs ls p s = some (q, t)) :
    Reach r 0 s₀ (xs.take l) q t ((xs.take l).drop q) := by
  induction ls generalizing k p s with
  | nil =>
    obtain ⟨rfl, rfl⟩ : p = q ∧ s = t := by simpa [feed] using hfeed
    exact h.take_mono ((List.pairwise_cons.mp hsort).1 l (by simp))
  | cons k' ls ih =>
    have hk : k ≤ k' := (List.pairwise_cons.mp hsort).1 k' (by simp)
    have h' := h.take_mono hk
    rw [feed] at hfeed
    split at hfeed
    · rename_i q' t' hread
      refine ih (List.pairwise_cons.mp hsort).2 ?_ hfeed
      have hm := reach_of_more hread
      have he : (xs.take k').drop q' = ((xs.take k').drop p).drop (q' - p) := by
        have hle := hm.1.rest_eq.1
        rw [List.drop_drop]
        congr 1
        omega
      rw [he]
      exact h'.trans hm.1
    · cases hfeed

/-- Reading growing prefixes in turn ends as reading the last of them from the start. -/
theorem feed_read {s₀ t : σ} {xs : List α} {ls : List Nat} {l q : Nat}
    (hsort : (ls ++ [l]).Pairwise (· ≤ ·)) (hfeed : feed r xs ls 0 s₀ = some (q, t)) :
    r.read q t ((xs.take l).drop q) = r.read 0 s₀ (xs.take l) := by
  have hs : (0 :: (ls ++ [l])).Pairwise (· ≤ ·) :=
    List.pairwise_cons.mpr ⟨fun _ _ => Nat.zero_le _, hsort⟩
  exact (feed_reach hs (.refl 0 s₀ _) hfeed).read_eq.symm

end Reader

end Incremental
