import Mathlib.Data.List.Induction
import Mathlib.Tactic.Lemma

/-!
# Folds that may refuse

A fold in `Option` that checks its items as it reads them: it succeeds exactly when the items
are good, with the state that a plain description of the items gives.
-/

namespace CheckedFold

variable {σ α : Type*}

/-- A fold refuses when one of its items is refused, and otherwise reads them all. -/
lemma foldlM_eq_some_iff {element : σ → α → Option σ} {good : α → Prop}
    {push : σ → α → σ} {l : List α}
    (h : ∀ e ∈ l, ∀ s s', element s e = some s' ↔ good e ∧ s' = push s e) (s s' : σ) :
    l.foldlM element s = some s' ↔ (∀ e ∈ l, good e) ∧ s' = l.foldl push s := by
  induction l generalizing s with
  | nil => simp [eq_comm]
  | cons e l ih =>
    have htail := ih (fun e he => h e (List.mem_cons_of_mem _ he))
    rw [List.foldlM_cons, Option.bind_eq_bind, Option.bind_eq_some_iff, List.forall_mem_cons,
      List.foldl_cons]
    constructor
    · rintro ⟨s₁, h₁, h₂⟩
      obtain ⟨hgood, rfl⟩ := (h e List.mem_cons_self s s₁).mp h₁
      obtain ⟨hrest, rfl⟩ := (htail _).mp h₂
      exact ⟨⟨hgood, hrest⟩, rfl⟩
    · rintro ⟨⟨hgood, hrest⟩, rfl⟩
      exact ⟨_, (h e List.mem_cons_self s _).mpr ⟨hgood, rfl⟩, (htail _).mpr ⟨hrest, rfl⟩⟩

/-- A fold whose steps each extend the reading of the items before them. -/
lemma foldlM_iff_of_concat {step : σ → α → Option σ} {good : List α → Prop}
    (read : List α → σ) (hnil : good []) (hpre : ∀ l a, good (l ++ [a]) → good l)
    (hstep : ∀ l a s, good l → (step (read l) a = some s ↔ good (l ++ [a]) ∧ s = read (l ++ [a])))
    (l : List α) (s : σ) : l.foldlM step (read []) = some s ↔ good l ∧ s = read l := by
  induction l using List.reverseRecOn generalizing s with
  | nil =>
    rw [List.foldlM_nil, and_iff_right hnil]
    exact ⟨fun h => (Option.some.inj h).symm, fun h => congrArg some h.symm⟩
  | append_singleton l a ih =>
    rw [List.foldlM_append, Option.bind_eq_bind, Option.bind_eq_some_iff]
    simp only [List.foldlM_cons, List.foldlM_nil, Option.bind_eq_bind, Option.pure_def]
    constructor
    · rintro ⟨s₁, h₁, h₂⟩
      obtain ⟨hgood, rfl⟩ := (ih s₁).mp h₁
      exact (hstep l a s hgood).mp (by simpa using h₂)
    · rintro ⟨hgood, rfl⟩
      refine ⟨read l, (ih _).mpr ⟨hpre l a hgood, rfl⟩, ?_⟩
      simpa using (hstep l a _ (hpre l a hgood)).mpr ⟨hgood, rfl⟩

end CheckedFold
