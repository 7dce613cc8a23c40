import Mathlib.Tactic

/-!
# Stream transducers

A transducer consumes a stream item by item, emits output, may fail on an item, and halts
in certain states without looking at what follows. Running it on a stream cut into slices,
with the state carried across the cuts, is running it on the whole stream.
-/

namespace Streaming

/-- How a run over some items ended. -/
inductive Verdict where
  | complete
  | more
  | fail
  deriving DecidableEq, Repr

/-- A run's verdict, its last state, its output and the items it did not look at. A failed
run keeps the state before the item it failed on. -/
structure Run (σ α β : Type*) where
  verdict : Verdict
  state : σ
  out : List β
  rest : List α

/-- `step` is one item's effect, `halted` the states that end a run. -/
structure Transducer (σ α β : Type*) where
  step : σ → α → Option (σ × List β)
  halted : σ → Bool

namespace Transducer

variable {σ α β : Type*} (m : Transducer σ α β)

def run (s : σ) : List α → Run σ α β
  | [] => ⟨if m.halted s then .complete else .more, s, [], []⟩
  | a :: as =>
    if m.halted s then ⟨.complete, s, [], a :: as⟩
    else match m.step s a with
      | none => ⟨.fail, s, [], a :: as⟩
      | some (t, o) => let r := run t as; { r with out := o ++ r.out }

/-- Runs the slices in order, stopping at the first verdict other than `more`; the unfed
slices are part of what is left. -/
def runSlices (s : σ) : List (List α) → Run σ α β
  | [] => ⟨if m.halted s then .complete else .more, s, [], []⟩
  | w :: ws =>
    let r := m.run s w
    match r.verdict with
    | .more => let r' := runSlices r.state ws; { r' with out := r.out ++ r'.out }
    | _ => { r with rest := r.rest ++ ws.flatten }

variable {m}

lemma run_halted {s : σ} (h : m.halted s = true) (xs : List α) :
    m.run s xs = ⟨.complete, s, [], xs⟩ := by
  cases xs <;> simp [run, h]

lemma run_cons_some {s t : σ} {a : α} {o : List β} (hs : m.halted s = false)
    (h : m.step s a = some (t, o)) (as : List α) :
    m.run s (a :: as) = { m.run t as with out := o ++ (m.run t as).out } := by
  simp [run, hs, h]

lemma run_cons_none {s : σ} {a : α} (hs : m.halted s = false) (h : m.step s a = none)
    (as : List α) : m.run s (a :: as) = ⟨.fail, s, [], a :: as⟩ := by
  simp [run, hs, h]

lemma run_nil {s : σ} (hs : m.halted s = false) : m.run s [] = ⟨.more, s, [], []⟩ := by
  simp [run, hs]

variable (m) in
/-- Induction along a run: it halts, runs out of items, fails, or takes one step and goes on. -/
@[elab_as_elim]
theorem run_induction {motive : σ → List α → Prop}
    (halted : ∀ s xs, m.halted s = true → motive s xs)
    (nil : ∀ s, m.halted s = false → motive s [])
    (fail : ∀ s a as, m.halted s = false → m.step s a = none → motive s (a :: as))
    (step : ∀ s a as t o, m.halted s = false → m.step s a = some (t, o) → motive t as →
      motive s (a :: as))
    (s : σ) (xs : List α) : motive s xs := by
  induction xs generalizing s with
  | nil =>
    cases hs : m.halted s with
    | true => exact halted s [] hs
    | false => exact nil s hs
  | cons a as ih =>
    cases hs : m.halted s with
    | true => exact halted s (a :: as) hs
    | false =>
      cases ha : m.step s a with
      | none => exact fail s a as hs ha
      | some p => exact step s a as p.1 p.2 hs ha (ih p.1)

lemma halted_iff {s : σ} {xs : List α} :
    m.halted (m.run s xs).state = true ↔ (m.run s xs).verdict = .complete := by
  induction s, xs using m.run_induction with
  | halted s xs hs => simp [run_halted hs, hs]
  | nil s hs => simp [run_nil hs, hs]
  | fail s a as hs ha => simp [run_cons_none hs ha, hs]
  | step s a as t o hs ha ih =>
    rw [run_cons_some hs ha]
    exact ih

lemma not_halted_of_more {s : σ} {xs : List α} (h : (m.run s xs).verdict = .more) :
    m.halted (m.run s xs).state = false := by
  rw [Bool.eq_false_iff, Ne, halted_iff, h]
  decide

/-- A run that asks for more goes on with the items that follow. -/
theorem run_append_of_more {s : σ} {xs : List α} (h : (m.run s xs).verdict = .more)
    (ys : List α) :
    m.run s (xs ++ ys) =
      { m.run (m.run s xs).state ys with
        out := (m.run s xs).out ++ (m.run (m.run s xs).state ys).out } := by
  induction s, xs using m.run_induction with
  | halted s xs hs => rw [run_halted hs] at h; cases h
  | nil s hs => simp [run]
  | fail s a as hs ha => rw [run_cons_none hs ha] at h; cases h
  | step s a as t o hs ha ih =>
    rw [run_cons_some hs ha] at h
    rw [List.cons_append, run_cons_some hs ha, ih h, run_cons_some hs ha]
    simp [List.append_assoc]

/-- A run that completed or failed does not depend on the items that follow. -/
theorem run_append_of_not_more {s : σ} {xs : List α} (h : (m.run s xs).verdict ≠ .more)
    (ys : List α) :
    m.run s (xs ++ ys) = { m.run s xs with rest := (m.run s xs).rest ++ ys } := by
  induction s, xs using m.run_induction with
  | halted s xs hs => simp [run_halted hs]
  | nil s hs => rw [run_nil hs] at h; exact absurd rfl h
  | fail s a as hs ha => simp [run_cons_none hs ha]
  | step s a as t o hs ha ih =>
    rw [run_cons_some hs ha] at h
    rw [List.cons_append, run_cons_some hs ha, run_cons_some hs ha, ih h]

/-- Slicing a stream changes nothing. -/
theorem runSlices_eq_run (s : σ) (ws : List (List α)) : m.runSlices s ws = m.run s ws.flatten := by
  induction ws generalizing s with
  | nil => simp [runSlices, run]
  | cons w ws ih =>
    rw [runSlices, List.flatten_cons]
    cases hv : (m.run s w).verdict with
    | more => rw [run_append_of_more hv, ← ih]
    | complete => rw [run_append_of_not_more (by simp [hv])]; simp [hv]
    | fail => rw [run_append_of_not_more (by simp [hv])]; simp [hv]

lemma rest_suffix (s : σ) (xs : List α) : (m.run s xs).rest <:+ xs := by
  induction s, xs using m.run_induction with
  | halted s xs hs => simp [run_halted hs]
  | nil s hs => simp [run]
  | fail s a as hs ha => simp [run_cons_none hs ha]
  | step s a as t o hs ha ih =>
    rw [run_cons_some hs ha]
    exact ih.trans (List.suffix_cons _ _)

lemma state_invariant {I : σ → Prop} (hI : ∀ {s a t o}, I s → m.step s a = some (t, o) → I t)
    {s : σ} (h : I s) (xs : List α) : I (m.run s xs).state := by
  induction s, xs using m.run_induction with
  | halted s xs hs => rw [run_halted hs]; exact h
  | nil s hs => exact h
  | fail s a as hs ha => rw [run_cons_none hs ha]; exact h
  | step s a as t o hs ha ih =>
    rw [run_cons_some hs ha]
    exact ih (hI h ha)

/-- Reading `xs` takes the machine from `s` to `t` and emits `o`, whatever follows. -/
def Steps (m : Transducer σ α β) (s : σ) (xs : List α) (t : σ) (o : List β) : Prop :=
  ∀ ys, m.run s (xs ++ ys) = { m.run t ys with out := o ++ (m.run t ys).out }

namespace Steps

variable {s t u : σ} {xs ys : List α} {o o' : List β}

lemma refl (m : Transducer σ α β) (s : σ) : Steps m s [] s [] := fun _ => rfl

lemma single {a : α} (hs : m.halted s = false) (h : m.step s a = some (t, o)) :
    Steps m s [a] t o := by
  intro ys
  rw [List.singleton_append, run_cons_some hs h]

lemma trans (h : Steps m s xs t o) (h' : Steps m t ys u o') :
    Steps m s (xs ++ ys) u (o ++ o') := by
  intro zs
  rw [List.append_assoc, h, h']
  simp only [List.append_assoc]

lemma cons {a : α} (hs : m.halted s = false) (h : m.step s a = some (t, []))
    (h' : Steps m t xs u o) : Steps m s (a :: xs) u o := (single hs h).trans h'

lemma complete (h : Steps m s xs t o) (ht : m.halted t = true) (ys : List α) :
    m.run s (xs ++ ys) = ⟨.complete, t, o, ys⟩ := by
  rw [h, run_halted ht, List.append_nil]

end Steps

/-- The steps from `s` to `t` along the items `xs`, emitting `o`. -/
inductive Path (m : Transducer σ α β) : σ → List α → σ → List β → Prop where
  | nil (s : σ) : Path m s [] s []
  | cons {s t u : σ} {a : α} {as : List α} {o o' : List β} (hs : m.halted s = false)
      (h : m.step s a = some (t, o)) (h' : Path m t as u o') : Path m s (a :: as) u (o ++ o')

namespace Path

variable {s t u : σ} {xs ys : List α} {o o' : List β}

lemma single {a : α} (hs : m.halted s = false) (h : m.step s a = some (t, o)) :
    Path m s [a] t o := by
  have hp := Path.cons hs h (.nil t)
  rwa [List.append_nil] at hp

lemma steps (h : Path m s xs t o) : Steps m s xs t o := by
  induction h with
  | nil s => exact .refl m s
  | cons hs ha _ ih => exact (Steps.single hs ha).trans ih

/-- An invariant of the items read so far and the state, kept by every step. -/
lemma invariant {I : List α → σ → Prop}
    (hI : ∀ {w s a t o}, I w s → m.step s a = some (t, o) → I (w ++ [a]) t)
    (h : Path m s xs t o) {w : List α} (h0 : I w s) : I (w ++ xs) t := by
  induction h generalizing w with
  | nil =>
    rw [List.append_nil]
    exact h0
  | cons _ ha _ ih =>
    rw [List.append_cons]
    exact ih (hI h0 ha)

end Path

/-- What a run looked at is a path to the state it ends in. -/
theorem exists_path (s : σ) (xs : List α) :
    ∃ read, xs = read ++ (m.run s xs).rest ∧ Path m s read (m.run s xs).state (m.run s xs).out := by
  induction s, xs using m.run_induction with
  | halted s xs hs =>
    rw [run_halted hs]
    exact ⟨[], rfl, .nil s⟩
  | nil s hs => exact ⟨[], rfl, .nil s⟩
  | fail s a as hs ha =>
    rw [run_cons_none hs ha]
    exact ⟨[], rfl, .nil s⟩
  | step s a as t o hs ha ih =>
    obtain ⟨read, hread, hpath⟩ := ih
    rw [run_cons_some hs ha]
    refine ⟨a :: read, ?_, .cons hs ha hpath⟩
    rw [List.cons_append]
    exact congrArg (a :: ·) hread

/-- `xs` starts with a path that uses it up or ends in a halted state. -/
def Admits (m : Transducer σ α β) (s : σ) (xs : List α) : Prop :=
  ∃ read rest t o, xs = read ++ rest ∧ Path m s read t o ∧ (rest = [] ∨ m.halted t = true)

lemma rest_eq_nil_of_more {s : σ} {xs : List α} (h : (m.run s xs).verdict = .more) :
    (m.run s xs).rest = [] := by
  induction s, xs using m.run_induction with
  | halted s xs hs => rw [run_halted hs] at h; cases h
  | nil s hs => rfl
  | fail s a as hs ha => rw [run_cons_none hs ha] at h; cases h
  | step s a as t o hs ha ih =>
    rw [run_cons_some hs ha] at h ⊢
    exact ih h

lemma rest_ne_nil_of_fail {s : σ} {xs : List α} (h : (m.run s xs).verdict = .fail) :
    (m.run s xs).rest ≠ [] := by
  induction s, xs using m.run_induction with
  | halted s xs hs => rw [run_halted hs] at h; cases h
  | nil s hs => rw [run_nil hs] at h; cases h
  | fail s a as hs ha =>
    rw [run_cons_none hs ha]
    exact List.cons_ne_nil a as
  | step s a as t o hs ha ih =>
    rw [run_cons_some hs ha] at h ⊢
    exact ih h

/-- A run fails exactly on what is not admitted. -/
theorem admits_iff {s : σ} {xs : List α} : m.Admits s xs ↔ (m.run s xs).verdict ≠ .fail := by
  constructor
  · rintro ⟨read, rest, t, o, rfl, hpath, hend⟩
    rw [hpath.steps rest]
    cases hend with
    | inl hnil =>
      rw [hnil, run]
      cases m.halted t <;> simp
    | inr ht =>
      rw [run_halted ht]
      simp
  · intro h
    obtain ⟨read, hread, hpath⟩ := exists_path (m := m) s xs
    refine ⟨read, _, _, _, hread, hpath, ?_⟩
    cases hv : (m.run s xs).verdict with
    | more => exact .inl (rest_eq_nil_of_more hv)
    | complete => exact .inr (halted_iff.mpr hv)
    | fail => exact absurd hv h

/-- The machine completes on `xs`, with output `o`, before it reads `rest`. -/
structure Completes (m : Transducer σ α β) (s : σ) (xs : List α) (o : List β) (rest : List α) :
    Prop where
  verdict : (m.run s xs).verdict = .complete
  out : (m.run s xs).out = o
  rest : (m.run s xs).rest = rest

namespace Completes

variable {s t : σ} {xs rest : List α} {o : List β}

lemma of_run (h : m.run s xs = ⟨.complete, t, o, rest⟩) : Completes m s xs o rest := by
  constructor <;> rw [h]

lemma of_halted (h : Completes m s xs o rest) (hs : m.halted s = true) : o = [] ∧ rest = xs := by
  obtain ⟨_, ho, hr⟩ := h
  rw [run_halted hs] at ho hr
  exact ⟨ho.symm, hr.symm⟩

lemma exists_step (h : Completes m s xs o rest) (hs : m.halted s = false) :
    ∃ a as t o₁ o₂, xs = a :: as ∧ m.step s a = some (t, o₁) ∧ o = o₁ ++ o₂ ∧
      Completes m t as o₂ rest := by
  obtain ⟨hv, rfl, rfl⟩ := h
  cases xs with
  | nil => rw [run_nil hs] at hv; cases hv
  | cons a as =>
    cases ha : m.step s a with
    | none => rw [run_cons_none hs ha] at hv; cases hv
    | some p =>
      obtain ⟨t, o₁⟩ := p
      rw [run_cons_some hs ha] at hv ⊢
      exact ⟨a, as, t, o₁, (m.run t as).out, rfl, ha, rfl, hv, rfl, rfl⟩

end Completes

end Transducer

end Streaming
