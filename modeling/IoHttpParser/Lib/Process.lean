import Mathlib.Data.List.Basic
import Mathlib.Tactic.Lemma
import Mathlib.Tactic.TypeStar

/-!
# Resumable processes

A process takes its input as it arrives. A step looks at the input that has arrived: it waits, with
what it has to keep, or goes on with a part of the input and some output. A process resumes when a
step that waits and then gets more input is the step on both, and a step that goes on is not
disturbed by what follows. Then it makes no difference how the input is cut, as long as the process
does not fail on a part.
-/

namespace Resumable

/-- The effect of a step: all of the input is taken, or a part of it is left. -/
inductive Progress (σ α β : Type*) where
  | wait (s : σ)
  | next (s : σ) (rest : List α) (out : List β)

/-- A step function, with a bound on the steps that an input allows. -/
structure Process (σ α β : Type*) where
  step : σ → List α → Progress σ α β
  fuel : σ → List α → Nat

namespace Process

variable {σ α β : Type*} (p : Process σ α β)

/-- Steps until one waits; `none` when the fuel runs out first. -/
def run : Nat → σ → List α → Option (σ × List β)
  | 0, _, _ => none
  | fuel + 1, s, xs =>
    match p.step s xs with
    | .wait s => some (s, [])
    | .next s rest out => (run fuel s rest).map (fun r => (r.1, out ++ r.2))

/-- A part of the input arrives. -/
def receive (s : σ) (xs : List α) : Option (σ × List β) := p.run (p.fuel s xs) s xs

/-- The parts of the input arrive in turn. -/
def receiveAll : σ → List (List α) → Option (σ × List β)
  | s, [] => some (s, [])
  | s, xs :: rest =>
    match p.receive s xs with
    | none => none
    | some (s, out) => (receiveAll s rest).map (fun r => (r.1, out ++ r.2))

/-- The steps on an input, up to the one that waits. -/
inductive Steps : σ → List α → σ → List β → Prop where
  | wait {s s' : σ} {xs : List α} (h : p.step s xs = .wait s') : Steps s xs s' []
  | next {s s' t : σ} {xs rest : List α} {out out' : List β} (h : p.step s xs = .next s' rest out)
      (hrest : Steps s' rest t out') : Steps s xs t (out ++ out')

/-- Steps that go on, with what they leave of the input. -/
inductive Reaches : σ → List α → σ → List α → List β → Prop where
  | refl (s : σ) (xs : List α) : Reaches s xs s xs []
  | next {s s' t : σ} {xs rest left : List α} {out out' : List β}
      (h : p.step s xs = .next s' rest out) (hrest : Reaches s' rest t left out') :
      Reaches s xs t left (out ++ out')

/-- A process that resumes at a state, on inputs up to a bound: `held` is the part of its input that
a state keeps. -/
structure ResumesAt (inv failed : σ → Prop) (held : σ → Nat) (bound : Nat) (s : σ) : Prop where
  wait_inv : ∀ {xs s'}, held s + xs.length < bound → p.step s xs = .wait s' →
    inv s' ∧ held s' ≤ held s + xs.length
  next_inv : ∀ {xs s' rest out}, held s + xs.length < bound → p.step s xs = .next s' rest out →
    inv s' ∧ held s' + rest.length ≤ held s + xs.length ∧ p.fuel s' rest < p.fuel s xs
  next_append : ∀ {xs s' rest out}, p.step s xs = .next s' rest out → ∀ ys,
    held s + (xs ++ ys).length < bound → p.step s (xs ++ ys) = .next s' (rest ++ ys) out
  wait_append : ∀ {xs s'}, p.step s xs = .wait s' → ¬failed s' → ∀ ys,
    held s + (xs ++ ys).length < bound → p.step s (xs ++ ys) = p.step s' ys

/-- A process that resumes at every state with an invariant. -/
structure Resumes (inv failed : σ → Prop) (held : σ → Nat) (bound : Nat) : Prop where
  fuel_pos : ∀ s xs, 0 < p.fuel s xs
  resumesAt : ∀ s, inv s → p.ResumesAt inv failed held bound s
  failed_step : ∀ {s}, failed s → ∀ xs, p.step s xs = .wait s

variable {p}

lemma run_eq_some {fuel : Nat} {s t : σ} {xs : List α} {out : List β}
    (h : p.run fuel s xs = some (t, out)) : p.Steps s xs t out := by
  induction fuel generalizing s xs out with
  | zero => cases h
  | succ fuel ih =>
    unfold run at h
    cases hstep : p.step s xs with
    | wait s' =>
      rw [hstep] at h
      obtain ⟨rfl, rfl⟩ := Prod.mk.inj (Option.some.inj h)
      exact .wait hstep
    | next s' rest o =>
      rw [hstep] at h
      obtain ⟨r, hr, heq⟩ := Option.map_eq_some_iff.mp h
      obtain ⟨rfl, rfl⟩ := Prod.mk.inj heq
      exact .next hstep (ih hr)

lemma receive_steps {s t : σ} {xs : List α} {out : List β} (h : p.receive s xs = some (t, out)) :
    p.Steps s xs t out :=
  run_eq_some h

lemma receiveAll_singleton (s : σ) (xs : List α) : p.receiveAll s [xs] = p.receive s xs := by
  rw [receiveAll]
  cases p.receive s xs with
  | none => rfl
  | some r =>
    dsimp only [receiveAll]
    rw [Option.map_some, List.append_nil]

/-- The steps on an input are steps that go on, and one that waits. -/
lemma Steps.exists_reaches {s t : σ} {xs : List α} {out : List β} (h : p.Steps s xs t out) :
    ∃ s' rest, p.Reaches s xs s' rest out ∧ p.step s' rest = .wait t := by
  induction h with
  | @wait s _ xs hstep => exact ⟨s, xs, .refl s xs, hstep⟩
  | next hstep _ ih =>
    obtain ⟨s', rest, hreach, hwait⟩ := ih
    exact ⟨s', rest, .next hstep hreach, hwait⟩

lemma Reaches.steps {s s' t : σ} {xs rest : List α} {out out' : List β}
    (h : p.Reaches s xs s' rest out) (h' : p.Steps s' rest t out') :
    p.Steps s xs t (out ++ out') := by
  induction h with
  | refl => exact h'
  | next hstep _ ih =>
    rw [List.append_assoc]
    exact .next hstep (ih h')

/-- The steps on an input go through what it reaches. -/
lemma Reaches.of_steps {s s' t : σ} {xs rest : List α} {out out' : List β}
    (h : p.Reaches s xs s' rest out) (h' : p.Steps s xs t out') :
    ∃ out'', out' = out ++ out'' ∧ p.Steps s' rest t out'' := by
  induction h generalizing out' with
  | refl => exact ⟨out', rfl, h'⟩
  | next hstep _ ih =>
    cases h' with
    | wait hwait => cases hstep.symm.trans hwait
    | next hnext hmore =>
      obtain ⟨rfl, rfl, rfl⟩ := Progress.next.inj (hstep.symm.trans hnext)
      obtain ⟨out'', rfl, hsteps⟩ := ih hmore
      exact ⟨out'', (List.append_assoc ..).symm, hsteps⟩

lemma Steps.out_nil {s s' t : σ} {xs : List α} {out : List β} (h : p.Steps s xs t out)
    (hwait : p.step s xs = .wait s') : out = [] := by
  cases h with
  | wait => rfl
  | next hnext => cases hwait.symm.trans hnext

lemma receiveAll_cons {s t : σ} {out : List β} {ws : List α} {wss : List (List α)}
    (h : p.receiveAll s (ws :: wss) = some (t, out)) :
    ∃ s' o out', p.Steps s ws s' o ∧ p.receiveAll s' wss = some (t, out') ∧ out = o ++ out' := by
  unfold receiveAll at h
  cases hr : p.receive s ws with
  | none =>
    rw [hr] at h
    cases h
  | some r =>
    obtain ⟨s', o⟩ := r
    rw [hr] at h
    obtain ⟨r, hrest, heq⟩ := Option.map_eq_some_iff.mp h
    obtain ⟨rfl, rfl⟩ := Prod.mk.inj heq
    exact ⟨s', o, r.2, receive_steps hr, hrest, rfl⟩

/-- A process that has failed takes no notice of its input. -/
lemma receiveAll_of_failed {failed : σ → Prop} (hp : ∀ {s}, failed s → ∀ xs, p.step s xs = .wait s)
    {s t : σ} {wss : List (List α)} {out : List β} (h : p.receiveAll s wss = some (t, out))
    (hs : failed s) : t = s ∧ out = [] := by
  induction wss generalizing s out with
  | nil =>
    obtain ⟨rfl, rfl⟩ := Prod.mk.inj (Option.some.inj h)
    exact ⟨rfl, rfl⟩
  | cons ws wss ih =>
    obtain ⟨s', o, out', hfirst, hrest, rfl⟩ := receiveAll_cons h
    cases hfirst with
    | wait hstep =>
      rw [hp hs] at hstep
      obtain rfl := Progress.wait.inj hstep
      obtain ⟨rfl, rfl⟩ := ih hrest hs
      exact ⟨rfl, rfl⟩
    | next hstep _ =>
      rw [hp hs] at hstep
      cases hstep

lemma receiveAll_append {s t : σ} {out : List β} {pre suf : List (List α)}
    (h : p.receiveAll s (pre ++ suf) = some (t, out)) :
    ∃ s' o o', p.receiveAll s pre = some (s', o) ∧ p.receiveAll s' suf = some (t, o') ∧
      out = o ++ o' := by
  induction pre generalizing s out with
  | nil => exact ⟨s, [], out, rfl, h, rfl⟩
  | cons ws pre ih =>
    rw [List.cons_append, receiveAll] at h
    rw [receiveAll]
    cases hr : p.receive s ws with
    | none =>
      rw [hr] at h
      cases h
    | some r =>
      rw [hr] at h
      obtain ⟨r', hrest, heq⟩ := Option.map_eq_some_iff.mp h
      obtain ⟨rfl, rfl⟩ := Prod.mk.inj heq
      obtain ⟨s', o, o', hpre, hsuf, hout⟩ := ih hrest
      refine ⟨s', r.2 ++ o, o', ?_, hsuf, by rw [hout, List.append_assoc]⟩
      dsimp only
      rw [hpre]
      rfl

section Resumes

variable {I failed : σ → Prop} {held : σ → Nat} {bound : Nat} {s t : σ} {xs ys : List α}
  {out : List β} (hp : p.Resumes I failed held bound)

include hp

lemma Steps.run (h : p.Steps s xs t out) (hs : I s) (hlen : held s + xs.length < bound)
    {fuel : Nat} (hfuel : p.fuel s xs ≤ fuel) : p.run fuel s xs = some (t, out) := by
  induction h generalizing fuel with
  | @wait s s' xs hstep =>
    have hpos := hp.fuel_pos s xs
    obtain ⟨k, rfl⟩ : ∃ k, fuel = k + 1 := ⟨fuel - 1, by omega⟩
    rw [Process.run, hstep]
  | @next s s' t xs rest out out' hstep _ ih =>
    have hpos := hp.fuel_pos s xs
    obtain ⟨k, rfl⟩ : ∃ k, fuel = k + 1 := ⟨fuel - 1, by omega⟩
    obtain ⟨hs', hheld, hless⟩ := (hp.resumesAt _ hs).next_inv hlen hstep
    rw [Process.run, hstep]
    dsimp only
    rw [ih hs' (by omega) (by omega)]
    rfl

lemma Steps.receive (h : p.Steps s xs t out) (hs : I s) (hlen : held s + xs.length < bound) :
    p.receive s xs = some (t, out) :=
  h.run hp hs hlen (Nat.le_refl _)

/-- On a state with the invariant the steps end. -/
lemma exists_steps (hs : I s) (hlen : held s + xs.length < bound) :
    ∃ t out, p.Steps s xs t out := by
  induction hk : p.fuel s xs using Nat.strongRecOn generalizing s xs with
  | _ k ih =>
    cases hstep : p.step s xs with
    | wait s' => exact ⟨s', [], .wait hstep⟩
    | next s' rest o =>
      obtain ⟨hs', hheld, hless⟩ := (hp.resumesAt _ hs).next_inv hlen hstep
      obtain ⟨t, out, h⟩ := ih _ (hk ▸ hless) hs' (by omega) rfl
      exact ⟨t, o ++ out, .next hstep h⟩

lemma Steps.invariant (h : p.Steps s xs t out) (hs : I s) (hlen : held s + xs.length < bound) :
    I t ∧ held t ≤ held s + xs.length := by
  induction h with
  | wait hstep => exact (hp.resumesAt _ hs).wait_inv hlen hstep
  | next hstep _ ih =>
    obtain ⟨hs', hheld, -⟩ := (hp.resumesAt _ hs).next_inv hlen hstep
    obtain ⟨ht, hle⟩ := ih hs' (by omega)
    exact ⟨ht, Nat.le_trans hle hheld⟩

/-- A state in which the process waits is left as it is by no input. -/
lemma Steps.idle (h : p.Steps s xs t out) (hs : I s) (ht : ¬failed t)
    (hlen : held s + xs.length < bound) : p.step t [] = .wait t := by
  induction h with
  | @wait s s' xs hstep =>
    have hnil := (hp.resumesAt _ hs).wait_append hstep ht [] (by rwa [List.append_nil])
    rw [← hnil, List.append_nil, hstep]
  | next hstep _ ih =>
    obtain ⟨hs', hheld, -⟩ := (hp.resumesAt _ hs).next_inv hlen hstep
    exact ih hs' ht (by omega)

/-- More input behind an input that was taken is more input at the state where the process waits. -/
lemma Steps.append {u : σ} {out' : List β} (h : p.Steps s xs t out) (hs : I s) (ht : ¬failed t)
    (hlen : held s + (xs ++ ys).length < bound) (h' : p.Steps t ys u out') :
    p.Steps s (xs ++ ys) u (out ++ out') := by
  induction h with
  | @wait s s' xs hstep =>
    have hmore := (hp.resumesAt _ hs).wait_append hstep ht ys hlen
    rw [List.nil_append]
    cases h' with
    | wait hstep' => exact .wait (hmore.trans hstep')
    | next hstep' hrest => exact .next (hmore.trans hstep') hrest
  | @next s s' t xs rest out out' hstep _ ih =>
    rw [List.length_append] at hlen
    obtain ⟨hs', hheld, -⟩ := (hp.resumesAt _ hs).next_inv (by omega) hstep
    have hnext := (hp.resumesAt _ hs).next_append hstep ys (by rw [List.length_append]; exact hlen)
    rw [List.append_assoc]
    exact .next hnext (ih hs' ht (by rw [List.length_append]; omega) h')

lemma Reaches.invariant {rest : List α} (h : p.Reaches s xs t rest out) (hs : I s)
    (hlen : held s + xs.length < bound) : I t ∧ held t + rest.length ≤ held s + xs.length := by
  induction h with
  | refl => exact ⟨hs, Nat.le_refl _⟩
  | next hstep _ ih =>
    obtain ⟨hs', hheld, -⟩ := (hp.resumesAt _ hs).next_inv hlen hstep
    obtain ⟨ht, hle⟩ := ih hs' (by omega)
    exact ⟨ht, Nat.le_trans hle hheld⟩

variable (ys) in
/-- Steps that go on are not disturbed by what follows. -/
lemma Reaches.append {rest : List α} (h : p.Reaches s xs t rest out) (hs : I s)
    (hlen : held s + (xs ++ ys).length < bound) : p.Reaches s (xs ++ ys) t (rest ++ ys) out := by
  induction h with
  | refl => exact .refl _ _
  | next hstep _ ih =>
    rw [List.length_append] at hlen
    obtain ⟨hs', hheld, -⟩ := (hp.resumesAt _ hs).next_inv (by omega) hstep
    have hnext := (hp.resumesAt _ hs).next_append hstep ys (by rw [List.length_append]; exact hlen)
    exact .next hnext (ih hs' (by rw [List.length_append]; omega))

/-- The steps on an input are determined. -/
lemma Steps.unique {u : σ} {out' : List β} (h : p.Steps s xs t out) (h' : p.Steps s xs u out')
    (hs : I s) (hlen : held s + xs.length < bound) : t = u ∧ out = out' := by
  have hrun := (h.receive hp hs hlen).symm.trans (h'.receive hp hs hlen)
  exact Prod.mk.inj (Option.some.inj hrun)

/-- Also a process that fails has by then put out what it puts out with more input. -/
lemma Steps.prefix {u : σ} {out' : List β} (h : p.Steps s xs t out) (hs : I s)
    (hlen : held s + (xs ++ ys).length < bound) (h' : p.Steps s (xs ++ ys) u out') :
    out <+: out' := by
  induction h generalizing out' with
  | wait => exact List.nil_prefix
  | @next s s' t xs rest out out'' hstep _ ih =>
    rw [List.length_append] at hlen
    obtain ⟨hs', hheld, -⟩ := (hp.resumesAt _ hs).next_inv (by omega) hstep
    have hnext := (hp.resumesAt _ hs).next_append hstep ys (by rw [List.length_append]; exact hlen)
    cases h' with
    | wait hstep' =>
      rw [hnext] at hstep'
      cases hstep'
    | next hstep' hrest =>
      rw [hnext] at hstep'
      obtain ⟨rfl, rfl, rfl⟩ := Progress.next.inj hstep'
      exact (List.prefix_append_right_inj out).mpr
        (ih hs' (by rw [List.length_append]; omega) hrest)

lemma exists_receiveAll (wss : List (List α)) (hs : I s)
    (hlen : held s + wss.flatten.length < bound) :
    ∃ t out, p.receiveAll s wss = some (t, out) ∧ I t := by
  induction wss generalizing s with
  | nil => exact ⟨s, [], rfl, hs⟩
  | cons ws wss ih =>
    rw [List.flatten_cons, List.length_append] at hlen
    obtain ⟨s', o, hfirst⟩ := exists_steps hp hs (show held s + ws.length < bound by omega)
    obtain ⟨hs', hheld⟩ := hfirst.invariant hp hs (by omega)
    obtain ⟨t, out, hrest, ht⟩ := ih hs' (by omega)
    refine ⟨t, o ++ out, ?_, ht⟩
    unfold receiveAll
    rw [hfirst.receive hp hs (by omega)]
    dsimp only
    rw [hrest]
    rfl

/-- On states that keep at most `kept` of their input, parts that leave room for it can come without
end. -/
lemma exists_receiveAll_kept {kept : Nat} (hkept : ∀ s, I s → held s ≤ kept) (wss : List (List α))
    (hs : I s) (hlen : ∀ ws ∈ wss, kept + ws.length < bound) :
    ∃ t out, p.receiveAll s wss = some (t, out) ∧ I t := by
  induction wss generalizing s with
  | nil => exact ⟨s, [], rfl, hs⟩
  | cons ws wss ih =>
    obtain ⟨hws, hwss⟩ := List.forall_mem_cons.mp hlen
    have hs' := hkept s hs
    obtain ⟨s', o, hfirst⟩ := exists_steps hp hs (show held s + ws.length < bound by omega)
    obtain ⟨t, out, hrest, ht⟩ := ih (hfirst.invariant hp hs (by omega)).1 hwss
    refine ⟨t, o ++ out, ?_, ht⟩
    unfold receiveAll
    rw [hfirst.receive hp hs (by omega)]
    dsimp only
    rw [hrest]
    rfl

/-- Receiving parts in turn, without failing on one, is receiving all of them at once; and a process
that fails on a part has put out a part of what it puts out on the whole. -/
theorem receiveAll_steps {wss : List (List α)} (hs : I s) (hidle : p.step s [] = .wait s)
    (hlen : held s + wss.flatten.length < bound) (h : p.receiveAll s wss = some (t, out)) :
    (¬failed t → p.Steps s wss.flatten t out) ∧
      ∀ u out', p.Steps s wss.flatten u out' → out <+: out' := by
  induction wss generalizing s out with
  | nil =>
    obtain ⟨rfl, rfl⟩ := Prod.mk.inj (Option.some.inj h)
    exact ⟨fun _ => .wait hidle, fun _ _ _ => List.nil_prefix⟩
  | cons ws wss ih =>
    rw [List.flatten_cons] at hlen ⊢
    have hle := hlen
    rw [List.length_append] at hle
    obtain ⟨s', o, out', hfirst, hrest, rfl⟩ := receiveAll_cons h
    by_cases hs'ok : failed s'
    · obtain ⟨rfl, rfl⟩ := receiveAll_of_failed hp.failed_step hrest hs'ok
      rw [List.append_nil]
      exact ⟨fun ht => absurd hs'ok ht, fun u out' hu => hfirst.prefix hp hs hlen hu⟩
    · obtain ⟨hs', hheld⟩ := hfirst.invariant hp hs (by omega)
      have hidle' := hfirst.idle hp hs hs'ok (by omega)
      obtain ⟨hsteps, hpre⟩ := ih hs' hidle' (by omega) hrest
      refine ⟨fun ht => hfirst.append hp hs hs'ok hlen (hsteps ht), fun u out'' hu => ?_⟩
      obtain ⟨v, o', hv⟩ := exists_steps hp hs' (show _ + wss.flatten.length < bound by omega)
      obtain ⟨-, rfl⟩ := hu.unique hp (hfirst.append hp hs hs'ok hlen hv) hs hlen
      exact (List.prefix_append_right_inj o).mpr (hpre v o' hv)

/-- A process fails on parts exactly when it fails on the first of them at once. -/
theorem receiveAll_failed_iff {wss : List (List α)} (hs : I s) (hidle : p.step s [] = .wait s)
    (hlen : held s + wss.flatten.length < bound) (h : p.receiveAll s wss = some (t, out)) :
    failed t ↔ ∃ pre u o, pre <+: wss ∧ p.Steps s pre.flatten u o ∧ failed u := by
  constructor
  · intro ht
    induction wss generalizing s out with
    | nil =>
      obtain ⟨rfl, rfl⟩ := Prod.mk.inj (Option.some.inj h)
      exact ⟨[], s, [], List.prefix_rfl, .wait hidle, ht⟩
    | cons ws wss ih =>
      rw [List.flatten_cons, List.length_append] at hlen
      obtain ⟨s', o, out', hfirst, hrest, rfl⟩ := receiveAll_cons h
      by_cases hs' : failed s'
      · refine ⟨[ws], s', o, (List.prefix_cons_inj ws).mpr List.nil_prefix, ?_, hs'⟩
        rwa [List.flatten_singleton]
      · obtain ⟨hI, hheld⟩ := hfirst.invariant hp hs (by omega)
        obtain ⟨pre, u, o', hpre, hsteps, hu⟩ :=
          ih hI (hfirst.idle hp hs hs' (by omega)) (by omega) hrest
        have hle : pre.flatten.length ≤ wss.flatten.length := by
          obtain ⟨suf, rfl⟩ := hpre
          rw [List.flatten_append, List.length_append]
          exact Nat.le_add_right _ _
        refine ⟨ws :: pre, u, o ++ o', (List.prefix_cons_inj ws).mpr hpre, ?_, hu⟩
        rw [List.flatten_cons]
        exact hfirst.append hp hs hs' (by rw [List.length_append]; omega) hsteps
  · rintro ⟨pre, u, o, ⟨suf, rfl⟩, hsteps, hu⟩
    rw [List.flatten_append, List.length_append] at hlen
    obtain ⟨s', o', o'', hpre, hsuf, rfl⟩ := receiveAll_append h
    have hs' : failed s' := by
      by_contra hopen
      have hsame := (receiveAll_steps hp hs hidle (by omega) hpre).1 hopen
      obtain ⟨rfl, -⟩ := hsame.unique hp hsteps hs (by omega)
      exact hopen hu
    obtain ⟨rfl, -⟩ := receiveAll_of_failed hp.failed_step hsuf hs'
    exact hs'

end Resumes

/-! ### Processes that fail more often -/

/-- `q` takes every step that `p` takes, except where `p` fails. -/
structure Extends (q p : Process σ α β) (failed : σ → Prop) : Prop where
  fuel : ∀ s xs, q.fuel s xs = p.fuel s xs
  step : ∀ s xs, q.step s xs = p.step s xs ∨ ∃ t, failed t ∧ p.step s xs = .wait t
  failed_step : ∀ {s}, failed s → ∀ xs, p.step s xs = .wait s

section Extends

variable {q : Process σ α β} {failed : σ → Prop} (hq : q.Extends p failed) {s t : σ}
  {xs : List α} {out : List β}

include hq

lemma Extends.run {fuel : Nat} (h : p.run fuel s xs = some (t, out)) :
    (¬failed t → q.run fuel s xs = some (t, out)) ∧
      ∀ u out', q.run fuel s xs = some (u, out') → out <+: out' := by
  induction fuel generalizing s xs out with
  | zero => cases h
  | succ fuel ih =>
    rw [Process.run] at h
    cases hstep : p.step s xs with
    | wait s' =>
      rw [hstep] at h
      obtain ⟨rfl, rfl⟩ := Prod.mk.inj (Option.some.inj h)
      refine ⟨fun ht => ?_, fun _ _ _ => List.nil_prefix⟩
      obtain hsame | ⟨t', ht', hwait⟩ := hq.step s xs
      · rw [Process.run, hsame, hstep]
      · obtain rfl := Progress.wait.inj (hstep.symm.trans hwait)
        exact absurd ht' ht
    | next s' rest o =>
      rw [hstep] at h
      obtain ⟨r, hr, heq⟩ := Option.map_eq_some_iff.mp h
      obtain ⟨rfl, rfl⟩ := Prod.mk.inj heq
      have hsame : q.step s xs = .next s' rest o := by
        obtain hsame | ⟨t', -, hwait⟩ := hq.step s xs
        · rw [hsame, hstep]
        · cases hstep.symm.trans hwait
      obtain ⟨hopen, hlead⟩ := ih hr
      rw [Process.run, hsame]
      constructor
      · intro ht
        dsimp only
        rw [hopen ht]
        rfl
      · intro u out' hu
        obtain ⟨r', hr', heq'⟩ := Option.map_eq_some_iff.mp hu
        obtain ⟨rfl, rfl⟩ := Prod.mk.inj heq'
        exact (List.prefix_append_right_inj o).mpr (hlead _ _ hr')

/-- What `p` makes of its input without failing, `q` makes of it; and what `p` puts out before it
fails, `q` puts out first. -/
theorem Extends.receiveAll {wss : List (List α)} (h : p.receiveAll s wss = some (t, out)) :
    (¬failed t → q.receiveAll s wss = some (t, out)) ∧
      ∀ u out', q.receiveAll s wss = some (u, out') → out <+: out' := by
  induction wss generalizing s out with
  | nil =>
    obtain ⟨rfl, rfl⟩ := Prod.mk.inj (Option.some.inj h)
    exact ⟨fun _ => rfl, fun _ _ _ => List.nil_prefix⟩
  | cons ws wss ih =>
    rw [Process.receiveAll] at h
    rw [Process.receiveAll]
    cases hr : p.receive s ws with
    | none =>
      rw [hr] at h
      cases h
    | some r =>
      rw [hr] at h
      obtain ⟨r', hrest, heq⟩ := Option.map_eq_some_iff.mp h
      obtain ⟨rfl, rfl⟩ := Prod.mk.inj heq
      obtain ⟨hopen, hlead⟩ := hq.run hr
      rw [← hq.fuel] at hopen hlead
      by_cases hmid : failed r.1
      · obtain ⟨hlast, hnil⟩ := receiveAll_of_failed hq.failed_step hrest hmid
        rw [hnil, List.append_nil, hlast]
        refine ⟨fun ht => absurd hmid ht, fun u out' hu => ?_⟩
        cases hr' : q.receive s ws with
        | none =>
          rw [hr'] at hu
          cases hu
        | some r'' =>
          rw [hr'] at hu
          obtain ⟨v, -, heq'⟩ := Option.map_eq_some_iff.mp hu
          obtain ⟨-, rfl⟩ := Prod.mk.inj heq'
          exact (hlead _ _ hr').trans (List.prefix_append _ _)
      · obtain ⟨hopen', hlead'⟩ := ih hrest
        have hfirst : q.receive s ws = some (r.1, r.2) := hopen hmid
        rw [hfirst]
        constructor
        · intro ht
          dsimp only
          rw [hopen' ht]
          rfl
        · intro u out' hu
          obtain ⟨v, hv, heq'⟩ := Option.map_eq_some_iff.mp hu
          obtain ⟨rfl, rfl⟩ := Prod.mk.inj heq'
          exact (List.prefix_append_right_inj r.2).mpr (hlead' _ _ hv)

end Extends

end Process

end Resumable
