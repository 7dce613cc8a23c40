import Mathlib.Tactic.Lemma
import Mathlib.Tactic.TypeStar

/-!
# Clients of an interface

A client calls an interface and goes on with what each call returns. An implementation with a state
implements a function of the calls when its state is known from the calls made so far and no call
fails; then no client can tell the two apart.
-/

namespace Clients

/-- A program that calls: it ends with a value, or goes on with the result of a call. -/
inductive Client (κ ρ α : Type) where
  | done (a : α)
  | call (c : κ) (next : ρ → Client κ ρ α)

namespace Client

variable {κ ρ α σ : Type}

/-- The client on an implementation; `none` when a call fails. -/
def run (impl : σ → κ → Option (σ × ρ)) : Client κ ρ α → σ → Option (σ × α)
  | .done a, s => some (s, a)
  | .call c next, s => (impl s c).bind fun r => (next r.2).run impl r.1

/-- The client on a function of the calls. -/
def value (f : κ → ρ) : Client κ ρ α → α
  | .done a => a
  | .call c next => (next (f c)).value f

/-- The calls that the client makes when they are answered by a function. -/
def calls (f : κ → ρ) : Client κ ρ α → List κ
  | .done _ => []
  | .call c next => c :: (next (f c)).calls f

end Client

/-- An implementation of a function of the calls, with its state after each sequence of calls. -/
structure Implements {κ ρ σ : Type} (impl : σ → κ → Option (σ × ρ)) (f : κ → ρ)
    (after : List κ → σ) : Prop where
  call : ∀ made c, impl (after made) c = some (after (made ++ [c]), f c)

variable {κ ρ α σ : Type} {impl : σ → κ → Option (σ × ρ)} {f : κ → ρ} {after : List κ → σ}

lemma Implements.run_after (h : Implements impl f after) (client : Client κ ρ α) (made : List κ) :
    client.run impl (after made) = some (after (made ++ client.calls f), client.value f) := by
  induction client generalizing made with
  | done a => rw [Client.run, Client.calls, List.append_nil, Client.value]
  | call c next ih =>
    rw [Client.run, h.call, Option.bind_some, ih, List.append_assoc]
    rfl

end Clients
