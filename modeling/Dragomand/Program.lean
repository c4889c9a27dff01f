import Mathlib.Tactic.TypeStar

/-!
# Programs with effects

An asynchronous function, as the tree of what it asks of its surroundings:
`op i next` asks `i` and goes on with the answer, `done` returns or fails.
Whoever runs the program answers one `op` at a time, so that other
programs may act in between; the program itself never sees a state.

`Meets` is the contract of a program on its own: a history that every
answer extends, a precondition that every `op` meets at the time it is
asked, and a postcondition. Contracts compose along `bind`
(`meets_bind`), and a program that meets its contract keeps doing so
whatever it is answered (`Meets.next`).
-/

inductive Prog {ι : Type} (ρ : ι → Type) (ε α : Type)
  | done (result : Except ε α)
  | op (i : ι) (next : ρ i → Prog ρ ε α)

namespace Prog

variable {ι ε α β : Type} {ρ : ι → Type}

/-- Sequencing; an error ends the program. -/
def bind : Prog ρ ε α → (α → Prog ρ ε β) → Prog ρ ε β
  | done (.ok a), f => f a
  | done (.error e), _ => done (.error e)
  | op i next, f => op i fun answer => (next answer).bind f

instance : Monad (Prog ρ ε) where
  pure a := done (.ok a)
  bind := bind

/-- Asks `i` and returns the answer. -/
def ask (i : ι) : Prog ρ ε (ρ i) := op i fun answer => done (.ok answer)

def throw (e : ε) : Prog ρ ε α := done (.error e)

/-! ## Contracts -/

section Contract

variable {σ : Type*}

/-- With the history `s` so far, every `op` of the program meets `pre`, and
its result `post`. -/
def Meets (pre : σ → ι → Prop) (update : σ → (i : ι) → ρ i → σ)
    (post : σ → Except ε α → Prop) : σ → Prog ρ ε α → Prop
  | s, done result => post s result
  | s, op i next =>
      pre s i ∧ ∀ answer, Meets pre update post (update s i answer) (next answer)

variable {pre : σ → ι → Prop} {update : σ → (i : ι) → ρ i → σ}
  {post : σ → Except ε α → Prop} {s : σ}

@[simp] theorem meets_done {result : Except ε α} :
    Meets pre update post s (done result : Prog ρ ε α) ↔ post s result :=
  Iff.rfl

@[simp] theorem meets_pure {a : α} :
    Meets pre update post s (pure a : Prog ρ ε α) ↔ post s (.ok a) :=
  Iff.rfl

@[simp] theorem meets_throw {e : ε} :
    Meets pre update post s (throw e : Prog ρ ε α) ↔ post s (.error e) :=
  Iff.rfl

@[simp] theorem meets_ask {i : ι} {post : σ → Except ε (ρ i) → Prop} :
    Meets pre update post s (ask i)
      ↔ pre s i ∧ ∀ answer, post (update s i answer) (.ok answer) :=
  Iff.rfl

/-- What is left of the program after an answer meets what is left of the
contract. -/
theorem Meets.next {i : ι} {next : ρ i → Prog ρ ε α}
    (h : Meets pre update post s (op i next)) (answer : ρ i) :
    Meets pre update post (update s i answer) (next answer) :=
  h.2 answer

@[simp] theorem meets_bind {post : σ → Except ε β → Prop} {f : α → Prog ρ ε β}
    {p : Prog ρ ε α} :
    Meets pre update post s (p >>= f)
      ↔ Meets pre update (fun s result => match result with
          | .ok a => Meets pre update post s (f a)
          | .error e => post s (.error e)) s p := by
  show Meets pre update post s (p.bind f) ↔ _
  induction p generalizing s with
  | done result => cases result <;> exact Iff.rfl
  | op i next ih =>
      show pre s i ∧ _ ↔ pre s i ∧ _
      exact and_congr_right fun _ => forall_congr' fun answer => ih answer

theorem Meets.mono {post' : σ → Except ε α → Prop} {p : Prog ρ ε α}
    (h : Meets pre update post s p) (hpost : ∀ s result, post s result → post' s result) :
    Meets pre update post' s p := by
  induction p generalizing s with
  | done result => exact hpost s result h
  | op i next ih => exact ⟨h.1, fun answer => ih answer (h.2 answer)⟩

end Contract

end Prog
