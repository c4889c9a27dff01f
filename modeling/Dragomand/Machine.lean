import Mathlib.Tactic.TypeStar

/-!
# Partial machines and their runs

A machine is a partial step function: an event that is not enabled in a
state has no successor. `Reach step ok s₀` is the set of states that runs
from `s₀` visit when every step of the run meets `ok`; with `ok` true
everywhere it is plain reachability, and a narrower `ok` restricts the
environment (which calls arrive, which races are lost) without touching
the machine.

Invariants come from `Reach.invariant`, one induction for all machines;
`Reach.project` transports runs along a map that forgets part of a state;
`Inevitable` says that every run comes to something;
`run` executes an event list, so that a concrete run is evaluated rather
than derived step by step (`exists_reach_of_run`).
-/

namespace Machine

variable {σ τ ε ε' : Type*}

/-- Executes the events in turn; `none` as soon as one of them is not
enabled or does not meet `ok`. -/
def run (step : σ → ε → Option σ) (ok : σ → ε → Prop)
    [∀ s e, Decidable (ok s e)] : σ → List ε → Option σ
  | s, [] => some s
  | s, e :: es =>
      if ok s e then (step s e).bind fun s' => run step ok s' es else none

/-- The states visited by runs from `s₀` all of whose steps meet `ok`. -/
inductive Reach (step : σ → ε → Option σ) (ok : σ → ε → Prop) (s₀ : σ) : σ → Prop
  | init : Reach step ok s₀ s₀
  | tail {s : σ} {e : ε} {s' : σ} :
      Reach step ok s₀ s → ok s e → step s e = some s' → Reach step ok s₀ s'

/-- No restriction on the steps of a run. -/
abbrev anyStep : σ → ε → Prop := fun _ _ => True

variable {step : σ → ε → Option σ} {ok : σ → ε → Prop} {s₀ s s' : σ}

/-- A property of the start that every allowed step preserves holds in
every state visited. The step may use that its source is reachable. -/
theorem Reach.invariant {I : σ → Prop} (hreach : Reach step ok s₀ s)
    (hinit : I s₀)
    (hstep : ∀ s e s', Reach step ok s₀ s → ok s e → step s e = some s' → I s → I s') :
    I s := by
  induction hreach with
  | init => exact hinit
  | tail hpre hok hs ih => exact hstep _ _ _ hpre hok hs ih

theorem Reach.mono {ok' : σ → ε → Prop} (h : ∀ s e, ok s e → ok' s e)
    (hreach : Reach step ok s₀ s) : Reach step ok' s₀ s := by
  induction hreach with
  | init => exact .init
  | tail _ hok hs ih => exact .tail ih (h _ _ hok) hs

theorem Reach.trans (h : Reach step ok s₀ s) (h' : Reach step ok s s') :
    Reach step ok s₀ s' := by
  induction h' with
  | init => exact h
  | tail _ hok hs ih => exact .tail ih hok hs

theorem Reach.one {e : ε} (hok : ok s e) (hs : step s e = some s') :
    Reach step ok s s' :=
  .tail .init hok hs

/-- Runs project along `f` when every step projects to a run (usually of
no step or of one) of the other machine. -/
theorem Reach.project {step' : τ → ε' → Option τ} {ok' : τ → ε' → Prop} {f : σ → τ}
    (h : ∀ s e s', Reach step ok s₀ s → ok s e → step s e = some s' →
      Reach step' ok' (f s) (f s'))
    (hreach : Reach step ok s₀ s) : Reach step' ok' (f s₀) (f s) := by
  induction hreach with
  | init => exact .init
  | tail hpre hok hs ih => exact ih.trans (h _ _ _ hpre hok hs)

theorem Reach.cases_head (h : Reach step ok s₀ s) :
    s = s₀ ∨ ∃ e s₁, ok s₀ e ∧ step s₀ e = some s₁ ∧ Reach step ok s₁ s := by
  induction h with
  | init => exact Or.inl rfl
  | tail _ hok hs ih =>
      rcases ih with rfl | ⟨e, s₁, hok₁, hs₁, hreach⟩
      · exact Or.inr ⟨_, _, hok, hs, .init⟩
      · exact Or.inr ⟨e, s₁, hok₁, hs₁, .tail hreach hok hs⟩

/-! ## What every run comes to -/

/-- Every run comes to a state with `P`: none goes on for ever, and none
stops before. -/
inductive Inevitable (step : σ → ε → Option σ) (ok : σ → ε → Prop) (P : σ → Prop) : σ → Prop
  | here {s : σ} (h : P s) : Inevitable step ok P s
  | next {s : σ} (hgoes : ∃ e s', ok s e ∧ step s e = some s')
      (h : ∀ e s', ok s e → step s e = some s' → Inevitable step ok P s') :
      Inevitable step ok P s

variable {P Q : σ → Prop}

theorem Inevitable.exists_reach (h : Inevitable step ok P s₀) : ∃ s, Reach step ok s₀ s ∧ P s := by
  induction h with
  | here h => exact ⟨_, .init, h⟩
  | next hgoes _ ih =>
      obtain ⟨e, s', hok, hs⟩ := hgoes
      obtain ⟨s'', hreach, hP⟩ := ih e s' hok hs
      exact ⟨s'', (Reach.one hok hs).trans hreach, hP⟩

/-- No step is allowed. -/
def Stuck (step : σ → ε → Option σ) (ok : σ → ε → Prop) (s : σ) : Prop :=
  ∀ e s', ok s e → step s e ≠ some s'

/-- Where every run stops at what it comes to, a run that has stopped has
come to it. -/
theorem Inevitable.of_stuck (h : Inevitable step ok P s₀) (hstuck : ∀ s, P s → Stuck step ok s)
    (hreach : Reach step ok s₀ s) (hend : Stuck step ok s) : P s := by
  induction h with
  | here h =>
      rcases hreach.cases_head with rfl | ⟨e, s₁, hok, hs, -⟩
      · exact h
      · exact absurd hs (hstuck _ h e s₁ hok)
  | next hgoes _ ih =>
      rcases hreach.cases_head with rfl | ⟨e, s₁, hok, hs, hreach⟩
      · obtain ⟨e, s', hok, hs⟩ := hgoes
        exact absurd hs (hend e s' hok)
      · exact ih e s₁ hok hs hreach

/-- What it comes to may be strengthened by what holds of what is reached. -/
theorem Inevitable.imp_reach (h : Inevitable step ok P s₀)
    (hPQ : ∀ s, Reach step ok s₀ s → P s → Q s) : Inevitable step ok Q s₀ := by
  induction h with
  | here h => exact .here (hPQ _ .init h)
  | next hgoes _ ih =>
      exact .next hgoes fun e s' hok hs =>
        ih e s' hok hs fun s hreach => hPQ s ((Reach.one hok hs).trans hreach)

/-- Where an invariant gives every state without `P` an allowed step, and
every such step lowers the rank, every run comes to `P`. -/
theorem Inevitable.of_rank {I : σ → Prop} (rank : σ → Nat)
    (hstep : ∀ s e s', I s → ok s e → step s e = some s' → I s')
    (hgoes : ∀ s, I s → ¬ P s → ∃ e s', ok s e ∧ step s e = some s')
    (hrank : ∀ s e s', I s → ¬ P s → ok s e → step s e = some s' → rank s' < rank s)
    (hI : I s₀) : Inevitable step ok P s₀ := by
  induction h : rank s₀ using Nat.strongRecOn generalizing s₀ with
  | ind n ih =>
      by_cases hP : P s₀
      · exact .here hP
      · exact .next (hgoes s₀ hI hP) fun e s' hok hs =>
          ih _ (h ▸ hrank s₀ e s' hI hP hok hs) (hstep s₀ e s' hI hok hs) rfl

/-! ## Executed runs -/

theorem Reach.of_run [∀ s e, Decidable (ok s e)] :
    ∀ {es : List ε} {s : σ}, run step ok s es = some s' → Reach step ok s s'
  | [], s, h => by
      obtain rfl : s = s' := Option.some.inj h
      exact .init
  | e :: es, s, h => by
      rw [run] at h
      split at h
      · rename_i hok
        obtain ⟨s₁, hs₁, hrest⟩ := Option.bind_eq_some_iff.mp h
        exact (Reach.one hok hs₁).trans (Reach.of_run hrest)
      · cases h

/-- A run that executes and ends in a state with property `p` witnesses a
reachable state with `p`. -/
theorem exists_reach_of_run (step : σ → ε → Option σ) (ok : σ → ε → Prop) (s₀ : σ)
    [∀ s e, Decidable (ok s e)] (es : List ε) (p : σ → Bool)
    (h : (run step ok s₀ es).any p = true) : ∃ s, Reach step ok s₀ s ∧ p s = true := by
  cases hs : run step ok s₀ es with
  | none => rw [hs] at h; cases h
  | some s =>
      rw [hs] at h
      exact ⟨s, Reach.of_run hs, h⟩

end Machine
