import Mathlib.Data.List.Basic
import Dragomand.Machine

/-!
# Unwinding

Two runs of one machine that an observer drives alike, whatever others do
in between. `Unwinding` asks of a relation between states what each single
step has to keep: a step of somebody else on either side, and a step of the
observer taken on both. `Unwinding.trace` is the statement for whole runs:
those with the same events of the observer end in related states.
-/

namespace Machine

variable {σ ε : Type*}

/-- A run with its events. -/
inductive Trace (step : σ → ε → Option σ) (ok : σ → ε → Prop) : σ → List ε → σ → Prop
  | nil {s : σ} : Trace step ok s [] s
  | cons {s s₁ s' : σ} {e : ε} {es : List ε} (hok : ok s e) (hs : step s e = some s₁)
      (h : Trace step ok s₁ es s') : Trace step ok s (e :: es) s'

variable {step : σ → ε → Option σ} {ok : σ → ε → Prop} {s t s' t' : σ}

/-- `R` survives what others do on either side, and what the observer does
on both. -/
structure Unwinding (step : σ → ε → Option σ) (ok : σ → ε → Prop) (mine : ε → Bool)
    (R : σ → σ → Prop) : Prop where
  left : ∀ {s t s' e}, R s t → mine e = false → ok s e → step s e = some s' → R s' t
  right : ∀ {s t t' e}, R s t → mine e = false → ok t e → step t e = some t' → R s t'
  both : ∀ {s t s' t' e}, R s t → mine e = true → ok s e → step s e = some s' → ok t e →
    step t e = some t' → R s' t'

variable {mine : ε → Bool} {R : σ → σ → Prop}

/-- A run up to the observer's next event. -/
theorem Unwinding.next (hu : Unwinding step ok mine R) {es : List ε}
    (h : Trace step ok t es t') (hR : R s t) {e : ε} {rest : List ε}
    (hes : es.filter mine = e :: rest) :
    ∃ t₁ t₂ post, R s t₁ ∧ ok t₁ e ∧ step t₁ e = some t₂ ∧ Trace step ok t₂ post t'
      ∧ post.filter mine = rest := by
  induction h with
  | nil => cases hes
  | @cons t t₂ t' e' es hok hs h ih =>
      cases hmine : mine e' with
      | true =>
          rw [List.filter_cons_of_pos hmine] at hes
          obtain ⟨rfl, rfl⟩ := List.cons.inj hes
          exact ⟨t, t₂, es, hR, hok, hs, h, rfl⟩
      | false =>
          rw [List.filter_cons_of_neg (by simp [hmine])] at hes
          exact ih (hu.right hR hmine hok hs) hes

/-- A run without the observer. -/
theorem Unwinding.idle (hu : Unwinding step ok mine R) {es : List ε}
    (h : Trace step ok t es t') (hR : R s t) (hes : es.filter mine = []) : R s t' := by
  induction h with
  | nil => exact hR
  | @cons t t₂ t' e es hok hs h ih =>
      have hnone := List.filter_eq_nil_iff.mp hes
      have hmine : mine e = false := Bool.eq_false_iff.mpr (hnone e (List.mem_cons_self ..))
      refine ih (hu.right hR hmine hok hs) ?_
      rwa [List.filter_cons_of_neg (by simp [hmine])] at hes

/-- **The unwinding theorem**: runs with the same events of the observer. -/
theorem Unwinding.trace (hu : Unwinding step ok mine R) {es es' : List ε}
    (h : Trace step ok s es s') (h' : Trace step ok t es' t') (hR : R s t)
    (hes : es.filter mine = es'.filter mine) : R s' t' := by
  induction h generalizing t es' with
  | nil => exact hu.idle h' hR hes.symm
  | @cons s s₁ s' e es hok hs h ih =>
      cases hmine : mine e with
      | true =>
          rw [List.filter_cons_of_pos hmine] at hes
          obtain ⟨t₁, t₂, post, hR₁, hok', hs', hpost, hrest⟩ := hu.next h' hR hes.symm
          exact ih hpost (hu.both hR₁ hmine hok hs hok' hs') hrest.symm
      | false =>
          rw [List.filter_cons_of_neg (by simp [hmine])] at hes
          exact ih h' (hu.left hR hmine hok hs) hes

end Machine
