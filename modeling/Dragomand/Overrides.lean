import Mathlib.Data.List.Nodup
import Mathlib.Data.List.Perm.Basic
import Mathlib.Logic.Function.Basic
import Mathlib.Tactic.TypeStar

/-!
# Overriding some keys of a function

`override f l` is `f` with the keys of `l` given the values they have there,
one after the other, so that the last value of a key counts. A list that
gives no key two values (`Consistent`) may be gone through in any order, and
two lists that give no key different values (`Compatible`) commute.
-/

namespace Overrides

variable {κ β : Type*} [DecidableEq κ] {f g : κ → β} {l l' : List (κ × β)} {k : κ} {v : β}

def override (f : κ → β) (l : List (κ × β)) : κ → β :=
  l.foldl (fun f entry => Function.update f entry.1 entry.2) f

/-- No key has two values. -/
def Consistent (l : List (κ × β)) : Prop :=
  ∀ k v w, (k, v) ∈ l → (k, w) ∈ l → v = w

/-- No key has one value here and another one there. -/
def Compatible (l l' : List (κ × β)) : Prop :=
  ∀ k v w, (k, v) ∈ l → (k, w) ∈ l' → v = w

@[simp] theorem override_nil (f : κ → β) : override f [] = f := rfl

theorem override_cons (f : κ → β) (k : κ) (v : β) (l : List (κ × β)) :
    override f ((k, v) :: l) = override (Function.update f k v) l := rfl

theorem override_append (f : κ → β) (l l' : List (κ × β)) :
    override f (l ++ l') = override (override f l) l' :=
  List.foldl_append

omit [DecidableEq κ] in
theorem consistent_of_nodup (h : (l.map Prod.fst).Nodup) : Consistent l := by
  intro k v w hv hw
  exact congrArg Prod.snd (List.inj_on_of_nodup_map h hv hw rfl)

/-- A key that the list does not have keeps its value, and one that it has
gets a value from the list. -/
theorem override_cases (f : κ → β) (l : List (κ × β)) (k : κ) :
    (k ∉ l.map Prod.fst ∧ override f l k = f k) ∨ (k, override f l k) ∈ l := by
  induction l generalizing f with
  | nil => exact Or.inl ⟨List.not_mem_nil, rfl⟩
  | cons entry rest ih =>
      obtain ⟨key, value⟩ := entry
      rw [override_cons]
      rcases ih (Function.update f key value) with ⟨hnot, heq⟩ | hmem
      · by_cases hkey : k = key
        · subst hkey
          rw [heq, Function.update_self]
          exact Or.inr (List.mem_cons_self ..)
        · rw [heq, Function.update_of_ne hkey]
          refine Or.inl ⟨fun hmem => ?_, rfl⟩
          rcases List.mem_cons.mp hmem with h | h
          · exact hkey h
          · exact hnot h
      · exact Or.inr (List.mem_cons_of_mem _ hmem)

theorem override_of_not_mem (h : k ∉ l.map Prod.fst) : override f l k = f k := by
  rcases override_cases f l k with ⟨-, heq⟩ | hmem
  · exact heq
  · exact absurd (List.mem_map_of_mem hmem) h

theorem override_of_mem (hl : Consistent l) (h : (k, v) ∈ l) : override f l k = v := by
  rcases override_cases f l k with ⟨hnot, -⟩ | hmem
  · exact absurd (List.mem_map_of_mem h) hnot
  · exact hl _ _ _ hmem h

/-- What a key of the list gets does not depend on what it had. -/
theorem override_eq_of_key (h : k ∈ l.map Prod.fst) : override f l k = override g l k := by
  induction l generalizing f g with
  | nil => exact absurd h List.not_mem_nil
  | cons entry rest ih =>
      obtain ⟨key, value⟩ := entry
      rw [override_cons, override_cons]
      by_cases hrest : k ∈ rest.map Prod.fst
      · exact ih hrest
      · obtain rfl : k = key := (List.mem_cons.mp h).resolve_right hrest
        rw [override_of_not_mem hrest, override_of_not_mem hrest, Function.update_self,
          Function.update_self]

/-- Only the values of the keys that the list leaves alone matter. -/
theorem override_congr (h : ∀ k, k ∉ l.map Prod.fst → f k = g k) :
    override f l = override g l := by
  funext k
  by_cases hk : k ∈ l.map Prod.fst
  · exact override_eq_of_key hk
  · rw [override_of_not_mem hk, override_of_not_mem hk, h k hk]

theorem override_perm (hl : Consistent l) (h : l.Perm l') : override f l = override f l' := by
  funext k
  rcases override_cases f l' k with ⟨hnot, heq⟩ | hmem
  · rw [heq, override_of_not_mem]
    exact fun hk => hnot ((h.map Prod.fst).mem_iff.mp hk)
  · exact override_of_mem hl (h.mem_iff.mpr hmem)

theorem override_comm (h : Compatible l l') :
    override (override f l) l' = override (override f l') l := by
  funext k
  by_cases hk : k ∈ l.map Prod.fst
  · rw [override_eq_of_key (g := f) hk]
    rcases override_cases (override f l) l' k with ⟨-, heq⟩ | hmem'
    · exact heq
    · rcases override_cases f l k with ⟨hnot, -⟩ | hmem
      · exact absurd hk hnot
      · exact (h _ _ _ hmem hmem').symm
  · rw [override_of_not_mem hk]
    by_cases hk' : k ∈ l'.map Prod.fst
    · exact override_eq_of_key hk'
    · rw [override_of_not_mem hk', override_of_not_mem hk', override_of_not_mem hk]

/-- Values that are there already change nothing. -/
theorem override_of_agree (h : ∀ k v, (k, v) ∈ l → f k = v) : override f l = f := by
  funext k
  rcases override_cases f l k with ⟨-, heq⟩ | hmem
  · exact heq
  · exact (h _ _ hmem).symm

end Overrides
