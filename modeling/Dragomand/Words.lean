import Mathlib.Data.List.TakeDrop

/-!
# Words

White space as the standard library has it, and `str::split_whitespace` as
the command line and the plugins use it: the words of a text, and what the first
word of a line is.
-/

namespace Dragomand

/-- `char::is_whitespace`: the characters with Unicode's White_Space. -/
def is_whitespace (c : Char) : Bool :=
  let n := c.toNat
  (9 ≤ n && n ≤ 13) || n == 0x20 || n == 0x85 || n == 0xa0 || n == 0x1680
    || (0x2000 ≤ n && n ≤ 0x200a) || n == 0x2028 || n == 0x2029 || n == 0x202f
    || n == 0x205f || n == 0x3000

/-- `str::split_whitespace`. -/
def split_whitespace (text : List Char) : List (List Char) :=
  (text.splitOnP is_whitespace).filter fun word => !word.isEmpty

/-- A text that begins with a word and a blank has that word first. -/
theorem split_whitespace_word {word rest : List Char} {blank : Char} (hne : word ≠ [])
    (hword : ∀ c ∈ word, is_whitespace c = false) (hblank : is_whitespace blank = true) :
    split_whitespace (word ++ blank :: rest) = word :: split_whitespace rest := by
  rw [split_whitespace, List.splitOnP_append_cons_of_forall_mem hword blank hblank,
    List.filter_cons_of_pos, split_whitespace]
  rw [Bool.not_eq_true', List.isEmpty_eq_false_iff]
  exact hne

/-! ## Pieces with a separator between them -/

theorem intercalate_concat {sep piece : List Char} {pieces : List (List Char)} (hne : pieces ≠ []) :
    sep.intercalate (pieces ++ [piece]) = sep.intercalate pieces ++ sep ++ piece := by
  induction pieces with
  | nil => exact absurd rfl hne
  | cons first pieces ih =>
      cases pieces with
      | nil => simp
      | cons second pieces =>
          rw [List.cons_append, List.intercalate_cons_of_ne_nil (by simp), ih (List.cons_ne_nil _ _),
            List.intercalate_cons_of_ne_nil (List.cons_ne_nil _ _)]
          simp

theorem mem_intercalate {sep c : Char} {pieces : List (List Char)}
    (h : c ∈ [sep].intercalate pieces) : c = sep ∨ ∃ piece ∈ pieces, c ∈ piece := by
  induction pieces with
  | nil => cases h
  | cons first pieces ih =>
      cases pieces with
      | nil => exact Or.inr ⟨first, List.mem_cons_self, by simpa using h⟩
      | cons second pieces =>
          rw [List.intercalate_cons_cons, List.mem_append, List.mem_append,
            List.mem_singleton] at h
          rcases h with (h | h) | h
          · exact Or.inr ⟨first, List.mem_cons_self, h⟩
          · exact Or.inl h
          · rcases ih h with h | ⟨piece, hpiece, hc⟩
            · exact Or.inl h
            · exact Or.inr ⟨piece, List.mem_cons_of_mem _ hpiece, hc⟩

theorem notMem_of_mem_splitOn {sep : Char} {text : List Char} :
    ∀ piece ∈ text.splitOn sep, sep ∉ piece := by
  induction text with
  | nil => simp
  | cons c text ih =>
      intro piece hpiece
      rw [List.splitOn_cons_eq_if_modifyHead] at hpiece
      split at hpiece
      · rcases List.mem_cons.mp hpiece with rfl | hpiece
        · simp
        · exact ih piece hpiece
      · rename_i hc
        cases hsplit : text.splitOn sep with
        | nil => exact absurd hsplit (List.splitOn_ne_nil _ _)
        | cons first pieces =>
            rw [hsplit] at hpiece ih
            rcases List.mem_cons.mp hpiece with rfl | hpiece
            · intro hsep
              rcases List.mem_cons.mp hsep with rfl | hsep
              · simp at hc
              · exact ih first List.mem_cons_self hsep
            · exact ih piece (List.mem_cons_of_mem _ hpiece)

end Dragomand
