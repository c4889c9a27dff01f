import Dragomand.Records

/-!
# Filter expressions

The language of `filter_expression` as a grammar with its values, and
`filter_matches` against it. The evaluator splits at every `||` and every
`&&`; between them no literal has either, so the pieces are the terms of the
grammar (`expr_iff`). What comes after a false term of a clause is not
read, though, so that a malformed term there goes unnoticed:
`filter_matches` fails closed exactly when no term is malformed, or one is
that only true terms of its clause stand before.
-/

namespace Dragomand

/-! ## The grammar -/

/-- Whitespace only. -/
def Blank (text : List Char) : Prop := ∀ c ∈ text, is_whitespace c = true

/-- Nowhere does `c` stand twice. -/
def NoTwice (c : Char) (text : List Char) : Prop := ¬ [c, c] <:+: text

inductive Field (env : FilterEnv) : List Char → String → Prop
  | channel : Field env "env.channel".toList env.channel
  | os : Field env "env.appinfo.OS".toList env.os

/-- Whether it negates. -/
inductive Operator : List Char → Bool → Prop
  | eq : Operator "==".toList false
  | ne : Operator "!=".toList true

/-- A comparison, with its value. -/
inductive Term (env : FilterEnv) : List Char → Bool → Prop
  | intro {w₁ w₂ w₃ w₄ field op literal : List Char} {value : String} {negate : Bool}
      (hw₁ : Blank w₁) (hw₂ : Blank w₂) (hw₃ : Blank w₃) (hw₄ : Blank w₄)
      (hfield : Field env field value) (hop : Operator op negate)
      (hquote : '\'' ∉ literal) (hand : NoTwice '&' literal) (hor : NoTwice '|' literal) :
      Term env (w₁ ++ (field ++ (w₂ ++ (op ++ (w₃ ++ '\'' :: (literal ++ '\'' :: w₄))))))
        (decide (value.toList = literal) != negate)

inductive Clause (env : FilterEnv) : List Char → Bool → Prop
  | term {t : List Char} {b : Bool} (ht : Term env t b) : Clause env t b
  | and {t rest : List Char} {b b' : Bool} (ht : Term env t b) (hrest : Clause env rest b') :
      Clause env (t ++ '&' :: '&' :: rest) (b && b')

/-- `&&` binds tighter than `||`. -/
inductive Expr (env : FilterEnv) : List Char → Bool → Prop
  | clause {c : List Char} {b : Bool} (hc : Clause env c b) : Expr env c b
  | or {c rest : List Char} {b b' : Bool} (hc : Clause env c b) (hrest : Expr env rest b') :
      Expr env (c ++ '|' :: '|' :: rest) (b || b')

/-! ## Whitespace -/

section Trim

variable {text w w' : List Char}

theorem trim_start_blank (hw : Blank w) : trim_start (w ++ text) = trim_start text :=
  List.dropWhile_append_of_pos hw

theorem trim_start_head {c : Char} (hc : is_whitespace c = false) :
    trim_start (c :: text) = c :: text :=
  List.dropWhile_cons_of_neg (by simp [hc])

theorem blank_reverse (hw : Blank w) : Blank w.reverse :=
  fun c hc => hw c (List.mem_reverse.mp hc)

theorem exists_trim_start (text : List Char) :
    ∃ w, Blank w ∧ text = w ++ trim_start text :=
  ⟨text.takeWhile is_whitespace, fun c hc => List.all_eq_true.mp List.all_takeWhile c hc,
    List.takeWhile_append_dropWhile.symm⟩

theorem exists_trim (text : List Char) :
    ∃ w w', Blank w ∧ Blank w' ∧ text = w ++ (trim text ++ w') := by
  obtain ⟨w, hw, htext⟩ := exists_trim_start text
  obtain ⟨w', hw', hrev⟩ := exists_trim_start (trim_start text).reverse
  refine ⟨w, w'.reverse, hw, blank_reverse hw', ?_⟩
  have hback := congrArg List.reverse hrev
  rw [List.reverse_reverse, List.reverse_append] at hback
  rw [trim, ← hback]
  exact htext

/-- What begins and ends in other characters stays. -/
theorem trim_eq {c c' : Char} (middle : List Char) (hw : Blank w) (hw' : Blank w')
    (hc : is_whitespace c = false) (hc' : is_whitespace c' = false) :
    trim (w ++ (c :: (middle ++ c' :: w'))) = c :: (middle ++ [c']) := by
  rw [trim, trim_start_blank hw, trim_start_head hc]
  have hrev : (c :: (middle ++ c' :: w')).reverse
      = w'.reverse ++ (c' :: (middle.reverse ++ [c])) := by simp
  rw [hrev, trim_start_blank (blank_reverse hw'), trim_start_head hc']
  simp

theorem trim_blank (hw : Blank w) : trim w = [] := by
  have hstart : trim_start w = [] := by
    have h := @trim_start_blank [] _ hw
    rwa [List.append_nil] at h
  rw [trim, hstart]
  rfl

theorem blank_iff : Blank text ↔ trim text = [] := by
  refine ⟨trim_blank, fun h => ?_⟩
  obtain ⟨w, w', hw, hw', htext⟩ := exists_trim text
  rw [h, List.nil_append] at htext
  intro c hc
  rw [htext] at hc
  rcases List.mem_append.mp hc with hc | hc
  · exact hw c hc
  · exact hw' c hc

/-- Whitespace around a text changes nothing. -/
theorem trim_around (hw : Blank w) (hw' : Blank w') :
    trim (w ++ (text ++ w')) = trim text := by
  by_cases hblank : Blank text
  · rw [trim_blank hblank]
    refine trim_blank fun c hc => ?_
    simp only [List.mem_append] at hc
    rcases hc with hc | hc | hc
    · exact hw c hc
    · exact hblank c hc
    · exact hw' c hc
  · have hstart : trim_start (text ++ w') = trim_start text ++ w' := by
      unfold trim_start
      rw [List.dropWhile_append, if_neg]
      simp only [List.isEmpty_iff]
      intro hempty
      refine hblank fun c hc => ?_
      rw [← List.takeWhile_append_dropWhile (p := is_whitespace) (l := text), hempty,
        List.append_nil] at hc
      exact List.all_eq_true.mp List.all_takeWhile c hc
    rw [trim, trim_start_blank hw, hstart, List.reverse_append,
      trim_start_blank (blank_reverse hw')]
    rfl

end Trim

/-! ## Terms -/

section Terms

variable {env : FilterEnv}

/-- The value of the field a term begins with, and the rest. -/
def readField (env : FilterEnv) (term : List Char) : Option (String × List Char) :=
  match term.dropPrefix? "env.channel".toList with
  | some rest => some (env.channel, rest)
  | none => (term.dropPrefix? "env.appinfo.OS".toList).map fun rest => (env.os, rest)

/-- The operator a text begins with, and the rest. -/
def readOperator (text : List Char) : Option (Bool × List Char) :=
  match text.dropPrefix? "==".toList with
  | some rest => some (false, rest)
  | none => (text.dropPrefix? "!=".toList).map fun rest => (true, rest)

def readLiteral (text : List Char) : Option (List Char) :=
  (text.dropPrefix? ['\'']).bind fun rest => rest.dropSuffix? ['\'']

theorem eval_term_eq (term : List Char) : eval_term term env = (readField env term).bind
    fun field => (readOperator (trim_start field.2)).bind fun op =>
      (readLiteral (trim op.2)).bind fun literal =>
        if '\'' ∈ literal then none else some (decide (field.1.toList = literal) != op.1) := by
  unfold eval_term readField
  cases term.dropPrefix? "env.channel".toList with
  | some rest =>
      unfold readOperator
      dsimp only [Option.bind_eq_bind, Option.bind_some]
      cases (trim_start rest).dropPrefix? "==".toList <;> rfl
  | none =>
      cases term.dropPrefix? "env.appinfo.OS".toList with
      | none => rfl
      | some rest =>
          unfold readOperator
          dsimp only [Option.map_some, Option.bind_eq_bind, Option.bind_some]
          cases (trim_start rest).dropPrefix? "==".toList <;> rfl

theorem operator_of_read {text rest : List Char} {negate : Bool}
    (h : readOperator text = some (negate, rest)) : ∃ op, Operator op negate ∧ text = op ++ rest := by
  unfold readOperator at h
  split at h
  · rename_i hdrop
    obtain ⟨op, rfl, hop⟩ := List.dropPrefix?_eq_some_iff.mp hdrop
    obtain rfl := eq_of_beq hop
    cases h
    exact ⟨_, .eq, rfl⟩
  · obtain ⟨rest₁, hdrop, heq⟩ := Option.map_eq_some_iff.mp h
    obtain ⟨op, rfl, hop⟩ := List.dropPrefix?_eq_some_iff.mp hdrop
    obtain rfl := eq_of_beq hop
    cases heq
    exact ⟨_, .ne, rfl⟩

theorem read_of_operator {op rest : List Char} {negate : Bool} (h : Operator op negate) :
    readOperator (op ++ rest) = some (negate, rest) := by
  unfold readOperator
  cases h with
  | eq => rw [List.dropPrefix?_append_of_beq _ (beq_self_eq_true _)]
  | ne =>
      have hnone : ("!=".toList ++ rest).dropPrefix? "==".toList = none := by
        simp [List.dropPrefix?]
      rw [hnone, List.dropPrefix?_append_of_beq _ (beq_self_eq_true _)]
      rfl

theorem field_of_read {term rest : List Char} {value : String}
    (h : readField env term = some (value, rest)) :
    ∃ field, Field env field value ∧ term = field ++ rest := by
  unfold readField at h
  split at h
  · rename_i hdrop
    obtain ⟨field, rfl, hfield⟩ := List.dropPrefix?_eq_some_iff.mp hdrop
    obtain rfl := eq_of_beq hfield
    cases h
    exact ⟨_, .channel, rfl⟩
  · obtain ⟨rest₁, hdrop, heq⟩ := Option.map_eq_some_iff.mp h
    obtain ⟨field, rfl, hfield⟩ := List.dropPrefix?_eq_some_iff.mp hdrop
    obtain rfl := eq_of_beq hfield
    cases heq
    exact ⟨_, .os, rfl⟩

theorem read_of_field {field rest : List Char} {value : String} (h : Field env field value) :
    readField env (field ++ rest) = some (value, rest) := by
  unfold readField
  cases h with
  | channel => rw [List.dropPrefix?_append_of_beq _ (beq_self_eq_true _)]
  | os =>
      have hnone : ("env.appinfo.OS".toList ++ rest).dropPrefix? "env.channel".toList = none := by
        simp [List.dropPrefix?]
      rw [hnone, List.dropPrefix?_append_of_beq _ (beq_self_eq_true _)]
      rfl

theorem quoted_of_read {rest literal : List Char} (h : readLiteral rest = some literal) :
    rest = '\'' :: (literal ++ ['\'']) := by
  obtain ⟨rest₁, hdrop, hsuffix⟩ := Option.bind_eq_some_iff.mp h
  obtain ⟨quote, rfl, hquote⟩ := List.dropPrefix?_eq_some_iff.mp hdrop
  obtain ⟨quote', rfl, hquote'⟩ := List.dropSuffix?_eq_some_iff.mp hsuffix
  obtain rfl := eq_of_beq hquote
  obtain rfl := eq_of_beq hquote'
  rfl

theorem read_of_quoted {literal : List Char} :
    readLiteral ('\'' :: (literal ++ ['\''])) = some literal := by
  unfold readLiteral
  rw [show ('\'' :: (literal ++ ['\''])).dropPrefix? ['\''] = some (literal ++ ['\'']) from by
    simp [List.dropPrefix?]]
  exact List.dropSuffix?_eq_some_iff.mpr ⟨['\''], rfl, beq_self_eq_true _⟩

theorem field_head {field : List Char} {value : String} (h : Field env field value) :
    ∃ rest, field = 'e' :: rest := by
  cases h with
  | channel => exact ⟨"nv.channel".toList, by decide⟩
  | os => exact ⟨"nv.appinfo.OS".toList, by decide⟩

theorem operator_head {op : List Char} {negate : Bool} (h : Operator op negate) :
    ∃ c rest, op = c :: rest ∧ is_whitespace c = false := by
  cases h with
  | eq => exact ⟨'=', ['='], by decide, by decide⟩
  | ne => exact ⟨'!', ['='], by decide, by decide⟩

/-- The evaluator reads the terms of the grammar. -/
theorem eval_of_term {t : List Char} {b : Bool} (h : Term env t b) :
    eval_term (trim t) env = some b := by
  obtain ⟨hw₁, hw₂, hw₃, hw₄, hfield, hop, hquote, -, -⟩ := h
  rename_i w₁ w₂ w₃ w₄ field op literal value negate
  obtain ⟨rest, hrest⟩ := field_head hfield
  obtain ⟨c, oprest, hoprest, hc⟩ := operator_head hop
  have htrim : trim (w₁ ++ (field ++ (w₂ ++ (op ++ (w₃ ++ '\'' :: (literal ++ '\'' :: w₄))))))
      = field ++ (w₂ ++ (op ++ (w₃ ++ '\'' :: (literal ++ ['\''])))) := by
    have h := trim_eq (rest ++ (w₂ ++ (op ++ (w₃ ++ '\'' :: literal)))) hw₁ hw₄
      (show is_whitespace 'e' = false by decide) (show is_whitespace '\'' = false by decide)
    rw [hrest]
    simpa using h
  have hstart : trim_start (w₂ ++ (op ++ (w₃ ++ '\'' :: (literal ++ ['\'']))))
      = op ++ (w₃ ++ '\'' :: (literal ++ ['\''])) := by
    rw [trim_start_blank hw₂, hoprest, List.cons_append, trim_start_head hc]
  have hliteral : trim (w₃ ++ '\'' :: (literal ++ ['\''])) = '\'' :: (literal ++ ['\'']) :=
    trim_eq _ hw₃ (show Blank [] by simp [Blank]) (by decide) (by decide)
  rw [eval_term_eq, htrim, read_of_field hfield, Option.bind_some, hstart, read_of_operator hop,
    Option.bind_some, hliteral, read_of_quoted, Option.bind_some, if_neg hquote]

/-- It reads nothing else, in a text without separators. -/
theorem term_of_eval {t : List Char} {b : Bool} (hand : NoTwice '&' t) (hor : NoTwice '|' t)
    (h : eval_term (trim t) env = some b) : Term env t b := by
  rw [eval_term_eq] at h
  obtain ⟨⟨value, rest⟩, hfield, h⟩ := Option.bind_eq_some_iff.mp h
  obtain ⟨⟨negate, rest'⟩, hop, h⟩ := Option.bind_eq_some_iff.mp h
  obtain ⟨literal, hliteral, h⟩ := Option.bind_eq_some_iff.mp h
  obtain ⟨field, hfield, hterm⟩ := field_of_read hfield
  obtain ⟨op, hop, hstart⟩ := operator_of_read hop
  have hquoted := quoted_of_read hliteral
  split at h
  · cases h
  · rename_i hquote
    cases h
    obtain ⟨w₁, w₄, hw₁, hw₄, ht⟩ := exists_trim t
    obtain ⟨w₂, hw₂, hrest⟩ := exists_trim_start rest
    obtain ⟨w₃, w₅, hw₃, hw₅, hrest'⟩ := exists_trim rest'
    have htext : t = w₁ ++ (field ++ (w₂ ++ (op ++ (w₃ ++ '\'' ::
        (literal ++ '\'' :: (w₅ ++ w₄)))))) := by
      rw [ht, hterm, hrest, hstart, hrest', hquoted]
      simp
    have hsub : literal <:+: t := by
      rw [htext]
      exact ⟨w₁ ++ field ++ w₂ ++ op ++ w₃ ++ ['\''], '\'' :: (w₅ ++ w₄), by simp⟩
    rw [htext]
    refine .intro hw₁ hw₂ hw₃ ?_ hfield hop hquote (fun h => hand (h.trans hsub))
      (fun h => hor (h.trans hsub))
    intro c hc
    rcases List.mem_append.mp hc with hc | hc
    · exact hw₅ c hc
    · exact hw₄ c hc

end Terms

/-! ## Splitting -/

section Split

variable {c : Char}

theorem noTwice_cons {x : Char} {text : List Char} :
    NoTwice c (x :: text) ↔ ¬ (x = c ∧ text.head? = some c) ∧ NoTwice c text := by
  unfold NoTwice
  rw [List.infix_cons_iff, not_or, List.cons_prefix_cons]
  refine and_congr_left fun _ => not_congr ?_
  cases text with
  | nil => simp
  | cons y text =>
      rw [List.cons_prefix_cons]
      simp [eq_comm]

theorem noTwice_of_not_mem {text : List Char} (h : c ∉ text) : NoTwice c text :=
  fun hsub => h (hsub.subset (List.mem_cons_self ..))

/-- Another character keeps two texts apart. -/
theorem noTwice_append_cons {a b : List Char} {x : Char} (hx : x ≠ c) :
    NoTwice c (a ++ x :: b) ↔ NoTwice c a ∧ NoTwice c b := by
  induction a with
  | nil =>
      have hnil : NoTwice c [] := noTwice_of_not_mem (by simp)
      simp [noTwice_cons, hx, hnil]
  | cons y a ih =>
      rw [List.cons_append, noTwice_cons, noTwice_cons, ih, and_assoc]
      refine and_congr_left fun _ => not_congr ?_
      cases a with
      | nil => simp [hx]
      | cons z a => rfl

theorem noTwice_singleton (x : Char) : NoTwice c [x] := fun h => absurd h.length_le (by simp)

theorem noTwice_concat {text : List Char} (h : c ∉ text) : NoTwice c (text ++ [c]) := by
  induction text with
  | nil => exact noTwice_singleton c
  | cons x text ih =>
      obtain ⟨hx, htext⟩ := not_or.mp (fun hmem => h (List.mem_cons.mpr hmem))
      rw [List.cons_append, noTwice_cons]
      exact ⟨fun hboth => hx hboth.1.symm, ih htext⟩

theorem splitTwice_ne_nil (text : List Char) : splitTwice c text ≠ [] := by
  fun_induction splitTwice c text with
  | case1 => simp
  | case2 => simp
  | case3 => simp
  | case4 => simp
  | case5 => simp

theorem splitTwice_cons {x : Char} {text : List Char} (h : ¬ (x = c ∧ text.head? = some c)) :
    splitTwice c (x :: text) = (splitTwice c text).modifyHead (x :: ·) := by
  cases text with
  | nil => rfl
  | cons y text =>
      rw [splitTwice, if_neg (by simpa using h)]
      split
      · rename_i hnil
        exact absurd hnil (splitTwice_ne_nil _)
      · rename_i hpieces
        rw [hpieces]
        rfl

theorem splitTwice_twice {text : List Char} :
    splitTwice c (c :: c :: text) = [] :: splitTwice c text := by
  rw [splitTwice, if_pos ⟨rfl, rfl⟩]

theorem splitTwice_eq_singleton {text : List Char} (h : NoTwice c text) :
    splitTwice c text = [text] := by
  induction text with
  | nil => rfl
  | cons x text ih =>
      obtain ⟨hx, htext⟩ := noTwice_cons.mp h
      rw [splitTwice_cons hx, ih htext]
      rfl

/-- The first separator ends the first piece. -/
theorem splitTwice_append {text rest : List Char} (h : NoTwice c (text ++ [c])) :
    splitTwice c (text ++ c :: c :: rest) = text :: splitTwice c rest := by
  induction text with
  | nil => exact splitTwice_twice
  | cons x text ih =>
      obtain ⟨hx, htext⟩ := noTwice_cons.mp h
      have hhead : (text ++ c :: c :: rest).head? = (text ++ [c]).head? := by
        cases text <;> rfl
      rw [List.cons_append, splitTwice_cons (by rwa [hhead]), ih htext]
      rfl

theorem splitTwice_spec (c : Char) (text : List Char) :
    ∃ piece pieces, splitTwice c text = piece :: pieces ∧ piece <+: text
      ∧ [c, c].intercalate (piece :: pieces) = text
      ∧ ∀ p ∈ piece :: pieces, NoTwice c p ∧ p <:+: text := by
  match text with
  | [] => exact ⟨[], [], rfl, by simp, rfl, by simp [NoTwice]⟩
  | [x] =>
      exact ⟨[x], [], rfl, by simp, rfl, by simp [noTwice_singleton]⟩
  | x :: y :: rest =>
      by_cases h : x = c ∧ y = c
      · obtain ⟨piece, pieces, hsplit, -, hjoin, hall⟩ := splitTwice_spec c rest
        rw [h.1, h.2]
        refine ⟨[], piece :: pieces, by rw [splitTwice_twice, hsplit], List.nil_prefix .., ?_, ?_⟩
        · rw [List.intercalate_cons_cons, hjoin]
          rfl
        · refine List.forall_mem_cons.mpr ⟨⟨by simp [NoTwice], List.nil_infix ..⟩, fun p hp => ?_⟩
          have hrest : rest <:+: c :: c :: rest := ⟨[c, c], [], by simp⟩
          exact ⟨(hall p hp).1, (hall p hp).2.trans hrest⟩
      · obtain ⟨piece, pieces, hsplit, hprefix, hjoin, hall⟩ := splitTwice_spec c (y :: rest)
        have hcons := @splitTwice_cons _ _ (y :: rest) (by simpa using h)
        rw [hsplit] at hcons
        obtain ⟨hpiece, hpieces⟩ := List.forall_mem_cons.mp hall
        refine ⟨x :: piece, pieces, hcons, List.cons_prefix_cons.mpr ⟨rfl, hprefix⟩, ?_, ?_⟩
        · cases pieces with
          | nil => rw [List.intercalate_singleton] at hjoin ⊢; rw [hjoin]
          | cons p pieces =>
              rw [List.intercalate_cons_cons] at hjoin ⊢
              rw [List.cons_append, List.cons_append, hjoin]
        · refine List.forall_mem_cons.mpr ⟨⟨noTwice_cons.mpr ⟨?_, hpiece.1⟩, ?_⟩, fun p hp => ?_⟩
          · rintro ⟨hx, hhead⟩
            refine h ⟨hx, ?_⟩
            cases piece with
            | nil => cases hhead
            | cons z piece =>
                have hz := (List.cons_prefix_cons.mp hprefix).1
                rw [← hz]
                exact Option.some.inj hhead
          · exact (List.cons_prefix_cons.mpr ⟨rfl, hprefix⟩ : x :: piece <+: x :: y :: rest).isInfix
          · exact ⟨(hpieces p hp).1, (hpieces p hp).2.trans (List.suffix_cons ..).isInfix⟩

/-- What follows without the separator belongs to the last piece. -/
theorem splitTwice_concat {c : Char} {w : List Char} (hw : c ∉ w) (text : List Char) :
    ∃ init last, splitTwice c text = init ++ [last]
      ∧ splitTwice c (text ++ w) = init ++ [last ++ w] := by
  match text with
  | [] => exact ⟨[], [], rfl, splitTwice_eq_singleton (noTwice_of_not_mem hw)⟩
  | [x] =>
      refine ⟨[], [x], rfl, splitTwice_eq_singleton (noTwice_cons.mpr ⟨?_, noTwice_of_not_mem hw⟩)⟩
      rintro ⟨-, hhead⟩
      exact hw (List.mem_of_mem_head? hhead)
  | x :: y :: rest =>
      by_cases h : x = c ∧ y = c
      · obtain ⟨init, last, hsplit, hsplit'⟩ := splitTwice_concat hw rest
        rw [h.1, h.2]
        refine ⟨[] :: init, last, by rw [splitTwice_twice, hsplit]; rfl, ?_⟩
        rw [List.cons_append, List.cons_append, splitTwice_twice, hsplit']
        rfl
      · obtain ⟨init, last, hsplit, hsplit'⟩ := splitTwice_concat hw (y :: rest)
        have hx : ¬ (x = c ∧ (y :: rest).head? = some c) := by simpa using h
        have hx' : ¬ (x = c ∧ (y :: rest ++ w).head? = some c) := by simpa using h
        rw [List.cons_append, splitTwice_cons hx, splitTwice_cons hx', hsplit, hsplit']
        cases init with
        | nil => exact ⟨[], x :: last, rfl, rfl⟩
        | cons p init => exact ⟨(x :: p) :: init, last, rfl, rfl⟩

/-- Whitespace around a text does not change what is made of its pieces, if
it does not around a piece. -/
theorem map_splitTwice {α : Type} {f : List Char → α} (hc : is_whitespace c = false)
    (hf : ∀ t w w', Blank w → Blank w' → f (w ++ (t ++ w')) = f t) {text w w' : List Char}
    (hw : Blank w) (hw' : Blank w') :
    (splitTwice c (w ++ (text ++ w'))).map f = (splitTwice c text).map f := by
  have hmem : ∀ {w}, Blank w → c ∉ w := by
    intro w hw hmem
    rw [hw c hmem] at hc
    cases hc
  have hfront : ∀ {w} {text : List Char}, Blank w →
      (splitTwice c (w ++ text)).map f = (splitTwice c text).map f := by
    intro w text hw
    induction w with
    | nil => rfl
    | cons a w ih =>
        obtain ⟨ha, hw⟩ := List.forall_mem_cons.mp hw
        have hne : a ≠ c := by
          rintro rfl
          rw [ha] at hc
          cases hc
        rw [← ih hw, List.cons_append, splitTwice_cons fun h => hne h.1]
        cases splitTwice c (w ++ text) with
        | nil => rfl
        | cons p pieces =>
            have hp := hf p [a] [] (by simpa [Blank] using ha) (by simp [Blank])
            rw [List.append_nil] at hp
            rw [List.modifyHead_cons, List.map_cons, List.map_cons]
            exact congrArg (· :: _) hp
  rw [hfront hw]
  obtain ⟨init, last, hsplit, hsplit'⟩ := splitTwice_concat (hmem hw') text
  have hlast := hf last [] w' (by simp [Blank]) hw'
  rw [hsplit, hsplit', List.map_append, List.map_append, List.map_singleton, List.map_singleton]
  exact congrArg (fun x => _ ++ [x]) hlast

end Split

/-! ## The evaluator against the grammar -/

section Evaluate

variable {env : FilterEnv}

theorem blank_ne {w : List Char} (hw : Blank w) {c : Char} (hc : is_whitespace c = false) :
    c ∉ w := by
  intro hmem
  rw [hw c hmem] at hc
  cases hc

/-- A term has no separator, nor half of one at its end. -/
theorem noTwice_term {t : List Char} {b : Bool} (h : Term env t b) {c : Char}
    (hc : c = '&' ∨ c = '|') : NoTwice c (t ++ [c]) := by
  obtain ⟨hw₁, hw₂, hw₃, hw₄, hfield, hop, -, hand, hor⟩ := h
  rename_i w₁ w₂ w₃ w₄ field op literal value negate
  have hblank : is_whitespace c = false := by rcases hc with rfl | rfl <;> decide
  have hquote : '\'' ≠ c := by rcases hc with rfl | rfl <;> decide
  have hfieldc : c ∉ field := by
    cases hfield with
    | channel => rcases hc with rfl | rfl <;> decide
    | os => rcases hc with rfl | rfl <;> decide
  have hopc : c ∉ op := by
    cases hop with
    | eq => rcases hc with rfl | rfl <;> decide
    | ne => rcases hc with rfl | rfl <;> decide
  have hliteral : NoTwice c literal := by
    rcases hc with rfl | rfl
    · exact hand
    · exact hor
  have hbefore : c ∉ w₁ ++ (field ++ (w₂ ++ (op ++ w₃))) := by
    simp only [List.mem_append, not_or]
    exact ⟨blank_ne hw₁ hblank, hfieldc, blank_ne hw₂ hblank, hopc, blank_ne hw₃ hblank⟩
  have hsplit : w₁ ++ (field ++ (w₂ ++ (op ++ (w₃ ++ '\'' :: (literal ++ '\'' :: w₄))))) ++ [c]
      = (w₁ ++ (field ++ (w₂ ++ (op ++ w₃)))) ++ '\'' :: (literal ++ '\'' :: (w₄ ++ [c])) := by
    simp
  rw [hsplit, noTwice_append_cons hquote, noTwice_append_cons hquote]
  exact ⟨noTwice_of_not_mem hbefore, hliteral, noTwice_concat (blank_ne hw₄ hblank)⟩

theorem NoTwice.of_concat {c : Char} {text : List Char} (h : NoTwice c (text ++ [c])) :
    NoTwice c text :=
  fun hsub => h (hsub.trans ⟨[], [c], rfl⟩)

theorem noTwice_clause {t : List Char} {b : Bool} (h : Clause env t b) :
    NoTwice '|' (t ++ ['|']) := by
  induction h with
  | term ht => exact noTwice_term ht (Or.inr rfl)
  | and ht hrest ih =>
      rw [List.append_assoc, List.cons_append, List.cons_append,
        noTwice_append_cons (by decide)]
      refine ⟨(noTwice_term ht (Or.inr rfl)).of_concat, ?_⟩
      exact noTwice_cons.mpr ⟨fun h => absurd h.1 (by decide), ih⟩

theorem allTerms_cons {t : List Char} {terms : List (List Char)} {b : Bool}
    (h : eval_term (trim t) env = some b) :
    allTerms env (t :: terms) = if b then allTerms env terms else some false := by
  rw [allTerms, h]
  rfl

theorem anyClause_cons {c : List Char} {clauses : List (List Char)} :
    anyClause env (c :: clauses) = (allTerms env (splitTwice '&' c)).bind fun all_terms =>
      (anyClause env clauses).bind fun any_clause => some (all_terms || any_clause) := rfl

/-- A clause has its value. -/
theorem allTerms_of_clause {t : List Char} {b : Bool} (h : Clause env t b) :
    allTerms env (splitTwice '&' t) = some b := by
  induction h with
  | @term t b ht =>
      rw [splitTwice_eq_singleton (noTwice_term ht (Or.inl rfl)).of_concat,
        allTerms_cons (eval_of_term ht)]
      cases b <;> rfl
  | @and t rest b b' ht hrest ih =>
      rw [splitTwice_append (noTwice_term ht (Or.inl rfl)), allTerms_cons (eval_of_term ht), ih]
      cases b <;> rfl

theorem anyClause_of_expr {e : List Char} {b : Bool} (h : Expr env e b) :
    anyClause env (splitTwice '|' e) = some b := by
  induction h with
  | @clause c b hc =>
      rw [splitTwice_eq_singleton (noTwice_clause hc).of_concat, anyClause_cons,
        allTerms_of_clause hc]
      simp [anyClause]
  | @or c rest b b' hc hrest ih =>
      rw [splitTwice_append (noTwice_clause hc), anyClause_cons, allTerms_of_clause hc, ih]
      rfl

theorem allTerms_congr : ∀ {l l' : List (List Char)},
    (l.map fun t => eval_term (trim t) env) = (l'.map fun t => eval_term (trim t) env) →
      allTerms env l = allTerms env l'
  | [], l', h => by rw [List.map_eq_nil_iff.mp h.symm]
  | t :: l, [], h => by cases h
  | t :: l, t' :: l', h => by
      obtain ⟨ht, hl⟩ := List.cons.inj h
      have ht : eval_term (trim t) env = eval_term (trim t') env := ht
      rw [allTerms, allTerms, ht, allTerms_congr hl]

theorem anyClause_congr : ∀ {l l' : List (List Char)},
    (l.map fun c => allTerms env (splitTwice '&' c))
      = (l'.map fun c => allTerms env (splitTwice '&' c)) → anyClause env l = anyClause env l'
  | [], l', h => by rw [List.map_eq_nil_iff.mp h.symm]
  | c :: l, [], h => by cases h
  | c :: l, c' :: l', h => by
      obtain ⟨hc, hl⟩ := List.cons.inj h
      have hc : allTerms env (splitTwice '&' c) = allTerms env (splitTwice '&' c') := hc
      rw [anyClause_cons, anyClause_cons, hc, anyClause_congr hl]

theorem anyClause_trim (e : List Char) :
    anyClause env (splitTwice '|' (trim e)) = anyClause env (splitTwice '|' e) := by
  have hterms : ∀ t w w', Blank w → Blank w' →
      allTerms env (splitTwice '&' (w ++ (t ++ w'))) = allTerms env (splitTwice '&' t) := by
    intro t w w' hw hw'
    refine allTerms_congr (map_splitTwice (by decide) (fun t w w' hw hw' => ?_) hw hw')
    rw [trim_around hw hw']
  obtain ⟨w, w', hw, hw', he⟩ := exists_trim e
  conv_rhs => rw [he]
  exact anyClause_congr (map_splitTwice (by decide) hterms hw hw').symm

theorem filter_matches_eq (e : String) : filter_matches (some e) env
    = if trim e.toList = [] then some true else anyClause env (splitTwice '|' e.toList) := by
  unfold filter_matches
  dsimp only [Option.getD_some]
  simp only [List.isEmpty_iff, anyClause_trim]

/-! ## What is malformed -/

/-- The terms of each clause. -/
def clauses (e : List Char) : List (List (List Char)) := (splitTwice '|' e).map (splitTwice '&')

variable (env) in
def WellFormed (t : List Char) : Prop := ∃ b, Term env t b

theorem pieces_noTwice {e : List Char} {clause : List (List Char)} (hclause : clause ∈ clauses e)
    {t : List Char} (ht : t ∈ clause) : NoTwice '&' t ∧ NoTwice '|' t := by
  obtain ⟨c, hc, rfl⟩ := List.mem_map.mp hclause
  obtain ⟨piece, pieces, hsplit, -, -, hall⟩ := splitTwice_spec '|' e
  obtain ⟨piece', pieces', hsplit', -, -, hall'⟩ := splitTwice_spec '&' c
  rw [hsplit] at hc
  rw [hsplit'] at ht
  obtain ⟨hand, hsub⟩ := hall' t ht
  exact ⟨hand, fun h => (hall c hc).1 (h.trans hsub)⟩

/-- Well-formed pieces make a clause. -/
theorem clause_of_terms : ∀ {t : List Char} {terms : List (List Char)},
    (∀ t' ∈ t :: terms, WellFormed env t') →
      ∃ b, Clause env (['&', '&'].intercalate (t :: terms)) b
  | t, [], h => by
      obtain ⟨b, ht⟩ := h t (List.mem_cons_self ..)
      exact ⟨b, by rw [List.intercalate_singleton]; exact .term ht⟩
  | t, t' :: terms, h => by
      obtain ⟨b, ht⟩ := h t (List.mem_cons_self ..)
      obtain ⟨b', hrest⟩ := clause_of_terms fun t hmem => h t (List.mem_cons_of_mem _ hmem)
      refine ⟨b && b', ?_⟩
      rw [List.intercalate_cons_cons, List.append_assoc]
      exact .and ht hrest

theorem expr_of_clauses : ∀ {c : List Char} {rest : List (List Char)},
    (∀ c' ∈ c :: rest, ∃ b, Clause env c' b) →
      ∃ b, Expr env (['|', '|'].intercalate (c :: rest)) b
  | c, [], h => by
      obtain ⟨b, hc⟩ := h c (List.mem_cons_self ..)
      exact ⟨b, by rw [List.intercalate_singleton]; exact .clause hc⟩
  | c, c' :: rest, h => by
      obtain ⟨b, hc⟩ := h c (List.mem_cons_self ..)
      obtain ⟨b', hrest⟩ := expr_of_clauses fun c hmem => h c (List.mem_cons_of_mem _ hmem)
      refine ⟨b || b', ?_⟩
      rw [List.intercalate_cons_cons, List.append_assoc]
      exact .or hc hrest

theorem terms_of_clause {c : List Char} {b : Bool} (h : Clause env c b) :
    ∀ t ∈ splitTwice '&' c, WellFormed env t := by
  induction h with
  | @term t b ht =>
      rw [splitTwice_eq_singleton (noTwice_term ht (Or.inl rfl)).of_concat]
      exact List.forall_mem_singleton.mpr ⟨b, ht⟩
  | @and t rest b b' ht hrest ih =>
      rw [splitTwice_append (noTwice_term ht (Or.inl rfl))]
      exact List.forall_mem_cons.mpr ⟨⟨b, ht⟩, ih⟩

theorem terms_of_expr {e : List Char} {b : Bool} (h : Expr env e b) :
    ∀ c ∈ splitTwice '|' e, ∀ t ∈ splitTwice '&' c, WellFormed env t := by
  induction h with
  | clause hc =>
      rw [splitTwice_eq_singleton (noTwice_clause hc).of_concat]
      exact List.forall_mem_singleton.mpr (terms_of_clause hc)
  | or hc hrest ih =>
      rw [splitTwice_append (noTwice_clause hc)]
      exact List.forall_mem_cons.mpr ⟨terms_of_clause hc, ih⟩

/-- The sentences are the texts whose terms are all well formed. -/
theorem expr_iff {e : List Char} :
    (∃ b, Expr env e b) ↔ ∀ clause ∈ clauses e, ∀ t ∈ clause, WellFormed env t := by
  unfold clauses
  rw [List.forall_mem_map]
  constructor
  · rintro ⟨b, h⟩
    exact terms_of_expr h
  · intro h
    obtain ⟨c, rest, hsplit, -, hjoin, -⟩ := splitTwice_spec '|' e
    rw [hsplit] at h
    rw [← hjoin]
    refine expr_of_clauses fun c hc => ?_
    obtain ⟨t, terms, hsplit', -, hjoin', -⟩ := splitTwice_spec '&' c
    have hterms := h c hc
    rw [hsplit'] at hterms
    rw [← hjoin']
    exact clause_of_terms hterms

/-- A malformed term is noticed if only true ones stand before it. -/
def Noticed (env : FilterEnv) (terms : List (List Char)) : Prop :=
  ∃ before t after, terms = before ++ t :: after ∧ ¬ WellFormed env t
    ∧ ∀ t' ∈ before, Term env t' true

theorem allTerms_eq_none : ∀ {terms : List (List Char)},
    (∀ t ∈ terms, NoTwice '&' t ∧ NoTwice '|' t) →
      (allTerms env terms = none ↔ Noticed env terms)
  | [], _ => by
      refine iff_of_false nofun ?_
      rintro ⟨before, t, after, h, -⟩
      simp at h
  | t :: terms, hsep => by
      obtain ⟨⟨hand, hor⟩, hrest⟩ := List.forall_mem_cons.mp hsep
      have hcons : Noticed env (t :: terms) ↔ ¬ WellFormed env t
          ∨ (Term env t true ∧ Noticed env terms) := by
        constructor
        · rintro ⟨before, t', after, heq, hnot, hbefore⟩
          cases before with
          | nil =>
              obtain ⟨rfl, -⟩ := List.cons.inj heq
              exact Or.inl hnot
          | cons x before =>
              obtain ⟨rfl, rfl⟩ := List.cons.inj heq
              obtain ⟨ht, hbefore⟩ := List.forall_mem_cons.mp hbefore
              exact Or.inr ⟨ht, before, t', after, rfl, hnot, hbefore⟩
        · rintro (hnot | ⟨ht, before, t', after, rfl, hnot, hbefore⟩)
          · exact ⟨[], t, terms, rfl, hnot, by simp⟩
          · exact ⟨t :: before, t', after, rfl, hnot, List.forall_mem_cons.mpr ⟨ht, hbefore⟩⟩
      rw [hcons]
      cases heval : eval_term (trim t) env with
      | none =>
          refine iff_of_true (by rw [allTerms, heval]; rfl) (Or.inl ?_)
          rintro ⟨b, ht⟩
          cases heval.symm.trans (eval_of_term ht)
      | some b =>
          have ht := term_of_eval hand hor heval
          have hwell : WellFormed env t := ⟨b, ht⟩
          rw [allTerms_cons heval]
          cases b with
          | true =>
              rw [if_pos rfl, allTerms_eq_none hrest]
              simp [hwell, ht]
          | false =>
              refine iff_of_false (by simp) ?_
              rintro (hnot | ⟨htrue, -⟩)
              · exact hnot hwell
              · cases heval.symm.trans (eval_of_term htrue)

theorem anyClause_eq_none : ∀ {cs : List (List Char)},
    anyClause env cs = none ↔ ∃ c ∈ cs, allTerms env (splitTwice '&' c) = none
  | [] => by simp [anyClause]
  | c :: cs => by
      rw [anyClause_cons]
      simp only [List.exists_mem_cons_iff]
      cases hc : allTerms env (splitTwice '&' c) with
      | none => simp
      | some b =>
          rw [← @anyClause_eq_none cs]
          cases anyClause env cs <;> simp

theorem filter_none_iff {e : List Char} : anyClause env (splitTwice '|' e) = none
    ↔ ∃ clause ∈ clauses e, Noticed env clause := by
  have hclauses : ∀ c ∈ splitTwice '|' e, (allTerms env (splitTwice '&' c) = none
      ↔ Noticed env (splitTwice '&' c)) := fun c hc =>
    allTerms_eq_none fun t ht => pieces_noTwice (List.mem_map.mpr ⟨c, hc, rfl⟩) ht
  rw [anyClause_eq_none]
  constructor
  · rintro ⟨c, hc, h⟩
    exact ⟨_, List.mem_map.mpr ⟨c, hc, rfl⟩, (hclauses c hc).mp h⟩
  · rintro ⟨clause, hclause, h⟩
    obtain ⟨c, hc, rfl⟩ := List.mem_map.mp hclause
    exact ⟨c, hc, (hclauses c hc).mpr h⟩

/-- What `filter_matches` is for: `some true` for a blank expression, the
value of a sentence, and `none` for anything else. -/
structure FailsClosed (env : FilterEnv) (e : String) (result : Option Bool) : Prop where
  blank : Blank e.toList → result = some true
  sentence : ∀ b, Expr env e.toList b → result = some b
  other : ¬ Blank e.toList → (¬ ∃ b, Expr env e.toList b) → result = none

/-- **`filter_matches` fails closed** exactly when the expression is blank,
or has no malformed term, or one that only true terms of its clause stand
before. -/
theorem filter_fails_closed_iff (e : String) (env : FilterEnv) :
    FailsClosed env e (filter_matches (some e) env) ↔ Blank e.toList
      ∨ (∀ clause ∈ clauses e.toList, ∀ t ∈ clause, WellFormed env t)
      ∨ ∃ clause ∈ clauses e.toList, Noticed env clause := by
  have hblankExpr : Blank e.toList → ¬ ∃ b, Expr env e.toList b := by
    intro hblank h
    have hterms := expr_iff.mp h
    have hsplit : clauses e.toList = [[e.toList]] := by
      have hor := splitTwice_eq_singleton (noTwice_of_not_mem (blank_ne hblank (c := '|') (by decide)))
      have hand := splitTwice_eq_singleton
        (noTwice_of_not_mem (blank_ne hblank (c := '&') (by decide)))
      rw [clauses, hor, List.map_singleton, hand]
    rw [hsplit] at hterms
    obtain ⟨b, ht⟩ := hterms _ (List.mem_singleton_self _) _ (List.mem_singleton_self _)
    have heval := eval_of_term ht
    rw [trim_blank hblank] at heval
    cases heval
  rw [filter_matches_eq, ← expr_iff, ← filter_none_iff]
  by_cases hblank : Blank e.toList
  · rw [if_pos (blank_iff.mp hblank)]
    exact iff_of_true ⟨fun _ => rfl, fun b h => absurd ⟨b, h⟩ (hblankExpr hblank),
      fun h => absurd hblank h⟩ (Or.inl hblank)
  · rw [if_neg fun h => hblank (blank_iff.mpr h)]
    constructor
    · intro h
      by_cases hexpr : ∃ b, Expr env e.toList b
      · exact Or.inr (Or.inl hexpr)
      · exact Or.inr (Or.inr (h.other hblank hexpr))
    · rintro (h | ⟨b, hb⟩ | hnone)
      · exact absurd h hblank
      · refine ⟨fun h => absurd h hblank, fun b' hb' => anyClause_of_expr hb', fun _ h => ?_⟩
        exact absurd ⟨b, hb⟩ h
      · refine ⟨fun h => absurd h hblank, fun b hb => ?_, fun _ _ => hnone⟩
        cases hnone.symm.trans (anyClause_of_expr hb)

/-- A term after a false one is not read. -/
theorem filter_not_closed :
    ¬ FailsClosed (.prerelease false) "env.channel == 'nightly' && env.version >= '144'"
      (filter_matches (some "env.channel == 'nightly' && env.version >= '144'")
        (.prerelease false)) := by
  intro h
  have hvalue : filter_matches (some "env.channel == 'nightly' && env.version >= '144'")
      (.prerelease false) = some false := by decide
  rw [hvalue] at h
  have hother := h.other (fun h => absurd (h 'e' (by decide)) (by decide)) ?_
  · cases hother
  · rw [expr_iff]
    intro hterms
    obtain ⟨b, ht⟩ := hterms
      ["env.channel == 'nightly' ".toList, " env.version >= '144'".toList] (by decide)
      " env.version >= '144'".toList (by decide)
    have heval := eval_of_term ht
    revert heval
    cases b <;> decide

end Evaluate

end Dragomand
