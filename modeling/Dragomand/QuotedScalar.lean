import Mathlib.Data.List.Basic
import Mathlib.Data.List.Infix

/-!
# Double-quoted scalars

The double-quoted scalars of YAML, on the bytes of a text in UTF-8: escapes,
and line breaks that are folded. Scanners differ in what breaks a line,
what may stand in a scalar as it is, which escapes there are and how the
result is trimmed (`Dialect`); the loop is the same. `scanQuoted_iff` says
which texts come back from a scalar that escapes its quotes and
backslashes only: those with no line break and nothing that is not allowed.
-/

namespace Yaml

def TAB : UInt8 := 9
def LF : UInt8 := 10
def CR : UInt8 := 13
def SPACE : UInt8 := 32
def QUOTE : UInt8 := 34
def BACKSLASH : UInt8 := 92

def isBlank (b : UInt8) : Bool := b = SPACE || b = TAB

/-! ## Dialects -/

/-- `bareReturn`: a carriage return alone breaks a line. `eof`: a byte that is
taken for the end of the text behind a document marker. `finish` is given
the scalar and the place after its last escape. -/
structure Dialect where
  bareReturn : Bool
  allows : UInt8 → Bool
  escapes : List (UInt8 × List UInt8)
  eof : Option UInt8
  finish : List UInt8 → Option Nat → List UInt8

/-- The value of a hexadecimal digit. -/
def hexDigit (b : UInt8) : Option Nat :=
  if 48 ≤ b ∧ b ≤ 57 then some (b.toNat - 48)
  else if 65 ≤ b ∧ b ≤ 70 then some (b.toNat - 55)
  else if 97 ≤ b ∧ b ≤ 102 then some (b.toNat - 87)
  else none

/-- A character by `n` digits. -/
def hexEscape (n : Nat) (input : List UInt8) : Option (List UInt8 × List UInt8) :=
  if input.length < n then none
  else
    match (input.take n).mapM hexDigit with
    | none => none
    | some digits =>
        let value := digits.foldl (fun value digit => 16 * value + digit) 0
        if value.isValidChar then
          some (String.utf8EncodeChar (Char.ofNat value), input.drop n)
        else none

/-- `\x`, `\u` and `\U`, and their digits. -/
def hexEscapes : List (UInt8 × Nat) := [(120, 2), (117, 4), (85, 8)]

namespace Dialect

variable (D : Dialect)

/-- The length of the line break at the beginning, 0 if there is none. -/
def breakLength : List UInt8 → Nat
  | [] => 0
  | b :: rest =>
      if b = LF then 1
      else if b = CR then
        if rest.head? = some LF then 2
        else if D.bareReturn then 1
        else 0
      else 0

def isBreak (input : List UInt8) : Bool := D.breakLength input ≠ 0

/-- `---` or `...`, at the end of the text or before a blank or a break. -/
def documentIndicator (input : List UInt8) : Bool :=
  (input.take 3 = [45, 45, 45] || input.take 3 = [46, 46, 46])
    && (D.isBreak (input.drop 3)
      || (input.drop 3).head?.all fun b => isBlank b || some b = D.eof)

/-- What stands after a backslash, and what is left. -/
def escape : List UInt8 → Option (List UInt8 × List UInt8)
  | [] => none
  | b :: rest =>
      match D.escapes.lookup b with
      | some bytes => some (bytes, rest)
      | none => (hexEscapes.lookup b).bind fun n => hexEscape n rest

end Dialect

/-! ## The scanner -/

/-- `kept` is the length of the scalar up to its last byte that is no blank of
the line; `escaped` the place after the last escape. -/
structure Scan where
  input : List UInt8
  column : Nat
  scalar : List UInt8
  kept : Nat
  escaped : Option Nat

inductive LineEnd where
  | quote
  | newline
  | escapedNewline

namespace Dialect

variable (D : Dialect)

/-- The scan of a line, up to its break or past the closing quote; `none` is
an error. Every step takes a byte at least. -/
def scanLine : Nat → Scan → Option (Scan × LineEnd)
  | 0, _ => none
  | fuel + 1, s =>
      match s.input with
      | [] => none
      | b :: rest =>
          if b = QUOTE then some ({ s with input := rest, column := s.column + 1 }, .quote)
          else if D.isBreak (b :: rest) then some (s, .newline)
          else if s.column = 0 && D.documentIndicator (b :: rest) then none
          else if b = BACKSLASH then
            if D.isBreak rest then
              some ({ s with
                input := rest
                column := s.column + 1
                kept := s.scalar.length
                escaped := some s.scalar.length }, .escapedNewline)
            else
              match D.escape rest with
              | none => none
              | some (bytes, left) => scanLine fuel
                  { input := left
                    column := s.column + 1 + (rest.length - left.length)
                    scalar := s.scalar ++ bytes
                    kept := (s.scalar ++ bytes).length
                    escaped := some (s.scalar ++ bytes).length }
          else if D.allows b then
            scanLine fuel { s with
              input := rest
              column := s.column + 1
              scalar := s.scalar ++ [b]
              kept := if isBlank b then s.kept else s.scalar.length + 1 }
          else none

/-- The next line, without its leading blanks. -/
def nextLine (input : List UInt8) : List UInt8 :=
  (input.drop (D.breakLength input)).dropWhile isBlank

/-- The end of a line: trailing blanks go, and the break is folded. -/
def fold (s : Scan) (emptyLine escapedNewline : Bool) : Scan where
  input := D.nextLine s.input
  column := (s.input.drop (D.breakLength s.input)).length - (D.nextLine s.input).length
  scalar := s.scalar.take s.kept
    ++ if D.isBreak (D.nextLine s.input) then [LF]
      else if !emptyLine && !escapedNewline then [SPACE]
      else []
  kept := 0
  escaped := s.escaped

def scanLines : Nat → Scan → Bool → Option (List UInt8 × List UInt8)
  | 0, _, _ => none
  | fuel + 1, s, emptyLine =>
      match D.scanLine s.input.length { s with kept := s.scalar.length } with
      | none => none
      | some (s, .quote) => some (D.finish s.scalar s.escaped, s.input)
      | some (s, .newline) =>
          scanLines fuel (D.fold s emptyLine false) (D.isBreak (D.nextLine s.input))
      | some (s, .escapedNewline) =>
          scanLines fuel (D.fold s emptyLine true) (D.isBreak (D.nextLine s.input))

/-- The scalar that begins at `column`, and what is left of the text. -/
def scanQuoted (column : Nat) : List UInt8 → Option (List UInt8 × List UInt8)
  | [] => none
  | quote :: input =>
      if quote = QUOTE then D.scanLines input.length ⟨input, column + 1, [], 0, none⟩ false
      else none

end Dialect

/-! ## Quoted texts -/

/-- Quotes and backslashes get a backslash. -/
def escapeByte (b : UInt8) : List UInt8 :=
  if b = QUOTE || b = BACKSLASH then [BACKSLASH, b] else [b]

def quoted (text : List UInt8) : List UInt8 := QUOTE :: text.flatMap escapeByte ++ [QUOTE]

/-- What is left to scan of a quoted text before `rest`. -/
def body (text rest : List UInt8) : List UInt8 := text.flatMap escapeByte ++ QUOTE :: rest

theorem quoted_append (text rest : List UInt8) : quoted text ++ rest = QUOTE :: body text rest := by
  simp [quoted, body]

theorem body_nil (rest : List UInt8) : body [] rest = QUOTE :: rest := rfl

theorem body_cons (b : UInt8) (text rest : List UInt8) :
    body (b :: text) rest = escapeByte b ++ body text rest := by
  simp [body]

section Body

variable {b : UInt8} {text rest : List UInt8}

theorem body_special (h : b = QUOTE ∨ b = BACKSLASH) :
    body (b :: text) rest = BACKSLASH :: b :: body text rest := by
  rw [body_cons, escapeByte, if_pos (by simpa using h)]
  rfl

theorem body_plain (h : ¬ (b = QUOTE ∨ b = BACKSLASH)) :
    body (b :: text) rest = b :: body text rest := by
  rw [body_cons, escapeByte, if_neg (by simpa using h)]
  rfl

theorem length_lt_length_body (text rest : List UInt8) :
    (text.flatMap escapeByte).length < (body text rest).length := by
  simp [body]

theorem dropWhile_body (text rest : List UInt8) :
    (body text rest).dropWhile isBlank = body (text.dropWhile isBlank) rest := by
  induction text with
  | nil => rfl
  | cons b text ih =>
      by_cases hblank : isBlank b = true
      · have hplain : ¬ (b = QUOTE ∨ b = BACKSLASH) := by
          rintro (rfl | rfl) <;> cases hblank
        rw [body_plain hplain, List.dropWhile_cons_of_pos hblank, ih,
          List.dropWhile_cons_of_pos hblank]
      · rw [List.dropWhile_cons_of_neg hblank]
        by_cases hspecial : b = QUOTE ∨ b = BACKSLASH
        · rw [body_special hspecial]
          rfl
        · rw [body_plain hspecial, List.dropWhile_cons_of_neg hblank]

end Body

namespace Dialect

variable {D : Dialect}

/-- The byte breaks a line wherever it stands. -/
def marks (D : Dialect) (b : UInt8) : Bool := b = LF || (b = CR && D.bareReturn)

/-- The byte may stand in a quoted text. -/
def Plain (D : Dialect) (b : UInt8) : Prop :=
  D.marks b = false ∧ (b = QUOTE ∨ b = BACKSLASH ∨ D.allows b = true)

theorem isBreak_of_marks {b : UInt8} {rest : List UInt8} (h : D.marks b = true) :
    D.isBreak (b :: rest) = true := by
  simp only [marks, Bool.or_eq_true, Bool.and_eq_true, decide_eq_true_eq] at h
  rcases h with rfl | ⟨rfl, hbare⟩
  · rfl
  · have hne : CR ≠ LF := by decide
    simp only [isBreak, breakLength, if_neg hne, if_pos, hbare]
    split <;> rfl

/-- A break in a quoted text is one of the text, and has a byte that breaks
lines. -/
theorem isBreak_body {text rest : List UInt8} (h : D.isBreak (body text rest) = true) :
    ∃ brk left, text = brk ++ left ∧ 0 < brk.countP D.marks
      ∧ (body text rest).drop (D.breakLength (body text rest)) = body left rest := by
  cases text with
  | nil => cases h
  | cons b text =>
      by_cases hspecial : b = QUOTE ∨ b = BACKSLASH
      · rw [body_special hspecial] at h
        cases h
      rw [body_plain hspecial] at h ⊢
      by_cases hlf : b = LF
      · refine ⟨[b], text, rfl, ?_, ?_⟩
        · simp [marks, hlf]
        · simp [breakLength, hlf]
      by_cases hcr : b = CR
      · subst hcr
        by_cases hnext : (body text rest).head? = some LF
        · cases text with
          | nil => cases hnext
          | cons b' text =>
              have hspecial' : ¬ (b' = QUOTE ∨ b' = BACKSLASH) := by
                intro hspecial'
                rw [body_special hspecial'] at hnext
                cases hnext
              rw [body_plain hspecial'] at hnext ⊢
              obtain rfl := Option.some.inj hnext
              refine ⟨[CR, LF], text, rfl, ?_, ?_⟩
              · simp [marks]
              · simp [breakLength, hlf]
        · cases hbare : D.bareReturn with
          | true =>
              refine ⟨[CR], text, rfl, ?_, ?_⟩
              · simp [marks, hbare]
              · simp [breakLength, hlf, hnext, hbare]
          | false => simp [isBreak, breakLength, hlf, hnext, hbare] at h
      · simp [isBreak, breakLength, hlf, hcr] at h

/-- The dialect has the two escapes of quoted texts, and leaves a scalar as it
is that does not end in a break. -/
structure Lawful (D : Dialect) : Prop where
  quote : D.escapes.lookup QUOTE = some [QUOTE]
  backslash : D.escapes.lookup BACKSLASH = some [BACKSLASH]
  finish_sublist : ∀ scalar escaped, List.Sublist (D.finish scalar escaped) scalar
  finish_eq : ∀ scalar escaped, LF ∉ scalar → (∀ k, escaped = some k → k ≤ scalar.length) →
    D.finish scalar escaped = scalar

section Line

variable {s s' : Scan} {e : LineEnd} {fuel : Nat} {text rest : List UInt8}

theorem escape_special (hD : D.Lawful) {b : UInt8} (h : b = QUOTE ∨ b = BACKSLASH)
    (rest : List UInt8) : D.escape (b :: rest) = some ([b], rest) := by
  rcases h with rfl | rfl
  · simp only [escape, hD.quote]
  · simp only [escape, hD.backslash]

theorem scanLine_nil (hinput : s.input = body [] rest) : D.scanLine (fuel + 1) s
    = some ({ s with input := rest, column := s.column + 1 }, .quote) := by
  rw [scanLine, hinput, body_nil]
  exact if_pos rfl

/-- A special byte is scanned with its backslash. -/
theorem scanLine_special (hD : D.Lawful) {b : UInt8} (h : b = QUOTE ∨ b = BACKSLASH)
    (hinput : s.input = body (b :: text) rest) : D.scanLine (fuel + 1) s
      = D.scanLine fuel ⟨body text rest, s.column + 1 + 1, s.scalar ++ [b],
        (s.scalar ++ [b]).length, some (s.scalar ++ [b]).length⟩ := by
  have hquote : BACKSLASH ≠ QUOTE := by decide
  have hbreak : D.isBreak (BACKSLASH :: b :: body text rest) = false := rfl
  have hindicator : D.documentIndicator (BACKSLASH :: b :: body text rest) = false := by
    simp [documentIndicator, BACKSLASH]
  have hbreak' : D.isBreak (b :: body text rest) = false := by
    rcases h with rfl | rfl <;> rfl
  rw [scanLine, hinput, body_special h]
  simp [hquote, hbreak, hindicator, hbreak', escape_special hD h]

theorem scanLine_plain {b : UInt8} (h : ¬ (b = QUOTE ∨ b = BACKSLASH))
    (hinput : s.input = body (b :: text) rest)
    (hbreak : D.isBreak (body (b :: text) rest) = false) : D.scanLine (fuel + 1) s
      = if s.column = 0 ∧ D.documentIndicator (body (b :: text) rest) = true then none
        else if D.allows b = true then D.scanLine fuel ⟨body text rest, s.column + 1,
          s.scalar ++ [b], if isBlank b then s.kept else s.scalar.length + 1, s.escaped⟩
        else none := by
  obtain ⟨hquote, hbackslash⟩ := not_or.mp h
  rw [body_plain h] at hbreak hinput ⊢
  rw [scanLine, hinput]
  simp [hquote, hbackslash, hbreak]

/-- The scan went over `line`, and `left` is left of the text. -/
structure LineTaken (D : Dialect) (s s' : Scan) (e : LineEnd) (line left rest : List UInt8) :
    Prop where
  scalar : s'.scalar = s.scalar ++ line
  plain : ∀ b ∈ line, D.Plain b
  ends : (e = .quote ∧ left = [] ∧ s'.input = rest)
    ∨ (e = .newline ∧ s'.input = body left rest ∧ D.isBreak (body left rest) = true)

/-- One more byte at its beginning. -/
theorem LineTaken.cons {s₁ : Scan} {b : UInt8} {line left : List UInt8}
    (h : D.LineTaken s₁ s' e line left rest) (hscalar : s₁.scalar = s.scalar ++ [b])
    (hplain : D.Plain b) : D.LineTaken s s' e (b :: line) left rest where
  scalar := by
    rw [h.scalar, hscalar, List.append_assoc]
    rfl
  plain := List.forall_mem_cons.mpr ⟨hplain, h.plain⟩
  ends := h.ends

/-- The scan of a line of a quoted text takes a part of the text without
breaks, up to the closing quote or a break. -/
theorem scanLine_body (hD : D.Lawful) (hinput : s.input = body text rest)
    (h : D.scanLine fuel s = some (s', e)) :
    ∃ line left, text = line ++ left ∧ D.LineTaken s s' e line left rest := by
  induction fuel generalizing s text with
  | zero => cases h
  | succ fuel ih =>
      cases text with
      | nil =>
          rw [scanLine_nil hinput] at h
          cases h
          exact ⟨[], [], rfl, (List.append_nil _).symm, nofun, Or.inl ⟨rfl, rfl, rfl⟩⟩
      | cons b text =>
          by_cases hspecial : b = QUOTE ∨ b = BACKSLASH
          · rw [scanLine_special hD hspecial hinput] at h
            obtain ⟨line, left, rfl, htaken⟩ := ih rfl h
            refine ⟨b :: line, left, rfl, htaken.cons rfl ⟨?_, ?_⟩⟩
            · rcases hspecial with rfl | rfl <;> rfl
            · exact hspecial.elim Or.inl fun h => Or.inr (Or.inl h)
          cases hbreak : D.isBreak (body (b :: text) rest) with
          | true =>
              have hs : D.scanLine (fuel + 1) s = some (s, .newline) := by
                obtain ⟨hquote, -⟩ := not_or.mp hspecial
                rw [body_plain hspecial] at hinput hbreak
                rw [scanLine, hinput]
                simp [hquote, hbreak]
              rw [hs] at h
              cases h
              exact ⟨[], b :: text, rfl, (List.append_nil _).symm, nofun,
                Or.inr ⟨rfl, hinput, hbreak⟩⟩
          | false =>
              rw [scanLine_plain hspecial hinput hbreak] at h
              split at h
              · cases h
              · split at h
                · rename_i hallows
                  obtain ⟨line, left, rfl, htaken⟩ := ih rfl h
                  refine ⟨b :: line, left, rfl, htaken.cons rfl ⟨?_, Or.inr (Or.inr hallows)⟩⟩
                  rw [body_plain hspecial] at hbreak
                  cases hmarks : D.marks b with
                  | true =>
                      rw [isBreak_of_marks hmarks] at hbreak
                      cases hbreak
                  | false => rfl
                · cases h

/-- A quoted text of plain bytes has no break. -/
theorem isBreak_body_plain (hplain : ∀ b ∈ text, D.Plain b) :
    D.isBreak (body text rest) = false := by
  cases hbreak : D.isBreak (body text rest) with
  | false => rfl
  | true =>
      obtain ⟨brk, left, rfl, hpos, -⟩ := isBreak_body hbreak
      obtain ⟨b, hb, hmarks⟩ := List.countP_pos_iff.mp hpos
      rw [(hplain b (List.mem_append_left _ hb)).1] at hmarks
      cases hmarks

/-- A text of plain bytes is scanned in one line. Past the first column, it
cannot look like the end of the document. -/
theorem isSome_scanLine (hD : D.Lawful) (hinput : s.input = body text rest)
    (hcolumn : s.column ≠ 0) (hplain : ∀ b ∈ text, D.Plain b)
    (hfuel : (text.flatMap escapeByte).length < fuel) : (D.scanLine fuel s).isSome = true := by
  induction text generalizing s fuel with
  | nil =>
      obtain ⟨fuel, rfl⟩ := Nat.exists_eq_add_one_of_ne_zero (Nat.ne_of_gt hfuel)
      rw [scanLine_nil hinput]
      rfl
  | cons b text ih =>
      obtain ⟨fuel, rfl⟩ := Nat.exists_eq_add_one_of_ne_zero (Nat.ne_zero_of_lt hfuel)
      have hrest := fun b' hb' => hplain b' (List.mem_cons_of_mem _ hb')
      rw [List.flatMap_cons, List.length_append] at hfuel
      have hlength : 0 < (escapeByte b).length := by
        unfold escapeByte
        split <;> exact Nat.succ_pos _
      by_cases hspecial : b = QUOTE ∨ b = BACKSLASH
      · rw [scanLine_special hD hspecial hinput]
        exact ih rfl (Nat.succ_ne_zero _) hrest (by omega)
      · have hallows : D.allows b = true := by
          have hb := (hplain b List.mem_cons_self).2
          tauto
        rw [scanLine_plain hspecial hinput (isBreak_body_plain hplain),
          if_neg fun h => hcolumn h.1, if_pos hallows]
        exact ih rfl (Nat.succ_ne_zero _) hrest (by omega)

/-- An escape is in what has been scanned. -/
theorem scanLine_escaped (h : D.scanLine fuel s = some (s', e))
    (hs : ∀ k, s.escaped = some k → k ≤ s.scalar.length) :
    ∀ k, s'.escaped = some k → k ≤ s'.scalar.length := by
  induction fuel generalizing s with
  | zero => cases h
  | succ fuel ih =>
      rw [scanLine] at h
      split at h
      · cases h
      · split at h
        · cases h; exact hs
        split at h
        · cases h; exact hs
        split at h
        · cases h
        split at h
        · split at h
          · cases h
            intro k hk
            cases hk
            exact Nat.le_refl _
          · split at h
            · cases h
            · refine ih h fun k hk => ?_
              cases hk
              exact Nat.le_refl _
        · split at h
          · refine ih h fun k hk => ?_
            rw [List.length_append]
            exact Nat.le_add_right_of_le (hs k hk)
          · cases h

end Line

/-! ## Whole scalars -/

section Scalar

variable {text rest scalar left : List UInt8} {fuel column : Nat} {s : Scan} {emptyLine : Bool}

theorem countP_plain (hplain : ∀ b ∈ text, D.Plain b) : text.countP D.marks = 0 :=
  List.countP_eq_zero.mpr fun b hb => by simp [(hplain b hb).1]

theorem LineTaken.countP {s' : Scan} {e : LineEnd} {line : List UInt8}
    (h : D.LineTaken s s' e line left rest) :
    s'.scalar.countP D.marks = s.scalar.countP D.marks := by
  rw [h.scalar, List.countP_append, countP_plain h.plain, Nat.add_zero]

theorem countP_fold (s : Scan) (emptyLine escapedNewline : Bool) :
    (D.fold s emptyLine escapedNewline).scalar.countP D.marks
      ≤ s.scalar.countP D.marks + if D.isBreak (D.nextLine s.input) = true then 1 else 0 := by
  have htake : (s.scalar.take s.kept).countP D.marks ≤ s.scalar.countP D.marks :=
    (List.take_sublist _ _).countP_le
  have hspace : [SPACE].countP D.marks = 0 := rfl
  have hfeed : [LF].countP D.marks = 1 := rfl
  rw [fold, List.countP_append]
  refine Nat.add_le_add htake ?_
  split
  · rw [hfeed]
  · split
    · rw [hspace]
    · exact Nat.le_refl 0

/-- Folding loses breaks: of a text that has some, fewer come into the
scalar. Whatever the text, the scan ends at its closing quote. -/
theorem scanLines_body (hD : D.Lawful) (hinput : s.input = body text rest)
    (h : D.scanLines fuel s emptyLine = some (scalar, left)) :
    left = rest
      ∧ scalar.countP D.marks ≤ s.scalar.countP D.marks + text.countP D.marks
      ∧ (0 < text.countP D.marks →
        scalar.countP D.marks < s.scalar.countP D.marks + text.countP D.marks) := by
  induction fuel generalizing s text emptyLine with
  | zero => cases h
  | succ fuel ih =>
      have hinput' : ({ s with kept := s.scalar.length } : Scan).input = body text rest := hinput
      rw [scanLines] at h
      split at h
      · cases h
      · rename_i s' hline
        obtain ⟨line, left', rfl, htaken⟩ := scanLine_body hD hinput' hline
        cases h
        rcases htaken.ends with ⟨-, rfl, hleft⟩ | ⟨hend, -⟩
        · have hfinish : (D.finish s'.scalar s'.escaped).countP D.marks ≤ s.scalar.countP D.marks :=
            (hD.finish_sublist s'.scalar s'.escaped).countP_le.trans (Nat.le_of_eq htaken.countP)
          rw [List.append_nil, countP_plain htaken.plain]
          exact ⟨hleft, hfinish, fun hpos => absurd hpos (Nat.lt_irrefl 0)⟩
        · cases hend
      · rename_i s' hline
        obtain ⟨line, left', rfl, htaken⟩ := scanLine_body hD hinput' hline
        rcases htaken.ends with ⟨hend, -⟩ | ⟨-, hleft, hbreak⟩
        · cases hend
        obtain ⟨brk, left'', rfl, hpos, hdrop⟩ := isBreak_body hbreak
        have hnext : D.nextLine s'.input = body (left''.dropWhile isBlank) rest := by
          rw [nextLine, hleft, hdrop, dropWhile_body]
        obtain ⟨hrest, hle, hlt⟩ := ih hnext h
        have hfold := countP_fold (D := D) s' emptyLine false
        rw [htaken.countP] at hfold
        dsimp only at hfold
        have hdropped : (left''.dropWhile isBlank).countP D.marks ≤ left''.countP D.marks :=
          (List.dropWhile_sublist _).countP_le
        rw [List.countP_append, List.countP_append]
        -- an empty line that follows has a break of its own
        have hempty : D.isBreak (D.nextLine s'.input) = true →
            0 < (left''.dropWhile isBlank).countP D.marks := by
          intro hempty
          rw [hnext] at hempty
          obtain ⟨brk', left', hleft', hpos', -⟩ := isBreak_body hempty
          rw [hleft', List.countP_append]
          exact Nat.add_pos_left hpos' _
        split at hfold
        · have hless := hlt (hempty ‹_›)
          exact ⟨hrest, by omega, fun _ => by omega⟩
        · exact ⟨hrest, by omega, fun _ => by omega⟩
      · rename_i s' hline
        obtain ⟨line, left', rfl, htaken⟩ := scanLine_body hD hinput' hline
        rcases htaken.ends with ⟨hend, -⟩ | ⟨hend, -⟩ <;> cases hend

/-- **A quoted text comes back** if and only if all its bytes are plain. -/
theorem scanQuoted_iff (hD : D.Lawful) : D.scanQuoted column (quoted text ++ rest)
    = some (text, rest) ↔ ∀ b ∈ text, D.Plain b := by
  rw [quoted_append]
  have hscan : D.scanQuoted column (QUOTE :: body text rest) = D.scanLines (body text rest).length
      ⟨body text rest, column + 1, [], 0, none⟩ false := by
    rw [Dialect.scanQuoted, if_pos rfl]
  rw [hscan]
  obtain ⟨fuel, hfuel⟩ := Nat.exists_eq_add_one_of_ne_zero
    (Nat.ne_zero_of_lt (length_lt_length_body text rest))
  constructor
  · intro h
    obtain ⟨-, -, hlt⟩ := scanLines_body hD rfl h
    rw [List.countP_nil, Nat.zero_add] at hlt
    have hzero : text.countP D.marks = 0 :=
      Nat.eq_zero_of_not_pos fun hpos => Nat.lt_irrefl _ (hlt hpos)
    -- so it was scanned in one line
    rw [hfuel, scanLines] at h
    split at h
    · cases h
    all_goals
      rename_i s' hline
      obtain ⟨line, left', rfl, htaken⟩ := scanLine_body hD (by rfl) hline
    · rcases htaken.ends with ⟨-, rfl, -⟩ | ⟨hend, -⟩
      · rw [List.append_nil]
        exact htaken.plain
      · cases hend
    · rcases htaken.ends with ⟨hend, -⟩ | ⟨-, -, hbreak⟩
      · cases hend
      · obtain ⟨brk, left'', rfl, hpos, -⟩ := isBreak_body hbreak
        rw [List.countP_append, List.countP_append] at hzero
        omega
    · rcases htaken.ends with ⟨hend, -⟩ | ⟨hend, -⟩ <;> cases hend
  · intro hplain
    obtain ⟨⟨s', e⟩, hline⟩ := Option.isSome_iff_exists.mp (isSome_scanLine
      (s := ⟨body text rest, column + 1, [], 0, none⟩) hD rfl (Nat.succ_ne_zero _) hplain
      (length_lt_length_body text rest))
    obtain ⟨line, left', rfl, htaken⟩ := scanLine_body hD (by rfl) hline
    rcases htaken.ends with ⟨rfl, rfl, hleft⟩ | ⟨-, -, hbreak⟩
    · rw [List.append_nil] at hline hfuel hplain ⊢
      rw [hfuel, scanLines]
      dsimp only [List.length_nil]
      rw [hline]
      dsimp only
      have hscalar : s'.scalar = line := htaken.scalar
      have hfeed : LF ∉ line := fun hmem => by cases (hplain LF hmem).1
      rw [hscalar, hleft, hD.finish_eq line _ hfeed]
      exact hscalar ▸ scanLine_escaped hline nofun
    · rw [isBreak_body_plain fun b hb => hplain b (List.mem_append_right _ hb)] at hbreak
      cases hbreak

/-- Whatever is quoted, the scan ends at its closing quote. -/
theorem scanQuoted_rest (hD : D.Lawful)
    (h : D.scanQuoted column (quoted text ++ rest) = some (scalar, left)) : left = rest := by
  rw [quoted_append] at h
  exact (scanLines_body hD rfl h).1

end Scalar

end Dialect

/-! ## YAML 1.2 -/

/-- The escapes of a single character. -/
def escapes12 : List (UInt8 × List UInt8) :=
  [(48, [0]), (97, [7]), (98, [8]), (116, [9]), (TAB, [9]), (110, [10]), (118, [11]), (102, [12]),
    (114, [13]), (101, [27]), (SPACE, [32]), (QUOTE, [34]), (47, [47]), (BACKSLASH, [92]),
    (78, [0xC2, 0x85]), (95, [0xC2, 0xA0]), (76, [0xE2, 0x80, 0xA8]), (80, [0xE2, 0x80, 0xA9])]

/-- As the specification has it: any line break, and no control characters
but the tab. -/
def yaml12 : Dialect where
  bareReturn := true
  allows b := b = TAB || SPACE ≤ b
  escapes := escapes12
  eof := none
  finish scalar _ := scalar

theorem lawful_yaml12 : yaml12.Lawful where
  quote := rfl
  backslash := rfl
  finish_sublist scalar _ := List.Sublist.refl scalar
  finish_eq _ _ _ _ := rfl

theorem plain_yaml12 {b : UInt8} : yaml12.Plain b ↔ b = TAB ∨ SPACE ≤ b := by
  simp only [Dialect.Plain, Dialect.marks, yaml12, Bool.or_eq_true, decide_eq_true_eq]
  constructor
  · rintro ⟨-, rfl | rfl | h⟩
    · exact Or.inr (by decide)
    · exact Or.inr (by decide)
    · exact h
  · intro h
    refine ⟨?_, Or.inr (Or.inr h)⟩
    have hne : ∀ c : UInt8, c ≠ TAB → ¬ SPACE ≤ c → b ≠ c := by
      rintro c htab hspace rfl
      exact h.elim htab hspace
    simp [hne LF (by decide) (by decide), hne CR (by decide) (by decide)]

end Yaml
