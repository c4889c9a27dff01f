import Mathlib.Data.List.Basic

/-!
# Annotated texts

The engine keeps the sentences of a text, and their tokens, as byte offsets
next to it: `token_begin` are the offsets at which the tokens begin, `gap`
the indices of the tokens that lie between sentences. `appendSentence` builds
a text and its offsets together, `recordExistingSentence` puts a sentence into
the last gap of a text that is there.

`Tiling` is what the offsets stand for, a text cut into gaps and tokens;
`Tiling.annotated` writes its offsets down. Each operation on an annotated
text is one on its tiling, so a sentence read by its offsets is the one that
was put there.
-/

namespace Dragomand

/-! ## Offsets -/

/-- The ends of pieces of bytes that lie behind one another. -/
def offsets (start : Nat) : List (List UInt8) → List Nat
  | [] => []
  | piece :: pieces => (start + piece.length) :: offsets (start + piece.length) pieces

/-- The pieces' ranges. -/
def ranges (start : Nat) : List (List UInt8) → List (Nat × Nat)
  | [] => []
  | piece :: pieces =>
      (start, start + piece.length) :: ranges (start + piece.length) pieces

@[simp] theorem length_offsets (start : Nat) (pieces : List (List UInt8)) :
    (offsets start pieces).length = pieces.length := by
  induction pieces generalizing start with
  | nil => rfl
  | cons piece pieces ih => rw [offsets, List.length_cons, List.length_cons, ih]

@[simp] theorem length_ranges (start : Nat) (pieces : List (List UInt8)) :
    (ranges start pieces).length = pieces.length := by
  induction pieces generalizing start with
  | nil => rfl
  | cons piece pieces ih => rw [ranges, List.length_cons, List.length_cons, ih]

theorem offsets_append (start : Nat) (pieces pieces' : List (List UInt8)) :
    offsets start (pieces ++ pieces')
      = offsets start pieces ++ offsets (start + pieces.flatten.length) pieces' := by
  induction pieces generalizing start with
  | nil => rfl
  | cons piece pieces ih =>
      rw [List.cons_append, offsets, offsets, ih, List.flatten_cons, List.length_append,
        Nat.add_assoc, List.cons_append]

theorem ranges_append (start : Nat) (pieces pieces' : List (List UInt8)) :
    ranges start (pieces ++ pieces')
      = ranges start pieces ++ ranges (start + pieces.flatten.length) pieces' := by
  induction pieces generalizing start with
  | nil => rfl
  | cons piece pieces ih =>
      rw [List.cons_append, ranges, ranges, ih, List.flatten_cons, List.length_append,
        Nat.add_assoc, List.cons_append]

/-- An offset is the length of what lies before it. -/
theorem getD_offsets {pieces : List (List UInt8)} {i : Nat} (h : i ≤ pieces.length) :
    (0 :: offsets 0 pieces).getD i 0 = (pieces.take i).flatten.length := by
  have hgeneral : ∀ (pieces : List (List UInt8)) (start i : Nat), i ≤ pieces.length →
      (start :: offsets start pieces).getD i 0 = start + (pieces.take i).flatten.length := by
    intro pieces
    induction pieces with
    | nil =>
        intro start i h
        obtain rfl := Nat.le_zero.mp h
        rfl
    | cons piece pieces ih =>
        intro start i h
        cases i with
        | zero => rfl
        | succ i =>
            rw [List.getD_cons_succ, offsets, ih _ i (Nat.le_of_succ_le_succ h),
              List.take_succ_cons, List.flatten_cons, List.length_append, Nat.add_assoc]
  rw [hgeneral pieces 0 i h, Nat.zero_add]

/-- The begins of pieces, and the end of the last one. -/
theorem map_fst_ranges (start : Nat) (pieces : List (List UInt8)) :
    (ranges start pieces).map Prod.fst
        ++ [((ranges start pieces).getLast?.map Prod.snd).getD start]
      = start :: offsets start pieces := by
  induction pieces generalizing start with
  | nil => rfl
  | cons piece pieces ih =>
      rw [offsets, ← ih (start + piece.length)]
      cases pieces with
      | nil => rfl
      | cons piece' pieces => simp [ranges, List.getLast?_cons]

/-! ## Annotated texts -/

def LINE_BREAK : UInt8 := 10

/-- `gap` holds indices into `token_begin`; each sentence is between two of
them. The language of the target is left empty but in builds for WASM. -/
structure AnnotatedText where
  text : List UInt8
  token_begin : List Nat
  gap : List Nat
deriving DecidableEq, Repr

namespace AnnotatedText

/-- Initially an empty string. -/
def empty : AnnotatedText := ⟨[], [0, 0], [0]⟩

/-- Treats the entire text as a gap that `recordExistingSentence` will break. -/
def ofText (text : List UInt8) : AnnotatedText := ⟨text, [0, text.length], [0]⟩

def numSentences (a : AnnotatedText) : Nat := a.gap.length - 1

def sentenceAsByteRange (a : AnnotatedText) (s : Nat) : Nat × Nat :=
  (a.token_begin.getD (a.gap.getD s 0 + 1) 0, a.token_begin.getD (a.gap.getD (s + 1) 0) 0)

def gapAsByteRange (a : AnnotatedText) (g : Nat) : Nat × Nat :=
  (a.token_begin.getD (a.gap.getD g 0) 0, a.token_begin.getD (a.gap.getD g 0 + 1) 0)

def asStringView (a : AnnotatedText) (range : Nat × Nat) : List UInt8 :=
  (a.text.drop range.1).take (range.2 - range.1)

def handleEndingWhitespace (a : AnnotatedText) (gap : List UInt8) : AnnotatedText :=
  let text :=
    if LINE_BREAK ∈ gap then a.text ++ gap
    else if gap ≠ [] then a.text ++ gap
    else a.text
  { a with text := text, token_begin := a.token_begin.dropLast ++ [text.length] }

/-- The tokens are contiguous. -/
def appendSentence (a : AnnotatedText) (pre : List UInt8) (tokens : List (List UInt8)) :
    AnnotatedText :=
  let a := a.handleEndingWhitespace pre
  let token_begin := a.token_begin ++ offsets a.text.length tokens
  let text := a.text ++ tokens.flatten
  -- the gap after the sentence is empty for now
  { text := text
    token_begin := token_begin ++ [text.length]
    gap := a.gap ++ [token_begin.length - 1] }

/-- The tokens are in the text already. -/
def recordExistingSentence (a : AnnotatedText) (tokens : List (Nat × Nat))
    (sentence_begin : Nat) : AnnotatedText :=
  let token_begin := a.token_begin.dropLast ++ tokens.map Prod.fst
  let last := (tokens.getLast?.map Prod.snd).getD sentence_begin
  { a with
    token_begin := token_begin ++ [last] ++ [a.text.length]
    gap := a.gap ++ [token_begin.length] }

end AnnotatedText

/-! ## Tilings -/

/-- The gap before a sentence, and its tokens. -/
structure Cell where
  gap : List UInt8
  tokens : List (List UInt8)
deriving DecidableEq, Repr

def Cell.pieces (c : Cell) : List (List UInt8) := c.gap :: c.tokens

def Cell.sentence (c : Cell) : List UInt8 := c.tokens.flatten

/-- A text: its sentences, each with the gap before it, and the last gap. -/
structure Tiling where
  body : List Cell
  last : List UInt8
deriving DecidableEq, Repr

/-- Where the gaps are among the pieces. -/
def indices (i : Nat) : List Cell → List Nat
  | [] => []
  | c :: cells => (i + c.tokens.length + 1) :: indices (i + c.tokens.length + 1) cells

namespace Tiling

/-- The pieces before the last gap. -/
def front (t : Tiling) : List (List UInt8) := t.body.flatMap Cell.pieces

def text (t : Tiling) : List UInt8 := t.front.flatten ++ t.last

/-- The tiling's offsets. -/
def annotated (t : Tiling) : AnnotatedText where
  text := t.text
  token_begin := 0 :: offsets 0 t.front ++ [t.text.length]
  gap := 0 :: indices 0 t.body

end Tiling

@[simp] theorem length_indices (i : Nat) (cells : List Cell) :
    (indices i cells).length = cells.length := by
  induction cells generalizing i with
  | nil => rfl
  | cons c cells ih => rw [indices, List.length_cons, List.length_cons, ih]

theorem indices_append (i : Nat) (cells : List Cell) (c : Cell) :
    indices i (cells ++ [c])
      = indices i cells ++ [i + (cells.flatMap Cell.pieces).length + c.tokens.length + 1] := by
  induction cells generalizing i with
  | nil => rfl
  | cons c' cells ih =>
      rw [List.cons_append, indices, indices, ih, List.flatMap_cons, List.length_append,
        Cell.pieces, List.length_cons, List.cons_append]
      congr 3
      omega

theorem getD_indices {cells : List Cell} {s : Nat} (h : s ≤ cells.length) :
    (0 :: indices 0 cells).getD s 0 = ((cells.take s).flatMap Cell.pieces).length := by
  have hgeneral : ∀ (cells : List Cell) (i s : Nat), s ≤ cells.length →
      (i :: indices i cells).getD s 0 = i + ((cells.take s).flatMap Cell.pieces).length := by
    intro cells
    induction cells with
    | nil =>
        intro i s h
        obtain rfl := Nat.le_zero.mp h
        rfl
    | cons c cells ih =>
        intro i s h
        cases s with
        | zero => rfl
        | succ s =>
            rw [List.getD_cons_succ, indices, ih _ s (Nat.le_of_succ_le_succ h),
              List.take_succ_cons, List.flatMap_cons, List.length_append, Cell.pieces,
              List.length_cons]
            omega
  rw [hgeneral cells 0 s h, Nat.zero_add]

namespace Tiling

@[simp] theorem numSentences_annotated (t : Tiling) : t.annotated.numSentences = t.body.length := by
  simp [annotated, AnnotatedText.numSentences]

/-- The offsets, of all the pieces. -/
theorem token_begin_annotated (t : Tiling) :
    t.annotated.token_begin = 0 :: offsets 0 (t.front ++ [t.last]) := by
  rw [offsets_append]
  simp [annotated, offsets, text]

@[simp] theorem handleEndingWhitespace_annotated (t : Tiling) (gap : List UInt8) :
    t.annotated.handleEndingWhitespace gap = (⟨t.body, t.last ++ gap⟩ : Tiling).annotated := by
  have htext : (if LINE_BREAK ∈ gap then t.text ++ gap
      else if gap ≠ [] then t.text ++ gap else t.text) = t.text ++ gap := by
    split
    · rfl
    · split
      · rfl
      · rename_i hnil
        rw [not_not.mp hnil, List.append_nil]
  have hnew : t.text ++ gap = (⟨t.body, t.last ++ gap⟩ : Tiling).text := List.append_assoc _ _ _
  unfold AnnotatedText.handleEndingWhitespace
  dsimp only
  rw [show t.annotated.text = t.text from rfl, htext, hnew]
  show AnnotatedText.mk _ ((0 :: offsets 0 t.front ++ [t.text.length]).dropLast ++ _) _ = _
  rw [List.dropLast_concat]
  rfl

theorem appendSentence_annotated (t : Tiling) (pre : List UInt8) (tokens : List (List UInt8)) :
    t.annotated.appendSentence pre tokens
      = (⟨t.body ++ [⟨t.last ++ pre, tokens⟩], []⟩ : Tiling).annotated := by
  have hfront : (⟨t.body ++ [⟨t.last ++ pre, tokens⟩], []⟩ : Tiling).front
      = t.front ++ [t.last ++ pre] ++ tokens := by
    simp [front, Cell.pieces]
  have htext : (⟨t.body ++ [⟨t.last ++ pre, tokens⟩], []⟩ : Tiling).text
      = (⟨t.body, t.last ++ pre⟩ : Tiling).text ++ tokens.flatten := by
    rw [text, hfront]
    simp [text, front]
  have hoffsets : 0 :: offsets 0 t.front ++ [(⟨t.body, t.last ++ pre⟩ : Tiling).text.length]
      = 0 :: offsets 0 (t.front ++ [t.last ++ pre]) := by
    rw [offsets_append]
    simp [offsets, text, front]
  unfold AnnotatedText.appendSentence
  rw [handleEndingWhitespace_annotated]
  dsimp only [annotated]
  rw [htext, hfront, show (⟨t.body, t.last ++ pre⟩ : Tiling).front = t.front from rfl, hoffsets,
    indices_append, offsets_append _ (t.front ++ [t.last ++ pre])]
  congr 2
  · simp [text, front]
  · simp [front]
    omega

theorem recordExistingSentence_annotated (body : List Cell) (gap gap' : List UInt8)
    (tokens : List (List UInt8)) :
    (⟨body, gap ++ tokens.flatten ++ gap'⟩ : Tiling).annotated.recordExistingSentence
        (ranges ((body.flatMap Cell.pieces).flatten ++ gap).length tokens)
        ((body.flatMap Cell.pieces).flatten ++ gap).length
      = (⟨body ++ [⟨gap, tokens⟩], gap'⟩ : Tiling).annotated := by
  have hfront : (⟨body ++ [⟨gap, tokens⟩], gap'⟩ : Tiling).front
      = body.flatMap Cell.pieces ++ [gap] ++ tokens := by
    simp [front, Cell.pieces]
  have htext : (⟨body ++ [⟨gap, tokens⟩], gap'⟩ : Tiling).text
      = (⟨body, gap ++ tokens.flatten ++ gap'⟩ : Tiling).text := by
    rw [text, hfront]
    simp [text, front]
  have hbegins := map_fst_ranges ((body.flatMap Cell.pieces).flatten ++ gap).length tokens
  have hoffsets : offsets 0 (body.flatMap Cell.pieces ++ [gap] ++ tokens)
      = offsets 0 (body.flatMap Cell.pieces)
        ++ (((body.flatMap Cell.pieces).flatten ++ gap).length
          :: offsets ((body.flatMap Cell.pieces).flatten ++ gap).length tokens) := by
    rw [List.append_assoc, offsets_append]
    simp [offsets]
  unfold AnnotatedText.recordExistingSentence
  dsimp only [annotated]
  rw [hfront, htext, hoffsets, ← hbegins, indices_append, List.dropLast_concat,
    show (⟨body, gap ++ tokens.flatten ++ gap'⟩ : Tiling).front = body.flatMap Cell.pieces
      from rfl]
  simp only [List.append_assoc, List.cons_append, List.length_append, List.length_cons,
    length_offsets, List.length_map, length_ranges]
  congr 4
  omega

/-! ## Reading by offsets -/

/-- The pieces before the `s`th gap. -/
def before (t : Tiling) (s : Nat) : List (List UInt8) := (t.body.take s).flatMap Cell.pieces

/-- The `g`th gap; there is one behind the last sentence. -/
def gapAt (t : Tiling) (g : Nat) : List UInt8 := (t.body[g]?.map Cell.gap).getD t.last

/-- Where the `s`th gap begins. -/
def start (t : Tiling) (s : Nat) : Nat := (t.before s).flatten.length

theorem before_succ {t : Tiling} {s : Nat} {c : Cell} (h : t.body[s]? = some c) :
    t.before (s + 1) = t.before s ++ (c.gap :: c.tokens) := by
  rw [before, List.take_add_one, h]
  simp [before, Cell.pieces]

theorem gapAt_of_cell {t : Tiling} {s : Nat} {c : Cell} (h : t.body[s]? = some c) :
    t.gapAt s = c.gap := by
  rw [gapAt, h]
  rfl

theorem start_succ {t : Tiling} {s : Nat} {c : Cell} (h : t.body[s]? = some c) :
    t.start (s + 1) = t.start s + c.gap.length + c.sentence.length := by
  rw [start, before_succ h, List.flatten_append, List.length_append, List.flatten_cons,
    List.length_append, ← Nat.add_assoc]
  rfl

/-- All the pieces, from the `g`th gap on. -/
theorem pieces_split (t : Tiling) {g : Nat} (h : g ≤ t.body.length) :
    ∃ post, t.front ++ [t.last] = t.before g ++ (t.gapAt g :: post) := by
  have hfront : t.front = t.before g ++ (t.body.drop g).flatMap Cell.pieces := by
    rw [front, before, ← List.flatMap_append, List.take_append_drop]
  rcases Nat.lt_or_eq_of_le h with hlt | rfl
  · have hc := List.getElem?_eq_getElem hlt
    refine ⟨t.body[g].tokens ++ ((t.body.drop (g + 1)).flatMap Cell.pieces ++ [t.last]), ?_⟩
    rw [hfront, List.drop_eq_getElem_cons hlt, List.flatMap_cons, gapAt_of_cell hc]
    simp [Cell.pieces]
  · refine ⟨[], ?_⟩
    rw [hfront, List.drop_length, gapAt, List.getElem?_eq_none (Nat.le_refl _)]
    simp

theorem text_eq_flatten (t : Tiling) : t.text = (t.front ++ [t.last]).flatten := by
  simp [text]

theorem gap_getD {t : Tiling} {g : Nat} (h : g ≤ t.body.length) :
    t.annotated.gap.getD g 0 = (t.before g).length :=
  getD_indices h

/-- The offset of the `g`th gap, and of what follows it. -/
theorem token_begin_getD {t : Tiling} {g : Nat} (h : g ≤ t.body.length) :
    t.annotated.token_begin.getD (t.before g).length 0 = t.start g
      ∧ t.annotated.token_begin.getD ((t.before g).length + 1) 0
        = t.start g + (t.gapAt g).length := by
  obtain ⟨post, hpost⟩ := t.pieces_split h
  have hlength := congrArg List.length hpost
  rw [@List.length_append _ (t.before g), List.length_cons] at hlength
  rw [token_begin_annotated]
  constructor
  · rw [getD_offsets (by omega), hpost, List.take_left]
    rfl
  · rw [getD_offsets (by omega), hpost, List.take_length_add_append]
    simp [start]

theorem gapAsByteRange_annotated {t : Tiling} {g : Nat} (h : g ≤ t.body.length) :
    t.annotated.gapAsByteRange g = (t.start g, t.start g + (t.gapAt g).length) := by
  unfold AnnotatedText.gapAsByteRange
  rw [gap_getD h]
  exact Prod.ext (token_begin_getD h).1 (token_begin_getD h).2

theorem sentenceAsByteRange_annotated {t : Tiling} {s : Nat} {c : Cell}
    (h : t.body[s]? = some c) :
    t.annotated.sentenceAsByteRange s
      = (t.start s + c.gap.length, t.start s + c.gap.length + c.sentence.length) := by
  have hlt := (List.getElem?_eq_some_iff.mp h).1
  unfold AnnotatedText.sentenceAsByteRange
  rw [gap_getD (Nat.le_of_lt hlt), gap_getD (Nat.succ_le_of_lt hlt)]
  refine Prod.ext ?_ ?_
  · rw [(token_begin_getD (Nat.le_of_lt hlt)).2, gapAt_of_cell h]
  · rw [(token_begin_getD (Nat.succ_le_of_lt hlt)).1, start_succ h]

/-- A range that stands for a piece between others reads that piece. -/
theorem asStringView_eq {a : AnnotatedText} {pre piece post : List UInt8}
    (h : a.text = pre ++ (piece ++ post)) :
    a.asStringView (pre.length, pre.length + piece.length) = piece := by
  rw [AnnotatedText.asStringView, h, List.drop_left, Nat.add_sub_cancel_left, List.take_left]

theorem gap_annotated {t : Tiling} {g : Nat} (h : g ≤ t.body.length) :
    t.annotated.asStringView (t.annotated.gapAsByteRange g) = t.gapAt g := by
  obtain ⟨post, hpost⟩ := t.pieces_split h
  rw [gapAsByteRange_annotated h]
  refine @asStringView_eq t.annotated _ (t.gapAt g) post.flatten ?_
  show t.text = _
  rw [text_eq_flatten, hpost, List.flatten_append, List.flatten_cons]

theorem sentence_annotated {t : Tiling} {s : Nat} {c : Cell} (h : t.body[s]? = some c) :
    t.annotated.asStringView (t.annotated.sentenceAsByteRange s) = c.sentence := by
  have hlt := (List.getElem?_eq_some_iff.mp h).1
  obtain ⟨post, hpost⟩ := t.pieces_split (Nat.succ_le_of_lt hlt)
  have htext : t.text = ((t.before s).flatten ++ c.gap)
      ++ (c.sentence ++ (t.gapAt (s + 1) ++ post.flatten)) := by
    rw [text_eq_flatten, hpost, before_succ h]
    simp [Cell.sentence]
  have hview := asStringView_eq (a := t.annotated) htext
  rw [List.length_append] at hview
  rw [sentenceAsByteRange_annotated h]
  exact hview

theorem start_mono {t : Tiling} {s s' : Nat} (h : s ≤ s') : t.start s ≤ t.start s' := by
  obtain ⟨post, hpost⟩ := List.take_prefix_take_left (l := t.body) h
  rw [start, start, before, before, ← hpost, List.flatMap_append, List.flatten_append,
    List.length_append]
  exact Nat.le_add_right _ _

theorem start_le_text {t : Tiling} {g : Nat} (h : g ≤ t.body.length) :
    t.start g ≤ t.text.length := by
  obtain ⟨post, hpost⟩ := t.pieces_split h
  rw [text_eq_flatten, hpost, List.flatten_append, List.length_append]
  exact Nat.le_add_right _ _

end Tiling

end Dragomand
