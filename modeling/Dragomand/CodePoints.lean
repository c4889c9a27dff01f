import Mathlib.Data.List.Infix
import Dragomand.Service

/-!
# Byte offsets and code points

A boundary of a text is the size of what stands before it
(`isCharBoundary_iff`), and `code_points` counts the characters of that. So
offsets of bytes are translated in order, and what lies between two
boundaries is what lies between their code points (`slice_code_points`).
The source's loop and slice, which can panic, are `run_code_points`.
-/

namespace Dragomand

/-! ## The loop -/

/-- `while !text.is_char_boundary(boundary) { boundary -= 1 }`; below 0 the
subtraction panics. -/
def boundaryLoop (text : List Char) : Nat → Option Nat
  | 0 => if isCharBoundary text 0 then some 0 else none
  | boundary + 1 =>
      if isCharBoundary text (boundary + 1) then some (boundary + 1)
      else boundaryLoop text boundary

/-- `&text[..byte]`, which panics where no character begins. -/
def sliceTo : List Char → Nat → Option (List Char)
  | _, 0 => some []
  | [], _ + 1 => none
  | c :: text, byte =>
      if c.utf8Size ≤ byte then (sliceTo text (byte - c.utf8Size)).map (c :: ·) else none

/-- `code_points`, if it returns. -/
def run_code_points (text : String) (byte : Nat) : Option Nat := do
  let boundary ← boundaryLoop text.toList (min byte text.utf8ByteSize)
  let slice ← sliceTo text.toList boundary
  some (slice.length % 2 ^ 32)

/-- `sentence_spans`, if it returns. -/
def run_sentence_spans (source : String) (translation : Translation) :
    Option (List (Nat × Nat × Nat × Nat)) :=
  translation.sentences.mapM fun pair => do
    let sourceBegin ← run_code_points source pair.source.1
    let sourceEnd ← run_code_points source pair.source.2
    let targetBegin ← run_code_points translation.text pair.target.1
    let targetEnd ← run_code_points translation.text pair.target.2
    some (sourceBegin, sourceEnd, targetBegin, targetEnd)

/-! ## Boundaries -/

section Boundaries

variable {text left right : List Char} {byte byte' : Nat}

theorem size_utf8Encode_cons (c : Char) (text : List Char) :
    (c :: text).utf8Encode.size = c.utf8Size + text.utf8Encode.size := by
  rw [List.utf8Encode_cons, ByteArray.size_append, List.utf8Encode_singleton]
  simp

theorem isCharBoundary_zero (text : List Char) : isCharBoundary text 0 = true := by
  cases text <;> rfl

theorem isCharBoundary_cons (c : Char) (text : List Char) (byte : Nat) :
    isCharBoundary (c :: text) (c.utf8Size + byte) = isCharBoundary text byte := by
  have hpos := c.utf8Size_pos
  rw [isCharBoundary, Nat.add_sub_cancel_left]
  · simp
  · omega

/-- A boundary is the size of a part of the text from its beginning. -/
theorem isCharBoundary_iff : isCharBoundary text byte = true
    ↔ ∃ left right, text = left ++ right ∧ left.utf8Encode.size = byte := by
  induction text generalizing byte with
  | nil =>
      cases byte with
      | zero => exact ⟨fun _ => ⟨[], [], rfl, rfl⟩, fun _ => rfl⟩
      | succ byte =>
          refine ⟨nofun, ?_⟩
          rintro ⟨left, right, htext, hsize⟩
          rw [(List.append_eq_nil_iff.mp htext.symm).1] at hsize
          cases hsize
  | cons c text ih =>
      have hpos := c.utf8Size_pos
      constructor
      · intro h
        cases byte with
        | zero => exact ⟨[], c :: text, rfl, rfl⟩
        | succ byte =>
            obtain ⟨hle, hrest⟩ := Bool.and_eq_true_iff.mp h
            have hle := of_decide_eq_true hle
            obtain ⟨left, right, rfl, hsize⟩ := ih.mp hrest
            refine ⟨c :: left, right, rfl, ?_⟩
            rw [size_utf8Encode_cons]
            omega
      · rintro ⟨left, right, htext, rfl⟩
        rcases List.cons_eq_append_iff.mp htext with ⟨rfl, -⟩ | ⟨left, rfl, rfl⟩
        · rfl
        · rw [size_utf8Encode_cons, isCharBoundary_cons]
          exact ih.mpr ⟨left, right, rfl, rfl⟩

theorem charsBefore_append :
    charsBefore (left ++ right) left.utf8Encode.size = left.length := by
  induction left with
  | nil =>
      cases right with
      | nil => rfl
      | cons c right => exact if_neg (Nat.not_le.mpr c.utf8Size_pos)
  | cons c left ih =>
      rw [List.cons_append, charsBefore, size_utf8Encode_cons, if_pos (Nat.le_add_right _ _),
        Nat.add_sub_cancel_left, ih, List.length_cons]

theorem sliceTo_append : sliceTo (left ++ right) left.utf8Encode.size = some left := by
  induction left with
  | nil => cases right <;> rfl
  | cons c left ih =>
      have hpos := c.utf8Size_pos
      rw [List.cons_append, size_utf8Encode_cons, sliceTo, if_pos (Nat.le_add_right _ _),
        Nat.add_sub_cancel_left, ih]
      · rfl
      · omega

theorem charsBefore_le (text : List Char) (byte : Nat) : charsBefore text byte ≤ text.length := by
  induction text generalizing byte with
  | nil => exact Nat.le_refl 0
  | cons c text ih =>
      rw [charsBefore, List.length_cons]
      split
      · exact Nat.succ_le_succ (ih _)
      · exact Nat.zero_le _

theorem charsBefore_mono (h : byte ≤ byte') : charsBefore text byte ≤ charsBefore text byte' := by
  induction text generalizing byte byte' with
  | nil => exact Nat.le_refl 0
  | cons c text ih =>
      rw [charsBefore, charsBefore]
      by_cases hle : c.utf8Size ≤ byte
      · rw [if_pos hle, if_pos (hle.trans h)]
        exact Nat.succ_le_succ (ih (Nat.sub_le_sub_right h _))
      · rw [if_neg hle]
        exact Nat.zero_le _

theorem boundaryBefore_le (text : List Char) (byte : Nat) : boundaryBefore text byte ≤ byte := by
  induction byte with
  | zero => exact Nat.le_refl 0
  | succ byte ih =>
      rw [boundaryBefore]
      split
      · exact Nat.le_refl _
      · exact Nat.le_succ_of_le ih

theorem isCharBoundary_boundaryBefore (text : List Char) (byte : Nat) :
    isCharBoundary text (boundaryBefore text byte) = true := by
  induction byte with
  | zero => exact isCharBoundary_zero text
  | succ byte ih =>
      rw [boundaryBefore]
      split
      · assumption
      · exact ih

/-- It is the last one. -/
theorem le_boundaryBefore (h : isCharBoundary text byte = true) (hle : byte ≤ byte') :
    byte ≤ boundaryBefore text byte' := by
  induction byte' with
  | zero => exact hle
  | succ byte' ih =>
      rw [boundaryBefore]
      split
      · exact hle
      · rename_i hnot
        refine ih (Nat.le_of_lt_succ (Nat.lt_of_le_of_ne hle ?_))
        rintro rfl
        exact hnot h

theorem boundaryBefore_mono (h : byte ≤ byte') :
    boundaryBefore text byte ≤ boundaryBefore text byte' :=
  le_boundaryBefore (isCharBoundary_boundaryBefore text byte)
    ((boundaryBefore_le text byte).trans h)

theorem boundaryBefore_eq (h : isCharBoundary text byte = true) : boundaryBefore text byte = byte :=
  Nat.le_antisymm (boundaryBefore_le text byte) (le_boundaryBefore h (Nat.le_refl _))

theorem boundaryLoop_eq (text : List Char) (byte : Nat) :
    boundaryLoop text byte = some (boundaryBefore text byte) := by
  induction byte with
  | zero => rw [boundaryLoop, if_pos (isCharBoundary_zero text), boundaryBefore]
  | succ byte ih =>
      rw [boundaryLoop, boundaryBefore]
      split
      · rfl
      · exact ih

end Boundaries

/-! ## Code points -/

section CodePoints

variable {text : String} {byte byte' : Nat}

theorem run_code_points_eq (text : String) (byte : Nat) :
    run_code_points text byte = some (code_points text byte) := by
  obtain ⟨left, right, htext, hsize⟩ := isCharBoundary_iff.mp
    (isCharBoundary_boundaryBefore text.toList (min byte text.utf8ByteSize))
  have hslice : sliceTo text.toList left.utf8Encode.size = some left := htext ▸ sliceTo_append
  have hchars : charsBefore text.toList left.utf8Encode.size = left.length :=
    htext ▸ charsBefore_append
  unfold run_code_points code_points
  dsimp only
  rw [boundaryLoop_eq, ← hsize]
  simp only [Option.bind_eq_bind, Option.bind_some, hslice, hchars]

theorem run_sentence_spans_eq (source : String) (translation : Translation) :
    run_sentence_spans source translation = some (sentence_spans source translation) := by
  unfold run_sentence_spans sentence_spans
  simp only [run_code_points_eq, Option.bind_eq_bind, Option.bind_some]
  exact List.mapM_pure

/-- As long as a `u32` can count the characters. -/
theorem code_points_eq (h : text.length < 2 ^ 32) :
    code_points text byte
      = charsBefore text.toList (boundaryBefore text.toList (min byte text.utf8ByteSize)) :=
  Nat.mod_eq_of_lt ((charsBefore_le _ _).trans_lt (String.length_toList ▸ h))

theorem code_points_le (text : String) (byte : Nat) : code_points text byte ≤ text.length :=
  (Nat.mod_le _ _).trans ((charsBefore_le _ _).trans (Nat.le_of_eq String.length_toList))

theorem code_points_mono (hlength : text.length < 2 ^ 32) (h : byte ≤ byte') :
    code_points text byte ≤ code_points text byte' := by
  rw [code_points_eq hlength, code_points_eq hlength]
  exact charsBefore_mono (boundaryBefore_mono (min_le_min_right _ h))

/-- `text.chars().skip(begin).take(end - begin)`, as a string. -/
def codePointSlice (text : String) (span : Nat × Nat) : String :=
  String.ofList ((text.toList.drop span.1).take (span.2 - span.1))

/-- What stands before a boundary. -/
theorem code_points_boundary (hlength : text.length < 2 ^ 32)
    (h : isCharBoundary text.toList byte = true) :
    ∃ left right, text.toList = left ++ right ∧ left.utf8Encode.size = byte
      ∧ code_points text byte = left.length := by
  obtain ⟨left, right, htext, rfl⟩ := isCharBoundary_iff.mp h
  have hsize : text.utf8ByteSize = left.utf8Encode.size + right.utf8Encode.size := by
    rw [← ByteArray.size_append, ← List.utf8Encode_append, ← htext, String.utf8Encode_toList]
    rfl
  have hmin : min left.utf8Encode.size text.utf8ByteSize = left.utf8Encode.size :=
    Nat.min_eq_left (by omega)
  refine ⟨left, right, htext, rfl, ?_⟩
  rw [code_points_eq hlength, hmin, boundaryBefore_eq h, htext, charsBefore_append]

/-- Between two boundaries are the characters between their code points. -/
theorem slice_code_points (hlength : text.length < 2 ^ 32) {first last : Nat}
    (hfirst : isCharBoundary text.toList first = true)
    (hlast : isCharBoundary text.toList last = true) (h : first ≤ last) :
    (codePointSlice text (code_points text first, code_points text last)).toByteArray
      = text.toByteArray.extract first last := by
  have hmono := code_points_mono hlength h
  obtain ⟨left, right, htext, rfl, hcount⟩ := code_points_boundary hlength hfirst
  obtain ⟨left', right', htext', rfl, hcount'⟩ := code_points_boundary hlength hlast
  rw [hcount, hcount'] at hmono ⊢
  obtain ⟨middle, rfl⟩ : left <+: left' :=
    List.prefix_of_prefix_length_le ⟨right, htext.symm⟩ ⟨right', htext'.symm⟩ hmono
  have hslice : (text.toList.drop left.length).take ((left ++ middle).length - left.length)
      = middle := by
    rw [htext', List.append_assoc, List.drop_left, List.length_append, Nat.add_sub_cancel_left,
      List.take_left]
  have hbytes : text.toByteArray = left.utf8Encode ++ middle.utf8Encode ++ right'.utf8Encode := by
    rw [← String.utf8Encode_toList, htext', List.utf8Encode_append, List.utf8Encode_append]
  have hright : text.toByteArray.extract left.utf8Encode.size (left ++ middle).utf8Encode.size
      = (middle.utf8Encode ++ right'.utf8Encode).extract 0 middle.utf8Encode.size := by
    rw [hbytes, List.utf8Encode_append, ByteArray.size_append, ByteArray.append_assoc]
    exact @ByteArray.extract_append_size_add left.utf8Encode _ 0 middle.utf8Encode.size
  rw [codePointSlice, hslice, String.toByteArray_ofList, hright,
    ByteArray.extract_append_eq_left rfl]

end CodePoints

end Dragomand
