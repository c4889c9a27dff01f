import Mathlib.Algebra.Order.Ring.Nat
import Mathlib.Data.List.Basic
import Mathlib.Order.Compare

/-!
# Model versions

`MozVersion`: the version shapes of the translations collections, as
`3.0`, `3.0a`, `3.0a1`, and their order, in which an absent letter part
sorts after a present one and missing trailing parts count as zero. A
version can only be built with the parts its text parses to.
-/

namespace Dragomand

/-- `is_final` when there is no letter suffix. -/
structure Part where
  number : Nat
  is_final : Bool
  alpha : String
  pre_number : Nat
deriving DecidableEq, Repr

/-- `str::parse::<u64>` of a run of digits. -/
def parseU64 (digits : List Char) : Option Nat :=
  let n := digits.foldl (fun n c => 10 * n + (c.toNat - '0'.toNat)) 0
  if n < 2 ^ 64 then some n else none

def parsePart (piece : List Char) : Option Part :=
  let digits := piece.takeWhile Char.isDigit
  let rest := piece.dropWhile Char.isDigit
  let alpha := rest.takeWhile Char.isAlpha
  let pre := rest.dropWhile Char.isAlpha
  if digits.isEmpty || !pre.all Char.isDigit then none
  else
    (parseU64 digits).bind fun number =>
      (if pre.isEmpty then some 0 else parseU64 pre).map fun pre_number =>
        ⟨number, alpha.isEmpty, String.ofList alpha, pre_number⟩

def parsePieces : List (List Char) → Option (List Part)
  | [] => some []
  | piece :: pieces =>
      (parsePart piece).bind fun part => (parsePieces pieces).map (part :: ·)

/-- One part for each piece between dots. -/
def parseParts (raw : String) : Option (List Part) :=
  parsePieces (raw.toList.splitOn '.')

theorem parseParts_3_0 :
    parseParts "3.0" = some [⟨3, true, "", 0⟩, ⟨0, true, "", 0⟩] := by decide

structure MozVersion where
  raw : String
  parts : List Part
  parsed : parseParts raw = some parts
deriving DecidableEq, Repr

structure version.ParseError where
  raw : String
deriving DecidableEq, Repr

/-- `debug` is the text of `{:?}`. -/
def version.ParseError.to_string (debug : String → String) (e : version.ParseError) : String :=
  "unsupported version syntax: " ++ debug e.raw

def MozVersion.parse (raw : String) : Except version.ParseError MozVersion :=
  match h : parseParts raw with
  | some parts => .ok ⟨raw, parts, h⟩
  | none => .error ⟨raw⟩

theorem MozVersion.parse_raw (v : MozVersion) : MozVersion.parse v.raw = .ok v := by
  obtain ⟨raw, parts, h⟩ := v
  unfold parse
  split
  · rename_i parts' h'
    cases h.symm.trans h'
    rfl
  · rename_i h'
    cases h.symm.trans h'

theorem MozVersion.raw_of_parse {raw : String} {v : MozVersion}
    (h : MozVersion.parse raw = .ok v) : v.raw = raw := by
  unfold parse at h
  split at h
  · cases h
    rfl
  · cases h

theorem MozVersion.parts_ne_nil (v : MozVersion) : v.parts ≠ [] := by
  have h := v.parsed
  unfold parseParts at h
  cases hpieces : v.raw.toList.splitOn '.' with
  | nil => exact absurd hpieces (List.splitOn_ne_nil '.' v.raw.toList)
  | cons piece pieces =>
      rw [hpieces] at h
      obtain ⟨part, -, hrest⟩ := Option.bind_eq_some_iff.mp h
      obtain ⟨parts, -, hparts⟩ := Option.map_eq_some_iff.mp hrest
      rw [← hparts]
      exact List.cons_ne_nil _ _

/-! ## The text of a version -/

theorem parsePart_eq_some {piece : List Char} {part : Part} (h : parsePart piece = some part) :
    (∃ c, piece.head? = some c ∧ c.isDigit = true) ∧ ∀ c ∈ piece, c.isAlphanum = true := by
  unfold parsePart at h
  dsimp only at h
  split at h
  · cases h
  · rename_i hguard
    simp only [Bool.or_eq_true, Bool.not_eq_true', not_or, Bool.not_eq_false,
      List.isEmpty_iff] at hguard
    obtain ⟨hdigits, hpre⟩ := hguard
    constructor
    · cases piece with
      | nil => exact absurd rfl hdigits
      | cons c piece =>
          refine ⟨c, rfl, ?_⟩
          by_contra hc
          exact hdigits (by simp [hc])
    · -- digits, then letters, then digits
      intro c hc
      rw [← List.takeWhile_append_dropWhile (p := Char.isDigit) (l := piece)] at hc
      rcases List.mem_append.mp hc with hc | hc
      · simp [Char.isAlphanum, List.all_eq_true.mp List.all_takeWhile c hc]
      · rw [← List.takeWhile_append_dropWhile (p := Char.isAlpha)
          (l := piece.dropWhile Char.isDigit)] at hc
        rcases List.mem_append.mp hc with hc | hc
        · simp [Char.isAlphanum, List.all_eq_true.mp List.all_takeWhile c hc]
        · simp [Char.isAlphanum, List.all_eq_true.mp hpre c hc]

theorem parsePieces_eq_some {pieces : List (List Char)} {parts : List Part}
    (h : parsePieces pieces = some parts) : ∀ piece ∈ pieces, ∃ part, parsePart piece = some part := by
  induction pieces generalizing parts with
  | nil => simp
  | cons piece pieces ih =>
      obtain ⟨part, hpart, hrest⟩ := Option.bind_eq_some_iff.mp h
      obtain ⟨parts', hparts, -⟩ := Option.map_eq_some_iff.mp hrest
      exact List.forall_mem_cons.mpr ⟨⟨part, hpart⟩, ih hparts⟩

theorem mem_splitOn {sep c : Char} {text : List Char} (hc : c ∈ text) (hsep : c ≠ sep) :
    ∃ piece ∈ text.splitOn sep, c ∈ piece := by
  induction text with
  | nil => cases hc
  | cons x text ih =>
      rw [List.splitOn_cons_eq_if_modifyHead]
      split
      · rename_i hx
        have hne : c ≠ x := fun heq => hsep (heq.trans (by simpa using hx))
        obtain ⟨piece, hpiece, hmem⟩ := ih ((List.mem_cons.mp hc).resolve_left hne)
        exact ⟨piece, List.mem_cons_of_mem _ hpiece, hmem⟩
      · cases hrest : text.splitOn sep with
        | nil => exact absurd hrest (List.splitOn_ne_nil _ _)
        | cons head pieces =>
            rw [List.modifyHead_cons]
            rcases List.mem_cons.mp hc with rfl | hc
            · exact ⟨c :: head, List.mem_cons_self .., List.mem_cons_self ..⟩
            · obtain ⟨piece, hpiece, hmem⟩ := ih hc
              rw [hrest] at hpiece
              rcases List.mem_cons.mp hpiece with rfl | hpiece
              · exact ⟨x :: piece, List.mem_cons_self .., List.mem_cons_of_mem _ hmem⟩
              · exact ⟨piece, List.mem_cons_of_mem _ hpiece, hmem⟩

theorem MozVersion.raw_chars (v : MozVersion) {c : Char} (hc : c ∈ v.raw.toList) :
    c = '.' ∨ c.isAlphanum = true := by
  by_cases hdot : c = '.'
  · exact Or.inl hdot
  · obtain ⟨piece, hpiece, hc⟩ := mem_splitOn hc hdot
    obtain ⟨part, hpart⟩ := parsePieces_eq_some v.parsed piece hpiece
    exact Or.inr ((parsePart_eq_some hpart).2 c hc)

/-- A version begins with a digit. -/
theorem MozVersion.raw_head (v : MozVersion) :
    ∃ c rest, v.raw.toList = c :: rest ∧ c.isDigit = true := by
  have hpieces := parsePieces_eq_some v.parsed
  cases hraw : v.raw.toList with
  | nil =>
      rw [hraw] at hpieces
      obtain ⟨part, hpart⟩ := hpieces [] (List.mem_singleton_self _)
      cases hpart
  | cons c rest =>
      refine ⟨c, rest, rfl, ?_⟩
      rw [hraw, List.splitOn_cons_eq_if_modifyHead] at hpieces
      split at hpieces
      · obtain ⟨part, hpart⟩ := hpieces [] (List.mem_cons_self ..)
        cases hpart
      · cases hrest : rest.splitOn '.' with
        | nil => exact absurd hrest (List.splitOn_ne_nil _ _)
        | cons piece pieces =>
            rw [hrest] at hpieces
            obtain ⟨part, hpart⟩ := hpieces (c :: piece) (List.mem_cons_self ..)
            obtain ⟨c', hc', hdigit⟩ := (parsePart_eq_some hpart).1
            cases hc'
            exact hdigit

/-- The leading number: `3` for `3.0a1`. -/
def MozVersion.major (v : MozVersion) : Nat :=
  (v.parts.head v.parts_ne_nil).number

/-! ## The order -/

/-- The fields in turn; a final part sorts after one with letters. -/
instance : Ord Part where
  compare := compareLex (compareOn Part.number) (compareLex (compareOn Part.is_final)
    (compareLex (compareOn Part.alpha) (compareOn Part.pre_number)))

instance : Std.TransOrd Part :=
  inferInstanceAs (Std.TransCmp (compareLex (compareOn Part.number)
    (compareLex (compareOn Part.is_final)
      (compareLex (compareOn Part.alpha) (compareOn Part.pre_number)))))

def Part.zero : Part := ⟨0, true, "", 0⟩

/-- Missing trailing parts count as zero. -/
def cmpParts (a b : List Part) : Ordering :=
  let len := max a.length b.length
  List.compareLex compare (a.rightpad len .zero) (b.rightpad len .zero)

def MozVersion.cmp (a b : MozVersion) : Ordering :=
  cmpParts a.parts b.parts

theorem compareLex_append_self {a b : List Part} (h : a.length = b.length) (t : List Part) :
    List.compareLex compare (a ++ t) (b ++ t) = List.compareLex compare a b := by
  induction a generalizing b with
  | nil =>
      obtain rfl := List.length_eq_zero_iff.mp h.symm
      exact Std.ReflCmp.compare_self
  | cons x a ih =>
      cases b with
      | nil => cases h
      | cons y b =>
          rw [List.cons_append, List.cons_append, List.compareLex_cons_cons,
            List.compareLex_cons_cons, ih (Nat.succ.inj h)]

/-- Padding further changes nothing. -/
theorem cmpParts_eq {a b : List Part} {n : Nat} (ha : a.length ≤ n) (hb : b.length ≤ n) :
    cmpParts a b = List.compareLex compare (a.rightpad n .zero) (b.rightpad n .zero) := by
  have hpad : ∀ (l : List Part) (m : Nat), l.length ≤ m → m ≤ n →
      l.rightpad n .zero = l.rightpad m .zero ++ List.replicate (n - m) .zero := by
    intro l m hl hm
    rw [List.rightpad, List.rightpad, List.append_assoc, List.replicate_append_replicate]
    congr 2
    omega
  have hmax : max a.length b.length ≤ n := Nat.max_le.mpr ⟨ha, hb⟩
  rw [hpad a _ (Nat.le_max_left _ _) hmax, hpad b _ (Nat.le_max_right _ _) hmax,
    compareLex_append_self]
  · rfl
  · simp only [List.length_rightpad]
    omega

instance : Std.TransCmp cmpParts where
  eq_swap {a b} := by
    have hle : a.length ≤ max a.length b.length := Nat.le_max_left _ _
    have hle' : b.length ≤ max a.length b.length := Nat.le_max_right _ _
    rw [cmpParts_eq hle hle', cmpParts_eq hle' hle]
    exact Std.OrientedCmp.eq_swap
  isLE_trans {a b c} hab hbc := by
    let n := max a.length (max b.length c.length)
    have ha : a.length ≤ n := Nat.le_max_left _ _
    have hb : b.length ≤ n := Nat.le_trans (Nat.le_max_left _ _) (Nat.le_max_right _ _)
    have hc : c.length ≤ n := Nat.le_trans (Nat.le_max_right _ _) (Nat.le_max_right _ _)
    rw [cmpParts_eq ha hb] at hab
    rw [cmpParts_eq hb hc] at hbc
    rw [cmpParts_eq ha hc]
    exact Std.TransCmp.isLE_trans hab hbc

instance : Ord MozVersion := ⟨MozVersion.cmp⟩

/-- Versions are totally preordered: `3` and `3.0` are equal in the order. -/
instance : Std.TransOrd MozVersion where
  eq_swap {a b} := by
    show cmpParts a.parts b.parts = (cmpParts b.parts a.parts).swap
    exact Std.OrientedCmp.eq_swap
  isLE_trans {a b c} hab hbc := by
    show (cmpParts a.parts c.parts).isLE = true
    exact Std.TransCmp.isLE_trans hab hbc

example : (["1.0a", "1.0a1", "1.0a2", "1.0", "1.1a1", "1.1", "2.0", "3.0a1", "3.0",
    "3.1"].map parseParts).IsChain fun a b =>
      (a.bind fun a => b.map fun b => cmpParts a b) = some .lt := by decide

end Dragomand
