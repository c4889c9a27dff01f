import Mathlib.Data.Prod.Lex
import Mathlib.Data.String.Basic
import Mathlib.Order.PiLex
import Mathlib.Order.WithBot
import Dragomand.Version

/-!
# The syntax and the order of versions

`PartText` is the grammar of one part: digits, then letters, then digits,
the last only after letters. `parse` accepts the texts of that grammar, and
its byte slices are at the boundaries of characters.

The order is said without padding: a version is the infinite sequence of its
parts, with final zeros at the end, and versions compare as these sequences
do in the lexicographic order.
-/

namespace Dragomand

/-! ## Slices -/

/-- `&text[bytes..]`, unless that panics. -/
def sliceFrom : List Char → Nat → Option (List Char)
  | [], bytes => if bytes = 0 then some [] else none
  | c :: text, bytes =>
      if bytes = 0 then some (c :: text)
      else if c.utf8Size ≤ bytes then sliceFrom text (bytes - c.utf8Size)
      else none

/-- `String::len` -/
def byteLength (text : List Char) : Nat := (text.map Char.utf8Size).sum

theorem sliceFrom_zero (text : List Char) : sliceFrom text 0 = some text := by
  cases text <;> rfl

theorem sliceFrom_append (text rest : List Char) :
    sliceFrom (text ++ rest) (byteLength text) = some rest := by
  induction text with
  | nil => exact sliceFrom_zero rest
  | cons c text ih =>
      have hpos : 0 < c.utf8Size := c.utf8Size_pos
      have hlength : byteLength (c :: text) = c.utf8Size + byteLength text := rfl
      rw [hlength, List.cons_append, sliceFrom, if_neg (by omega), if_pos (by omega),
        Nat.add_sub_cancel_left, ih]

theorem sliceFrom_takeWhile (p : Char → Bool) (text : List Char) :
    sliceFrom text (byteLength (text.takeWhile p)) = some (text.dropWhile p) := by
  have h := sliceFrom_append (text.takeWhile p) (text.dropWhile p)
  rwa [List.takeWhile_append_dropWhile] at h

/-- A part as `parse` slices its piece; `none` if a slice panics. -/
def slicePart (piece : List Char) : Option (Option Part) := do
  let digits := piece.takeWhile Char.isDigit
  let rest ← sliceFrom piece (byteLength digits)
  let alpha := rest.takeWhile Char.isAlpha
  let pre ← sliceFrom rest (byteLength alpha)
  if digits.isEmpty || !pre.all Char.isDigit then some none
  else
    some ((parseU64 digits).bind fun number =>
      (if pre.isEmpty then some 0 else parseU64 pre).map fun pre_number =>
        ⟨number, alpha.isEmpty, String.ofList alpha, pre_number⟩)

/-- The slices are at the boundaries of characters. -/
theorem slicePart_eq (piece : List Char) : slicePart piece = some (parsePart piece) := by
  unfold slicePart parsePart
  simp only [sliceFrom_takeWhile, Option.bind_eq_bind, Option.bind_some]
  split <;> rfl

/-! ## The syntax -/

/-- The number that digits write. -/
def decimal (digits : List Char) : Nat :=
  digits.foldl (fun n c => 10 * n + (c.toNat - '0'.toNat)) 0

theorem parseU64_eq_some {digits : List Char} {n : Nat} :
    parseU64 digits = some n ↔ decimal digits < 2 ^ 64 ∧ n = decimal digits := by
  show (if decimal digits < 2 ^ 64 then some (decimal digits) else none) = some n ↔ _
  rw [Option.ite_none_right_eq_some, Option.some.injEq, eq_comm (a := n)]

/-- The text of a part. -/
structure PartText where
  digits : List Char
  letters : List Char
  trailing : List Char

namespace PartText

def chars (t : PartText) : List Char := t.digits ++ (t.letters ++ t.trailing)

/-- The part that it stands for. -/
def part (t : PartText) : Part :=
  ⟨decimal t.digits, t.letters.isEmpty, String.ofList t.letters, decimal t.trailing⟩

structure Valid (t : PartText) : Prop where
  some_digit : t.digits ≠ []
  digits : ∀ c ∈ t.digits, c.isDigit = true
  letters : ∀ c ∈ t.letters, c.isAlpha = true
  trailing : ∀ c ∈ t.trailing, c.isDigit = true
  after_letters : t.letters = [] → t.trailing = []
  fits : decimal t.digits < 2 ^ 64
  trailing_fits : decimal t.trailing < 2 ^ 64

end PartText

theorem isAlpha_of_isDigit {c : Char} (h : c.isDigit = true) : c.isAlpha = false := by
  change (decide ('0'.val ≤ c.val) && decide (c.val ≤ '9'.val)) = true at h
  change (decide ('A'.val ≤ c.val ∧ c.val ≤ 'Z'.val)
    || (decide ('a'.val ≤ c.val) && decide (c.val ≤ 'z'.val))) = false
  simp only [Bool.and_eq_true, decide_eq_true_eq, Bool.or_eq_false_iff, Bool.and_eq_false_iff,
    decide_eq_false_iff_not, not_and, UInt32.le_iff_toNat_le, Nat.not_le] at h ⊢
  have hnine : '9'.val.toNat = 57 := rfl
  have hupper : 'A'.val.toNat = 65 := rfl
  have hlower : 'a'.val.toNat = 97 := rfl
  omega

/-- Where a run of characters ends. -/
theorem takeWhile_of_stop {p : Char → Bool} {text rest : List Char} (htext : ∀ c ∈ text, p c = true)
    (hrest : ∀ c ∈ rest.head?, p c = false) :
    (text ++ rest).takeWhile p = text ∧ (text ++ rest).dropWhile p = rest := by
  rw [List.takeWhile_append_of_pos htext, List.dropWhile_append_of_pos htext]
  cases rest with
  | nil => simp
  | cons c rest => simp [hrest c (by simp)]

theorem PartText.Valid.parts {t : PartText} (ht : t.Valid) :
    t.chars.takeWhile Char.isDigit = t.digits
      ∧ (t.chars.dropWhile Char.isDigit).takeWhile Char.isAlpha = t.letters
      ∧ (t.chars.dropWhile Char.isDigit).dropWhile Char.isAlpha = t.trailing := by
  have hstop : ∀ c ∈ (t.letters ++ t.trailing).head?, c.isDigit = false := by
    intro c hc
    cases hletters : t.letters with
    | nil => simp [hletters, ht.after_letters hletters] at hc
    | cons d letters =>
        rw [hletters] at hc
        cases hc
        by_contra hdigit
        have halpha := ht.letters c (by simp [hletters])
        rw [isAlpha_of_isDigit (by simpa using hdigit)] at halpha
        cases halpha
  obtain ⟨htake, hdrop⟩ := takeWhile_of_stop ht.digits hstop
  have hstop' : ∀ c ∈ t.trailing.head?, c.isAlpha = false := fun c hc =>
    isAlpha_of_isDigit (ht.trailing c (List.mem_of_mem_head? hc))
  rw [PartText.chars, htake, hdrop]
  exact ⟨rfl, takeWhile_of_stop ht.letters hstop'⟩

theorem parsePart_iff {piece : List Char} {part : Part} :
    parsePart piece = some part ↔ ∃ t : PartText, t.Valid ∧ piece = t.chars ∧ part = t.part := by
  constructor
  · intro h
    unfold parsePart at h
    dsimp only at h
    split at h
    · cases h
    · rename_i hguard
      simp only [Bool.or_eq_true, Bool.not_eq_true', not_or, Bool.not_eq_false,
        List.isEmpty_iff] at hguard
      obtain ⟨hdigits, hpre⟩ := hguard
      obtain ⟨number, hnumber, h⟩ := Option.bind_eq_some_iff.mp h
      obtain ⟨pre_number, hpre_number, rfl⟩ := Option.map_eq_some_iff.mp h
      obtain ⟨hfits, rfl⟩ := parseU64_eq_some.mp hnumber
      have htrailing : decimal ((piece.dropWhile Char.isDigit).dropWhile Char.isAlpha) < 2 ^ 64
          ∧ pre_number = decimal ((piece.dropWhile Char.isDigit).dropWhile Char.isAlpha) := by
        split at hpre_number
        · rename_i hempty
          rw [List.isEmpty_iff.mp hempty]
          exact ⟨by decide, (Option.some.inj hpre_number).symm⟩
        · exact parseU64_eq_some.mp hpre_number
      obtain ⟨hpre_fits, rfl⟩ := htrailing
      refine ⟨⟨piece.takeWhile Char.isDigit, (piece.dropWhile Char.isDigit).takeWhile Char.isAlpha,
        (piece.dropWhile Char.isDigit).dropWhile Char.isAlpha⟩, ⟨hdigits, ?_, ?_, ?_, ?_, hfits,
        hpre_fits⟩, ?_, rfl⟩
      · exact fun c hc => List.all_eq_true.mp List.all_takeWhile c hc
      · exact fun c hc => List.all_eq_true.mp List.all_takeWhile c hc
      · exact fun c hc => List.all_eq_true.mp hpre c hc
      · -- without letters, what comes after the digits begins with a digit
        intro hletters
        have hletters : (piece.dropWhile Char.isDigit).takeWhile Char.isAlpha = [] := hletters
        show (piece.dropWhile Char.isDigit).dropWhile Char.isAlpha = []
        have hrest : (piece.dropWhile Char.isDigit).dropWhile Char.isAlpha
            = piece.dropWhile Char.isDigit := by
          conv_rhs => rw [← List.takeWhile_append_dropWhile (p := Char.isAlpha)
            (l := piece.dropWhile Char.isDigit)]
          rw [hletters, List.nil_append]
        rw [hrest] at hpre ⊢
        cases hdrop : piece.dropWhile Char.isDigit with
        | nil => rfl
        | cons c rest =>
            have hhead : c.isDigit = false := by
              simpa [hdrop] using List.head?_dropWhile_not Char.isDigit piece
            rw [hdrop] at hpre
            have hdigit := List.all_eq_true.mp hpre c (List.mem_cons_self ..)
            rw [hdigit] at hhead
            cases hhead
      · rw [PartText.chars, List.takeWhile_append_dropWhile, List.takeWhile_append_dropWhile]
  · rintro ⟨t, ht, rfl, rfl⟩
    obtain ⟨hdigits, hletters, htrailing⟩ := ht.parts
    unfold parsePart
    dsimp only
    rw [hdigits, hletters, htrailing, if_neg]
    · rw [parseU64_eq_some.mpr ⟨ht.fits, rfl⟩, Option.bind_some]
      have hpre : (if t.trailing.isEmpty then some 0 else parseU64 t.trailing)
          = some (decimal t.trailing) := by
        split
        · rename_i hempty
          rw [List.isEmpty_iff.mp hempty]
          rfl
        · exact parseU64_eq_some.mpr ⟨ht.trailing_fits, rfl⟩
      rw [hpre]
      rfl
    · simp only [Bool.or_eq_true, Bool.not_eq_true', not_or, Bool.not_eq_false, List.isEmpty_iff]
      exact ⟨ht.some_digit, List.all_eq_true.mpr ht.trailing⟩

/-- The pieces are the texts of parts. -/
theorem parsePieces_iff {pieces : List (List Char)} {parts : List Part} :
    parsePieces pieces = some parts ↔ ∃ texts : List PartText, (∀ t ∈ texts, t.Valid)
      ∧ pieces = texts.map PartText.chars ∧ parts = texts.map PartText.part := by
  induction pieces generalizing parts with
  | nil =>
      constructor
      · rintro ⟨⟩
        exact ⟨[], by simp, rfl, rfl⟩
      · rintro ⟨texts, -, htexts, rfl⟩
        rw [List.map_eq_nil_iff.mp htexts.symm]
        rfl
  | cons piece pieces ih =>
      constructor
      · intro h
        obtain ⟨part, hpart, hrest⟩ := Option.bind_eq_some_iff.mp h
        obtain ⟨parts', hparts, rfl⟩ := Option.map_eq_some_iff.mp hrest
        obtain ⟨t, ht, rfl, rfl⟩ := parsePart_iff.mp hpart
        obtain ⟨texts, htexts, rfl, rfl⟩ := ih.mp hparts
        exact ⟨t :: texts, List.forall_mem_cons.mpr ⟨ht, htexts⟩, rfl, rfl⟩
      · rintro ⟨texts, htexts, heq, rfl⟩
        cases texts with
        | nil => cases heq
        | cons t texts =>
            obtain ⟨ht, htexts⟩ := List.forall_mem_cons.mp htexts
            obtain ⟨rfl, hpieces⟩ := List.cons.inj heq
            have hpart := parsePart_iff.mpr ⟨t, ht, rfl, rfl⟩
            have hparts := ih.mpr ⟨texts, htexts, hpieces, rfl⟩
            exact Option.bind_eq_some_iff.mpr ⟨_, hpart, Option.map_eq_some_iff.mpr ⟨_, hparts, rfl⟩⟩

theorem PartText.Valid.no_dot {t : PartText} (ht : t.Valid) : '.' ∉ t.chars := by
  intro hdot
  rcases List.mem_append.mp hdot with hdigit | hdot
  · exact absurd (ht.digits _ hdigit) (by decide)
  · rcases List.mem_append.mp hdot with hletter | hdigit
    · exact absurd (ht.letters _ hletter) (by decide)
    · exact absurd (ht.trailing _ hdigit) (by decide)

theorem parse_eq_ok {raw : String} {v : MozVersion} :
    MozVersion.parse raw = .ok v ↔ v.raw = raw ∧ parseParts raw = some v.parts := by
  constructor
  · intro h
    obtain rfl := MozVersion.raw_of_parse h
    exact ⟨rfl, v.parsed⟩
  · rintro ⟨rfl, -⟩
    exact v.parse_raw

/-- What `parse` accepts, and the parts that it makes of it. -/
theorem parse_iff {raw : String} {v : MozVersion} :
    MozVersion.parse raw = .ok v ↔ v.raw = raw ∧ ∃ texts : List PartText, texts ≠ []
      ∧ (∀ t ∈ texts, t.Valid) ∧ raw.toList = ['.'].intercalate (texts.map PartText.chars)
      ∧ v.parts = texts.map PartText.part := by
  rw [parse_eq_ok]
  refine and_congr_right fun _ => ?_
  unfold parseParts
  rw [parsePieces_iff]
  constructor
  · rintro ⟨texts, htexts, hpieces, hparts⟩
    refine ⟨texts, ?_, htexts, ?_, hparts⟩
    · rintro rfl
      exact List.splitOn_ne_nil '.' raw.toList hpieces
    · rw [← hpieces, List.intercalate_splitOn]
  · rintro ⟨texts, hne, htexts, hraw, hparts⟩
    refine ⟨texts, htexts, ?_, hparts⟩
    rw [hraw, List.splitOn_intercalate]
    · intro piece hpiece
      obtain ⟨t, ht, rfl⟩ := List.mem_map.mp hpiece
      exact (htexts t ht).no_dot
    · simpa using hne

/-! ## Sequences -/

section Sequences

variable {α : Type*} [LinearOrder α]

/-- Sequences compare by their heads, then by what follows. -/
theorem sequence_lt_iff {f g : ℕ → α} : toLex f < toLex g ↔
    f 0 < g 0 ∨ f 0 = g 0 ∧ toLex (fun i => f (i + 1)) < toLex fun i => g (i + 1) := by
  constructor
  · rintro ⟨i, hbelow, hi⟩
    cases i with
    | zero => exact Or.inl hi
    | succ i =>
        exact Or.inr ⟨hbelow 0 i.succ_pos, i, fun j hj => hbelow (j + 1) (Nat.succ_lt_succ hj), hi⟩
  · rintro (hzero | ⟨hzero, i, hbelow, hi⟩)
    · exact ⟨0, nofun, hzero⟩
    · refine ⟨i + 1, fun j hj => ?_, hi⟩
      cases j with
      | zero => exact hzero
      | succ j => exact hbelow j (Nat.lt_of_succ_lt_succ hj)

theorem compare_sequence (f g : ℕ → α) : compare (toLex f) (toLex g) =
    (compare (f 0) (g 0)).then
      (compare (toLex fun i => f (i + 1)) (toLex fun i => g (i + 1))) := by
  rcases lt_trichotomy (f 0) (g 0) with hlt | heq | hgt
  · rw [compare_lt_iff_lt.mpr hlt]
    exact compare_lt_iff_lt.mpr (sequence_lt_iff.mpr (Or.inl hlt))
  · rw [compare_eq_iff_eq.mpr heq, Ordering.eq_then]
    rcases lt_trichotomy (toLex fun i => f (i + 1)) (toLex fun i => g (i + 1)) with
      htail | htail | htail
    · rw [compare_lt_iff_lt.mpr htail]
      exact compare_lt_iff_lt.mpr (sequence_lt_iff.mpr (Or.inr ⟨heq, htail⟩))
    · rw [compare_eq_iff_eq.mpr htail, compare_eq_iff_eq]
      refine congrArg toLex (funext fun i => ?_)
      cases i with
      | zero => exact heq
      | succ i => exact congrFun htail i
    · rw [compare_gt_iff_gt.mpr htail]
      exact compare_gt_iff_gt.mpr (sequence_lt_iff.mpr (Or.inr ⟨heq.symm, htail⟩))
  · rw [compare_gt_iff_gt.mpr hgt]
    exact compare_gt_iff_gt.mpr (sequence_lt_iff.mpr (Or.inl hgt))

theorem compare_coe (a b : α) : compare (a : WithTop α) (b : WithTop α) = compare a b := by
  rcases lt_trichotomy a b with h | h | h
  · rw [compare_lt_iff_lt.mpr h, compare_lt_iff_lt.mpr (WithTop.coe_lt_coe.mpr h)]
  · rw [compare_eq_iff_eq.mpr h, compare_eq_iff_eq.mpr (congrArg _ h)]
  · rw [compare_gt_iff_gt.mpr h, compare_gt_iff_gt.mpr (WithTop.coe_lt_coe.mpr h)]

end Sequences

/-! ## The order -/

/-- The letters as they sort: none after any. -/
def Part.letters (part : Part) : WithTop String :=
  if part.is_final then ⊤ else part.alpha

/-- The fields as they compare: the number, the letters, the trailing number. -/
def Part.key (part : Part) : ℕ ×ₗ (WithTop String ×ₗ ℕ) :=
  toLex (part.number, toLex (part.letters, part.pre_number))

/-- A final part has no letters. -/
def Part.Bare (part : Part) : Prop := part.is_final = true → part.alpha = ""

theorem PartText.bare (t : PartText) : t.part.Bare := by
  intro hfinal
  show String.ofList t.letters = ""
  rw [List.isEmpty_iff.mp hfinal]

theorem MozVersion.bare (v : MozVersion) : ∀ part ∈ v.parts, part.Bare := by
  obtain ⟨-, texts, -, -, -, hparts⟩ := parse_iff.mp v.parse_raw
  intro part hpart
  rw [hparts] at hpart
  obtain ⟨t, -, rfl⟩ := List.mem_map.mp hpart
  exact t.bare

theorem Part.compare_letters {p q : Part} (hp : p.Bare) (hq : q.Bare) :
    compare p.letters q.letters
      = (compare p.is_final q.is_final).then (compare p.alpha q.alpha) := by
  unfold Part.letters
  cases hpf : p.is_final <;> cases hqf : q.is_final
  · exact compare_coe p.alpha q.alpha
  · exact compare_lt_iff_lt.mpr (WithTop.coe_lt_top _)
  · exact compare_gt_iff_gt.mpr (WithTop.coe_lt_top _)
  · rw [hp hpf, hq hqf]
    exact compare_eq_iff_eq.mpr rfl

theorem Part.compare_eq {p q : Part} (hp : p.Bare) (hq : q.Bare) :
    compare p q = compare p.key q.key := by
  show (compare p.number q.number).then ((compare p.is_final q.is_final).then
    ((compare p.alpha q.alpha).then (compare p.pre_number q.pre_number))) = _
  rw [← Ordering.then_assoc (compare p.is_final q.is_final), ← Part.compare_letters hp hq]
  rfl

/-- The parts, and zeros without end. -/
def sequence (parts : List Part) : Lex (ℕ → ℕ ×ₗ (WithTop String ×ₗ ℕ)) :=
  toLex fun i => (parts.getD i .zero).key

theorem sequence_append_zeros (parts : List Part) (n : Nat) :
    sequence (parts ++ List.replicate n .zero) = sequence parts := by
  refine congrArg toLex (funext fun i => congrArg Part.key ?_)
  rw [List.getD_eq_getElem?_getD, List.getD_eq_getElem?_getD]
  by_cases hi : i < parts.length
  · rw [List.getElem?_append_left hi]
  · rw [List.getElem?_append_right (Nat.le_of_not_lt hi), List.getElem?_replicate,
      List.getElem?_eq_none (Nat.le_of_not_lt hi)]
    split <;> rfl

theorem compareLex_eq {a b : List Part} (hlength : a.length = b.length)
    (ha : ∀ part ∈ a, part.Bare) (hb : ∀ part ∈ b, part.Bare) :
    List.compareLex compare a b = compare (sequence a) (sequence b) := by
  induction a generalizing b with
  | nil =>
      obtain rfl := List.length_eq_zero_iff.mp hlength.symm
      rw [List.compareLex_nil_nil, compare_eq_iff_eq.mpr rfl]
  | cons p a ih =>
      cases b with
      | nil => cases hlength
      | cons q b =>
          obtain ⟨hp, ha⟩ := List.forall_mem_cons.mp ha
          obtain ⟨hq, hb⟩ := List.forall_mem_cons.mp hb
          rw [List.compareLex_cons_cons, ih (Nat.succ.inj hlength) ha hb, Part.compare_eq hp hq]
          exact (compare_sequence (fun i => ((p :: a).getD i .zero).key)
            fun i => ((q :: b).getD i .zero).key).symm

def MozVersion.sequence (v : MozVersion) : Lex (ℕ → ℕ ×ₗ (WithTop String ×ₗ ℕ)) :=
  Dragomand.sequence v.parts

theorem MozVersion.cmp_eq (a b : MozVersion) : a.cmp b = compare a.sequence b.sequence := by
  have hpad : ∀ (v : MozVersion) (n : Nat), ∀ part ∈ v.parts.rightpad n .zero, part.Bare := by
    intro v n part hpart
    rcases List.mem_append.mp hpart with hpart | hpart
    · exact v.bare part hpart
    · rw [List.eq_of_mem_replicate hpart]
      exact fun _ => rfl
  unfold MozVersion.cmp cmpParts
  rw [compareLex_eq (by simp only [List.length_rightpad]; omega) (hpad a _) (hpad b _)]
  show compare (Dragomand.sequence (a.parts ++ List.replicate _ _))
    (Dragomand.sequence (b.parts ++ List.replicate _ _)) = _
  rw [sequence_append_zeros, sequence_append_zeros]
  rfl

/-- `0`, as a part -/
def PartText.zero : PartText := ⟨['0'], [], []⟩

theorem PartText.zero_valid : PartText.zero.Valid where
  some_digit := List.cons_ne_nil _ _
  digits := by simp [PartText.zero, Char.isDigit]
  letters := nofun
  trailing := nofun
  after_letters := fun _ => rfl
  fits := by decide
  trailing_fits := by decide

/-- The version spelt with one more `.0`. -/
theorem MozVersion.parse_append_zero (a : MozVersion) :
    ∃ a', MozVersion.parse (a.raw ++ ".0") = .ok a' ∧ a'.sequence = a.sequence := by
  obtain ⟨texts, htexts, hpieces, hparts⟩ := parsePieces_iff.mp a.parsed
  have hraw : (a.raw ++ ".0").toList.splitOn '.'
      = (texts ++ [PartText.zero]).map PartText.chars := by
    rw [String.toList_append, List.map_append, ← hpieces]
    exact List.splitOn_append_cons_self a.raw.toList ['0']
  have hparsed : parseParts (a.raw ++ ".0") = some (a.parts ++ [Part.zero]) := by
    refine parsePieces_iff.mpr ⟨texts ++ [PartText.zero], ?_, hraw, ?_⟩
    · intro t ht
      rcases List.mem_append.mp ht with ht | ht
      · exact htexts t ht
      · rw [List.mem_singleton.mp ht]
        exact PartText.zero_valid
    · rw [List.map_append, ← hparts]
      rfl
  exact ⟨⟨a.raw ++ ".0", a.parts ++ [Part.zero], hparsed⟩, parse_eq_ok.mpr ⟨rfl, hparsed⟩,
    sequence_append_zeros a.parts 1⟩

/-- `parse` accepts the texts of the grammar and slices each piece between
characters; versions are ordered as their sequences are, and one more `.0`
changes no comparison. -/
theorem MozVersion.parse_and_order :
    (∀ (raw : String) (v : MozVersion), MozVersion.parse raw = .ok v ↔ v.raw = raw
        ∧ ∃ texts : List PartText, texts ≠ [] ∧ (∀ t ∈ texts, t.Valid)
          ∧ raw.toList = ['.'].intercalate (texts.map PartText.chars)
          ∧ v.parts = texts.map PartText.part)
      ∧ (∀ piece : List Char, slicePart piece = some (parsePart piece))
      ∧ (∀ a : MozVersion, a.cmp a = .eq)
      ∧ (∀ a b : MozVersion, b.cmp a = (a.cmp b).swap)
      ∧ (∀ a b c : MozVersion,
          (a.cmp b).isLE = true → (b.cmp c).isLE = true → (a.cmp c).isLE = true)
      ∧ (∀ a b : MozVersion, a.cmp b = compare a.sequence b.sequence)
      ∧ ∀ a : MozVersion, ∃ a', MozVersion.parse (a.raw ++ ".0") = .ok a'
          ∧ ∀ b : MozVersion, a'.cmp b = a.cmp b ∧ b.cmp a' = b.cmp a := by
  refine ⟨fun raw v => parse_iff, slicePart_eq, fun a => ?_,
    fun a b => ?_, fun a b c hab hbc => ?_, MozVersion.cmp_eq, fun a => ?_⟩
  · rw [a.cmp_eq]
    exact compare_eq_iff_eq.mpr rfl
  · exact Std.OrientedOrd.eq_swap (α := MozVersion)
  · exact Std.TransOrd.isLE_trans (α := MozVersion) hab hbc
  · obtain ⟨a', ha', hsequence⟩ := a.parse_append_zero
    refine ⟨a', ha', fun b => ?_⟩
    rw [a'.cmp_eq, a.cmp_eq, b.cmp_eq, b.cmp_eq, hsequence]
    exact ⟨rfl, rfl⟩

end Dragomand
