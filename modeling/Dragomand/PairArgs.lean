import Mathlib
import Dragomand.Service
import Dragomand.Words

/-!
# Pairs on the command line

`parse_pair` splits "zh-Hans-en" into the two codes of a pair: a script or
a region belongs to the code before it, everything else begins a code. The
proof rests on one fact. What the loop has built is a list of codes in
their normal form (`LangCode`), and reading the parts of such a code again
builds the same code (`readParts_parts`).

The library is imported whole: no single module of it has the lemmas on the
case of a character.
-/

namespace Dragomand

/-! ## The parser -/

/-- A four-letter script, as in "zh-Hans". -/
def isScript (part : List Char) : Bool := part.length == 4 && part.all Char.isAlpha

/-- A two-letter uppercase or three-digit region, as in "pt-BR". -/
def isRegion (part : List Char) : Bool :=
  (part.length == 2 && part.all Char.isUpper) || (part.length == 3 && part.all Char.isDigit)

/-- Scripts are normalized to title case. -/
def titleCase : List Char → List Char
  | [] => []
  | first :: rest => first.toUpper :: rest.map Char.toLower

/-- One turn of the loop. The codes stand in reverse: the one that a
subtag is added to, `codes.last_mut()`, is the head. -/
def pushPart (codes : List (List Char)) (part : List Char) : List (List Char) :=
  match codes with
  | [] => [part]
  | code :: codes =>
      if isScript part then (code ++ '-' :: titleCase part) :: codes
      else if isRegion part then (code ++ '-' :: part) :: codes
      else part :: code :: codes

def readParts (bad : String) : List (List Char) → List (List Char) →
    Except String (List (List Char))
  | codes, [] => .ok codes
  | codes, part :: parts =>
      if part.isEmpty then .error bad else readParts bad (pushPart codes part) parts

/-- Splits "bg-en" into ("bg", "en"); `debug` is the standard library's
`{:?}`. -/
def parse_pair (debug : String → String) (pair : String) : Except String (String × String) :=
  let bad := "bad pair " ++ debug pair ++ ": expected SRC-TRG, e.g. bg-en or zh-Hans-en"
  match readParts bad [] (pair.toList.splitOn '-') with
  | .error e => .error e
  | .ok [target, source] => .ok (String.ofList source, String.ofList target)
  | .ok _ => .error bad

/-- A row of the results of `check_for_updates`. -/
def UpdateInfo.row (u : UpdateInfo) : String :=
  u.source ++ "-" ++ u.target ++ " " ++ u.installed ++ " -> " ++ u.available

/-- They are what the request answers. -/
theorem checkForUpdates_rows : checkForUpdates = (do
    ask .start
    let updates ← (ask .check_for_updates >>= ofResult)
    ask .refresh
    pure [("updates", .strs (updates.map UpdateInfo.row))]) :=
  rfl

/-- The pairs that `dragomanctl update` installs, from the rows. -/
def reportedPairs (debug : String → String) (updates : List String) : List (String × String) :=
  (updates.filterMap fun line => (split_whitespace line.toList).head?).filterMap fun pair =>
    (parse_pair debug (String.ofList pair)).toOption

/-! ## Codes in normal form -/

def isSubtag (part : List Char) : Bool := isScript part || isRegion part

/-- A subtag as it is added to a code. -/
def normalSubtag (part : List Char) : List Char := if isScript part then titleCase part else part

/-- A code as the loop builds it: a first part, and subtags that are
normal already. -/
structure LangCode where
  first : List Char
  subtags : List (List Char)
  first_ne : first ≠ []
  first_hyphen : '-' ∉ first
  subtag : ∀ part ∈ subtags, isSubtag part = true
  normal : ∀ part ∈ subtags, normalSubtag part = part

namespace LangCode

def parts (code : LangCode) : List (List Char) := code.first :: code.subtags

def chars (code : LangCode) : List Char := ['-'].intercalate code.parts

end LangCode

theorem titleCase_titleCase (part : List Char) : titleCase (titleCase part) = titleCase part := by
  cases part with
  | nil => rfl
  | cons first rest => simp [titleCase]

theorem isScript_titleCase (part : List Char) : isScript (titleCase part) = isScript part := by
  cases part with
  | nil => rfl
  | cons first rest => simp [isScript, titleCase, Function.comp_def]

theorem isSubtag_normalSubtag {part : List Char} (h : isSubtag part = true) :
    isSubtag (normalSubtag part) = true := by
  unfold normalSubtag
  split
  · rename_i hscript
    rw [isSubtag, isScript_titleCase, hscript, Bool.true_or]
  · exact h

theorem normalSubtag_normalSubtag (part : List Char) :
    normalSubtag (normalSubtag part) = normalSubtag part := by
  unfold normalSubtag
  by_cases hscript : isScript part = true
  · rw [if_pos hscript, isScript_titleCase, if_pos hscript, titleCase_titleCase]
  · rw [if_neg hscript, if_neg hscript]

theorem hyphen_of_isSubtag {part : List Char} (h : isSubtag part = true) : '-' ∉ part := by
  intro hmem
  simp only [isSubtag, isScript, isRegion, Bool.or_eq_true, Bool.and_eq_true, List.all_eq_true] at h
  rcases h with h | h | h
  · exact absurd (h.2 _ hmem) (by decide)
  · exact absurd (h.2 _ hmem) (by decide)
  · exact absurd (h.2 _ hmem) (by decide)

theorem ne_nil_of_isSubtag {part : List Char} (h : isSubtag part = true) : part ≠ [] := by
  rintro rfl
  cases h

theorem LangCode.hyphen (code : LangCode) : ∀ part ∈ code.parts, '-' ∉ part := by
  intro part hpart
  rcases List.mem_cons.mp hpart with rfl | hpart
  · exact code.first_hyphen
  · exact hyphen_of_isSubtag (code.subtag part hpart)

/-! ## The loop -/

section Loop

variable {bad : String} {code : List Char} {codes rest : List (List Char)} {part : List Char}

theorem pushPart_subtag (h : isSubtag part = true) :
    pushPart (code :: codes) part = (code ++ '-' :: normalSubtag part) :: codes := by
  unfold pushPart normalSubtag
  by_cases hscript : isScript part = true
  · simp only [if_pos hscript]
  · have hregion : isRegion part = true := by simpa [isSubtag, hscript] using h
    simp only [if_neg hscript, if_pos hregion]

theorem pushPart_first (h : codes = [] ∨ isSubtag part = false) :
    pushPart codes part = part :: codes := by
  cases codes with
  | nil => rfl
  | cons code codes =>
      have hnot := h.resolve_left (List.cons_ne_nil _ _)
      rw [isSubtag, Bool.or_eq_false_iff] at hnot
      simp [pushPart, hnot.1, hnot.2]

theorem readParts_cons (hne : part ≠ []) :
    readParts bad codes (part :: rest) = readParts bad (pushPart codes part) rest := by
  rw [readParts, if_neg]
  rwa [List.isEmpty_iff]

/-- Normal subtags are added to the code as they are. -/
theorem readParts_subtags {subtags : List (List Char)}
    (hsubtag : ∀ part ∈ subtags, isSubtag part = true)
    (hnormal : ∀ part ∈ subtags, normalSubtag part = part) :
    readParts bad (code :: codes) (subtags ++ rest)
      = readParts bad (['-'].intercalate (code :: subtags) :: codes) rest := by
  induction subtags generalizing code with
  | nil => simp
  | cons part subtags ih =>
      have hpart := hsubtag part List.mem_cons_self
      rw [List.cons_append, readParts_cons (ne_nil_of_isSubtag hpart), pushPart_subtag hpart,
        hnormal part List.mem_cons_self,
        ih (fun p hp => hsubtag p (List.mem_cons_of_mem _ hp))
          fun p hp => hnormal p (List.mem_cons_of_mem _ hp)]
      congr 2
      cases subtags <;> simp

/-- A code is read back from its parts, at the beginning or after another. -/
theorem readParts_parts (code : LangCode) (h : codes = [] ∨ isSubtag code.first = false) :
    readParts bad codes (code.parts ++ rest) = readParts bad (code.chars :: codes) rest := by
  rw [LangCode.parts, List.cons_append, readParts_cons code.first_ne, pushPart_first h,
    readParts_subtags code.subtag code.normal]
  rfl

end Loop

/-- The code with one more subtag. -/
def LangCode.push (code : LangCode) (part : List Char) (h : isSubtag part = true) : LangCode where
  first := code.first
  subtags := code.subtags ++ [normalSubtag part]
  first_ne := code.first_ne
  first_hyphen := code.first_hyphen
  subtag := List.forall_mem_append.mpr
    ⟨code.subtag, List.forall_mem_singleton.mpr (isSubtag_normalSubtag h)⟩
  normal := List.forall_mem_append.mpr
    ⟨code.normal, List.forall_mem_singleton.mpr (normalSubtag_normalSubtag part)⟩

theorem LangCode.chars_push (code : LangCode) {part : List Char} (h : isSubtag part = true) :
    (code.push part h).chars = code.chars ++ '-' :: normalSubtag part := by
  show ['-'].intercalate (code.parts ++ [normalSubtag part]) = _
  have hne : code.parts ≠ [] := List.cons_ne_nil _ _
  rw [intercalate_concat hne, LangCode.chars, List.append_assoc]
  rfl

/-- What the loop has built at any time: codes in normal form, of which only
the oldest may begin with what looks like a subtag. -/
theorem readParts_codes {bad : String} {parts codes : List (List Char)} {done : List LangCode}
    (hparts : ∀ part ∈ parts, '-' ∉ part)
    (hdone : ∀ code ∈ done.dropLast, isSubtag code.first = false)
    (h : readParts bad (done.map LangCode.chars) parts = .ok codes) :
    ∃ done' : List LangCode, codes = done'.map LangCode.chars
      ∧ ∀ code ∈ done'.dropLast, isSubtag code.first = false := by
  induction parts generalizing done with
  | nil =>
      cases h
      exact ⟨done, rfl, hdone⟩
  | cons part parts ih =>
      have hhyphen := hparts part List.mem_cons_self
      have hrest := fun p hp => hparts p (List.mem_cons_of_mem _ hp)
      by_cases hne : part = []
      · rw [hne] at h
        cases h
      rw [readParts_cons hne] at h
      have hfirst : ∀ hpush : done.map LangCode.chars = [] ∨ isSubtag part = false,
          ∃ done' : List LangCode, codes = done'.map LangCode.chars
            ∧ ∀ code ∈ done'.dropLast, isSubtag code.first = false := by
        intro hpush
        let code : LangCode := ⟨part, [], hne, hhyphen, by simp, by simp⟩
        have hcode : code.chars = part := List.intercalate_singleton
        rw [pushPart_first hpush, ← hcode, ← List.map_cons] at h
        refine ih hrest ?_ h
        cases done with
        | nil => simp
        | cons code' done =>
            have hpart := hpush.resolve_left (List.cons_ne_nil _ _)
            intro c hc
            rcases List.mem_cons.mp hc with rfl | hc
            · exact hpart
            · exact hdone c hc
      cases done with
      | nil => exact hfirst (Or.inl rfl)
      | cons code done =>
          cases hpart : isSubtag part with
          | false => exact hfirst (Or.inr hpart)
          | true =>
              rw [List.map_cons, pushPart_subtag hpart, ← code.chars_push hpart,
                ← List.map_cons] at h
              refine ih hrest ?_ h
              cases done with
              | nil => simp
              | cons code' done =>
                  intro c hc
                  rcases List.mem_cons.mp hc with rfl | hc
                  · exact hdone code List.mem_cons_self
                  · exact hdone c (List.mem_cons_of_mem _ hc)

/-! ## Pairs of codes -/

section Pairs

variable {debug : String → String}

/-- Two codes in normal form are read back, if the second does not begin
with what looks like a subtag of the first. -/
theorem parse_pair_codes (source target : LangCode) (h : isSubtag target.first = false) :
    parse_pair debug (String.ofList source.chars ++ "-" ++ String.ofList target.chars)
      = .ok (String.ofList source.chars, String.ofList target.chars) := by
  have hparts : ∀ code : LangCode, code.chars.splitOn '-' = code.parts := fun code =>
    List.splitOn_intercalate '-' code.hyphen (List.cons_ne_nil _ _)
  have hsplit : (String.ofList source.chars ++ "-" ++ String.ofList target.chars).toList.splitOn '-'
      = source.parts ++ (target.parts ++ []) := by
    rw [List.append_nil, ← hparts source, ← hparts target,
      ← List.splitOn_append_cons_self source.chars target.chars]
    simp
  unfold parse_pair
  dsimp only
  rw [hsplit, readParts_parts source (Or.inl rfl), readParts_parts target (Or.inr h)]
  rfl

theorem parse_pair_eq_ok {pair source target : String}
    (h : parse_pair debug pair = .ok (source, target)) :
    ∃ s t : LangCode, source = String.ofList s.chars ∧ target = String.ofList t.chars
      ∧ isSubtag t.first = false := by
  unfold parse_pair at h
  dsimp only at h
  have hparts : ∀ part ∈ pair.toList.splitOn '-', '-' ∉ part := notMem_of_mem_splitOn
  split at h
  · cases h
  · rename_i t s hread
    obtain ⟨rfl, rfl⟩ := Prod.mk.inj (Except.ok.inj h)
    obtain ⟨done, hdone, hfirst⟩ := @readParts_codes _ _ _ [] hparts (by simp) hread
    obtain ⟨code, rest, rfl, rfl, hrest⟩ := List.map_eq_cons_iff.mp hdone.symm
    obtain ⟨code', rest', rfl, rfl, hnil⟩ := List.map_eq_cons_iff.mp hrest
    obtain rfl := List.map_eq_nil_iff.mp hnil
    exact ⟨code', code, rfl, rfl, hfirst code List.mem_cons_self⟩
  · cases h

end Pairs

/-! ## The shape of codes -/

/-- language[-Script][-Region], as the providers write it. -/
structure CodeShape where
  language : List Char
  script : Option (List Char)
  region : Option (List Char)
  language_length : language.length = 2 ∨ language.length = 3
  language_lower : ∀ c ∈ language, c.isLower = true
  script_title : ∀ s ∈ script, ∃ first rest, s = first :: rest ∧ rest.length = 3
    ∧ first.isUpper = true ∧ ∀ c ∈ rest, c.isLower = true
  region_code : ∀ r ∈ region, (r.length = 2 ∧ ∀ c ∈ r, c.isUpper = true)
    ∨ (r.length = 3 ∧ ∀ c ∈ r, c.isDigit = true)

namespace CodeShape

variable (shape : CodeShape)

def subtags : List (List Char) := shape.script.toList ++ shape.region.toList

def text : String := String.ofList (['-'].intercalate (shape.language :: shape.subtags))

theorem hyphen_language : '-' ∉ shape.language := fun hmem =>
  absurd (shape.language_lower _ hmem) (by decide)

/-- A language is no subtag: it is lowercase, and too short for a script. -/
theorem not_isSubtag_language : isSubtag shape.language = false := by
  have hlower := shape.language_lower
  have hlength := shape.language_length
  cases hlanguage : shape.language with
  | nil => rfl
  | cons c rest =>
      rw [hlanguage] at hlower hlength
      have hc := hlower c List.mem_cons_self
      have hupper : c.isUpper = false := by
        simpa using Char.not_isUpper_of_isLower hc
      have hdigit : c.isDigit = false := by
        by_contra hdigit
        have hle := (Char.isDigit_iff_toNat.mp (by simpa using hdigit)).2
        have hge : 'a'.toNat ≤ c.toNat := (of_decide_eq_true (Bool.and_eq_true_iff.mp hc).1 :)
        exact absurd (hge.trans hle) (by decide)
      have hscript : isScript (c :: rest) = false := by
        unfold isScript
        rw [Bool.and_eq_false_iff]
        left
        simp only [beq_eq_false_iff_ne]
        omega
      simp [isSubtag, isRegion, hscript, hupper, hdigit]

theorem isRegion_of_mem {r : List Char} (hr : r ∈ shape.region) :
    isRegion r = true ∧ isScript r = false := by
  rcases shape.region_code r hr with ⟨hlength, hall⟩ | ⟨hlength, hall⟩
  · simp [isRegion, isScript, hlength, List.all_eq_true.mpr hall]
  · simp [isRegion, isScript, hlength, List.all_eq_true.mpr hall]

theorem isScript_of_mem {s : List Char} (hs : s ∈ shape.script) :
    isScript s = true ∧ titleCase s = s := by
  obtain ⟨first, rest, rfl, hlength, hupper, hlower⟩ := shape.script_title s hs
  constructor
  · have halpha : ∀ c ∈ rest, c.isAlpha = true := fun c hc => by simp [Char.isAlpha, hlower c hc]
    simp [isScript, hlength, Char.isAlpha, hupper, List.all_eq_true.mpr halpha]
  · have hfirst : first.toUpper = first :=
      Char.toUpper_eq_of_not_isLower (Char.not_isLower_of_isUpper hupper)
    have hrest : rest.map Char.toLower = rest := by
      conv_rhs => rw [← List.map_id rest]
      exact List.map_congr_left fun c hc =>
        Char.toLower_eq_of_not_isUpper (Char.not_isUpper_of_isLower (hlower c hc))
    rw [titleCase, hfirst, hrest]

theorem subtag_cases {part : List Char} (h : part ∈ shape.subtags) :
    isSubtag part = true ∧ normalSubtag part = part := by
  rcases List.mem_append.mp h with h | h
  · obtain ⟨hscript, htitle⟩ := shape.isScript_of_mem (Option.mem_toList.mp h)
    simp [isSubtag, normalSubtag, hscript, htitle]
  · obtain ⟨hregion, hscript⟩ := shape.isRegion_of_mem (Option.mem_toList.mp h)
    simp [isSubtag, normalSubtag, hregion, hscript]

def code : LangCode where
  first := shape.language
  subtags := shape.subtags
  first_ne := by
    intro hnil
    have hlength := shape.language_length
    simp [hnil] at hlength
  first_hyphen := shape.hyphen_language
  subtag _ h := (shape.subtag_cases h).1
  normal _ h := (shape.subtag_cases h).2

end CodeShape

/-! ## Rows -/

theorem isAlphanum_of_isSubtag {part : List Char} (h : isSubtag part = true) {c : Char}
    (hc : c ∈ part) : c.isAlphanum = true := by
  simp only [isSubtag, isScript, isRegion, Bool.or_eq_true, Bool.and_eq_true, List.all_eq_true] at h
  rcases h with h | h | h
  · simp [Char.isAlphanum, h.2 c hc]
  · simp [Char.isAlphanum, Char.isAlpha, h.2 c hc]
  · simp [Char.isAlphanum, h.2 c hc]

theorem is_whitespace_of_isAlphanum {c : Char} (h : c.isAlphanum = true ∨ c = '-') :
    is_whitespace c = false := by
  have hbounds : 45 ≤ c.toNat ∧ c.toNat ≤ 122 := by
    rcases h with h | rfl
    · simp only [Char.isAlphanum, Char.isAlpha, Char.isUpper, Char.isLower, Char.isDigit,
        Bool.or_eq_true, Bool.and_eq_true, decide_eq_true_eq, UInt32.le_iff_toNat_le] at h
      have hval : ∀ c : Char, c.val.toNat = c.toNat := fun _ => rfl
      simp only [hval, Char.reduceToNat] at h
      omega
    · decide
  simp [is_whitespace]
  omega

namespace CodeShape

variable (shape : CodeShape)

theorem text_chars {c : Char} (hc : c ∈ shape.text.toList) : c.isAlphanum = true ∨ c = '-' := by
  rw [text, String.toList_ofList] at hc
  rcases mem_intercalate hc with rfl | ⟨piece, hpiece, hc⟩
  · exact Or.inr rfl
  rcases List.mem_cons.mp hpiece with rfl | hpiece
  · exact Or.inl (by simp [Char.isAlphanum, Char.isAlpha, shape.language_lower c hc])
  · exact Or.inl (isAlphanum_of_isSubtag (shape.subtag_cases hpiece).1 hc)

end CodeShape

/-- The pair is the first word of its row. -/
theorem head?_row {u : UpdateInfo} {source target : CodeShape} (hsource : u.source = source.text)
    (htarget : u.target = target.text) :
    (split_whitespace u.row.toList).head? = some (source.text ++ "-" ++ target.text).toList := by
  have hrow : u.row.toList = (source.text ++ "-" ++ target.text).toList
      ++ ' ' :: (u.installed ++ " -> " ++ u.available).toList := by
    simp [UpdateInfo.row, hsource, htarget]
  have hword : ∀ c ∈ (source.text ++ "-" ++ target.text).toList, is_whitespace c = false := by
    intro c hc
    rw [String.toList_append, String.toList_append, List.mem_append, List.mem_append] at hc
    rcases hc with (hc | hc) | hc
    · exact is_whitespace_of_isAlphanum (source.text_chars hc)
    · exact is_whitespace_of_isAlphanum (Or.inr (by simpa using hc))
    · exact is_whitespace_of_isAlphanum (target.text_chars hc)
  rw [hrow, split_whitespace_word (by simp) hword (by decide), List.head?_cons]

theorem reportedPairs_row {debug : String → String} {u : UpdateInfo} {rows : List String}
    {source target : CodeShape}
    (h : parse_pair debug (source.text ++ "-" ++ target.text) = .ok (source.text, target.text))
    (hsource : u.source = source.text) (htarget : u.target = target.text) :
    reportedPairs debug (u.row :: rows)
      = (source.text, target.text) :: reportedPairs debug rows := by
  simp only [reportedPairs, List.filterMap_cons, head?_row hsource htarget, String.ofList_toList, h,
    Except.toOption]

/-- **Pairs round-trip through the command line.** A pair of codes of the usual
shape is read back from its text, also from the rows of `check_for_updates`,
none of which is dropped; and what `parse_pair` makes of any text it makes
again of the text of its result. -/
theorem pairs_round_trip (debug : String → String) :
    (∀ source target : CodeShape,
      parse_pair debug (source.text ++ "-" ++ target.text) = .ok (source.text, target.text))
    ∧ (∀ updates : List UpdateInfo,
      (∀ u ∈ updates, ∃ source target : CodeShape, u.source = source.text ∧ u.target = target.text) →
      reportedPairs debug (updates.map UpdateInfo.row) = updates.map fun u => (u.source, u.target))
    ∧ ∀ pair source target, parse_pair debug pair = .ok (source, target) →
      parse_pair debug (source ++ "-" ++ target) = .ok (source, target) := by
  have hshapes : ∀ source target : CodeShape,
      parse_pair debug (source.text ++ "-" ++ target.text) = .ok (source.text, target.text) :=
    fun source target => parse_pair_codes source.code target.code target.not_isSubtag_language
  refine ⟨hshapes, fun updates hupdates => ?_, fun pair source target h => ?_⟩
  · induction updates with
    | nil => rfl
    | cons u updates ih =>
        obtain ⟨source, target, hsource, htarget⟩ := hupdates u List.mem_cons_self
        rw [List.map_cons, List.map_cons, reportedPairs_row (hshapes source target) hsource htarget,
          ih fun u hu => hupdates u (List.mem_cons_of_mem _ hu), hsource, htarget]
  · obtain ⟨s, t, rfl, rfl, hfirst⟩ := parse_pair_eq_ok h
    exact parse_pair_codes s t hfirst

def zhHans : CodeShape where
  language := ['z', 'h']
  script := some ['H', 'a', 'n', 's']
  region := none
  language_length := by decide
  language_lower := List.all_eq_true.mp rfl
  script_title := by
    rintro _ ⟨⟩
    exact ⟨'H', ['a', 'n', 's'], rfl, rfl, rfl, List.all_eq_true.mp rfl⟩
  region_code := by rintro _ ⟨⟩

def en : CodeShape where
  language := ['e', 'n']
  script := none
  region := none
  language_length := by decide
  language_lower := List.all_eq_true.mp rfl
  script_title := by rintro _ ⟨⟩
  region_code := by rintro _ ⟨⟩

/-- An update of "zh-Hans-en", and the pair in lowercase. -/
theorem pairs_round_trip_zh (debug : String → String) :
    reportedPairs debug ["zh-Hans-en 1.0 -> 2.0"] = [("zh-Hans", "en")]
      ∧ parse_pair debug "zh-Hans-en" = .ok ("zh-Hans", "en") := by
  obtain ⟨-, hrows, hagain⟩ := pairs_round_trip debug
  have hrow := hrows [⟨"zh-Hans", "en", "1.0", "2.0"⟩]
    (List.forall_mem_singleton.mpr ⟨zhHans, en, by decide, by decide⟩)
  exact ⟨hrow, hagain "zh-hans-en" "zh-Hans" "en" rfl⟩

end Dragomand
