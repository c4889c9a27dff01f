import Dragomand.Requests
import Dragomand.Words

/-!
# The desktop plugins

The KRunner plugin and the GNOME search provider translate what is typed
after `tr`, and copy the translation when the result is activated. Both are
stateless: the id of a result carries the translation. The search provider
puts it behind two separators that cannot occur in a language code; the
KRunner plugin takes the translation itself, next to two ids that are not
translations.
-/

namespace Dragomand

/-! ## What they share -/

/-- The outcome of an awaited request. -/
structure RequestOutcome where
  code : Nat
  results : Results

/-- The last of the translations, if the request succeeded. -/
def RequestOutcome.translation (outcome : RequestOutcome) : Option String :=
  if outcome.code ≠ response_code.SUCCESS then none
  else match outcome.results.lookup result_key.TRANSLATIONS with
    | some (.strs v) => v.getLast?
    | _ => none

/-- The answer to Translate, within the 15 seconds that the plugins wait:
`none` for no answer in time, and then for a call that failed. -/
abbrev DaemonAnswers := String → String → String → Option (Option RequestOutcome)

/-- The translation that the plugin gets for the pair and the text. -/
def DaemonAnswers.translation (answers : DaemonAnswers) (source target text : String) :
    Option (Option String) :=
  (answers source target text).map fun outcome => outcome.bind RequestOutcome.translation

def looks_like_lang (s : List Char) : Bool :=
  2 ≤ (String.ofList s).utf8ByteSize && (String.ofList s).utf8ByteSize ≤ 8
    && s.all fun c => c.isAlphanum || c == '-'

/-- Source, target and text of a query, from its words. -/
def queryOf : List (List Char) → Option (String × String × String)
  | [] => none
  | src :: trg :: text =>
      if !text.isEmpty && looks_like_lang src && looks_like_lang trg then
        some (String.ofList src, String.ofList trg, String.ofList ([' '].intercalate text))
      else some ("bg", "en", String.ofList ([' '].intercalate (src :: trg :: text)))
  | text => some ("bg", "en", String.ofList ([' '].intercalate text))

/-- What can take a text on a desktop. -/
structure Desktop where
  klipper : Bool
  /-- the programs that can be started -/
  spawns : String → Bool

inductive Clipboard where
  | klipper
  | tool (cmd : String)
deriving DecidableEq, Repr

/-- The tool that takes the text: wl-copy on Wayland, xclip as fallback. -/
def Desktop.tool (desktop : Desktop) : Option Clipboard :=
  (["wl-copy", "xclip"].find? desktop.spawns).map .tool

/-! ## KRunner -/

namespace krunner

def MATCH_INFORMATIONAL : Nat := 50
def MATCH_HELPER : Nat := 70

structure KMatch where
  id : String
  text : String
  icon : String
  kind : Nat
  relevance : Float
  properties : List (String × String)

def simple_match (id text : String) (kind : Nat) (relevance : Float) (subtext : String) : KMatch where
  id := id
  text := text
  icon := "applications-education-language"
  kind := kind
  relevance := relevance
  properties := if subtext ≠ "" then [("subtext", subtext)] else []

/-- `tr SRC TRG text …`, or `tr text …` for bg → en. -/
def parse_query (query : String) : Option (String × String × String) :=
  match query.toList with
  | 't' :: 'r' :: blank :: rest =>
      if is_whitespace blank then queryOf (split_whitespace (blank :: rest)) else none
  | _ => none

def match_query (answers : DaemonAnswers) (query : String) : List KMatch :=
  match parse_query query with
  | none => []
  | some (source, target, text) =>
      if (split_whitespace text.toList).length < 1 || text.utf8ByteSize < 2 then
        [simple_match "hint" ("tr " ++ source ++ " " ++ target ++ " …") MATCH_INFORMATIONAL 0.1
          "keep typing to translate"]
      else match answers.translation source target text with
        | some (some translation) =>
            [simple_match translation translation MATCH_HELPER 0.9
              (source ++ " → " ++ target ++ " · Enter copies to the clipboard")]
        | some none =>
            [simple_match "error" ("cannot translate " ++ source ++ " → " ++ target)
              MATCH_INFORMATIONAL 0.1 "pair not available?"]
        | none => []

/-- Klipper when present, a program otherwise. -/
def copy_to_clipboard (desktop : Desktop) (text : String) : Option (Clipboard × String) :=
  if desktop.klipper then some (.klipper, text) else desktop.tool.map fun tool => (tool, text)

/-- What is copied when the match is activated. -/
def run (desktop : Desktop) (match_id : String) : Option (Clipboard × String) :=
  if match_id = "hint" || match_id = "error" then none else copy_to_clipboard desktop match_id

/-- The match that shows the translation copies it. -/
def Faithful (translation : String) : Prop :=
  ∀ answers query source target text, parse_query query = some (source, target, text) →
    answers.translation source target text = some (some translation) →
    ∀ m ∈ match_query answers query, m.kind = MATCH_HELPER →
    ∀ desktop, run desktop m.id = copy_to_clipboard desktop translation

end krunner

/-! ## The GNOME search provider -/

namespace search_provider

/-- `tr SRC TRG text`, or `tr text` for bg → en, as the overview splits it. -/
def parse_terms : List String → Option (String × String × String)
  | [] => none
  | first :: rest => if first ≠ "tr" then none else queryOf (rest.map String.toList)

/-- The unit separator. -/
def SEPARATOR : Char := '\x1f'

/-- The ids of the results; an id carries the translation. -/
def translate_terms (answers : DaemonAnswers) (terms : List String) : List String :=
  match parse_terms terms with
  | none => []
  | some (source, target, text) =>
      if text.utf8ByteSize < 2 then []
      else match answers.translation source target text with
        | some (some translation) =>
            [source ++ SEPARATOR.toString ++ target ++ SEPARATOR.toString ++ translation]
        | _ => []

/-- `str::splitn`. -/
def splitn (sep : Char) : Nat → List Char → List (List Char)
  | 0, _ => []
  | 1, text => [text]
  | n + 2, text =>
      if sep ∈ text then
        text.takeWhile (· ≠ sep) :: splitn sep (n + 1) (text.dropWhile (· ≠ sep)).tail
      else [text]

def split_id (id : String) : String × String × String :=
  let parts := (splitn SEPARATOR 3 id.toList).map String.ofList
  (parts.getD 0 "", parts.getD 1 "", parts.getD 2 id)

def copy_to_clipboard (desktop : Desktop) (text : String) : Option (Clipboard × String) :=
  desktop.tool.map fun tool => (tool, text)

/-- What is copied when the result is activated. -/
def activate_result (desktop : Desktop) (identifier : String) : Option (Clipboard × String) :=
  copy_to_clipboard desktop (split_id identifier).2.2

/-- The result found for the translation copies it. -/
def Faithful (translation : String) : Prop :=
  ∀ answers terms source target text, parse_terms terms = some (source, target, text) →
    answers.translation source target text = some (some translation) →
    ∀ id ∈ translate_terms answers terms,
    ∀ desktop, activate_result desktop id = copy_to_clipboard desktop translation

end search_provider

/-! ## The ids of the search provider -/

theorem looks_like_lang_chars {s : List Char} (h : looks_like_lang s = true) :
    ∀ c ∈ s, c.isAlphanum = true ∨ c = '-' := by
  intro c hc
  simp only [looks_like_lang, Bool.and_eq_true, List.all_eq_true] at h
  simpa using h.2 c hc

theorem separator_of_langChar {s : List Char} (h : ∀ c ∈ s, c.isAlphanum = true ∨ c = '-') :
    search_provider.SEPARATOR ∉ s := fun hmem => absurd (h _ hmem) (by decide)

theorem queryOf_langs {words : List (List Char)} {source target text : String}
    (h : queryOf words = some (source, target, text)) :
    search_provider.SEPARATOR ∉ source.toList ∧ search_provider.SEPARATOR ∉ target.toList := by
  unfold queryOf at h
  split at h
  · cases h
  · split at h
    · rename_i hlangs
      simp only [Bool.and_eq_true] at hlangs
      cases h
      rw [String.toList_ofList, String.toList_ofList]
      exact ⟨separator_of_langChar (looks_like_lang_chars hlangs.1.2),
        separator_of_langChar (looks_like_lang_chars hlangs.2)⟩
    · cases h
      decide
  · cases h
    decide

namespace search_provider

theorem splitn_succ {sep : Char} {n : Nat} {a b : List Char} (ha : sep ∉ a) :
    splitn sep (n + 2) (a ++ sep :: b) = a :: splitn sep (n + 1) b := by
  have hne : ∀ c ∈ a, decide (c ≠ sep) = true := fun c hc => by
    simpa using ne_of_mem_of_not_mem hc ha
  have hsep : decide (sep ≠ sep) = false := by simp
  rw [splitn, if_pos (List.mem_append_right _ List.mem_cons_self),
    List.takeWhile_append_of_pos hne, List.dropWhile_append_of_pos hne,
    List.takeWhile_cons_of_neg (by simp), List.dropWhile_cons_of_neg (by simp), List.append_nil,
    List.tail_cons]

/-- The translation is what follows the second separator, whatever it holds. -/
theorem split_id_result {source target translation : String}
    (hsource : SEPARATOR ∉ source.toList) (htarget : SEPARATOR ∉ target.toList) :
    split_id (source ++ SEPARATOR.toString ++ target ++ SEPARATOR.toString ++ translation)
      = (source, target, translation) := by
  have hid : (source ++ SEPARATOR.toString ++ target ++ SEPARATOR.toString ++ translation).toList
      = source.toList ++ SEPARATOR :: (target.toList ++ SEPARATOR :: translation.toList) := by
    simp
  unfold split_id
  rw [hid, splitn_succ hsource, splitn_succ htarget]
  simp [splitn]

theorem faithful (translation : String) : Faithful translation := by
  intro answers terms source target text hterms hanswer id hid desktop
  obtain ⟨hsource, htarget⟩ : SEPARATOR ∉ source.toList ∧ SEPARATOR ∉ target.toList := by
    unfold parse_terms at hterms
    split at hterms
    · cases hterms
    · split at hterms
      · cases hterms
      · exact queryOf_langs hterms
  simp only [translate_terms, hterms, hanswer] at hid
  split at hid
  · cases hid
  · rw [List.mem_singleton.mp hid, activate_result, split_id_result hsource htarget]

end search_provider

/-! ## The ids of the matches -/

namespace krunner

/-- The match for a text that is long enough, once the daemon has answered. -/
theorem match_query_translation {answers : DaemonAnswers}
    {query source target text translation : String}
    (hquery : parse_query query = some (source, target, text))
    (hlong : ((split_whitespace text.toList).length < 1 || text.utf8ByteSize < 2 : Bool) = false)
    (hanswer : answers.translation source target text = some (some translation)) :
    match_query answers query = [simple_match translation translation MATCH_HELPER 0.9
      (source ++ " → " ++ target ++ " · Enter copies to the clipboard")] := by
  simp only [match_query, hquery, hanswer]
  rw [if_neg (by rw [hlong]; exact Bool.false_ne_true)]

theorem faithful_iff (translation : String) :
    Faithful translation ↔ translation ≠ "hint" ∧ translation ≠ "error" := by
  constructor
  · intro h
    -- a query that the daemon answers with the translation
    let answers : DaemonAnswers := fun _ _ _ => some (some ⟨response_code.SUCCESS,
      [(result_key.TRANSLATIONS, .strs [translation])]⟩)
    have hquery : parse_query "tr bg en да" = some ("bg", "en", "да") := by decide
    have hmatch := @match_query_translation answers _ _ _ _ translation hquery (by decide) rfl
    have hrun := h answers _ _ _ _ hquery rfl _ (hmatch ▸ List.mem_singleton_self _) rfl
      ⟨true, fun _ => false⟩
    refine ⟨?_, ?_⟩
    · rintro rfl
      cases hrun
    · rintro rfl
      cases hrun
  · rintro ⟨hhint, herror⟩ answers query source target text hquery hanswer m hm hkind desktop
    simp only [match_query, hquery, hanswer] at hm
    split at hm
    · rw [List.mem_singleton.mp hm] at hkind
      cases hkind
    · rw [List.mem_singleton.mp hm]
      simp [run, simple_match, hhint, herror]

end krunner

/-- **When activating a result copies its translation**: in the overview always,
in KRunner unless the translation is one of the ids of its hints. -/
theorem activation_copies_iff (translation : String) :
    krunner.Faithful translation ∧ search_provider.Faithful translation
      ↔ translation ≠ "hint" ∧ translation ≠ "error" := by
  rw [krunner.faithful_iff, and_iff_left (search_provider.faithful translation)]

/-- What is found for a word is copied by both. -/
theorem activation_copies_yes :
    let answers : DaemonAnswers := fun _ _ _ => some (some ⟨response_code.SUCCESS,
      [(result_key.TRANSLATIONS, .strs ["yes"])]⟩)
    (∃ m ∈ krunner.match_query answers "tr bg en да",
        ∀ desktop, krunner.run desktop m.id = krunner.copy_to_clipboard desktop "yes")
      ∧ ∃ id ∈ search_provider.translate_terms answers ["tr", "bg", "en", "да"],
        ∀ desktop, search_provider.activate_result desktop id
          = search_provider.copy_to_clipboard desktop "yes" := by
  intro answers
  obtain ⟨hmatches, hresults⟩ := (activation_copies_iff "yes").mpr ⟨by decide, by decide⟩
  refine ⟨⟨_, .head _, hmatches answers "tr bg en да" "bg" "en" "да" (by decide) rfl _ (.head _) rfl⟩,
    ⟨_, .head _, hresults answers ["tr", "bg", "en", "да"] "bg" "en" "да" (by decide) rfl _ (.head _)⟩⟩

/-- The Bulgarian word for a hint. -/
theorem activation_not_copied : ¬ (krunner.Faithful "hint" ∧ search_provider.Faithful "hint") := by
  rw [krunner.faithful_iff]
  rintro ⟨⟨hhint, -⟩, -⟩
  exact hhint rfl

end Dragomand
