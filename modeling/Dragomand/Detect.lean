import Mathlib.Data.List.Destutter

/-!
# Detecting the language

`DetectLanguage` asks whatlang, which is not part of the repository: what it
returns is a parameter here. The candidates are reduced to the languages
whatlang knows, and the language it returns is turned into a code again.
That code is the candidate's own only if the candidate has no more to it
than its primary subtag; for Chinese the script is taken from the text.
-/

namespace Dragomand

/-! ## Languages -/

/-- `whatlang::Lang`. -/
inductive Lang where
  | afr | aka | amh | ara | aze | bel | ben | bul | cat | ces | cmn | cym | dan | deu | ell
  | eng | epo | est | fin | fra | guj | heb | hin | hrv | hun | hye | ind | ita | jav | jpn
  | kan | kat | khm | kor | lat | lav | lit | mal | mar | mkd | mya | nep | nld | nob | ori
  | pan | pes | pol | por | ron | rus | sin | slk | slv | sna | spa | srp | swe | tam | tel
  | tgl | tha | tuk | tur | ukr | urd | uzb | vie | yid | zul
deriving DecidableEq, Repr

/-- The provider's language code for a whatlang language. -/
def Lang.code : Lang → String
  | .afr => "af"
  | .aka => "ak"
  | .amh => "am"
  | .ara => "ar"
  | .aze => "az"
  | .bel => "be"
  | .ben => "bn"
  | .bul => "bg"
  | .cat => "ca"
  | .ces => "cs"
  | .cmn => "zh"
  | .cym => "cy"
  | .dan => "da"
  | .deu => "de"
  | .ell => "el"
  | .eng => "en"
  | .epo => "eo"
  | .est => "et"
  | .fin => "fi"
  | .fra => "fr"
  | .guj => "gu"
  | .heb => "he"
  | .hin => "hi"
  | .hrv => "hr"
  | .hun => "hu"
  | .hye => "hy"
  | .ind => "id"
  | .ita => "it"
  | .jav => "jv"
  | .jpn => "ja"
  | .kan => "kn"
  | .kat => "ka"
  | .khm => "km"
  | .kor => "ko"
  | .lat => "la"
  | .lav => "lv"
  | .lit => "lt"
  | .mal => "ml"
  | .mar => "mr"
  | .mkd => "mk"
  | .mya => "my"
  | .nep => "ne"
  | .nld => "nl"
  | .nob => "nb"
  | .ori => "or"
  | .pan => "pa"
  | .pes => "fa"
  | .pol => "pl"
  | .por => "pt"
  | .ron => "ro"
  | .rus => "ru"
  | .sin => "si"
  | .slk => "sk"
  | .slv => "sl"
  | .sna => "sn"
  | .spa => "es"
  | .srp => "sr"
  | .swe => "sv"
  | .tam => "ta"
  | .tel => "te"
  | .tgl => "tl"
  | .tha => "th"
  | .tuk => "tk"
  | .tur => "tr"
  | .ukr => "uk"
  | .urd => "ur"
  | .uzb => "uz"
  | .vie => "vi"
  | .yid => "yi"
  | .zul => "zu"

def Lang.all : List Lang :=
  [.afr, .aka, .amh, .ara, .aze, .bel, .ben, .bul, .cat, .ces, .cmn, .cym, .dan, .deu, .ell,
   .eng, .epo, .est, .fin, .fra, .guj, .heb, .hin, .hrv, .hun, .hye, .ind, .ita, .jav, .jpn,
   .kan, .kat, .khm, .kor, .lat, .lav, .lit, .mal, .mar, .mkd, .mya, .nep, .nld, .nob, .ori,
   .pan, .pes, .pol, .por, .ron, .rus, .sin, .slk, .slv, .sna, .spa, .srp, .swe, .tam, .tel,
   .tgl, .tha, .tuk, .tur, .ukr, .urd, .uzb, .vie, .yid, .zul]

/-- The primary subtag. -/
def primary (code : String) : String :=
  String.ofList (code.toList.takeWhile fun c => c ≠ '-' ∧ c ≠ '_')

/-- The whatlang language for a provider code; the script subtag of
Chinese is resolved after detection. -/
def lang (code : String) : Option Lang := Lang.all.find? fun l => l.code = primary code

/-! ## Detection -/

def SIMPLIFIED : List Char :=
  ['们', '这', '个', '来', '时', '说', '国', '为', '会', '学', '对', '发', '经', '么', '还', '过',
   '后', '里', '点', '开', '见', '问', '长', '间', '无', '与', '关', '当', '实', '现', '头', '样',
   '话', '电', '车', '门', '东', '语']

def TRADITIONAL : List Char :=
  ['們', '這', '個', '來', '時', '說', '國', '為', '會', '學', '對', '發', '經', '麼', '還', '過',
   '後', '裡', '點', '開', '見', '問', '長', '間', '無', '與', '關', '當', '實', '現', '頭', '樣',
   '話', '電', '車', '門', '東', '語']

/-- Simplified or Traditional Chinese, by characters only one script uses. -/
def chinese_variant (text : String) : String :=
  let count := fun set : List Char => (text.toList.filter fun c => c ∈ set).length
  if count TRADITIONAL > count SIMPLIFIED then "zh-Hant" else "zh-Hans"

/-- The outcome of a detection. -/
structure Detection where
  language : Option String
  confidence : Float
  reliable : Bool

namespace whatlang

structure Info where
  lang : Lang
  confidence : Float
  is_reliable : Bool

end whatlang

/-- What the daemon uses of whatlang: the code by which languages are
sorted, and a detector, with an allowlist or without. -/
structure Whatlang where
  code : Lang → String
  detect : Option (List Lang) → String → Option whatlang.Info

/-- The detector returns only languages of its allowlist. -/
def Whatlang.KeepsAllowlist (w : Whatlang) : Prop :=
  ∀ allowed text info, w.detect (some allowed) text = some info → info.lang ∈ allowed

def Detection.nothing : Detection := ⟨none, 0, false⟩

/-- `f64::clamp`. -/
def clamp (x min max : Float) : Float := if x < min then min else if x > max then max else x

/-- The languages of the candidates, sorted and without repetitions. -/
def allowlist (w : Whatlang) (candidates : List String) : List Lang :=
  ((candidates.filterMap lang).mergeSort fun a b => w.code a ≤ w.code b).destutter (· ≠ ·)

/-- The code that is reported for a language. -/
def reported (text : String) : Lang → String
  | .cmn => chinese_variant text
  | other => other.code

/-- Detects the language of `text`, restricted to `candidates` (provider
codes) when any are given. -/
def detect (w : Whatlang) (text : String) (candidates : List String) : Detection :=
  let detected :=
    if candidates.isEmpty then w.detect none text
    else if (allowlist w candidates).isEmpty then none
    else w.detect (some (allowlist w candidates)) text
  match detected with
  | none => .nothing
  | some info =>
      ⟨some (reported text info.lang), clamp info.confidence 0 1, info.is_reliable⟩

/-! ## What is allowed -/

theorem mem_destutter' {α : Type} [DecidableEq α] {a b : α} {l : List α} :
    a ∈ l.destutter' (· ≠ ·) b ↔ a = b ∨ a ∈ l := by
  induction l generalizing b with
  | nil => simp
  | cons c l ih =>
      by_cases hbc : b = c
      · rw [List.destutter'_cons_neg _ (by simpa using hbc), ih, List.mem_cons, hbc, ← or_assoc,
          or_self]
      · rw [List.destutter'_cons_pos _ hbc, List.mem_cons, ih, List.mem_cons]

theorem mem_destutter {α : Type} [DecidableEq α] {a : α} {l : List α} :
    a ∈ l.destutter (· ≠ ·) ↔ a ∈ l := by
  cases l with
  | nil => rfl
  | cons b l => rw [List.destutter_cons', mem_destutter', List.mem_cons]

theorem mem_allowlist {w : Whatlang} {candidates : List String} {l : Lang} :
    l ∈ allowlist w candidates ↔ ∃ c ∈ candidates, lang c = some l := by
  rw [allowlist, mem_destutter, List.mem_mergeSort, List.mem_filterMap]

theorem code_of_lang {code : String} {l : Lang} (h : lang code = some l) :
    l.code = primary code := by simpa using List.find?_some h

theorem reported_of_ne {text : String} {l : Lang} (h : l ≠ .cmn) : reported text l = l.code := by
  cases l <;> first | rfl | exact absurd rfl h

/-- A language is detected only if a candidate asks for it. -/
theorem detect_eq_some {w : Whatlang} (hw : w.KeepsAllowlist) {text language : String}
    {candidates : List String} (hne : candidates ≠ [])
    (h : (detect w text candidates).language = some language) :
    ∃ c ∈ candidates, ∃ l, lang c = some l ∧ language = reported text l := by
  unfold detect at h
  rw [if_neg (by simpa using hne)] at h
  dsimp only at h
  split at h
  · cases h
  · rename_i info hinfo
    split at hinfo
    · cases hinfo
    · obtain ⟨c, hc, hl⟩ := mem_allowlist.mp (hw _ _ _ hinfo)
      exact ⟨c, hc, info.lang, hl, (Option.some.inj h).symm⟩

/-! ## The candidates -/

/-- The language reported is one of the candidates as they were passed, and
there is none if the detector knows none of them. -/
structure RespectsCandidates (w : Whatlang) (text : String) (candidates : List String) : Prop where
  candidate : ∀ language, (detect w text candidates).language = some language →
    language ∈ candidates
  unknown : (∀ c ∈ candidates, lang c = none) → (detect w text candidates).language = none

/-- So it is with every detector. -/
def DetectRespects (text : String) (candidates : List String) : Prop :=
  ∀ w : Whatlang, w.KeepsAllowlist → RespectsCandidates w text candidates

/-- What may be reported for a candidate is a candidate too: its primary
subtag, or for Chinese the script of the text. -/
structure Answerable (text : String) (candidates : List String) : Prop where
  chinese : ∀ c ∈ candidates, lang c = some .cmn → chinese_variant text ∈ candidates
  plain : ∀ c ∈ candidates, ∀ l, lang c = some l → l ≠ .cmn → primary c ∈ candidates

theorem Answerable.reported {text : String} {candidates : List String}
    (h : Answerable text candidates) {c : String} (hc : c ∈ candidates) {l : Lang}
    (hl : lang c = some l) : reported text l ∈ candidates := by
  by_cases hcmn : l = .cmn
  · subst hcmn
    exact h.chinese c hc hl
  · rw [reported_of_ne hcmn, code_of_lang hl]
    exact h.plain c hc l hl hcmn

/-- A detector that finds the language wherever it is allowed. -/
def insisting (l : Lang) : Whatlang where
  code _ := ""
  detect allowed _ :=
    if ∀ langs ∈ allowed, l ∈ langs then some ⟨l, 1, true⟩ else none

theorem insisting_keepsAllowlist (l : Lang) : (insisting l).KeepsAllowlist := by
  intro allowed text info h
  simp only [insisting, Option.ite_none_right_eq_some] at h
  obtain ⟨hallowed, heq⟩ := h
  rw [← Option.some.inj heq]
  exact hallowed allowed rfl

theorem detect_insisting {l : Lang} {text c : String} {candidates : List String}
    (hc : c ∈ candidates) (hl : lang c = some l) :
    (detect (insisting l) text candidates).language = some (reported text l) := by
  have hmem : l ∈ allowlist (insisting l) candidates := mem_allowlist.mpr ⟨c, hc, hl⟩
  have hdetect : (insisting l).detect (some (allowlist (insisting l) candidates)) text
      = some ⟨l, 1, true⟩ := if_pos fun langs hlangs => by
    rw [← Option.some.inj hlangs]
    exact hmem
  unfold detect
  rw [if_neg (by simpa using List.ne_nil_of_mem hc), if_neg (by simpa using List.ne_nil_of_mem hmem),
    hdetect]

/-- **When detection respects its candidates**: whatever the detector, if and
only if what may be reported for a candidate is itself a candidate. -/
theorem detect_respects_iff (text : String) {candidates : List String} (hne : candidates ≠ []) :
    DetectRespects text candidates ↔ Answerable text candidates := by
  constructor
  · intro h
    have hreported : ∀ c ∈ candidates, ∀ l, lang c = some l → reported text l ∈ candidates :=
      fun c hc l hl => (h (insisting l) (insisting_keepsAllowlist l)).candidate _
        (detect_insisting hc hl)
    refine ⟨fun c hc hl => hreported c hc .cmn hl, fun c hc l hl hcmn => ?_⟩
    rw [← code_of_lang hl, ← reported_of_ne hcmn]
    exact hreported c hc l hl
  · intro h w hw
    refine ⟨fun language hlanguage => ?_, fun hunknown => ?_⟩
    · obtain ⟨c, hc, l, hl, rfl⟩ := detect_eq_some hw hne hlanguage
      exact h.reported hc hl
    · cases hlanguage : (detect w text candidates).language with
      | none => rfl
      | some language =>
          obtain ⟨c, hc, l, hl, -⟩ := detect_eq_some hw hne hlanguage
          rw [hunknown c hc] at hl
          cases hl

/-- Two languages without subtags. -/
theorem detect_respects_ru_uk : DetectRespects "Добро утро, как си днес?" ["ru", "uk"] := by
  have hplain : ∀ c ∈ ["ru", "uk"], lang c ≠ some .cmn ∧ primary c = c := by decide
  refine (detect_respects_iff _ (List.cons_ne_nil _ _)).mpr ⟨fun c hc hl => ?_, fun c hc l _ _ => ?_⟩
  · exact absurd hl (hplain c hc).1
  · rw [(hplain c hc).2]
    exact hc

/-- Traditional Chinese alone is asked for, and the text is simplified. -/
theorem detect_not_respecting : (detect (insisting .cmn) "我们" ["zh-Hant"]).language = some "zh-Hans"
    ∧ ¬ DetectRespects "我们" ["zh-Hant"] := by
  have hdetect : (detect (insisting .cmn) "我们" ["zh-Hant"]).language = some "zh-Hans" := by
    have hlang : lang "zh-Hant" = some .cmn := by decide
    rw [detect_insisting List.mem_cons_self hlang]
    decide +kernel
  refine ⟨hdetect, fun h => ?_⟩
  have hmem := (h _ (insisting_keepsAllowlist .cmn)).candidate _ hdetect
  simp at hmem

end Dragomand
