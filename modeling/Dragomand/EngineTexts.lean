import Dragomand.Annotations
import Dragomand.EngineWorker
import Dragomand.HttpCache
import Dragomand.SentenceSpans

/-!
# Sentences through the engine

A text is cut into sentences and each sentence into words; sentences that
are too long are wrapped; each piece is translated on its own, and the
target is put together from the translations with the gaps of the source
between them. A pivot route takes the sentences of the intermediate text
from its annotation and does not cut it again. `dg_translate_batch` hands out
the ranges of the sentences on both sides, and the bindings keep those that
are in bounds.

The splitter, the vocabulary and the decoder are parameters. With the option
`html` the engine takes markup out of the texts first and puts it back; here the
option is off.
-/

namespace Dragomand

/-! ## The engine -/

abbrev Segment := List Nat

/-- A word has its range in the sentence that was given. -/
structure TranslationModel where
  stream : Bytes → List (Nat × Nat)
  encodeWithByteRanges : Bytes → List (Nat × Nat × Nat)
  eosId : Nat
  maxLengthBreak : Nat
  /-- the tokens of the best hypothesis of each segment, decoded; an error is
  an exception's text -/
  translateBatch : List Segment → Except String (List (List Bytes))

structure Response where
  source : AnnotatedText
  target : AnnotatedText
deriving DecidableEq, Repr

namespace TranslationModel

variable (m : TranslationModel)

/-- The words of a sentence, with their ranges in the text. -/
def tokenize (text : Bytes) (sentence : Nat × Nat) : List (Nat × Nat × Nat) :=
  (m.encodeWithByteRanges ((text.drop sentence.1).take (sentence.2 - sentence.1))).map
    fun word => (word.1, sentence.1 + word.2.1, sentence.1 + word.2.2)

/-- `maxLengthBreak_ - 1`, for the end of the sentence is a word. -/
def wrapStep : Nat := (m.maxLengthBreak + (2 ^ 64 - 1)) % 2 ^ 64

/-- `none` when the loop does not end. -/
def wrap : Nat → List (Nat × Nat × Nat) → List Segment → AnnotatedText →
    Option (List Segment × AnnotatedText)
  | _, [], segments, source => some (segments, source)
  | 0, _ :: _, _, _ => none
  | fuel + 1, word :: words, segments, source =>
      let part := (word :: words).take m.wrapStep
      let ending := (part.getLast?.map fun last => last.2.2).getD 0
      wrap fuel ((word :: words).drop m.wrapStep)
        (segments ++ [part.map (·.1) ++ [m.eosId]])
        (source.recordExistingSentence (part.map (·.2) ++ [(ending, ending)]) word.2.1)

def processSentence (state : List Segment × AnnotatedText) (sentence : Nat × Nat) :
    Option (List Segment × AnnotatedText) :=
  let words := m.tokenize state.2.text sentence
  if words = [] then some state
  else m.wrap words.length words state.1 state.2

def process (input : Bytes) : Option (List Segment × AnnotatedText) :=
  (m.stream input).foldlM m.processSentence ([], .ofText input)

def processAnnotated (source : AnnotatedText) (state : List Segment × AnnotatedText) (s : Nat) :
    List Segment × AnnotatedText :=
  let sentence := source.sentenceAsByteRange s
  let words := m.tokenize source.text sentence
  -- a sentence without words is recorded at its end
  let ending := (words.getLast?.map fun last => last.2.2).getD sentence.2
  let wordRanges := words.map (·.2) ++ [(ending, ending)]
  (state.1 ++ [words.map (·.1) ++ [m.eosId]],
    state.2.recordExistingSentence wordRanges ((wordRanges.head?.map Prod.fst).getD 0))

def processFromAnnotation (source : AnnotatedText) : List Segment × AnnotatedText :=
  (List.range source.numSentences).foldl (m.processAnnotated source) ([], .ofText source.text)

end TranslationModel

/-- One sentence of the target, of `n`, and behind the last one the last gap. -/
def appendTranslation (source : AnnotatedText) (n : Nat) (target : AnnotatedText)
    (history : List Bytes × Nat) : AnnotatedText :=
  let target := target.appendSentence
    (source.asStringView (source.gapAsByteRange history.2)) history.1
  if history.2 + 1 = n then
    target.handleEndingWhitespace (source.asStringView (source.gapAsByteRange (history.2 + 1)))
  else target

/-- The gaps of the source stand between the translations. -/
def buildTranslatedText (source : AnnotatedText) (histories : List (List Bytes)) :
    AnnotatedText :=
  histories.zipIdx.foldl (appendTranslation source histories.length) .empty

/-- The response to a request; nothing is translated for one without
segments. -/
def TranslationModel.respond (m : TranslationModel) (request : List Segment × AnnotatedText) :
    Except String Response := do
  let histories ← if request.1 = [] then .ok [] else m.translateBatch request.1
  if request.2.numSentences ≠ histories.length then
    .error "Mismatch in source and translated sentences"
  else .ok ⟨request.2, buildTranslatedText request.2 histories⟩

/-- `none` when it does not return. -/
def translateMultiple (m : TranslationModel) (sources : List Bytes) :
    Option (Except String (List Response)) :=
  (sources.mapM m.process).map fun requests => requests.mapM m.respond

/-- The two responses, combined. -/
def TranslationModel.pivot (m : TranslationModel) (first : Response) : Except String Response := do
  let second ← m.respond (m.processFromAnnotation first.target)
  return ⟨first.source, second.target⟩

def pivotMultiple (first second : TranslationModel) (sources : List Bytes) :
    Option (Except String (List Response)) :=
  (translateMultiple first sources).map fun responses => do
    (← responses).mapM second.pivot

/-! ## The adapter and the bindings -/

/-- The texts, and the ranges of their sentences on both sides. -/
structure dg_result where
  texts : List Bytes
  sentences : List (List SentencePair)
deriving DecidableEq, Repr

def dg_result.push (result : dg_result) (response : Response) : dg_result where
  texts := result.texts ++ [response.target.text]
  sentences := result.sentences ++ [(List.range
    (min response.source.numSentences response.target.numSentences)).map fun i =>
      ⟨response.source.sentenceAsByteRange i, response.target.sentenceAsByteRange i⟩]

def dg_result_len (result : dg_result) : Nat := result.texts.length

def dg_result_text (result : dg_result) (index : Nat) : Bytes := result.texts[index]?.getD []

def dg_result_sentence_count (result : dg_result) (index : Nat) : Nat :=
  (result.sentences[index]?.map List.length).getD 0

def dg_result_sentence (result : dg_result) (index sentence : Nat) : Option SentencePair :=
  result.sentences[index]?.bind fun sentences => sentences[sentence]?

/-- `service` is `translateMultiple` or `pivotMultiple` on the models. The
option `html` is off. -/
def dg_translate_batch (service : List Bytes → Option (Except String (List Response)))
    (segments : List Bytes) : Option (Except String dg_result) :=
  if segments = [] then some (.ok ⟨[], []⟩)
  else
    (service segments).map fun
      | .error message => .error message
      | .ok responses =>
          if responses.length ≠ segments.length then
            .error ("translation returned " ++ toString responses.length ++ " responses for "
              ++ toString segments.length ++ " segments")
          else .ok (responses.foldl dg_result.push ⟨[], []⟩)

/-- One output, read from the result. -/
def readTranslation (lossy : Bytes → String) (segments : List String) (result : dg_result)
    (i : Nat) : Translation :=
  fromEngine ((segments[i]?.map String.utf8ByteSize).getD 0) (lossy (dg_result_text result i))
    ((List.range (dg_result_sentence_count result i)).filterMap (dg_result_sentence result i))

/-- `lossy` is `String::from_utf8_lossy`. The option `html` is off. -/
def translate_batch (lossy : Bytes → String)
    (service : List Bytes → Option (Except String (List Response))) (segments : List String) :
    Option worker.Reply :=
  (dg_translate_batch service (segments.map utf8)).map fun
    | .error message => .error (.engine message)
    | .ok result =>
        .ok ((List.range (dg_result_len result)).map (readTranslation lossy segments result))

/-! ## What the bindings return -/

/-- The ranges of the sentences on both sides. -/
def Response.pairs (response : Response) : List SentencePair :=
  (List.range (min response.source.numSentences response.target.numSentences)).map fun i =>
    ⟨response.source.sentenceAsByteRange i, response.target.sentenceAsByteRange i⟩

theorem foldl_push (responses : List Response) (result : dg_result) :
    responses.foldl dg_result.push result
      = ⟨result.texts ++ responses.map (·.target.text),
        result.sentences ++ responses.map Response.pairs⟩ := by
  induction responses generalizing result with
  | nil => simp
  | cons response responses ih =>
      rw [List.foldl_cons, ih]
      simp [dg_result.push, Response.pairs]

section Read

variable {lossy : Bytes → String} {segments : List String} {responses : List Response}

/-- A list is read by its indices. -/
theorem filterMap_range_getElem? {α : Type*} (l : List α) :
    (List.range l.length).filterMap (l[·]?) = l := by
  induction l with
  | nil => rfl
  | cons a l ih =>
      rw [List.length_cons, List.range_succ_eq_map, List.filterMap_cons, List.filterMap_map]
      exact congrArg (a :: ·) ih

/-- Reading a result through its queries gives what was pushed. -/
theorem readTranslation_push {i : Nat} {segment : String} {response : Response}
    (hsegment : segments[i]? = some segment) (hresponse : responses[i]? = some response) :
    readTranslation lossy segments (responses.foldl dg_result.push ⟨[], []⟩) i
      = fromEngine segment.utf8ByteSize (lossy response.target.text) response.pairs := by
  have hsentences : ∀ result : dg_result, result.sentences[i]? = some response.pairs →
      (List.range (dg_result_sentence_count result i)).filterMap (dg_result_sentence result i)
        = response.pairs := by
    intro result hresult
    rw [dg_result_sentence_count, hresult]
    refine Eq.trans ?_ (filterMap_range_getElem? response.pairs)
    refine List.filterMap_congr fun k _ => ?_
    rw [dg_result_sentence, hresult]
    rfl
  rw [foldl_push, readTranslation, hsegment, hsentences _ (by simp [hresponse])]
  simp [dg_result_text, hresponse]

theorem dg_result_len_push :
    dg_result_len (responses.foldl dg_result.push ⟨[], []⟩) = responses.length := by
  rw [foldl_push]
  simp [dg_result_len]

/-- One translation for each segment, its ranges in the two texts, whatever
the service is. -/
theorem translations_eq {translations : List Translation}
    {service : List Bytes → Option (Except String (List Response))}
    (h : translate_batch lossy service segments = some (.ok translations)) :
    ∃ responses, (segments ≠ [] → service (segments.map utf8) = some (.ok responses))
      ∧ responses.length = segments.length
      ∧ translations = List.zipWith (fun segment response =>
          fromEngine segment.utf8ByteSize (lossy response.target.text) response.pairs)
          segments responses := by
  obtain ⟨result, hresult, h⟩ := Option.map_eq_some_iff.mp h
  cases result with
  | error message => cases h
  | ok result =>
      obtain rfl := Except.ok.inj h
      unfold dg_translate_batch at hresult
      split at hresult
      · rename_i hnil
        obtain rfl := List.map_eq_nil_iff.mp hnil
        cases hresult
        exact ⟨[], fun hne => absurd rfl hne, rfl, rfl⟩
      · obtain ⟨answer, hanswer, hresult⟩ := Option.map_eq_some_iff.mp hresult
        cases answer with
        | error message => cases hresult
        | ok responses =>
            dsimp only at hresult
            split at hresult
            · cases hresult
            · rename_i hlength
              obtain rfl := Except.ok.inj hresult
              rw [not_not, List.length_map] at hlength
              refine ⟨responses, fun _ => hanswer, hlength, ?_⟩
              rw [dg_result_len_push]
              refine List.ext_getElem (by simp [hlength]) fun i hi hi' => ?_
              rw [List.length_map, List.length_range] at hi
              rw [List.getElem_map, List.getElem_range, List.getElem_zipWith]
              exact readTranslation_push (List.getElem?_eq_getElem (hlength ▸ hi))
                (List.getElem?_eq_getElem hi)

end Read

end Dragomand
