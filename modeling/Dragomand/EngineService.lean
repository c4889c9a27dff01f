import Dragomand.EngineBatches

/-!
# The service on texts

`translateMultiple` and `pivotMultiple` on requests, batches and the cache. When
the search decodes each segment on its own, they give what decoding the segments
of one text after another gives. `wrap` keeps the segments of a text to the
words that a batch takes; a pivot does not wrap what comes from the first model,
and a sentence of it that is too long leaves its text with an empty target.
-/

namespace Dragomand

/-! ## Responses -/

/-- The histories of a request, built into its response. -/
def buildResponse (source : AnnotatedText) (histories : List (List Bytes)) :
    Except String Response :=
  if source.numSentences ≠ histories.length then
    .error "Mismatch in source and translated sentences"
  else .ok ⟨source, buildTranslatedText source histories⟩

/-- A `Response` as it is constructed. -/
def Response.empty : Response := ⟨.empty, .empty⟩

/-- What the callback leaves of a request, `none` if a history is null. -/
def received (source : AnnotatedText) (completed : List (List (Option (List Bytes)))) :
    Option (Except String Response) :=
  match completed.getLast? with
  | none => some (.ok .empty)
  | some histories => (histories.mapM id).map (buildResponse source)

namespace BlockingService

abbrev Requests := List (List Segment × AnnotatedText)

/-- `none` when it does not return. -/
def respond (requests : Requests)
    (outcome : Except String (List (List (List (Option (List Bytes)))))
      × BlockingService (List Bytes)) :
    Option (Except String (List Response) × BlockingService (List Bytes)) :=
  match outcome.1 with
  | .error message => some (.error message, outcome.2)
  | .ok answers =>
      ((requests.zip answers).mapM fun answer => received answer.1.2 answer.2).map fun responses =>
        (responses.mapM id, outcome.2)

def request (host : BatchHost (List Bytes)) (s : BlockingService (List Bytes)) (model : Nat)
    (requests : Requests) :
    Option (Except String (List Response) × BlockingService (List Bytes)) :=
  (s.translateMultipleRaw host model (requests.map Prod.fst)).bind (respond requests)

def translateMultiple (host : BatchHost (List Bytes)) (s : BlockingService (List Bytes))
    (model : Nat) (m : TranslationModel) (sources : List Bytes) :
    Option (Except String (List Response) × BlockingService (List Bytes)) :=
  (sources.mapM m.process).bind fun requests => s.request host model requests

def combine (first second : Response) : Response := ⟨first.source, second.target⟩

def pivotMultiple (host : BatchHost (List Bytes)) (s : BlockingService (List Bytes))
    (model model' : Nat) (first second : TranslationModel) (sources : List Bytes) :
    Option (Except String (List Response) × BlockingService (List Bytes)) :=
  (s.translateMultiple host model first sources).bind fun outcome =>
    match outcome.1 with
    | .error message => some (.error message, outcome.2)
    | .ok responses =>
        (outcome.2.request host model'
          (responses.map fun response => second.processFromAnnotation response.target)).map
          fun outcome' =>
            (outcome'.1.map fun seconds => List.zipWith combine responses seconds, outcome'.2)

end BlockingService

/-! ## Decoding one segment after another -/

/-- The response to a request whose segments are decoded on their own; it is
empty when one of them is too long. -/
def respondWithin (miniBatchWords : Nat) (decode : Segment → List Bytes)
    (request : List Segment × AnnotatedText) : Except String Response :=
  if ∃ segment ∈ request.1, miniBatchWords < segment.length then .ok .empty
  else buildResponse request.2 (request.1.map decode)

/-- `pivotMultiple` of two models, with the sentences of an intermediate text
within a batch. -/
def pivotWithin (miniBatchWords : Nat) (first second : TranslationModel) (sources : List Bytes) :
    Option (Except String (List Response)) :=
  (Dragomand.translateMultiple first sources).map fun responses => do
    (← responses).mapM fun (response : Response) =>
      if ∃ segment ∈ (second.processFromAnnotation response.target).1,
          miniBatchWords < segment.length then
        .ok ⟨response.source, .empty⟩
      else second.pivot response

section Decode

variable {host : BatchHost (List Bytes)} {decode : Nat → Segment → List Bytes}
  {asked : Nat → Segment → Prop} {lost : List RequestSentence}
  {s : BlockingService (List Bytes)}

theorem length_of_decode
    (hdecode : ∀ model batch, host.search model batch = .ok (batch.map (decode model))) :
    ∀ model batch histories, host.search model batch = .ok histories →
      histories.length = batch.length := by
  intro model batch histories h
  obtain rfl := Except.ok.inj ((hdecode model batch).symm.trans h)
  exact List.length_map _

theorem BatchHost.Found.eq_decode
    (hdecode : ∀ model batch, host.search model batch = .ok (batch.map (decode model)))
    {model : Nat} {segment : Segment} {history : List Bytes}
    (h : host.Found asked model segment history) : history = decode model segment := by
  obtain ⟨batch, histories, k, hsearch, hsegment, hhistory, -⟩ := h
  obtain rfl := Except.ok.inj ((hdecode model batch).symm.trans hsearch)
  rw [List.getElem?_map, hsegment] at hhistory
  exact (Option.some.inj hhistory).symm

theorem mapM_id_map_some {α : Type*} (l : List α) : (l.map some).mapM id = some l := by
  induction l with
  | nil => rfl
  | cons a l ih =>
      rw [List.map_cons, List.mapM_cons, ih]
      rfl

theorem received_eq
    (hdecode : ∀ model batch, host.search model batch = .ok (batch.map (decode model)))
    {model : Nat} {request : List Segment × AnnotatedText}
    {completed : List (List (Option (List Bytes)))}
    (h : host.Answers asked model request.1 completed) :
    received request.2 completed
      = some (respondWithin (host.miniBatchWords model) (decode model) request) := by
  unfold respondWithin
  split
  · rename_i hlong
    rw [h.tooLong hlong]
    rfl
  · rename_i hshort
    obtain ⟨histories, rfl, hall⟩ := h.once fun segment hmem =>
      Nat.le_of_not_lt fun hlt => hshort ⟨segment, hmem, hlt⟩
    have hhistories : request.1.map (decode model) = histories := by
      refine List.forall₂_eq_eq_eq ▸ (List.forall₂_map_left_iff.mpr ?_)
      exact hall.imp fun segment history hfound => (hfound.eq_decode hdecode).symm
    rw [received, List.getLast?_singleton, hhistories]
    dsimp only
    rw [mapM_id_map_some]
    rfl

theorem mapM_zip {α β γ : Type*} {f : α → β → Option γ} {g : α → γ} {l : List α} {l' : List β}
    (h : List.Forall₂ (fun a b => f a b = some (g a)) l l') :
    (l.zip l').mapM (fun ab => f ab.1 ab.2) = some (l.map g) := by
  induction h with
  | nil => rfl
  | cons hab _ ih =>
      rw [List.zip_cons_cons, List.mapM_cons, hab, ih]
      rfl

/-- The requests of a call are responded to one after another. -/
theorem BlockingService.Waits.request
    (hdecode : ∀ model batch, host.search model batch = .ok (batch.map (decode model)))
    (hs : s.Waits host asked lost []) {model : Nat} {requests : BlockingService.Requests}
    (hasked : ∀ request ∈ requests, ∀ segment ∈ request.1, asked model segment) :
    ∃ s', s.request host model requests
        = some (requests.mapM (respondWithin (host.miniBatchWords model) (decode model)), s')
      ∧ s'.Waits host asked lost [] := by
  have hasked' : ∀ segments ∈ requests.map Prod.fst, ∀ segment ∈ segments, asked model segment := by
    intro segments hmem
    obtain ⟨request, hrequest, rfl⟩ := List.mem_map.mp hmem
    exact hasked request hrequest
  obtain ⟨outcome, s', hrun, -, ⟨answers, rfl, hwaits, -, hall⟩ | ⟨_, _, _, -, hthrew, -⟩⟩ :=
    hs.translateMultipleRaw (length_of_decode hdecode) hasked'
  · refine ⟨s', ?_, hwaits⟩
    have hreceived : List.Forall₂ (fun (request : List Segment × AnnotatedText) completed =>
        received request.2 completed
          = some (respondWithin (host.miniBatchWords model) (decode model) request))
        requests answers :=
      (List.forall₂_map_left_iff.mp hall).imp fun request completed h => received_eq hdecode h
    have hzip : (requests.zip answers).mapM (fun answer => received answer.1.2 answer.2)
        = some (requests.map (respondWithin (host.miniBatchWords model) (decode model))) :=
      mapM_zip hreceived
    rw [BlockingService.request, hrun, Option.bind_some, BlockingService.respond]
    dsimp only
    rw [hzip, Option.map_some, List.mapM_map]
    rfl
  · have hthrows := hthrew.search
    rw [hdecode] at hthrows
    cases hthrows

theorem mapM_congr_mem {α β ε : Type*} {f g : α → Except ε β} {l : List α}
    (h : ∀ a ∈ l, f a = g a) : l.mapM f = l.mapM g := by
  induction l with
  | nil => rfl
  | cons a l ih =>
      rw [List.mapM_cons, List.mapM_cons, h a List.mem_cons_self,
        ih fun b hb => h b (List.mem_cons_of_mem _ hb)]

theorem exists_of_mem_mapM {α β : Type*} {f : α → Option β} {l : List α} {l' : List β}
    (h : l.mapM f = some l') {b : β} (hb : b ∈ l') : ∃ a ∈ l, f a = some b := by
  induction l generalizing l' with
  | nil =>
      obtain rfl := Option.some.inj h
      cases hb
  | cons a l ih =>
      rw [List.mapM_cons] at h
      obtain ⟨b', ha, h⟩ := Option.bind_eq_some_iff.mp h
      obtain ⟨l'', hl, h⟩ := Option.bind_eq_some_iff.mp h
      obtain rfl := Option.some.inj h
      rcases List.mem_cons.mp hb with rfl | hb
      · exact ⟨a, List.mem_cons_self, ha⟩
      · obtain ⟨a', hmem, ha'⟩ := ih hl hb
        exact ⟨a', List.mem_cons_of_mem _ hmem, ha'⟩

/-- A model whose decoder is the one of the search. -/
def TranslationModel.DecodedBy (m : TranslationModel) (decode : Segment → List Bytes) : Prop :=
  ∀ segments, m.translateBatch segments = .ok (segments.map decode)

theorem TranslationModel.DecodedBy.respond {m : TranslationModel}
    {decode : Segment → List Bytes} (hm : m.DecodedBy decode)
    (request : List Segment × AnnotatedText) :
    m.respond request = buildResponse request.2 (request.1.map decode) := by
  by_cases hnone : request.1 = []
  · rw [TranslationModel.respond, if_pos hnone, hnone]
    rfl
  · rw [TranslationModel.respond, if_neg hnone, hm request.1]
    rfl

/-- Texts that are translated with a service which has run before. -/
theorem BlockingService.Waits.translateMultiple
    (hdecode : ∀ model batch, host.search model batch = .ok (batch.map (decode model)))
    (hs : s.Waits host asked lost []) {model : Nat} {m : TranslationModel} (hm : m.Lawful)
    (hdecoded : m.DecodedBy (decode model)) (hfits : m.maxLengthBreak ≤ host.miniBatchWords model)
    {sources : List Bytes}
    (hasked : ∀ source ∈ sources, ∀ segments annotated,
      m.process source = some (segments, annotated) → ∀ segment ∈ segments, asked model segment) :
    ∃ responses s', Dragomand.translateMultiple m sources = some responses
      ∧ s.translateMultiple host model m sources = some (responses, s')
      ∧ s'.Waits host asked lost [] := by
  obtain ⟨requests, hrequests, -⟩ := mapM_option (R := fun _ _ => True) (f := m.process)
    (fun source => by
      obtain ⟨segments, t, hprocess, -⟩ := hm.process source
      exact ⟨_, hprocess, trivial⟩) sources
  have hsource : ∀ request ∈ requests, ∃ source ∈ sources, m.process source = some request :=
    fun request hmem => exists_of_mem_mapM hrequests hmem
  have hasked' : ∀ request ∈ requests, ∀ segment ∈ request.1, asked model segment := by
    intro request hmem segment hsegment
    obtain ⟨source, hmem, hprocess⟩ := hsource request hmem
    exact hasked source hmem request.1 request.2 hprocess segment hsegment
  obtain ⟨s', hrun, hwaits⟩ := hs.request hdecode hasked'
  have hwithin : requests.mapM (respondWithin (host.miniBatchWords model) (decode model))
      = requests.mapM m.respond := by
    refine mapM_congr_mem fun request hmem => ?_
    obtain ⟨source, -, hprocess⟩ := hsource request hmem
    rw [hdecoded.respond, respondWithin, if_neg]
    rintro ⟨segment, hsegment, hlong⟩
    have hshort := hm.length_process hprocess segment hsegment
    exact Nat.lt_irrefl _ (Nat.lt_of_lt_of_le hlong (Nat.le_trans hshort hfits))
  refine ⟨requests.mapM m.respond, s', ?_, ?_, hwaits⟩
  · rw [Dragomand.translateMultiple, hrequests]
    rfl
  · rw [BlockingService.translateMultiple, hrequests, Option.bind_some, hrun, hwithin]

theorem map_zipWith_mapM {α β γ ε : Type*} (f : α → Except ε β) (c : α → β → γ) (l : List α) :
    (l.mapM f).map (fun l' => List.zipWith c l l') = l.mapM fun a => (f a).map (c a) := by
  induction l with
  | nil => rfl
  | cons a l ih =>
      rw [List.mapM_cons, List.mapM_cons, ← ih]
      cases f a with
      | error e => rfl
      | ok b =>
          cases l.mapM f with
          | error e => rfl
          | ok l' => rfl

def decodeHalves (segment : Segment) : List Bytes :=
  segment.map fun word => if word = 0 then [] else [UInt8.ofNat word, UInt8.ofNat word]

def BatchHost.halves : BatchHost (List Bytes) :=
  ⟨fun _ => 2, id, fun _ _ => 0, fun _ batch => .ok (batch.map decodeHalves)⟩

def someLetters (model : Nat) (segment : Segment) : Prop :=
  model ∈ [0, 1] ∧ segment ∈ [[97, 0], [98, 0], [97, 97, 0]]

instance (model : Nat) (segment : Segment) : Decidable (someLetters model segment) :=
  inferInstanceAs (Decidable (_ ∧ _))

theorem distinctKeys_someLetters : DistinctKeys someLetters where
  nonzero := by
    have hall : ∀ model ∈ [0, 1], ∀ segment ∈ [[97, 0], [98, 0], [97, 97, 0]],
        hashForCache model segment ≠ 0 := by
      decide
    exact fun model segment h => hall model h.1 segment h.2
  injective := by
    have hall : ∀ model ∈ [0, 1], ∀ segment ∈ [[97, 0], [98, 0], [97, 97, 0]],
        ∀ model' ∈ [0, 1], ∀ segment' ∈ [[97, 0], [98, 0], [97, 97, 0]],
        hashForCache model segment = hashForCache model' segment' →
          model = model' ∧ segment = segment' := by
      decide
    exact fun model segment model' segment' h h' => hall model h.1 segment h.2 model' h'.1 segment' h'.2

/-- The other model was called first. -/
theorem called_halves : ∃ s : BlockingService (List Bytes),
    Machine.Reach (BlockingService.step .halves) (AsksFor someLetters) (.init 2) s
      ∧ (BlockingService.init 2).step .halves (1, [[[97, 0]]]) = some s := by
  have hfirst : ((BlockingService.init 2).step .halves (1, [[[97, 0]]])).isSome := by
    decide +kernel
  obtain ⟨s, hs⟩ := Option.isSome_iff_exists.mp hfirst
  exact ⟨s, .tail .init (by simp [AsksFor, someLetters]) hs, hs⟩

end Decode

end Dragomand
