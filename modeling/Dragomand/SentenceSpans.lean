import Dragomand.CodePoints
import Dragomand.DaemonIdle
import Dragomand.PivotReported

/-!
# Sentences of a translation

What `sentence_spans` reports of a translation is what the engine reports,
in code points (`SpansFaithful`). A backend that returns one output per
segment leaves no job short of a translation (`Sized`, kept by every step
of a scheduler), so that the zip of segments and translations in
`translate` drops nothing.
-/

namespace Dragomand

/-! ## One segment -/

/-- The range lies in the text. -/
def InText (text : String) (range : Nat × Nat) : Prop :=
  range.1 ≤ range.2 ∧ range.2 ≤ text.utf8ByteSize

def Translation.InTexts (source : String) (translation : Translation) : Prop :=
  ∀ pair ∈ translation.sentences, InText source pair.source ∧ InText translation.text pair.target

/-- `translate_batch` on one output of the engine: the text as it was
decoded, and the ranges in bounds. -/
def fromEngine (source_len : Nat) (text : String) (ranges : List SentencePair) : Translation where
  text := text
  sentences := ranges.filter fun pair =>
    pair.source.1 ≤ pair.source.2 && pair.source.2 ≤ source_len
      && pair.target.1 ≤ pair.target.2 && pair.target.2 ≤ text.utf8ByteSize

theorem inTexts_fromEngine (source text : String) (ranges : List SentencePair) :
    (fromEngine source.utf8ByteSize text ranges).InTexts source := by
  intro pair hpair
  have hkept := (List.mem_filter.mp hpair).2
  simp only [Bool.and_eq_true, decide_eq_true_eq] at hkept
  obtain ⟨⟨⟨hsource, hend⟩, htarget⟩, hend'⟩ := hkept
  exact ⟨⟨hsource, hend⟩, htarget, hend'⟩

/-- `span` is the range in code points. -/
structure SpanOf (text : String) (range span : Nat × Nat) : Prop where
  ordered : span.1 ≤ span.2
  within : span.2 ≤ text.length
  slice : isCharBoundary text.toList range.1 = true → isCharBoundary text.toList range.2 = true →
    (codePointSlice text span).toByteArray = text.toByteArray.extract range.1 range.2

theorem spanOf_code_points {text : String} {range : Nat × Nat} (hlength : text.length < 2 ^ 32)
    (h : InText text range) :
    SpanOf text range (code_points text range.1, code_points text range.2) where
  ordered := code_points_mono hlength h.1
  within := code_points_le text _
  slice := fun hfirst hlast => slice_code_points hlength hfirst hlast h.1

/-- The spans of the translation, one for each pair of sentences, are its
ranges. -/
structure SpansFaithful (source : String) (translation : Translation) : Prop where
  returns : run_sentence_spans source translation = some (sentence_spans source translation)
  spans : List.Forall₂
    (fun pair span => SpanOf source pair.source (span.1, span.2.1)
      ∧ SpanOf translation.text pair.target (span.2.2.1, span.2.2.2))
    translation.sentences (sentence_spans source translation)
  source_mono : ∀ byte byte', byte ≤ byte' → code_points source byte ≤ code_points source byte'
  text_mono : ∀ byte byte', byte ≤ byte' →
    code_points translation.text byte ≤ code_points translation.text byte'

theorem spansFaithful {source : String} {translation : Translation}
    (h : translation.InTexts source) (hsource : source.length < 2 ^ 32)
    (htext : translation.text.length < 2 ^ 32) : SpansFaithful source translation where
  returns := run_sentence_spans_eq source translation
  spans := by
    refine List.forall₂_map_right_iff.mpr (List.forall₂_same.mpr fun pair hpair => ?_)
    exact ⟨spanOf_code_points hsource (h pair hpair).1, spanOf_code_points htext (h pair hpair).2⟩
  source_mono := fun _ _ => code_points_mono hsource
  text_mono := fun _ _ => code_points_mono htext

/-! ## As many translations as segments -/

/-- Every held job, and every translation on its way out, is as long as the
job that was accepted. -/
structure Sized (s : Scheduler) : Prop where
  held : ∀ job chunk, (job, chunk) ∈ s.held → ∃ job₀ ∈ s.accepted, job.reply = job₀.reply
    ∧ job.done.length + chunk.length + job.remaining.length = job₀.remaining.length
  outgoing : ∀ reply translations, (reply, .ok translations) ∈ s.outgoing →
    ∃ job₀ ∈ s.accepted, job₀.reply = reply ∧ translations.length = job₀.remaining.length

theorem sized_init : Sized .init :=
  ⟨by simp [Scheduler.init, Scheduler.held, Pc.held],
    by simp [Scheduler.init, Scheduler.outgoing, Pc.outgoing, Scheduler.answered]⟩

theorem sized_step {translate : Bool → List String → List Translation} {flags : Nat → Bool}
    {s s' : Scheduler} (hone : ∀ html chunk, (translate html chunk).length = chunk.length)
    (h : s.Transition translate flags s') (hs : Sized s) : Sized s' := by
  have hacc := h.accepted_subset
  constructor
  · intro job chunk hmem
    cases h.held hmem with
    | old hold =>
        obtain ⟨job₀, hmem₀, hsize⟩ := hs.held _ _ hold
        exact ⟨job₀, hacc hmem₀, hsize⟩
    | accepted hnew hdone => exact ⟨job, hnew, rfl, by simp [hdone]⟩
    | @called job hold =>
        obtain ⟨job₀, hmem₀, hreply, hsize⟩ := hs.held _ _ hold
        refine ⟨job₀, hacc hmem₀, job.drained_reply.trans hreply, ?_⟩
        have hrest := congrArg List.length job.chunk_append_drained
        have hdone : job.drained.done = job.done := by
          unfold QueuedJob.drained; split <;> rfl
        rw [List.length_append] at hrest
        rw [hdone, Nat.add_assoc, hrest]
        exact hsize
    | @progressed job chunk hold =>
        obtain ⟨job₀, hmem₀, hreply, hsize⟩ := hs.held _ _ hold
        refine ⟨job₀, hacc hmem₀, hreply, ?_⟩
        show (job.done ++ translate job.html chunk).length + 0 + job.remaining.length = _
        rw [List.length_append, hone]
        exact hsize
  · intro reply translations hmem
    cases h.outgoing hmem with
    | old hold =>
        obtain ⟨job₀, hmem₀, hsize⟩ := hs.outgoing _ _ hold
        exact ⟨job₀, hacc hmem₀, hsize⟩
    | @completed job chunk hold hrest =>
        obtain ⟨job₀, hmem₀, hreply, hsize⟩ := hs.held _ _ hold
        refine ⟨job₀, hacc hmem₀, hreply.symm, ?_⟩
        rw [List.length_append, hone, ← hsize, hrest, List.length_nil, Nat.add_zero]

/-- The backend returns one output per segment. -/
def Host.OnePerSegment (host : Host) : Prop :=
  ∀ first second html chunk, (host.translate first second html chunk).length = chunk.length

section Reach

variable {host : Host} {ok : Daemon → DaemonEvent → Prop} {config : Config} {d : Daemon}

theorem sized_of_reach (hone : host.OnePerSegment)
    (hreach : Machine.Reach (Daemon.step host) ok (Daemon.init config host) d) {k : Nat}
    {entry : PairEntry} (hentry : d.workers.heap[k]? = some entry) :
    Accounted entry.scheduler ∧ Sized entry.scheduler := by
  refine hreach.invariant (I := fun d => ∀ (k : Nat) (entry : PairEntry),
    d.workers.heap[k]? = some entry → Accounted entry.scheduler ∧ Sized entry.scheduler)
    ?_ ?_ k entry hentry
  · simp [Daemon.init, Workers.init]
  · intro d e d' _ _ hs ih k entry' hentry'
    rcases (Daemon.step_cases hs).2.workers with hw | ⟨event, hw, -⟩
    · exact ih k entry' (hw ▸ hentry')
    · rcases Workers.heap_cases hw hentry' with
        ⟨entry, hentry, hev⟩ | ⟨-, _, _, _, _, _, _, _, -, rfl⟩
      · obtain ⟨ha, hsized⟩ := ih k entry hentry
        refine ⟨hev.accounted ha, ?_⟩
        rcases hev.transition with hsame | htr
        · exact hsame ▸ hsized
        · exact sized_step (hone entry.first entry.second) htr hsized
      · exact ⟨(@routeInv_init fun _ text => ⟨text, []⟩).accounted, sized_init⟩

/-- What a route replied to a job is as long as the job. -/
theorem length_of_replies (hone : host.OnePerSegment)
    (hreach : Machine.Reach (Daemon.step host) ok (Daemon.init config host) d) {id : Nat}
    {h : Asked} (hb : d.Backs id h) {segments : List String} {translations : List Translation}
    {pivot : Option String} {k receiver : Nat}
    (ht : Translates segments h translations pivot k receiver) :
    translations.length = segments.length := by
  obtain ⟨entry, hentry, job, hjob, hreply, hsegments, -⟩ :=
    hb.submitted ⟨k, receiver, segments⟩ (ht.submissions ▸ List.mem_singleton_self _)
  obtain ⟨entry', hentry', hanswered⟩ := hb.replies _ _ _ ht.reply
  obtain rfl := Option.some.inj (hentry.symm.trans hentry')
  obtain ⟨ha, hsized⟩ := sized_of_reach hone hreach hentry
  obtain ⟨job₀, hjob₀, hreply₀, hlength⟩ :=
    hsized.outgoing _ _ (List.mem_append_right _ hanswered)
  obtain rfl := ha.job_unique hjob₀ hjob (hreply₀.trans hreply.symm)
  rw [hlength, hsegments]

/-- The results have spans for every segment, in the order of the segments:
those of the segment and its translation. -/
def SentencesReported (segments : List String) (results : Results) : Prop :=
  ∃ (translations : List Translation) (spans : List (List (Nat × Nat × Nat × Nat))),
    results.lookup result_key.TRANSLATIONS = some (.strs (translations.map (·.text)))
      ∧ results.lookup result_key.SENTENCES = some (.spans spans)
      ∧ spans.length = segments.length
      ∧ List.Forall₂ (fun p s => s = sentence_spans p.1 p.2) (segments.zip translations) spans

theorem sentencesReported_of_reach (hone : host.OnePerSegment)
    (hreach : Machine.Reach (Daemon.step host) ok (Daemon.init config host) d) {id : Nat}
    {work : Work} {route : service.Route} {segments : List String} {results : Results}
    (hwork : d.works[id]? = some work) (hmethod : work.method = .translate route segments true)
    (hreturned : .returned id (.ok results) ∈ d.requests.log) :
    SentencesReported segments results := by
  obtain ⟨h, hran, hb⟩ := backs_of_reach hreach hwork
  obtain ⟨work', hwork', hdone⟩ := done_of_returned hreach hreturned
  obtain rfl := Option.some.inj (hwork.symm.trans hwork')
  obtain ⟨prog, hfuture, hpath⟩ := hran.path
  rw [hmethod] at hfuture
  cases hfuture
  rw [hdone] at hpath
  obtain ⟨start, h₀, rfl, hrun⟩ := Prog.runs_ask_bind.mp hpath
  rcases Prog.runs_bind.mp hrun with
    ⟨e, -, heq⟩ | ⟨h₁, h₂, ⟨translations, pivot⟩, rfl, htranslated, hend⟩
  · cases heq
  obtain ⟨k, receiver, ht⟩ := runs_run_translation htranslated
  obtain ⟨rfl, heq⟩ := Prog.runs_pure.mp hend
  cases heq
  rw [List.append_nil] at hb
  -- the start of the request is no part of what it asked of the routes
  have hb₁ : d.Backs id h₁ := ⟨⟨hb.pivots, hb.replies, hb.submitted⟩, hb.accepted⟩
  have hlength := length_of_replies hone hreach hb₁ ht
  refine ⟨translations, List.zipWith sentence_spans segments translations, rfl, rfl, ?_, ?_⟩
  · rw [List.length_zipWith, hlength, Nat.min_self]
  · rw [← List.map_uncurry_zip_eq_zipWith]
    exact List.forall₂_map_right_iff.mpr (List.forall₂_same.mpr fun _ _ => rfl)

end Reach

/-- **Sentence spans are faithful.** `sentence_spans` returns, one quadruple
for each pair of sentences, none past the end of its text; for texts that a
`u32` can count, and ranges that lie in them, these are the ranges in code
points. A `Translate` with sentences reports those of every segment. -/
theorem sentence_spans_faithful :
    (∀ source translation,
      run_sentence_spans source translation = some (sentence_spans source translation)
        ∧ List.Forall₂ (fun _ span => span.2.1 ≤ source.length ∧ span.2.2.2 ≤ translation.text.length)
          translation.sentences (sentence_spans source translation))
    ∧ (∀ source translation, translation.InTexts source → source.length < 2 ^ 32 →
      translation.text.length < 2 ^ 32 → SpansFaithful source translation)
    ∧ ∀ (host : Host) (config : Config) (d : Daemon), host.OnePerSegment →
      Machine.Reach (Daemon.step host) Machine.anyStep (Daemon.init config host) d →
      ∀ (id : Nat) (work : Work) (route : service.Route) (segments : List String)
        (results : Results), d.works[id]? = some work →
        work.method = .translate route segments true →
        .returned id (.ok results) ∈ d.requests.log → SentencesReported segments results := by
  refine ⟨fun source translation => ⟨run_sentence_spans_eq source translation, ?_⟩,
    fun source translation => spansFaithful, ?_⟩
  · exact List.forall₂_map_right_iff.mpr (List.forall₂_same.mpr fun pair _ =>
      ⟨code_points_le source _, code_points_le translation.text _⟩)
  · exact fun host config d hone hreach id work route segments results =>
      sentencesReported_of_reach hone hreach

def twoSentences : Translation :=
  fromEngine ("Едно. Две!" : String).utf8ByteSize "[model.bgen] Едно. Две!"
    [⟨(0, 9), (0, 22)⟩, ⟨(10, 17), (23, 30)⟩]

/-- A backend that returns every segment as one sentence. -/
def sentenceHost : Host where
  translate _ _ _ segments := segments.map fun segment =>
    ⟨segment, [⟨(0, segment.utf8ByteSize), (0, segment.utf8ByteSize)⟩]⟩
  display _ := ""
  debug text := text
  is_alphanumeric c := c.isAlphanum
  ticksPerSecond := 1

/-- A client translates two segments with their sentences. -/
def translateSentences (disk : Disk) : List DaemonEvent :=
  [.store disk,
    .receive ":1.7" "t" (.translate ⟨"bg", "de", false, false, .interactive⟩ ["a", "bc"] true),
    .touch 0, .handle 0, .requests (.register 0), .requests (.at 0 none),
    .work 0 .proceed, .work 0 .proceed, .work 0 (.ensure disk)]
  ++ loadRoute 0 ++ translateOn 0 0

/-- Two sentences in Cyrillic, and a request that is answered. -/
theorem sentence_spans_faithful_bulgarian :
    (SpansFaithful "Едно. Две!" twoSentences
      ∧ sentence_spans "Едно. Две!" twoSentences = [(0, 5, 0, 18), (6, 10, 19, 23)])
    ∧ ∃ d results, Machine.Reach (Daemon.step sentenceHost) Machine.anyStep
        (Daemon.init .default sentenceHost) d
      ∧ .returned 0 (.ok results) ∈ d.requests.log ∧ SentencesReported ["a", "bc"] results := by
  obtain ⟨-, hspans, hreport⟩ := sentence_spans_faithful
  refine ⟨⟨hspans _ _ (inTexts_fromEngine _ _ _) (by decide) (by decide), by decide⟩, ?_⟩
  obtain ⟨d, hreach, hd⟩ := Machine.exists_reach_of_run (Daemon.step sentenceHost)
    Machine.anyStep (Daemon.init .default sentenceHost)
    (translateSentences (diskOf [("bg", "de")]))
    (fun d : Daemon => decide (
      d.requests.log.head? = some (.returned 0 (.ok [("sentences", .spans [[(0, 1, 0, 1)],
        [(0, 2, 0, 2)]]), ("translations", .strs ["a", "bc"])]))
        ∧ d.works[0]?.map (fun work : Work => work.method)
          = some (.translate ⟨"bg", "de", false, false, .interactive⟩ ["a", "bc"] true)))
    (by decide)
  obtain ⟨hreturned, hwork⟩ := of_decide_eq_true hd
  obtain ⟨work, hwork, hmethod⟩ := Option.map_eq_some_iff.mp hwork
  have hmem := List.mem_of_mem_head? hreturned
  exact ⟨d, _, hreach, hmem, hreport sentenceHost .default d
    (fun _ _ _ chunk => List.length_map _) hreach 0 work _ _ _ hwork hmethod hmem⟩

/-! ## Texts that a `u32` cannot count -/

section Replicate

variable {n byte : Nat}

theorem size_replicate (n : Nat) : (List.replicate n 'a').utf8Encode.size = n := by
  induction n with
  | zero => rfl
  | succ n ih =>
      rw [List.replicate_succ, size_utf8Encode_cons, ih, Nat.add_comm]
      rfl

theorem utf8ByteSize_replicate (n : Nat) :
    (String.ofList (List.replicate n 'a')).utf8ByteSize = n := by
  rw [← String.size_toByteArray, String.toByteArray_ofList, size_replicate]

theorem code_points_replicate (h : byte ≤ n) :
    code_points (String.ofList (List.replicate n 'a')) byte = byte % 2 ^ 32 := by
  have hsplit : List.replicate n 'a' = List.replicate byte 'a' ++ List.replicate (n - byte) 'a' := by
    rw [List.replicate_append_replicate, Nat.add_sub_cancel' h]
  have hboundary : isCharBoundary (List.replicate n 'a') byte = true :=
    isCharBoundary_iff.mpr ⟨_, _, hsplit, size_replicate byte⟩
  have hchars := @charsBefore_append (List.replicate byte 'a') (List.replicate (n - byte) 'a')
  rw [← hsplit, size_replicate, List.length_replicate] at hchars
  unfold code_points
  dsimp only
  rw [utf8ByteSize_replicate, Nat.min_eq_left h, String.toList_ofList, boundaryBefore_eq hboundary,
    hchars]

end Replicate

/-- A translation of 4 GiB, in one sentence, that ends where it begins. -/
theorem sentence_spans_wrap : ∃ (source : String) (translation : Translation),
    translation.InTexts source ∧ translation.sentences = [⟨(0, 0), (0, 2 ^ 32)⟩]
      ∧ sentence_spans source translation = [(0, 0, 0, 0)]
      ∧ ¬ SpansFaithful source translation := by
  refine ⟨"", ⟨String.ofList (List.replicate (2 ^ 32) 'a'), [⟨(0, 0), (0, 2 ^ 32)⟩]⟩,
    ?_, rfl, ?_, fun h => ?_⟩
  · refine List.forall_mem_singleton.mpr ⟨⟨Nat.le_refl _, Nat.zero_le _⟩, Nat.zero_le _, ?_⟩
    exact Nat.le_of_eq (utf8ByteSize_replicate _).symm
  · simp only [sentence_spans, List.map_cons, List.map_nil]
    rw [code_points_replicate (Nat.zero_le _), code_points_replicate (Nat.le_refl _), Nat.mod_self]
    rfl
  · have hle := h.text_mono 1 (2 ^ 32) (by omega)
    dsimp only at hle
    rw [code_points_replicate (by omega), code_points_replicate (Nat.le_refl _), Nat.mod_self] at hle
    exact absurd hle (by omega)

end Dragomand
