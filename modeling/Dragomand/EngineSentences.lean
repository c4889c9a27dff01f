import Dragomand.EngineTexts

/-!
# Sentences and their translations

A translation reports which sentence of it translates which sentence of the
source. `Lawful` is what the code takes for granted of the splitter, the
vocabulary and the decoder: sentences come in order, the words of one are
contiguous, and a batch has one best hypothesis for each segment. Under it a
source and its target are tilings with as many sentences: cutting a text
keeps the text and records the words of each of its sentences, wrapped, and the
target has the gaps of its source. So the ranges of the two pair each sentence
with what the decoder gave for it, over a pivot too, which hands the sentences
of the intermediate text on and does not cut it again.
-/

namespace Dragomand

theorem length_utf8 (text : String) : (utf8 text).length = text.utf8ByteSize := by
  rw [utf8, Array.length_toList]
  rfl

/-! ## Cutting a text -/

/-- What the code takes for granted of the splitter, the vocabulary and the
decoder. -/
structure TranslationModel.Lawful (m : TranslationModel) : Prop where
  /-- sentences come in order, -/
  ordered : ∀ text, (m.stream text).Pairwise fun a b => a.2 ≤ b.1
  inText : ∀ text, ∀ sentence ∈ m.stream text,
    sentence.1 ≤ sentence.2 ∧ sentence.2 ≤ text.length
  /-- the words of one are contiguous, -/
  contiguous : ∀ sentence, ∃ lead tokens rest, sentence = lead ++ (tokens.flatten ++ rest)
    ∧ (m.encodeWithByteRanges sentence).map Prod.snd = ranges lead.length tokens
  /-- and each segment has a best hypothesis. -/
  hypotheses : ∀ segments histories, m.translateBatch segments = .ok histories →
    histories.length = segments.length
  /-- As many words as it configures, and room for the end of the sentence. -/
  breaks : 2 ≤ m.maxLengthBreak ∧ m.maxLengthBreak < 2 ^ 64

/-- The text of the tiling is the text, and the next sentence is in its last
gap. -/
structure Tiling.Until (t : Tiling) (text : Bytes) (next : Nat) : Prop where
  text : t.text = text
  next : t.front.flatten.length ≤ next

/-- The words of a part of a sentence, and the end. -/
def TranslationModel.segmentOf (m : TranslationModel) (part : List (Nat × Nat × Nat)) : Segment :=
  part.map (·.1) ++ [m.eosId]

/-- Where the words are, and the end behind the last one. -/
def rangesOf (words : List (Nat × Nat × Nat)) (stop : Nat) : List (Nat × Nat) :=
  let ending := (words.getLast?.map fun last => last.2.2).getD stop
  words.map (·.2) ++ [(ending, ending)]

/-- The words of a sentence in parts, all but the last of them as long as a
segment may be. -/
structure TranslationModel.Wrapped (m : TranslationModel) (words : List (Nat × Nat × Nat))
    (parts : List (List (Nat × Nat × Nat))) : Prop where
  flatten : parts.flatten = words
  nonempty : [] ∉ parts
  short : ∀ part ∈ parts, part.length < m.maxLengthBreak
  full : ∀ part ∈ parts.dropLast, part.length + 1 = m.maxLengthBreak

/-- Where the tokens of each sentence are. -/
def tokenRanges (start : Nat) : List Cell → List (List (Nat × Nat))
  | [] => []
  | c :: cells =>
      ranges (start + c.gap.length) c.tokens :: tokenRanges (start + c.pieces.flatten.length) cells

/-- The text, cut: the words of each of the splitter's sentences are wrapped,
and each part is a segment and a sentence of the annotation, with its words for
tokens. -/
structure TranslationModel.Cut (m : TranslationModel) (text : Bytes) (segments : List Segment)
    (s : Tiling) : Prop where
  text_eq : s.text = text
  sentences : ∃ parts,
    List.Forall₂ (fun sentence parts => m.Wrapped (m.tokenize text sentence) parts)
      (m.stream text) parts
    ∧ segments = parts.flatten.map m.segmentOf
    ∧ tokenRanges 0 s.body = parts.flatten.map fun part => rangesOf part 0

section Cut

variable {m : TranslationModel} {text : Bytes} {t : Tiling}

theorem map_shift_ranges (k start : Nat) (pieces : List Bytes) :
    (ranges start pieces).map (fun range => (k + range.1, k + range.2))
      = ranges (k + start) pieces := by
  induction pieces generalizing start with
  | nil => rfl
  | cons piece pieces ih => rw [ranges, List.map_cons, ih, ranges, Nat.add_assoc]

theorem getLast?_ranges {start : Nat} {pieces : List Bytes} (h : pieces ≠ []) :
    (ranges start pieces).getLast?.map Prod.snd = some (start + pieces.flatten.length) := by
  induction pieces generalizing start with
  | nil => exact absurd rfl h
  | cons piece pieces ih =>
      cases pieces with
      | nil => simp [ranges]
      | cons piece' pieces =>
          have := @ih (start + piece.length) (List.cons_ne_nil _ _)
          rw [ranges, List.getLast?_cons]
          rw [List.flatten_cons, List.length_append, ← Nat.add_assoc, ← this]
          simp [ranges, List.getLast?_cons]

theorem take_ranges (start k : Nat) (pieces : List Bytes) :
    (ranges start pieces).take k = ranges start (pieces.take k) := by
  induction pieces generalizing start k with
  | nil => simp [ranges]
  | cons piece pieces ih =>
      cases k with
      | zero => rfl
      | succ k => rw [ranges, List.take_succ_cons, ih, List.take_succ_cons, ranges]

theorem drop_ranges (start k : Nat) (pieces : List Bytes) :
    (ranges start pieces).drop k
      = ranges (start + (pieces.take k).flatten.length) (pieces.drop k) := by
  induction pieces generalizing start k with
  | nil => simp [ranges]
  | cons piece pieces ih =>
      cases k with
      | zero => rfl
      | succ k =>
          rw [ranges, List.drop_succ_cons, ih, List.take_succ_cons, List.drop_succ_cons,
            List.flatten_cons, List.length_append, Nat.add_assoc]

theorem tokenRanges_append (start : Nat) (cells : List Cell) (c : Cell) :
    tokenRanges start (cells ++ [c]) = tokenRanges start cells
      ++ [ranges (start + (cells.flatMap Cell.pieces).flatten.length + c.gap.length) c.tokens] := by
  induction cells generalizing start with
  | nil => rfl
  | cons c' cells ih =>
      rw [List.cons_append, tokenRanges, ih, tokenRanges, List.flatMap_cons, List.flatten_append,
        List.length_append, Nat.add_assoc start, List.cons_append]

@[simp] theorem length_tokenRanges (start : Nat) (cells : List Cell) :
    (tokenRanges start cells).length = cells.length := by
  induction cells generalizing start with
  | nil => rfl
  | cons c cells ih => rw [tokenRanges, List.length_cons, List.length_cons, ih]

/-- A sentence in the last gap is recorded. -/
theorem Tiling.Until.record {pre rest : Bytes} {tokens : List Bytes}
    (ht : t.Until text pre.length) (htext : text = pre ++ (tokens.flatten ++ rest)) :
    ∃ t', t.annotated.recordExistingSentence (ranges pre.length tokens) pre.length
        = Tiling.annotated t'
      ∧ tokenRanges 0 t'.body = tokenRanges 0 t.body ++ [ranges pre.length tokens]
      ∧ t'.Until text (pre.length + tokens.flatten.length) := by
  have hsplit : t.front.flatten ++ t.last = pre ++ (tokens.flatten ++ rest) := by
    rw [← htext, ← ht.text]
    rfl
  obtain ⟨gap, hpre, hlast⟩ : ∃ gap, pre = t.front.flatten ++ gap
      ∧ t.last = gap ++ (tokens.flatten ++ rest) := by
    rcases List.append_eq_append_iff.mp hsplit with ⟨gap, hpre, hlast⟩ | ⟨gap, hfront, hrest⟩
    · exact ⟨gap, hpre, hlast⟩
    · have hnil : gap = [] := by
        have := ht.next
        rw [hfront, List.length_append] at this
        exact List.length_eq_zero_iff.mp (by omega)
      subst hnil
      exact ⟨[], by simpa using hfront.symm, by simpa using hrest.symm⟩
  have hrecord := Tiling.recordExistingSentence_annotated t.body gap rest tokens
  have htiling : (⟨t.body, gap ++ tokens.flatten ++ rest⟩ : Tiling) = t := by
    rw [List.append_assoc, ← hlast]
  rw [htiling, show (t.body.flatMap Cell.pieces).flatten ++ gap = pre from hpre.symm] at hrecord
  refine ⟨_, hrecord, ?_, ?_, ?_⟩
  · rw [tokenRanges_append, hpre, List.length_append, Nat.zero_add]
    rfl
  · rw [htext, hpre]
    simp [Tiling.text, Tiling.front, Cell.pieces]
  · rw [hpre]
    simp [Tiling.front, Cell.pieces]
    omega

/-- The words of a part, and its end. -/
theorem rangesOf_eq {words : List (Nat × Nat × Nat)} {start : Nat} {tokens : List Bytes}
    (hwords : words.map (·.2) = ranges start tokens) (hne : tokens ≠ []) (stop : Nat) :
    rangesOf words stop = ranges start (tokens ++ [[]]) := by
  have hlast : words.getLast?.map (fun last => last.2.2) = some (start + tokens.flatten.length) := by
    rw [← getLast?_ranges hne, ← hwords, List.getLast?_map, Option.map_map]
    rfl
  unfold rangesOf
  dsimp only
  rw [hlast, hwords, ranges_append]
  rfl

theorem TranslationModel.Lawful.wrapStep_succ (hm : m.Lawful) :
    m.wrapStep + 1 = m.maxLengthBreak := by
  have := hm.breaks
  unfold TranslationModel.wrapStep
  omega

theorem TranslationModel.Lawful.wrapStep_pos (hm : m.Lawful) : 1 ≤ m.wrapStep := by
  have := hm.breaks
  have := hm.wrapStep_succ
  omega

theorem TranslationModel.wrapped_nil : m.Wrapped [] [] where
  flatten := rfl
  nonempty := List.not_mem_nil
  short := by simp
  full := by simp

/-- The first words of a sentence are wrapped, and then the others. -/
theorem TranslationModel.Wrapped.cons (hm : m.Lawful) {words : List (Nat × Nat × Nat)}
    {parts : List (List (Nat × Nat × Nat))} (hne : words ≠ [])
    (h : m.Wrapped (words.drop m.wrapStep) parts) :
    m.Wrapped words (words.take m.wrapStep :: parts) := by
  have hstep := hm.wrapStep_succ
  refine ⟨?_, ?_, ?_, ?_⟩
  · rw [List.flatten_cons, h.flatten, List.take_append_drop]
  · rw [List.mem_cons, not_or]
    refine ⟨fun hnil => ?_, h.nonempty⟩
    rcases List.take_eq_nil_iff.mp hnil.symm with hzero | hnone
    · exact absurd hm.wrapStep_pos (by omega)
    · exact hne hnone
  · intro part hpart
    rcases List.mem_cons.mp hpart with heq | hpart
    · have := List.length_take_le m.wrapStep words
      rw [heq]
      omega
    · exact h.short part hpart
  · intro part hpart
    cases parts with
    | nil => cases hpart
    | cons part' parts =>
        rw [List.dropLast_cons_cons, List.mem_cons] at hpart
        rcases hpart with heq | hpart
        · -- behind a part there are words left, so it is as long as it may be
          have hmore : words.drop m.wrapStep ≠ [] := by
            intro hnil
            have hflat := h.flatten.trans hnil
            rw [List.flatten_cons, List.append_eq_nil_iff] at hflat
            exact h.nonempty (hflat.1 ▸ List.mem_cons_self)
          rw [Ne, List.drop_eq_nil_iff, Nat.not_le] at hmore
          rw [heq, List.length_take_of_le (Nat.le_of_lt hmore), hstep]
        · exact h.full part hpart

/-- A sentence is wrapped: one segment for each sentence recorded. -/
theorem TranslationModel.Lawful.wrap (hm : m.Lawful) (fuel : Nat) :
    ∀ {words : List (Nat × Nat × Nat)} {tokens : List Bytes} {pre rest : Bytes}
      {recorded : List (List (Nat × Nat × Nat))} {t : Tiling}, words.length ≤ fuel →
      words.map (·.2) = ranges pre.length tokens → text = pre ++ (tokens.flatten ++ rest) →
      t.Until text pre.length →
      tokenRanges 0 t.body = recorded.map (fun part => rangesOf part 0) →
      ∃ parts t', m.wrap fuel words (recorded.map m.segmentOf) t.annotated
          = some ((recorded ++ parts).map m.segmentOf, Tiling.annotated t')
        ∧ m.Wrapped words parts
        ∧ tokenRanges 0 t'.body = (recorded ++ parts).map (fun part => rangesOf part 0)
        ∧ t'.Until text (pre.length + tokens.flatten.length) := by
  induction fuel with
  | zero =>
      intro words tokens pre rest recorded t hfuel hwords htext ht hrecorded
      obtain rfl := List.length_eq_zero_iff.mp (Nat.le_zero.mp hfuel)
      refine ⟨[], t, ?_, m.wrapped_nil, ?_, ht.text, ?_⟩
      · rw [TranslationModel.wrap, List.append_nil]
      · rw [hrecorded, List.append_nil]
      · exact Nat.le_trans ht.next (Nat.le_add_right _ _)
  | succ fuel ih =>
      intro words tokens pre rest recorded t hfuel hwords htext ht hrecorded
      cases words with
      | nil =>
          refine ⟨[], t, ?_, m.wrapped_nil, ?_, ht.text, ?_⟩
          · rw [TranslationModel.wrap, List.append_nil]
          · rw [hrecorded, List.append_nil]
          · exact Nat.le_trans ht.next (Nat.le_add_right _ _)
      | cons word words =>
          obtain ⟨token, tokens', rfl⟩ : ∃ token tokens', tokens = token :: tokens' := by
            cases tokens with
            | nil => cases hwords
            | cons token tokens' => exact ⟨token, tokens', rfl⟩
          have hstep := hm.wrapStep_pos
          have hbegin : word.2.1 = pre.length := by
            rw [List.map_cons, ranges] at hwords
            exact congrArg Prod.fst (List.cons.inj hwords).1
          -- the part that is recorded, and what is left of the sentence
          have hpart : ((word :: words).take m.wrapStep).map (·.2)
              = ranges pre.length ((token :: tokens').take m.wrapStep) := by
            rw [List.map_take, hwords, take_ranges]
          have hne : (token :: tokens').take m.wrapStep ≠ [] := by
            rw [Ne, List.take_eq_nil_iff]
            rintro (h | h)
            · omega
            · cases h
          have hflat : ((token :: tokens').take m.wrapStep ++ [[]]).flatten
              = ((token :: tokens').take m.wrapStep).flatten := by
            simp
          have hall : (token :: tokens').flatten
              = ((token :: tokens').take m.wrapStep).flatten
                ++ ((token :: tokens').drop m.wrapStep).flatten := by
            rw [← List.flatten_append, List.take_append_drop]
          have htext' : text = pre ++ (((token :: tokens').take m.wrapStep ++ [[]]).flatten
              ++ (((token :: tokens').drop m.wrapStep).flatten ++ rest)) := by
            rw [htext, hall, hflat, List.append_assoc]
          obtain ⟨t₁, hrecord, hbody, hunt⟩ := ht.record htext'
          rw [hflat] at hunt
          have hdrop : ((word :: words).drop m.wrapStep).map (·.2)
              = ranges (pre ++ ((token :: tokens').take m.wrapStep).flatten).length
                ((token :: tokens').drop m.wrapStep) := by
            rw [List.map_drop, hwords, drop_ranges, List.length_append]
          have hfuel' : ((word :: words).drop m.wrapStep).length ≤ fuel := by
            rw [List.length_drop]
            omega
          have hrecorded' : tokenRanges 0 t₁.body
              = (recorded ++ [(word :: words).take m.wrapStep]).map fun part => rangesOf part 0 := by
            rw [hbody, hrecorded, List.map_append, List.map_singleton, rangesOf_eq hpart hne]
          have hrest : text = (pre ++ ((token :: tokens').take m.wrapStep).flatten)
              ++ (((token :: tokens').drop m.wrapStep).flatten ++ rest) := by
            rw [htext, hall]
            simp only [List.append_assoc]
          obtain ⟨parts, t', hwrap, hwrapped, hrecorded'', hunt'⟩ :=
            ih hfuel' hdrop hrest (by rw [List.length_append]; exact hunt) hrecorded'
          rw [List.append_assoc, List.singleton_append] at hwrap hrecorded''
          refine ⟨(word :: words).take m.wrapStep :: parts, t', ?_,
            .cons hm (List.cons_ne_nil _ _) hwrapped, hrecorded'', ?_⟩
          · rw [TranslationModel.wrap, ← hwrap, hbegin, List.map_append, ← hrecord,
              ← rangesOf_eq hpart hne 0]
            rfl
          · rw [hall, List.length_append, ← Nat.add_assoc,
              ← @List.length_append _ pre]
            exact hunt'

/-- The words of a sentence, where they are in the text. -/
theorem TranslationModel.Lawful.tokenize (hm : m.Lawful) {sentence : Nat × Nat}
    (hle : sentence.1 ≤ sentence.2) (hin : sentence.2 ≤ text.length) :
    ∃ pre tokens rest, text = pre ++ (tokens.flatten ++ rest) ∧ sentence.1 ≤ pre.length
      ∧ pre.length + tokens.flatten.length ≤ sentence.2
      ∧ (m.tokenize text sentence).map (·.2) = ranges pre.length tokens := by
  obtain ⟨lead, tokens, rest, hsentence, hwords⟩ :=
    hm.contiguous ((text.drop sentence.1).take (sentence.2 - sentence.1))
  have hlength := congrArg List.length hsentence
  rw [List.length_take, List.length_drop, List.length_append, List.length_append] at hlength
  have htake : (text.take sentence.1).length = sentence.1 := by
    rw [List.length_take]
    omega
  refine ⟨text.take sentence.1 ++ lead, tokens, rest ++ text.drop sentence.2, ?_, ?_, ?_, ?_⟩
  · have hdrop : text.drop sentence.1
        = (text.drop sentence.1).take (sentence.2 - sentence.1) ++ text.drop sentence.2 := by
      conv_lhs => rw [← List.take_append_drop (sentence.2 - sentence.1) (text.drop sentence.1)]
      rw [List.drop_drop, Nat.add_sub_cancel' hle]
    conv_lhs => rw [← List.take_append_drop sentence.1 text, hdrop, hsentence]
    simp only [List.append_assoc]
  · rw [List.length_append, htake]
    exact Nat.le_add_right _ _
  · rw [List.length_append, htake]
    omega
  · rw [TranslationModel.tokenize, List.map_map, List.length_append, htake,
      ← map_shift_ranges, ← hwords, List.map_map]
    rfl

/-- A text is cut into the splitter's sentences. -/
theorem TranslationModel.Lawful.process (hm : m.Lawful) (input : Bytes) :
    ∃ segments s, m.process input = some (segments, Tiling.annotated s)
      ∧ m.Cut input segments s := by
  -- the sentences that are still to come lie in the last gap
  have hloop : ∀ (sentences : List (Nat × Nat)) (recorded : List (List (Nat × Nat × Nat)))
      (t : Tiling) (p : Nat), sentences.Pairwise (fun a b => a.2 ≤ b.1) →
      (∀ sentence ∈ sentences,
        p ≤ sentence.1 ∧ sentence.1 ≤ sentence.2 ∧ sentence.2 ≤ input.length) →
      t.Until input p → tokenRanges 0 t.body = recorded.map (fun part => rangesOf part 0) →
      ∃ parts s, sentences.foldlM m.processSentence (recorded.map m.segmentOf, Tiling.annotated t)
          = some ((recorded ++ parts.flatten).map m.segmentOf, Tiling.annotated s)
        ∧ List.Forall₂ (fun sentence parts => m.Wrapped (m.tokenize input sentence) parts)
          sentences parts
        ∧ tokenRanges 0 s.body = (recorded ++ parts.flatten).map (fun part => rangesOf part 0)
        ∧ s.text = input := by
    intro sentences
    induction sentences with
    | nil =>
        intro recorded t p _ _ ht hrecorded
        exact ⟨[], t, by rw [List.flatten_nil, List.append_nil]; rfl, .nil,
          by rw [List.flatten_nil, List.append_nil, hrecorded], ht.text⟩
    | cons sentence sentences ih =>
        intro recorded t p hordered hin ht hrecorded
        obtain ⟨hp, hle, hend⟩ := hin sentence List.mem_cons_self
        rw [List.pairwise_cons] at hordered
        have hlater : ∀ sentence' ∈ sentences,
            sentence.2 ≤ sentence'.1 ∧ sentence'.1 ≤ sentence'.2 ∧ sentence'.2 ≤ input.length :=
          fun sentence' hmem =>
            ⟨hordered.1 sentence' hmem, (hin sentence' (List.mem_cons_of_mem _ hmem)).2⟩
        obtain ⟨pre, tokens, rest, htext, hbegin, hstop, hwords⟩ := hm.tokenize hle hend
        obtain ⟨wrapped, t', hstate, hwrapped, hrecorded', ht'⟩ : ∃ wrapped t',
            m.processSentence (recorded.map m.segmentOf, Tiling.annotated t) sentence
              = some ((recorded ++ wrapped).map m.segmentOf, Tiling.annotated t')
            ∧ m.Wrapped (m.tokenize input sentence) wrapped
            ∧ tokenRanges 0 t'.body = (recorded ++ wrapped).map (fun part => rangesOf part 0)
            ∧ t'.Until input sentence.2 := by
          unfold TranslationModel.processSentence
          rw [show (Tiling.annotated t).text = input from ht.text]
          dsimp only
          split
          · rename_i hnone
            refine ⟨[], t, by rw [List.append_nil], by rw [hnone]; exact m.wrapped_nil,
              by rw [List.append_nil, hrecorded], ht.text, ?_⟩
            have := ht.next
            omega
          · obtain ⟨wrapped, t', hwrap, hwrapped, hrecorded', ht'⟩ := hm.wrap _ (Nat.le_refl _)
              hwords htext ⟨ht.text, Nat.le_trans ht.next (Nat.le_trans hp hbegin)⟩ hrecorded
            exact ⟨wrapped, t', hwrap, hwrapped, hrecorded', ht'.text,
              Nat.le_trans ht'.next hstop⟩
        obtain ⟨parts, s, hfold, hall, hs, htext'⟩ :=
          ih (recorded ++ wrapped) t' sentence.2 hordered.2 hlater ht' hrecorded'
        rw [List.append_assoc, ← List.flatten_cons] at hfold hs
        exact ⟨wrapped :: parts, s, by rw [List.foldlM_cons, hstate]; exact hfold,
          .cons hwrapped hall, hs, htext'⟩
  obtain ⟨parts, s, hfold, hall, hs, htext⟩ := hloop (m.stream input) [] ⟨[], input⟩ 0
    (hm.ordered input)
    (fun sentence hmem => ⟨Nat.zero_le _, hm.inText input sentence hmem⟩)
    ⟨rfl, Nat.le_refl _⟩ rfl
  exact ⟨_, s, hfold, htext, parts, hall, rfl, hs⟩

theorem TranslationModel.Cut.length_eq {segments : List Segment} {s : Tiling}
    (h : m.Cut text segments s) : segments.length = s.body.length := by
  obtain ⟨-, parts, -, rfl, hranges⟩ := h
  rw [← length_tokenRanges 0, hranges, List.length_map, List.length_map]

/-- The segments of a text that is cut have no more words than the model breaks at. -/
theorem TranslationModel.Cut.length_le {segments : List Segment} {s : Tiling}
    (h : m.Cut text segments s) : ∀ segment ∈ segments, segment.length ≤ m.maxLengthBreak := by
  obtain ⟨-, parts, hall, rfl, -⟩ := h
  intro segment hsegment
  obtain ⟨part, hpart, rfl⟩ := List.mem_map.mp hsegment
  obtain ⟨wrapped, hwrapped, hpart⟩ := List.mem_flatten.mp hpart
  obtain ⟨i, hi, rfl⟩ := List.mem_iff_getElem.mp hwrapped
  have hshort := (hall.get (hall.length_eq ▸ hi) hi).short part hpart
  rw [TranslationModel.segmentOf, List.length_append, List.length_map]
  exact hshort

theorem TranslationModel.Lawful.length_process (hm : m.Lawful) {input : Bytes}
    {segments : List Segment} {source : AnnotatedText}
    (h : m.process input = some (segments, source)) :
    ∀ segment ∈ segments, segment.length ≤ m.maxLengthBreak := by
  obtain ⟨segments', s, hprocess, hcut⟩ := hm.process input
  obtain ⟨rfl, -⟩ := Prod.mk.inj (Option.some.inj (h.symm.trans hprocess))
  exact hcut.length_le

/-- What is recorded for a sentence that is cut already, where it is in the
text. -/
theorem TranslationModel.Lawful.recorded (hm : m.Lawful) {sentence : Nat × Nat}
    (hle : sentence.1 ≤ sentence.2) (hin : sentence.2 ≤ text.length) :
    ∃ pre tokens rest, text = pre ++ (tokens.flatten ++ rest) ∧ sentence.1 ≤ pre.length
      ∧ pre.length + tokens.flatten.length ≤ sentence.2
      ∧ rangesOf (m.tokenize text sentence) sentence.2 = ranges pre.length tokens
      ∧ ((rangesOf (m.tokenize text sentence) sentence.2).head?.map Prod.fst).getD 0
        = pre.length := by
  obtain ⟨pre, tokens, rest, htext, hbegin, hstop, hwords⟩ := hm.tokenize hle hin
  cases tokens with
  | nil =>
      -- without words the end of the sentence is all there is
      have hnone : m.tokenize text sentence = [] := List.map_eq_nil_iff.mp hwords
      have htake : (text.take sentence.2).length = sentence.2 := by
        rw [List.length_take]
        omega
      refine ⟨text.take sentence.2, [[]], text.drop sentence.2, ?_, ?_, ?_, ?_, ?_⟩
      · exact (List.take_append_drop _ _).symm
      · rw [htake]
        exact hle
      · rw [htake]
        exact Nat.le_refl _
      · rw [hnone, htake]
        rfl
      · rw [hnone, htake]
        rfl
  | cons token tokens =>
      have hflat : (token :: tokens ++ [[]]).flatten = (token :: tokens).flatten := by
        simp
      have hpart := rangesOf_eq hwords (List.cons_ne_nil _ _) sentence.2
      refine ⟨pre, token :: tokens ++ [[]], rest, ?_, hbegin, ?_, hpart, ?_⟩
      · rw [hflat]
        exact htext
      · rw [hflat]
        exact hstop
      · rw [hpart]
        rfl

/-- The words of each sentence of a text that is cut already, and where the
sentence ends. -/
def TranslationModel.sentencesOf (m : TranslationModel) (t : Tiling) :
    List (List (Nat × Nat × Nat) × Nat) :=
  (List.range t.body.length).map fun i =>
    (m.tokenize t.text (t.annotated.sentenceAsByteRange i), (t.annotated.sentenceAsByteRange i).2)

def TranslationModel.wordsOf (m : TranslationModel) (t : Tiling) : List Segment :=
  (m.sentencesOf t).map fun sentence => m.segmentOf sentence.1

/-- A text that is cut already is not cut again. -/
theorem TranslationModel.Lawful.processFromAnnotation (hm : m.Lawful) (t : Tiling) :
    ∃ s, m.processFromAnnotation t.annotated = (m.wordsOf t, Tiling.annotated s)
      ∧ s.text = t.text
      ∧ tokenRanges 0 s.body
        = (m.sentencesOf t).map fun sentence => rangesOf sentence.1 sentence.2 := by
  -- the sentences before the `k`th are recorded, the others lie in the last gap
  have hloop : ∀ k ≤ t.body.length, ∃ s : Tiling,
      (List.range k).foldl (m.processAnnotated t.annotated) ([], .ofText t.text)
        = ((List.range k).map fun i =>
            m.segmentOf (m.tokenize t.text (t.annotated.sentenceAsByteRange i)),
          s.annotated)
      ∧ (tokenRanges 0 s.body = (List.range k).map fun i =>
          rangesOf (m.tokenize t.text (t.annotated.sentenceAsByteRange i))
            (t.annotated.sentenceAsByteRange i).2)
      ∧ s.Until t.text (t.start k) := by
    intro k
    induction k with
    | zero => exact fun _ => ⟨⟨[], t.text⟩, rfl, rfl, rfl, Nat.zero_le _⟩
    | succ k ih =>
        intro hk
        obtain ⟨s, hfold, hranges, hs⟩ := ih (Nat.le_of_succ_le hk)
        have hcell := List.getElem?_eq_getElem (Nat.lt_of_succ_le hk)
        have hrange := Tiling.sentenceAsByteRange_annotated hcell
        have hstart := Tiling.start_succ hcell
        have hbound := Tiling.start_le_text hk
        have hle : (t.annotated.sentenceAsByteRange k).1 ≤ (t.annotated.sentenceAsByteRange k).2 := by
          rw [hrange]
          exact Nat.le_add_right _ _
        have hin : (t.annotated.sentenceAsByteRange k).2 ≤ t.text.length := by
          rw [hrange]
          exact Nat.le_trans (Nat.le_of_eq hstart.symm) hbound
        obtain ⟨pre, tokens, rest, htext, hbegin, hstop, hrecorded, hhead⟩ := hm.recorded hle hin
        have hbefore : t.start k ≤ pre.length := by
          rw [hrange] at hbegin
          exact Nat.le_trans (Nat.le_add_right _ _) hbegin
        obtain ⟨s', hrecord, hbody, hs'⟩ :=
          Tiling.Until.record ⟨hs.text, Nat.le_trans hs.next hbefore⟩ htext
        refine ⟨s', ?_, ?_, hs'.text, ?_⟩
        · rw [List.range_succ, List.foldl_concat, hfold, List.map_append, ← hrecord, ← hrecorded,
            ← hhead]
          rfl
        · rw [hbody, hranges, ← hrecorded, List.range_succ, List.map_append]
          rfl
        · rw [hrange] at hstop
          rw [hstart]
          exact Nat.le_trans hs'.next hstop
  obtain ⟨s, hfold, hranges, hs⟩ := hloop t.body.length (Nat.le_refl _)
  refine ⟨s, ?_, hs.text, ?_⟩
  · rw [TranslationModel.processFromAnnotation, Tiling.numSentences_annotated,
      TranslationModel.wordsOf, TranslationModel.sentencesOf, List.map_map]
    exact hfold
  · rw [TranslationModel.sentencesOf, List.map_map]
    exact hranges

theorem TranslationModel.length_sentencesOf (t : Tiling) :
    (m.sentencesOf t).length = t.body.length := by
  rw [TranslationModel.sentencesOf, List.length_map, List.length_range]

end Cut

/-! ## Putting a target together -/

/-- The gaps of the source, with the translations between them. -/
def Tiling.translated (s : Tiling) (histories : List (List Bytes)) : Tiling where
  body := List.zipWith (fun c tokens => ⟨c.gap, tokens⟩) s.body histories
  last := if histories = [] then [] else s.last

theorem Tiling.length_translated {s : Tiling} {histories : List (List Bytes)}
    (h : s.body.length = histories.length) :
    (s.translated histories).body.length = s.body.length := by
  rw [Tiling.translated, List.length_zipWith, h, Nat.min_self]

theorem buildTranslatedText_annotated {s : Tiling} {histories : List (List Bytes)}
    (h : s.body.length = histories.length) :
    buildTranslatedText s.annotated histories = (s.translated histories).annotated := by
  -- the last gap is behind the last sentence only
  have hloop : ∀ k ≤ histories.length,
      (histories.take k).zipIdx.foldl (appendTranslation s.annotated histories.length) .empty
        = (⟨List.zipWith (fun c tokens => ⟨c.gap, tokens⟩) (s.body.take k) (histories.take k),
            if k = histories.length then (s.translated histories).last else []⟩
          : Tiling).annotated := by
    intro k
    induction k with
    | zero =>
        intro _
        have hlast : (if 0 = histories.length then (s.translated histories).last else []) = [] := by
          split
          · rename_i hnone
            rw [Tiling.translated, if_pos (List.length_eq_zero_iff.mp hnone.symm)]
          · rfl
        rw [hlast]
        rfl
    | succ k ih =>
        intro hk
        have hlt : k < histories.length := Nat.lt_of_succ_le hk
        have hcell : s.body[k]? = some s.body[k] := List.getElem?_eq_getElem (h ▸ hlt)
        have htake : histories.take (k + 1) = histories.take k ++ [histories[k]] := by
          rw [List.take_add_one, List.getElem?_eq_getElem hlt, Option.toList_some]
        have htake' : s.body.take (k + 1) = s.body.take k ++ [s.body[k]] := by
          rw [List.take_add_one, hcell, Option.toList_some]
        have hzip : List.zipWith (fun (c : Cell) tokens => (⟨c.gap, tokens⟩ : Cell))
            (s.body.take k ++ [s.body[k]]) (histories.take k ++ [histories[k]])
              = List.zipWith (fun c tokens => ⟨c.gap, tokens⟩) (s.body.take k) (histories.take k)
                ++ [⟨s.body[k].gap, histories[k]⟩] := by
          rw [List.zipWith_append (by rw [List.length_take, List.length_take, h])]
          rfl
        rw [htake, htake', hzip, List.zipIdx_append, List.foldl_append, ih (Nat.le_of_lt hlt),
          if_neg (Nat.ne_of_lt hlt), List.length_take_of_le (Nat.le_of_lt hlt)]
        simp only [List.zipIdx_singleton, List.foldl_cons, List.foldl_nil, Nat.zero_add]
        unfold appendTranslation
        dsimp only
        rw [Tiling.gap_annotated (h ▸ Nat.le_of_lt hlt), Tiling.gapAt_of_cell hcell,
          Tiling.appendSentence_annotated, List.nil_append]
        split
        · rename_i hlast
          rw [Tiling.gap_annotated (h ▸ hk), Tiling.handleEndingWhitespace_annotated,
            List.nil_append, Tiling.gapAt, List.getElem?_eq_none (by omega), Tiling.translated,
            if_neg (List.ne_nil_of_length_pos (by omega))]
          rfl
        · rfl
  have hall := hloop histories.length (Nat.le_refl _)
  rw [List.take_length, if_pos rfl, ← h, List.take_length] at hall
  rw [buildTranslatedText, ← h, hall]
  rfl

/-! ## Sentences and their translations -/

def slice (text : Bytes) (range : Nat × Nat) : Bytes :=
  (text.drop range.1).take (range.2 - range.1)

/-- The pairs of ranges are in order on both sides, and read the sentences,
each with its translation. -/
structure Paired (source target : Bytes) (sentences : List (Bytes × Bytes))
    (pairs : List SentencePair) : Prop where
  reads : pairs.map (fun pair => (slice source pair.source, slice target pair.target)) = sentences
  ordered : pairs.Pairwise fun a b => a.source.2 ≤ b.source.1 ∧ a.target.2 ≤ b.target.1

section Pairs

variable {s t : Tiling}

theorem Tiling.pairs_eq (h : t.body.length = s.body.length) :
    Response.pairs ⟨s.annotated, t.annotated⟩ = (List.range s.body.length).map fun i =>
      ⟨s.annotated.sentenceAsByteRange i, t.annotated.sentenceAsByteRange i⟩ := by
  rw [Response.pairs, Tiling.numSentences_annotated, Tiling.numSentences_annotated, h,
    Nat.min_self]

theorem Tiling.sentence_ordered {i j : Nat} (hij : i < j) (hj : j < s.body.length) :
    (s.annotated.sentenceAsByteRange i).2 ≤ (s.annotated.sentenceAsByteRange j).1 := by
  have hi := List.getElem?_eq_getElem (Nat.lt_trans hij hj)
  rw [Tiling.sentenceAsByteRange_annotated hi,
    Tiling.sentenceAsByteRange_annotated (List.getElem?_eq_getElem hj)]
  show s.start i + _ + _ ≤ s.start j + _
  rw [← Tiling.start_succ hi]
  exact Nat.le_trans (Tiling.start_mono hij) (Nat.le_add_right _ _)

theorem Tiling.sentence_within {i : Nat} (hi : i < s.body.length) :
    (s.annotated.sentenceAsByteRange i).1 ≤ (s.annotated.sentenceAsByteRange i).2
      ∧ (s.annotated.sentenceAsByteRange i).2 ≤ s.text.length := by
  have hcell := List.getElem?_eq_getElem hi
  rw [Tiling.sentenceAsByteRange_annotated hcell]
  refine ⟨Nat.le_add_right _ _, ?_⟩
  show s.start i + _ + _ ≤ _
  rw [← Tiling.start_succ hcell]
  exact Tiling.start_le_text hi

theorem Tiling.paired (h : t.body.length = s.body.length) :
    Paired s.text t.text ((s.body.map Cell.sentence).zip (t.body.map Cell.sentence))
      (Response.pairs ⟨s.annotated, t.annotated⟩) where
  reads := by
    rw [Tiling.pairs_eq h, List.map_map]
    refine List.ext_getElem (by simp [h]) fun i hi _ => ?_
    rw [List.length_map, List.length_range] at hi
    rw [List.getElem_map, List.getElem_range, List.getElem_zip, List.getElem_map,
      List.getElem_map]
    exact Prod.ext (Tiling.sentence_annotated (List.getElem?_eq_getElem hi))
      (Tiling.sentence_annotated (List.getElem?_eq_getElem (h ▸ hi)))
  ordered := by
    rw [Tiling.pairs_eq h, List.pairwise_map]
    refine List.Pairwise.imp_of_mem ?_ List.pairwise_lt_range
    intro i j _ hj hij
    rw [List.mem_range] at hj
    exact ⟨Tiling.sentence_ordered hij hj, Tiling.sentence_ordered hij (h ▸ hj)⟩

/-- The bindings keep all the ranges of a text that is decoded as it is. -/
theorem Tiling.fromEngine_paired {source text : String} (h : t.body.length = s.body.length)
    (hs : s.text = utf8 source) (ht : utf8 text = t.text) :
    Paired (utf8 source) (utf8 text) ((s.body.map Cell.sentence).zip (t.body.map Cell.sentence))
      (fromEngine source.utf8ByteSize text
        (Response.pairs ⟨s.annotated, t.annotated⟩)).sentences := by
  have hkept : (fromEngine source.utf8ByteSize text
      (Response.pairs ⟨s.annotated, t.annotated⟩)).sentences
        = Response.pairs ⟨s.annotated, t.annotated⟩ := by
    rw [fromEngine, List.filter_eq_self]
    intro pair hpair
    rw [Tiling.pairs_eq h] at hpair
    obtain ⟨i, hi, rfl⟩ := List.mem_map.mp hpair
    rw [List.mem_range] at hi
    have hsource := Tiling.sentence_within hi
    have htarget := Tiling.sentence_within (h ▸ hi : i < t.body.length)
    rw [hs, length_utf8] at hsource
    rw [← ht, length_utf8] at htarget
    simp [hsource, htarget]
  rw [hkept, ht, ← hs]
  exact Tiling.paired h

end Pairs

/-! ## Requests -/

/-- What the decoder gives; it is not asked for a text without sentences. -/
def TranslationModel.Decodes (m : TranslationModel) (segments : List Segment)
    (histories : List (List Bytes)) : Prop :=
  if segments = [] then histories = [] else m.translateBatch segments = .ok histories

/-- The source is cut, and its sentences are translated. -/
def TranslationModel.Translates (m : TranslationModel) (source : Bytes) (s t : Tiling) : Prop :=
  ∃ segments histories, m.Cut source segments s ∧ m.Decodes segments histories
    ∧ histories.length = s.body.length ∧ t = s.translated histories

/-- The decoder throws at the segments of the source. -/
def TranslationModel.Fails (m : TranslationModel) (source : Bytes) (message : String) : Prop :=
  ∃ segments s, m.Cut source segments s ∧ segments ≠ []
    ∧ m.translateBatch segments = .error message

/-- The sentences of a text that is cut already are translated: each has its
words for tokens, and is at its end when it has none. -/
def TranslationModel.Continues (m : TranslationModel) (mid t : Tiling) : Prop :=
  ∃ (s : Tiling) (histories : List (List Bytes)), s.text = mid.text
    ∧ tokenRanges 0 s.body = (m.sentencesOf mid).map (fun sentence => rangesOf sentence.1 sentence.2)
    ∧ m.Decodes (m.wordsOf mid) histories ∧ histories.length = s.body.length
    ∧ t = s.translated histories

/-- The decoder throws at the sentences of a text that is cut already. -/
def TranslationModel.FailsOn (m : TranslationModel) (mid : Tiling) (message : String) : Prop :=
  m.wordsOf mid ≠ [] ∧ m.translateBatch (m.wordsOf mid) = .error message

/-- It succeeds, or fails for a reason. -/
def Ends {β : Type*} (answer : Except String β) (good : β → Prop) (fails : String → Prop) : Prop :=
  (∃ b, answer = .ok b ∧ good b) ∨ ∃ message, answer = .error message ∧ fails message

/-- Every text is answered, or the service fails at one of them. -/
def Serves (service : List Bytes → Option (Except String (List Response)))
    (answers : Bytes → Response → Prop) (fails : Bytes → String → Prop) : Prop :=
  ∀ sources, ∃ answer, service sources = some answer
    ∧ Ends answer (List.Forall₂ answers sources)
      (fun message => ∃ source ∈ sources, fails source message)

section Requests

theorem mapM_option {α β : Type*} {f : α → Option β} {R : α → β → Prop}
    (h : ∀ a, ∃ b, f a = some b ∧ R a b) (l : List α) :
    ∃ l', l.mapM f = some l' ∧ List.Forall₂ R l l' := by
  induction l with
  | nil => exact ⟨[], rfl, .nil⟩
  | cons a l ih =>
      obtain ⟨b, hb, hab⟩ := h a
      obtain ⟨l', hl', hall⟩ := ih
      exact ⟨b :: l', by rw [List.mapM_cons, hb, hl']; rfl, .cons hab hall⟩

theorem mapM_except {α β γ : Type*} {f : β → Except String γ} {R : α → β → Prop}
    {good : α → γ → Prop} {fails : α → String → Prop} {l : List α} {l' : List β}
    (hall : List.Forall₂ R l l') (h : ∀ a b, R a b → Ends (f b) (good a) (fails a)) :
    Ends (l'.mapM f) (List.Forall₂ good l) (fun message => ∃ a ∈ l, fails a message) := by
  induction hall with
  | nil => exact .inl ⟨[], rfl, .nil⟩
  | @cons a b l l' hab _ ih =>
      rcases h a b hab with ⟨c, hc, hgood⟩ | ⟨message, hb, hfails⟩
      · rcases ih with ⟨cs, hcs, hgoods⟩ | ⟨message, hl, a', hmem, hfails⟩
        · exact .inl ⟨c :: cs, by rw [List.mapM_cons, hc, hcs]; rfl, .cons hgood hgoods⟩
        · exact .inr ⟨message, by rw [List.mapM_cons, hc, hl]; rfl, a',
            List.mem_cons_of_mem _ hmem, hfails⟩
      · exact .inr ⟨message, by rw [List.mapM_cons, hb]; rfl, a, List.mem_cons_self, hfails⟩

variable {m first second : TranslationModel}

/-- A request for the sentences of a text is answered, or the decoder throws. -/
theorem TranslationModel.Lawful.respond (hm : m.Lawful) {segments : List Segment} {s : Tiling}
    (h : segments.length = s.body.length) :
    Ends (m.respond (segments, s.annotated))
      (fun response => ∃ histories, m.Decodes segments histories
        ∧ histories.length = s.body.length
        ∧ response = ⟨s.annotated, (s.translated histories).annotated⟩)
      (fun message => segments ≠ [] ∧ m.translateBatch segments = .error message) := by
  have hanswer : ∀ histories : List (List Bytes), histories.length = s.body.length →
      (if (Tiling.annotated s).numSentences ≠ histories.length then
          .error "Mismatch in source and translated sentences"
        else .ok ⟨s.annotated, buildTranslatedText s.annotated histories⟩ : Except String Response)
        = .ok ⟨s.annotated, (s.translated histories).annotated⟩ := by
    intro histories hlength
    rw [Tiling.numSentences_annotated, if_neg (not_not.mpr hlength.symm),
      buildTranslatedText_annotated hlength.symm]
  by_cases hnone : segments = []
  · have hlength : ([] : List (List Bytes)).length = s.body.length := by
      rw [← h, hnone]
      rfl
    refine .inl ⟨_, ?_, [], by rw [TranslationModel.Decodes, if_pos hnone], hlength, rfl⟩
    rw [TranslationModel.respond, if_pos hnone]
    exact hanswer [] hlength
  · cases hbatch : m.translateBatch segments with
    | error message =>
        refine .inr ⟨message, ?_, hnone, rfl⟩
        rw [TranslationModel.respond, if_neg hnone, hbatch]
        rfl
    | ok histories =>
        have hlength := (hm.hypotheses segments histories hbatch).trans h
        refine .inl ⟨_, ?_, histories, by rw [TranslationModel.Decodes, if_neg hnone, hbatch],
          hlength, rfl⟩
        rw [TranslationModel.respond, if_neg hnone, hbatch]
        exact hanswer histories hlength

theorem TranslationModel.Lawful.serves (hm : m.Lawful) :
    Serves (translateMultiple m)
      (fun source response => ∃ s t, m.Translates source s t
        ∧ response = ⟨s.annotated, t.annotated⟩) m.Fails := by
  intro sources
  have hprocess : ∀ source, ∃ request, m.process source = some request
      ∧ ∃ s, m.Cut source request.1 s ∧ request.2 = Tiling.annotated s := by
    intro source
    obtain ⟨segments, s, hprocess, hs⟩ := hm.process source
    exact ⟨_, hprocess, s, hs, rfl⟩
  obtain ⟨requests, hrequests, hcut⟩ := mapM_option hprocess sources
  refine ⟨requests.mapM m.respond, by rw [translateMultiple, hrequests]; rfl, ?_⟩
  refine mapM_except hcut fun source request hrequest => ?_
  obtain ⟨segments, annotated⟩ := request
  obtain ⟨s, hs, rfl⟩ := hrequest
  rcases hm.respond hs.length_eq with ⟨response, hok, histories, hdecodes, hlength, rfl⟩ |
    ⟨message, herror, hne, hthrows⟩
  · exact .inl ⟨_, hok, s, _, ⟨segments, histories, hs, hdecodes, hlength, rfl⟩, rfl⟩
  · exact .inr ⟨message, herror, segments, s, hs, hne, hthrows⟩

/-- The second translation of a pivot goes on with the sentences of the
first. -/
theorem TranslationModel.Lawful.pivot (hm : m.Lawful) (source : AnnotatedText) (mid : Tiling) :
    Ends (m.pivot ⟨source, mid.annotated⟩)
      (fun response => ∃ t, m.Continues mid t ∧ response = ⟨source, Tiling.annotated t⟩)
      (m.FailsOn mid) := by
  obtain ⟨s, hprocess, htext, hranges⟩ := hm.processFromAnnotation mid
  have hlength : (m.wordsOf mid).length = s.body.length := by
    rw [TranslationModel.wordsOf, List.length_map, ← length_tokenRanges 0, hranges,
      List.length_map]
  rcases hm.respond hlength with ⟨response, hok, histories, hdecodes, hhistories, rfl⟩ |
    ⟨message, herror, hthrows⟩
  · refine .inl ⟨_, ?_, _, ⟨s, histories, htext, hranges, hdecodes, hhistories, rfl⟩, rfl⟩
    rw [TranslationModel.pivot, hprocess, hok]
    rfl
  · refine .inr ⟨message, ?_, hthrows⟩
    rw [TranslationModel.pivot, hprocess, herror]
    rfl

theorem TranslationModel.Lawful.serves_pivot (hfirst : first.Lawful) (hsecond : second.Lawful) :
    Serves (pivotMultiple first second)
      (fun source response => ∃ s mid t, first.Translates source s mid ∧ second.Continues mid t
        ∧ response = ⟨s.annotated, Tiling.annotated t⟩)
      (fun source message => first.Fails source message
        ∨ ∃ s mid, first.Translates source s mid ∧ second.FailsOn mid message) := by
  intro sources
  obtain ⟨answer, hanswer, hends⟩ := hfirst.serves sources
  rcases hends with ⟨responses, rfl, hall⟩ | ⟨message, rfl, source, hmem, hfails⟩
  · refine ⟨responses.mapM second.pivot, by rw [pivotMultiple, hanswer]; rfl, ?_⟩
    refine mapM_except hall fun source response hresponse => ?_
    obtain ⟨s, mid, hs, rfl⟩ := hresponse
    rcases hsecond.pivot s.annotated mid with ⟨response, hok, t, ht, rfl⟩ |
      ⟨message, herror, hfails⟩
    · exact .inl ⟨_, hok, s, mid, t, hs, ht, rfl⟩
    · exact .inr ⟨message, herror, .inr ⟨s, mid, hs, hfails⟩⟩
  · exact ⟨.error message, by rw [pivotMultiple, hanswer]; rfl,
      .inr ⟨message, rfl, source, hmem, .inl hfails⟩⟩

end Requests

/-! ## The translations of a batch -/

/-- A translation with the sentences of its source. -/
structure Aligned (lossy : Bytes → String) (segment : String) (s t : Tiling)
    (translation : Translation) : Prop where
  text_eq : translation.text = lossy t.text
  within : translation.InTexts segment
  /-- as long as the target is UTF-8 -/
  sentences : utf8 translation.text = t.text → Paired (utf8 segment) (utf8 translation.text)
    ((s.body.map Cell.sentence).zip (t.body.map Cell.sentence)) translation.sentences

/-! A model that cuts a text in its middle, and has a word for each byte. -/

def TranslationModel.halves : TranslationModel where
  stream text := [(0, text.length / 2), (text.length / 2, text.length)]
  encodeWithByteRanges sentence :=
    (sentence.zip (ranges 0 (sentence.map fun byte => [byte]))).map fun word =>
      (word.1.toNat, word.2)
  eosId := 0
  maxLengthBreak := 2
  translateBatch segments := .ok (segments.map fun segment => segment.map fun word =>
    if word = 0 then [] else [UInt8.ofNat word, UInt8.ofNat word])

def decodeOrEmpty (bytes : Bytes) : String := (from_utf8 bytes).getD ""

theorem TranslationModel.lawful_halves : TranslationModel.halves.Lawful where
  ordered := fun text => List.pairwise_pair.mpr (Nat.le_refl _)
  inText := by
    intro text sentence hmem
    rcases List.mem_pair.mp hmem with rfl | rfl
    · exact ⟨Nat.zero_le _, Nat.div_le_self _ _⟩
    · exact ⟨Nat.div_le_self _ _, Nat.le_refl _⟩
  contiguous := by
    intro sentence
    refine ⟨[], sentence.map fun byte => [byte], [], ?_, ?_⟩
    · rw [List.nil_append, List.append_nil, ← List.flatMap_def]
      simp
    · show ((sentence.zip (ranges 0 (sentence.map fun byte => [byte]))).map fun word =>
        (word.1.toNat, word.2)).map Prod.snd = _
      rw [List.map_map]
      exact List.map_snd_zip (by simp)
  hypotheses := by
    intro segments histories h
    obtain rfl := Except.ok.inj h
    exact List.length_map _
  breaks := by decide

section Batch

variable {service : List Bytes → Option (Except String (List Response))}
  {answers : Bytes → Response → Prop} {fails : Bytes → String → Prop}

theorem forall₂_zipWith {α β γ : Type*} {R : α → β → Prop} (f : α → β → γ) {l : List α}
    {l' : List β} (h : List.Forall₂ R l l') :
    List.Forall₂ (fun a c => ∃ b, R a b ∧ c = f a b) l (List.zipWith f l l') := by
  induction h with
  | nil => exact .nil
  | cons hab _ ih => exact .cons ⟨_, hab, rfl⟩ ih

/-- A batch is as long as its segments, or an error of the engine. -/
theorem translate_batch_serves (h : Serves service answers fails) (lossy : Bytes → String)
    (segments : List String) :
    ∃ reply, translate_batch lossy service segments = some reply
      ∧ ((∃ translations, reply = .ok translations
          ∧ List.Forall₂ (fun segment translation => ∃ response, answers (utf8 segment) response
            ∧ translation
              = fromEngine segment.utf8ByteSize (lossy response.target.text) response.pairs)
            segments translations)
        ∨ ∃ message, reply = .error (.engine message)
          ∧ ∃ segment ∈ segments, fails (utf8 segment) message) := by
  by_cases hnone : segments = []
  · subst hnone
    exact ⟨_, rfl, .inl ⟨[], rfl, .nil⟩⟩
  have hmap : segments.map utf8 ≠ [] := fun hnil => hnone (List.map_eq_nil_iff.mp hnil)
  obtain ⟨answer, hanswer, ⟨responses, rfl, hall⟩ | ⟨message, rfl, source, hmem, hfails⟩⟩ :=
    h (segments.map utf8)
  · have hlength := hall.length_eq
    have hresult : dg_translate_batch service (segments.map utf8)
        = some (.ok (responses.foldl dg_result.push ⟨[], []⟩)) := by
      rw [dg_translate_batch, if_neg hmap, hanswer, Option.map_some]
      dsimp only
      rw [if_neg (not_not.mpr hlength.symm)]
    have hreply : ∃ translations, translate_batch lossy service segments
        = some (.ok translations) := by
      apply Exists.intro
      rw [translate_batch, hresult]
      rfl
    obtain ⟨translations, hreply⟩ := hreply
    obtain ⟨responses', hservice, -, rfl⟩ := translations_eq hreply
    obtain rfl : responses = responses' := by
      have := (hservice hnone).symm.trans hanswer
      exact (Except.ok.inj (Option.some.inj this)).symm
    refine ⟨_, hreply, .inl ⟨_, rfl, ?_⟩⟩
    exact forall₂_zipWith _ (List.forall₂_map_left_iff.mp hall)
  · obtain ⟨segment, hsegment, rfl⟩ := List.mem_map.mp hmem
    refine ⟨.error (.engine message), ?_, .inr ⟨message, rfl, segment, hsegment, hfails⟩⟩
    rw [translate_batch, dg_translate_batch, if_neg hmap, hanswer]
    rfl

/-- What the bindings make of a response. -/
theorem Tiling.aligned {s t : Tiling} {segment : String} (lossy : Bytes → String)
    (hs : s.text = utf8 segment) (h : t.body.length = s.body.length) :
    Aligned lossy segment s t (fromEngine segment.utf8ByteSize (lossy t.text)
      (Response.pairs ⟨s.annotated, t.annotated⟩)) where
  text_eq := rfl
  within := inTexts_fromEngine _ _ _
  sentences := Tiling.fromEngine_paired h hs

theorem TranslationModel.Translates.length_eq {m : TranslationModel} {source : Bytes}
    {s t : Tiling} (h : m.Translates source s t) : t.body.length = s.body.length := by
  obtain ⟨_, histories, _, _, hlength, rfl⟩ := h
  exact Tiling.length_translated hlength.symm

theorem TranslationModel.Translates.text_eq {m : TranslationModel} {source : Bytes}
    {s t : Tiling} (h : m.Translates source s t) : s.text = source := by
  obtain ⟨_, _, hcut, _⟩ := h
  exact hcut.text_eq

theorem TranslationModel.Continues.length_eq {m : TranslationModel} {mid t : Tiling}
    (h : m.Continues mid t) : t.body.length = mid.body.length := by
  obtain ⟨s, histories, _, hranges, _, hlength, rfl⟩ := h
  rw [Tiling.length_translated hlength.symm, ← length_tokenRanges 0, hranges, List.length_map,
    TranslationModel.length_sentencesOf]

/-- A batch is translated sentence by sentence: the splitter's sentences are
wrapped, each translation is the gaps of its segment with what the decoder gave
between them, and its ranges pair the sentences of both. Only the decoder fails,
at a segment of the batch. -/
theorem translate_batch_aligned {m : TranslationModel} (hm : m.Lawful) (lossy : Bytes → String)
    (segments : List String) :
    ∃ reply, translate_batch lossy (translateMultiple m) segments = some reply
      ∧ ((∃ translations, reply = .ok translations
          ∧ List.Forall₂ (fun segment translation => ∃ s t, m.Translates (utf8 segment) s t
            ∧ Aligned lossy segment s t translation) segments translations)
        ∨ ∃ message, reply = .error (.engine message)
          ∧ ∃ segment ∈ segments, m.Fails (utf8 segment) message) := by
  obtain ⟨reply, hreply, ⟨translations, rfl, hall⟩ | hfails⟩ :=
    translate_batch_serves hm.serves lossy segments
  · refine ⟨_, hreply, .inl ⟨translations, rfl, hall.imp fun segment translation h => ?_⟩⟩
    obtain ⟨_, ⟨s, t, hst, rfl⟩, rfl⟩ := h
    exact ⟨s, t, hst, Tiling.aligned lossy hst.text_eq hst.length_eq⟩
  · exact ⟨reply, hreply, .inr hfails⟩

theorem translate_batch_aligned_halves :
    ∃ s t, TranslationModel.halves.Translates (utf8 "abc") s t
      ∧ Aligned decodeOrEmpty "abc" s t
        ⟨"aabbcc", [⟨(0, 1), (0, 2)⟩, ⟨(1, 2), (2, 4)⟩, ⟨(2, 3), (4, 6)⟩]⟩ := by
  have hrun : translate_batch decodeOrEmpty (translateMultiple .halves) ["abc"]
      = some (.ok [⟨"aabbcc", [⟨(0, 1), (0, 2)⟩, ⟨(1, 2), (2, 4)⟩, ⟨(2, 3), (4, 6)⟩]⟩]) := by
    decide +kernel
  obtain ⟨reply, hreply, ⟨translations, rfl, hall⟩ | ⟨_, _, _, _, _, _, _, _, hthrows⟩⟩ :=
    translate_batch_aligned TranslationModel.lawful_halves decodeOrEmpty ["abc"]
  · obtain rfl := Except.ok.inj (Option.some.inj (hreply.symm.trans hrun))
    cases hall with
    | cons h _ => exact h
  · cases hthrows

/-- A pivot keeps the sentences of the segment: those of the intermediate
text are translated on, and their translations are paired with those of the
segment. -/
theorem pivot_batch_aligned {first second : TranslationModel} (hfirst : first.Lawful)
    (hsecond : second.Lawful) (lossy : Bytes → String) (segments : List String) :
    ∃ reply, translate_batch lossy (pivotMultiple first second) segments = some reply
      ∧ ((∃ translations, reply = .ok translations
          ∧ List.Forall₂ (fun segment translation => ∃ s mid t,
            first.Translates (utf8 segment) s mid ∧ second.Continues mid t
              ∧ Aligned lossy segment s t translation) segments translations)
        ∨ ∃ message, reply = .error (.engine message)
          ∧ ∃ segment ∈ segments, first.Fails (utf8 segment) message
            ∨ ∃ s mid, first.Translates (utf8 segment) s mid ∧ second.FailsOn mid message) := by
  obtain ⟨reply, hreply, ⟨translations, rfl, hall⟩ | hfails⟩ :=
    translate_batch_serves (hfirst.serves_pivot hsecond) lossy segments
  · refine ⟨_, hreply, .inl ⟨translations, rfl, hall.imp fun segment translation h => ?_⟩⟩
    obtain ⟨_, ⟨s, mid, t, hmid, ht, rfl⟩, rfl⟩ := h
    exact ⟨s, mid, t, hmid, ht,
      Tiling.aligned lossy hmid.text_eq (ht.length_eq.trans hmid.length_eq)⟩
  · exact ⟨reply, hreply, .inr hfails⟩

theorem pivot_batch_aligned_halves :
    ∃ s mid t, TranslationModel.halves.Translates (utf8 "ab") s mid
      ∧ TranslationModel.halves.Continues mid t
      ∧ Aligned decodeOrEmpty "ab" s t ⟨"aaaabbbb", [⟨(0, 1), (0, 4)⟩, ⟨(1, 2), (4, 8)⟩]⟩ := by
  have hrun : translate_batch decodeOrEmpty (pivotMultiple .halves .halves) ["ab"]
      = some (.ok [⟨"aaaabbbb", [⟨(0, 1), (0, 4)⟩, ⟨(1, 2), (4, 8)⟩]⟩]) := by
    decide +kernel
  obtain ⟨reply, hreply, ⟨translations, rfl, hall⟩ |
    ⟨_, _, _, _, ⟨_, _, _, _, hthrows⟩ | ⟨_, _, _, _, hthrows⟩⟩⟩ :=
    pivot_batch_aligned TranslationModel.lawful_halves TranslationModel.lawful_halves
      decodeOrEmpty ["ab"]
  · obtain rfl := Except.ok.inj (Option.some.inj (hreply.symm.trans hrun))
    cases hall with
    | cons h _ => exact h
  · cases hthrows
  · cases hthrows

end Batch

end Dragomand
