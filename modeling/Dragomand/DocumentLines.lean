import Mathlib.Data.List.GetD
import Dragomand.Daemon
import Dragomand.RunTranslation

/-!
# Documents, line by line

The loop of `translate_fd` takes the lines to translate in chunks, under
two limits, and writes each translation where its line was. Every chunk is
a piece of what is left and not empty, and a line that is not in it is not
touched: so the chunks are, one after the other, the lines to translate,
and the text written is the map of the document, line by line.
-/

namespace Dragomand

/-! ## The document -/

/-- Reads all of the input (at most `limit` bytes) as UTF-8. `file` is what
the descriptor has, or the error of reading it. -/
def read_document (file : Except String ByteArray) (limit : Nat) : Except String String :=
  match file with
  | .error e => .error ("reading the input failed: " ++ e)
  | .ok content =>
      let bytes := content.extract 0 (limit + 1)
      if bytes.size > limit then
        .error ("the input is larger than " ++ toString limit ++ " bytes")
      else
        match String.fromUTF8? bytes with
        | none => .error "the input is not valid UTF-8"
        | some text => .ok text

theorem read_document_utf8 {text : String} {limit : Nat} (h : text.utf8ByteSize ≤ limit) :
    read_document (.ok text.toUTF8) limit = .ok text := by
  have hall : text.toUTF8.extract 0 (limit + 1) = text.toUTF8 := by
    ext1
    rw [ByteArray.data_extract]
    exact Array.extract_eq_self_of_le (Nat.le_succ_of_le h)
  have hutf8 : String.fromUTF8? text.toUTF8 = some text := dif_pos text.isValidUTF8
  simp only [read_document, hall, hutf8]
  exact if_neg (Nat.not_lt_of_le h)

theorem size_of_read_document {file : Except String ByteArray} {limit : Nat} {text : String}
    (h : read_document file limit = .ok text) : text.utf8ByteSize ≤ limit := by
  cases file with
  | error e => cases h
  | ok content =>
      simp only [read_document] at h
      split at h
      · cases h
      · rename_i hsize
        split at h
        · cases h
        · rename_i text' htext
          cases h
          obtain ⟨hvalid, htext⟩ := Option.dite_none_right_eq_some.mp htext
          rw [← Option.some.inj htext]
          exact Nat.le_of_not_lt hsize

/-- The document split at the line ends. -/
def documentLines (text : String) : List String := (text.toList.splitOn '\n').map String.ofList

/-- The line has a letter or a digit. -/
def Host.wants (host : Host) (line : String) : Bool := line.toList.any host.is_alphanumeric

/-- The lines of the document to translate. -/
def wantedLines (host : Host) (text : String) : List String :=
  (documentLines text).filter host.wants

/-- The plain line map. -/
def lineMap (host : Host) (f : String → String) (text : String) : String :=
  "\n".intercalate ((documentLines text).map fun line => if host.wants line then f line else line)

/-! ## Chunks -/

section Chunks

variable {lines : List String}

/-- A chunk is the beginning of what is left. -/
theorem documentChunk_isPrefix (count bytes : Nat) (left : List Nat) :
    documentChunk lines count bytes left <+: left := by
  induction left generalizing count bytes with
  | nil => exact List.prefix_refl _
  | cons line left ih =>
      unfold documentChunk
      dsimp only
      split
      · exact List.nil_prefix
      · exact (List.prefix_cons_inj line).mpr (ih _ _)

/-- It has a line, whatever the limits. -/
theorem documentChunk_ne_nil {left : List Nat} (h : left ≠ []) :
    documentChunk lines 0 0 left ≠ [] := by
  cases left with
  | nil => exact absurd rfl h
  | cons line left => simp [documentChunk, DOCUMENT_CHUNK_LINES]

/-- What is left after a chunk, and the chunk before it. -/
theorem documentChunk_append_drop (wanted : List Nat) (done : Nat) :
    documentChunk lines 0 0 (wanted.drop done)
        ++ wanted.drop (done + (documentChunk lines 0 0 (wanted.drop done)).length)
      = wanted.drop done := by
  obtain ⟨rest, hrest⟩ := @documentChunk_isPrefix lines 0 0 (wanted.drop done)
  rw [← List.drop_drop]
  generalize documentChunk lines 0 0 (wanted.drop done) = chunk at hrest ⊢
  rw [← hrest, List.drop_left]

/-- The loop comes nearer to its end with every chunk. -/
theorem documentChunk_progress {wanted : List Nat} {done : Nat} (h : done < wanted.length) :
    done < done + (documentChunk lines 0 0 (wanted.drop done)).length := by
  have hleft : wanted.drop done ≠ [] := by
    rw [Ne, List.drop_eq_nil_iff]
    omega
  have := List.length_pos_iff.mpr (@documentChunk_ne_nil lines _ hleft)
  omega

/-! ## The translations in their places -/

theorem length_setLines (chunk : List Nat) (translations : List Translation) :
    (setLines lines chunk translations).length = lines.length := by
  induction chunk generalizing lines translations with
  | nil => rfl
  | cons line chunk ih =>
      cases translations with
      | nil => rfl
      | cons translation translations =>
          exact (@ih (lines.set line translation.text) translations).trans (by simp)

/-- Where the translations are given by `g`, so are the lines of the chunk,
and the others are as before. -/
theorem getD_setLines {g : Nat → String} {chunk : List Nat} {translations : List Translation}
    (hg : translations.map (·.text) = chunk.map g) (hrange : ∀ i ∈ chunk, i < lines.length)
    (i : Nat) : (setLines lines chunk translations).getD i ""
      = if i ∈ chunk then g i else lines.getD i "" := by
  induction chunk generalizing lines translations with
  | nil => rfl
  | cons line chunk ih =>
      cases translations with
      | nil => cases hg
      | cons translation translations =>
          obtain ⟨htext, hg⟩ := List.cons.inj hg
          have hline : line < lines.length := hrange line (List.mem_cons_self ..)
          have hset := @ih (lines.set line translation.text) _ hg
            fun i hi => by simpa using hrange i (List.mem_cons_of_mem _ hi)
          rw [show setLines lines (line :: chunk) (translation :: translations)
            = setLines (lines.set line translation.text) chunk translations from rfl, hset]
          by_cases hi : i ∈ chunk
          · rw [if_pos hi, if_pos (List.mem_cons_of_mem _ hi)]
          · rw [if_neg hi]
            by_cases heq : i = line
            · subst heq
              rw [if_pos (List.mem_cons_self ..), List.getD_eq_getElem?_getD,
                List.getElem?_set_self hline]
              exact htext
            · rw [if_neg (by simp [heq, hi]), List.getD_eq_getElem?_getD,
                List.getElem?_set_ne (Ne.symm heq), List.getD_eq_getElem?_getD]

end Chunks

/-! ## The loop -/

/-- The history is one of a request whose input is `file`, and whose routes
translate every segment with `f`. -/
structure Faithful (file : Except String ByteArray) (f : String → String) (h : Asked) : Prop where
  reads : ∀ text ∈ reads h, read_document file MAX_DOCUMENT_BYTES = .ok text
  replies : ∀ job ∈ submissions h, ∀ translations,
    (job.entry, job.receiver, some (.ok translations)) ∈ replies h →
    translations.map (·.text) = job.segments.map f

theorem Faithful.left {file : Except String ByteArray} {f : String → String} {h h' : Asked}
    (hf : Faithful file f (h ++ h')) : Faithful file f h where
  reads := fun text hmem => hf.reads text (by simp [hmem])
  replies := fun job hjob translations hreply =>
    hf.replies job (by simp [hjob]) translations (by simp [hreply])

theorem Faithful.right {file : Except String ByteArray} {f : String → String} {h h' : Asked}
    (hf : Faithful file f (h ++ h')) : Faithful file f h' where
  reads := fun text hmem => hf.reads text (by simp [hmem])
  replies := fun job hjob translations hreply =>
    hf.replies job (by simp [hjob]) translations (by simp [hreply])

/-- From `lines` to `lines'`, the lines of `left` are translated and the
others as before, and the jobs are the lines of `left` in their order. -/
structure LinesMapped (f : String → String) (left : List Nat) (lines lines' : List String)
    (h : Asked) : Prop where
  length : lines'.length = lines.length
  texts : ∀ i, lines'.getD i "" = if i ∈ left then f (lines.getD i "") else lines.getD i ""
  jobs : (submissions h).flatMap Submission.segments = left.map fun i => lines.getD i ""

section Loop

variable {route : service.Route} {wanted : List Nat} {f : String → String}
  {file : Except String ByteArray} {h : Asked}

theorem LinesMapped.trans {chunk rest : List Nat} {lines lines₁ lines' : List String}
    {h₁ h₂ : Asked} (hfirst : LinesMapped f chunk lines lines₁ h₁)
    (hrest : LinesMapped f rest lines₁ lines' h₂) (hdisjoint : ∀ i ∈ chunk, i ∉ rest) :
    LinesMapped f (chunk ++ rest) lines lines' (h₁ ++ h₂) where
  length := hrest.length.trans hfirst.length
  texts := fun i => by
    rw [hrest.texts, hfirst.texts]
    by_cases hchunk : i ∈ chunk
    · simp [hchunk, hdisjoint i hchunk]
    · simp [hchunk]
  jobs := by
    rw [submissions_append, List.flatMap_append, hfirst.jobs, hrest.jobs, List.map_append]
    refine congrArg (_ ++ ·) (List.map_congr_left fun i hi => ?_)
    rw [hfirst.texts, if_neg fun hchunk => hdisjoint i hchunk hi]

theorem runs_translateLines {steps done : Nat} {lines lines' : List String}
    {pivot pivot' : Option String}
    (hrun : (translateLines route wanted steps done lines pivot).Runs h (.ok (lines', pivot')))
    (hf : Faithful file f h) (hsteps : wanted.length ≤ done + steps) (hnodup : wanted.Nodup)
    (hrange : ∀ i ∈ wanted, i < lines.length) :
    LinesMapped f (wanted.drop done) lines lines' h := by
  have hend : ∀ {done : Nat} {lines : List String}, wanted.length ≤ done →
      LinesMapped f (wanted.drop done) lines lines [] := by
    intro done lines hdone
    rw [List.drop_eq_nil_of_le hdone]
    exact ⟨rfl, fun i => rfl, rfl⟩
  induction steps generalizing h done lines pivot with
  | zero =>
      obtain ⟨rfl, heq⟩ := Prog.runs_pure.mp hrun
      cases heq
      exact hend (by omega)
  | succ steps ih =>
      unfold translateLines at hrun
      split at hrun
      · rename_i hmore
        rcases Prog.runs_bind.mp hrun with
          ⟨e, -, heq⟩ | ⟨h₁, h₂, ⟨translations, pivot₁⟩, rfl, htranslated, hrest⟩
        · cases heq
        obtain ⟨entry, receiver, ht⟩ := runs_run_translation htranslated
        dsimp only at hrest
        split at hrest
        · exact absurd (Prog.runs_throw.mp hrest).2 nofun
        obtain ⟨answer, h₃, rfl, hloop⟩ := Prog.runs_ask_bind.mp hrest
        -- the chunk is translated with `f`, line by line
        have hprogress := @documentChunk_progress lines _ _ hmore
        have hsplit := @documentChunk_append_drop lines wanted done
        generalize documentChunk lines 0 0 (wanted.drop done) = chunk at ht hloop hprogress hsplit
        have hleft : (chunk ++ wanted.drop (done + chunk.length)).Nodup :=
          hsplit ▸ hnodup.sublist (List.drop_sublist _ _)
        have hchunk : ∀ i ∈ chunk, i < lines.length := fun i hi =>
          hrange i (List.mem_of_mem_drop (hsplit ▸ List.mem_append_left _ hi))
        have htexts : translations.map (·.text) = chunk.map fun i => f (lines.getD i "") := by
          have hreply := hf.left.replies _ (ht.submissions ▸ List.mem_singleton_self _)
            translations ht.reply
          simpa [List.map_map, Function.comp_def] using hreply
        have hfirst : LinesMapped f chunk lines (setLines lines chunk translations) h₁ :=
          ⟨length_setLines _ _, getD_setLines htexts hchunk, by simp [ht.submissions]⟩
        have hnext := ih hloop (Faithful.right (h := [_]) hf.right) (by omega) fun i hi => by
          rw [length_setLines]
          exact hrange i hi
        rw [← hsplit]
        have hrest : LinesMapped f (wanted.drop (done + chunk.length)) _ lines'
            (⟨.emit_progress (done + chunk.length, wanted.length) "translating", answer⟩ :: h₃) :=
          ⟨hnext.length, hnext.texts, hnext.jobs⟩
        exact hfirst.trans hrest fun i hi => List.disjoint_of_nodup_append hleft hi
      · rename_i hdone
        obtain ⟨rfl, heq⟩ := Prog.runs_pure.mp hrun
        cases heq
        exact hend (Nat.le_of_not_lt hdone)

/-- The loop ends by its own condition: more steps change nothing. -/
theorem translateLines_steps (steps extra done : Nat) (lines : List String)
    (pivot : Option String) (hsteps : wanted.length ≤ done + steps) :
    translateLines route wanted (steps + extra) done lines pivot
      = translateLines route wanted steps done lines pivot := by
  induction steps generalizing done lines pivot with
  | zero =>
      cases extra with
      | zero => rfl
      | succ extra =>
          rw [Nat.zero_add]
          unfold translateLines
          exact if_neg (by omega)
  | succ steps ih =>
      rw [Nat.add_right_comm]
      unfold translateLines
      split
      · rename_i hmore
        have hprogress := @documentChunk_progress lines _ _ hmore
        refine congrArg (Prog.bind _) (funext fun ⟨translations, pivot₁⟩ => ?_)
        dsimp only
        split
        · rfl
        · exact congrArg (Prog.op _) (funext fun _ => ih _ _ _ (by omega))
      · rfl

end Loop

/-! ## The number of lines -/

theorem length_le_utf8ByteSize (text : List Char) :
    text.length ≤ (String.ofList text).utf8ByteSize := by
  induction text with
  | nil => exact Nat.zero_le _
  | cons c text ih =>
      have hsplit : String.ofList (c :: text) = String.ofList [c] ++ String.ofList text :=
        @String.ofList_append [c] text
      have hpos : (String.ofList [c]).utf8ByteSize ≠ 0 := by
        rw [Ne, String.utf8ByteSize_eq_zero_iff]
        simp
      rw [hsplit, String.utf8ByteSize_append, List.length_cons]
      omega

theorem length_splitOn_le (text : List Char) (sep : Char) :
    (text.splitOn sep).length ≤ text.length + 1 := by
  induction text with
  | nil => simp
  | cons c text ih =>
      rw [List.splitOn_cons_eq_if_modifyHead]
      split <;> simp only [List.length_cons, List.length_modifyHead] <;> omega

/-- As many lines as bytes and one more at most, which a `u32` can count. -/
theorem length_wantedLines_lt {host : Host} {text : String}
    (h : text.utf8ByteSize ≤ MAX_DOCUMENT_BYTES) : (wantedLines host text).length < 2 ^ 32 := by
  have hlines : (wantedLines host text).length ≤ text.toList.length + 1 := by
    refine (List.length_filter_le _ _).trans ?_
    rw [documentLines, List.length_map]
    exact length_splitOn_le _ _
  have hbytes := length_le_utf8ByteSize text.toList
  rw [String.ofList_toList] at hbytes
  have hmax : MAX_DOCUMENT_BYTES + 1 < 2 ^ 32 := by decide
  omega

/-! ## The request -/

section Request

variable {host : Host} {route : service.Route} {f : String → String}
  {file : Except String ByteArray} {h : Asked}

/-- The places of the lines to translate. -/
def wantedPlaces (host : Host) (lines : List String) : List Nat :=
  (List.range lines.length).filter fun i => host.wants (lines.getD i "")

theorem map_getD_range (lines : List String) :
    ((List.range lines.length).map fun i => lines.getD i "") = lines := by
  refine List.ext_getElem (by simp) fun i hi hi' => ?_
  simp [List.getD_eq_getElem?_getD, hi']

theorem wantedPlaces_lines (lines : List String) :
    ((wantedPlaces host lines).map fun i => lines.getD i "") = lines.filter host.wants := by
  conv_rhs => rw [← map_getD_range lines]
  rw [List.filter_map]
  rfl

theorem mem_wantedPlaces {lines : List String} {i : Nat} :
    i ∈ wantedPlaces host lines ↔ i < lines.length ∧ host.wants (lines.getD i "") = true := by
  simp [wantedPlaces]

/-- Once the wanted places are mapped, so is the document. -/
theorem LinesMapped.document {lines lines' : List String}
    (hm : LinesMapped f (wantedPlaces host lines) lines lines' h) :
    lines' = lines.map fun line => if host.wants line then f line else line := by
  refine List.ext_getElem (by simp [hm.length]) fun i hi hi' => ?_
  have hlt : i < lines.length := hm.length ▸ hi
  have htext := hm.texts i
  rw [List.getD_eq_getElem _ _ hi, List.getD_eq_getElem _ _ hlt] at htext
  rw [htext, List.getElem_map]
  refine if_congr ?_ rfl rfl
  rw [mem_wantedPlaces, List.getD_eq_getElem _ _ hlt]
  exact and_iff_right hlt

/-- What the run of a request with result `result` did: on success it wrote
the line map of the document, after every line to translate was in one job;
when it failed, it wrote nothing, or all was translated and the output did
not take it. -/
structure MapsLines (host : Host) (file : Except String ByteArray) (f : String → String)
    (h : Asked) (result : Except Error Results) : Prop where
  success : ∀ results, result = .ok results → ∃ text pivot,
    read_document file MAX_DOCUMENT_BYTES = .ok text
      ∧ writes h = [lineMap host f text]
      ∧ (submissions h).flatMap Submission.segments = wantedLines host text
      ∧ results = (result_key.LINES, .u32 (wantedLines host text).length) :: pivotResult pivot
  failure : ∀ e, result = .error e → writes h = [] ∨ ∃ text,
    read_document file MAX_DOCUMENT_BYTES = .ok text
      ∧ writes h = [lineMap host f text]
      ∧ (submissions h).flatMap Submission.segments = wantedLines host text
      ∧ ⟨.write_document (lineMap host f text), .error e⟩ ∈ h

/-- The loop leaves the document alone. -/
theorem only_translateLines {wanted : List Nat} {steps done : Nat} {lines : List String}
    {pivot : Option String} : (translateLines route wanted steps done lines pivot).Only
      fun op => op.onDocument = false := by
  induction steps generalizing done lines pivot with
  | zero => exact Prog.only_pure
  | succ steps ih =>
      unfold translateLines
      split
      · refine Prog.Only.bind (fun h op hask => (only_run_translation h op hask).1) fun t => ?_
        dsimp only
        split
        · exact Prog.only_throw
        · exact Prog.only_op rfl fun _ => ih
      · exact Prog.only_pure

theorem writes_translateLines {wanted : List Nat} {steps done : Nat} {lines : List String}
    {pivot : Option String} {result : Except Error (List String × Option String)}
    (hrun : (translateLines route wanted steps done lines pivot).Runs h result) : writes h = [] :=
  writes_eq_nil (only_translateLines.mem hrun)

/-- Reading the input, and what it comes to. -/
theorem runs_read {limit : Nat} {result : Except Error String} :
    (ask (.read_document limit) >>= ofResult).Runs h result
      ↔ h = [⟨.read_document limit, result⟩] := by
  constructor
  · intro hrun
    obtain ⟨answer, _, rfl, hend⟩ := Prog.runs_ask_bind.mp hrun
    obtain ⟨rfl, rfl⟩ := Prog.runs_done.mp hend
    rfl
  · rintro rfl
    exact .cons .nil

theorem runs_write {text : String} {result : Except Error Unit} :
    (ask (.write_document text) >>= ofResult).Runs h result
      ↔ h = [⟨.write_document text, result⟩] := by
  constructor
  · intro hrun
    obtain ⟨answer, _, rfl, hend⟩ := Prog.runs_ask_bind.mp hrun
    obtain ⟨rfl, rfl⟩ := Prog.runs_done.mp hend
    rfl
  · rintro rfl
    exact .cons .nil

theorem mapsLines_of_runs {result : Except Error Results}
    (hrun : (translate_fd host route).Runs h result) (hf : Faithful file f h) :
    MapsLines host file f h result := by
  obtain ⟨start, h₀, rfl, hrun₀⟩ := Prog.runs_ask_bind.mp hrun
  have hf₀ : Faithful file f h₀ := Faithful.right (h := [_]) hf
  rcases Prog.runs_bind.mp hrun₀ with ⟨e, hread, rfl⟩ | ⟨h₁, h₂, text, rfl, hread, hrest⟩
  · -- the input could not be read
    obtain rfl := runs_read.mp hread
    exact ⟨nofun, fun _ _ => Or.inl rfl⟩
  obtain rfl := runs_read.mp hread
  have htext := hf₀.left.reads text (List.mem_singleton_self _)
  rcases Prog.runs_bind.mp hrest with
    ⟨e, hloop, rfl⟩ | ⟨h₃, h₄, ⟨lines', pivot⟩, rfl, hloop, hwrite⟩
  · -- a step failed
    refine ⟨nofun, fun _ _ => Or.inl ?_⟩
    show writes h₂ = []
    exact writes_translateLines hloop
  have hquiet := writes_translateLines hloop
  have hmapped := runs_translateLines hloop hf₀.right.left (by simp)
    (List.nodup_range.filter _) fun i hi => (mem_wantedPlaces.mp hi).1
  rw [List.drop_zero] at hmapped
  have hjobs := hmapped.jobs.trans (@wantedPlaces_lines host (documentLines text))
  obtain rfl := hmapped.document
  rcases Prog.runs_bind.mp hwrite with ⟨e, hfail, rfl⟩ | ⟨h₅, h₆, written, rfl, hdone, hend⟩
  · -- the output did not take it
    obtain rfl := runs_write.mp hfail
    refine ⟨nofun, fun e' he => Or.inr ⟨text, htext, ?_, ?_, ?_⟩⟩
    · show writes (h₃ ++ [⟨.write_document (lineMap host f text), .error e⟩]) = _
      rw [writes_append, hquiet]
      rfl
    · show (submissions (h₃ ++ [⟨.write_document (lineMap host f text), .error e⟩])).flatMap _ = _
      rw [submissions_append, List.flatMap_append, hjobs]
      exact List.append_nil _
    · cases he
      show _ ∈ _ :: _ :: (h₃ ++ [⟨.write_document (lineMap host f text), .error e⟩])
      simp
  · obtain rfl := runs_write.mp hdone
    obtain ⟨rfl, rfl⟩ := Prog.runs_pure.mp hend
    refine ⟨fun results hresults => ⟨text, pivot, htext, ?_, ?_, ?_⟩, nofun⟩
    · show writes (h₃ ++ [⟨.write_document (lineMap host f text), .ok written⟩]) = _
      rw [writes_append, hquiet]
      rfl
    · show (submissions (h₃ ++ [⟨.write_document (lineMap host f text), .ok written⟩])).flatMap _ = _
      rw [submissions_append, List.flatMap_append, hjobs]
      exact List.append_nil _
    · cases hresults
      have hcount : (wantedPlaces host (documentLines text)).length
          = (wantedLines host text).length := by
        rw [wantedLines, ← wantedPlaces_lines, List.length_map]
      have hlt := @length_wantedLines_lt host _ (size_of_read_document htext)
      show (result_key.LINES, OwnedValue.u32
        ((wantedPlaces host (documentLines text)).length % 2 ^ 32)) :: pivotResult pivot = _
      rw [hcount, Nat.mod_eq_of_lt hlt]

/-- `TranslateFd` is the plain line map, for the input `file` and routes that
translate every segment with `f`. -/
structure PlainLineMap (host : Host) (route : service.Route) (f : String → String)
    (file : Except String ByteArray) : Prop where
  runs : ∀ (h : Asked) (result : Except Error Results), (translate_fd host route).Runs h result →
    Faithful file f h → MapsLines host file f h result
  /-- The loop ends: no number of further steps is taken. -/
  ends : ∀ (wanted : List Nat) (lines : List String) (extra : Nat),
    translateLines route wanted (wanted.length + extra) 0 lines none
      = translateLines route wanted wanted.length 0 lines none
  /-- Every UTF-8 document within the limit is read. -/
  reads : ∀ text : String, text.utf8ByteSize ≤ MAX_DOCUMENT_BYTES →
    read_document (.ok text.toUTF8) MAX_DOCUMENT_BYTES = .ok text

/-- **`TranslateFd` equals the plain line map.** -/
theorem translate_fd_line_map (host : Host) (route : service.Route) (f : String → String)
    (file : Except String ByteArray) : PlainLineMap host route f file where
  runs := fun _ _ hrun hf => mapsLines_of_runs hrun hf
  ends := fun _ _ _ => translateLines_steps _ _ _ _ _ (Nat.le_add_left _ _)
  reads := fun _ h => read_document_utf8 h

/-- Lines for a step and one more, behind a line of dashes. -/
def longDocument : String := "\n".intercalate (List.replicate 64 "a" ++ ["--", "c"])

/-- A step, on a route that is loaded. -/
def askedChunk (receiver : Nat) (segments : List String) (done : Nat) : Asked :=
  [⟨.config, .default⟩, ⟨.ensure_loaded "bg" "en" true 512, .ok 0⟩,
    ⟨.submit 0 segments false .batch, some receiver⟩,
    ⟨.receive 0 receiver, some (.ok (segments.map fun segment => ⟨segment ++ "!", []⟩))⟩,
    ⟨.pivot 0, none⟩, ⟨.drop 0, ()⟩, ⟨.emit_progress (done, 65) "translating", ()⟩]

def askedTwoChunks : Asked :=
  [⟨.start, ()⟩, ⟨.read_document MAX_DOCUMENT_BYTES, .ok longDocument⟩]
    ++ askedChunk 0 (List.replicate 64 "a") 64 ++ askedChunk 1 ["c"] 65
    ++ [⟨.write_document ("\n".intercalate (List.replicate 64 "a!" ++ ["--", "c!"])), .ok ()⟩]

theorem translate_fd_two_chunks :
    (translate_fd echoHost ⟨"bg", "en", true, false, .batch⟩).Runs askedTwoChunks
        (.ok [(result_key.LINES, .u32 65)])
      ∧ MapsLines echoHost (.ok longDocument.toUTF8) (· ++ "!") askedTwoChunks
        (.ok [(result_key.LINES, .u32 65)]) := by
  have hrun : (translate_fd echoHost ⟨"bg", "en", true, false, .batch⟩).Runs askedTwoChunks
      (.ok [(result_key.LINES, .u32 65)]) := Prog.runs_of_play (by decide +kernel)
  have hjobs : submissions askedTwoChunks = [⟨0, 0, List.replicate 64 "a"⟩, ⟨0, 1, ["c"]⟩] := rfl
  have hreplies : replies askedTwoChunks
      = [(0, 0, some (.ok ((List.replicate 64 "a").map fun segment => ⟨segment ++ "!", []⟩))),
        (0, 1, some (.ok [⟨"c!", []⟩]))] := rfl
  refine ⟨hrun, (translate_fd_line_map _ _ _ _).runs _ _ hrun ⟨?_, ?_⟩⟩
  · intro text htext
    obtain rfl := List.mem_singleton.mp (show text ∈ [longDocument] from htext)
    exact read_document_utf8 (by decide +kernel)
  · intro job hjob translations hreply
    rw [hjobs, List.mem_pair] at hjob
    rw [hreplies, List.mem_pair] at hreply
    rcases hjob with rfl | rfl
    · rcases hreply with hreply | hreply
      · cases hreply
        rfl
      · cases hreply
    · rcases hreply with hreply | hreply
      · cases hreply
      · cases hreply
        rfl

end Request

end Dragomand
