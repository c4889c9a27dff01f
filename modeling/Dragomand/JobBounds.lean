import Mathlib.Algebra.Order.BigOperators.Group.List
import Dragomand.DaemonPivot
import Dragomand.DocumentLines
import Dragomand.RequestJobs

/-!
# The size of a job

`translate` checks the limits before it makes a request; the loop of
`translate_fd` packs lines while they fit, and takes a line that does not
fit on its own. So a job keeps to the limits, or it is one line of a
document that is longer than `MAX_TOTAL_BYTES`. The engine is called with
parts of a job (`Cut`), and so the same holds of every call.
-/

namespace Dragomand

/-- Within the limits of a request. -/
structure JobBounded (segments : List String) : Prop where
  length : segments.length ≤ MAX_SEGMENTS
  bytes : (segments.map String.utf8ByteSize).sum ≤ MAX_TOTAL_BYTES

theorem JobBounded.sublist {segments segments' : List String} (h : JobBounded segments)
    (hsub : segments'.Sublist segments) : JobBounded segments' where
  length := hsub.length_le.trans h.length
  bytes := ((hsub.map _).sum_le_sum fun _ _ => Nat.zero_le _).trans h.bytes

/-! ## Chunks -/

section Chunks

variable {lines : List String}

theorem length_documentChunk_le {count : Nat} (bytes : Nat) (left : List Nat)
    (h : count ≤ DOCUMENT_CHUNK_LINES) :
    count + (documentChunk lines count bytes left).length ≤ DOCUMENT_CHUNK_LINES := by
  induction left generalizing count bytes with
  | nil => exact h
  | cons line left ih =>
      unfold documentChunk
      dsimp only
      split
      · exact h
      · rename_i hgo
        have hne : count ≠ DOCUMENT_CHUNK_LINES := by
          rintro rfl
          simp at hgo
        have := @ih (count + 1) (bytes + (lines.getD line "").utf8ByteSize) (by omega)
        rw [List.length_cons]
        omega

/-- After the first line, lines are taken while they fit. -/
theorem bytes_documentChunk_le {count bytes : Nat} (left : List Nat) (hcount : count ≠ 0)
    (h : bytes ≤ MAX_TOTAL_BYTES) :
    bytes + ((documentChunk lines count bytes left).map
      fun line => (lines.getD line "").utf8ByteSize).sum ≤ MAX_TOTAL_BYTES := by
  induction left generalizing count bytes with
  | nil => exact h
  | cons line left ih =>
      unfold documentChunk
      dsimp only
      split
      · exact h
      · rename_i hgo
        have hfits : bytes + (lines.getD line "").utf8ByteSize ≤ MAX_TOTAL_BYTES := by
          simp only [Bool.or_eq_true, decide_eq_true_eq, Bool.and_eq_true, not_or, not_and] at hgo
          exact Nat.le_of_not_lt (hgo.2 hcount)
        have := @ih (count + 1) _ (by omega) hfits
        rw [List.map_cons, List.sum_cons]
        omega

/-- After a line that does not fit on its own, none is. -/
theorem documentChunk_full {count bytes : Nat} (left : List Nat) (hcount : count ≠ 0)
    (h : MAX_TOTAL_BYTES < bytes) : documentChunk lines count bytes left = [] := by
  cases left with
  | nil => rfl
  | cons line left =>
      unfold documentChunk
      refine if_pos ?_
      simp only [Bool.or_eq_true, decide_eq_true_eq, Bool.and_eq_true]
      exact Or.inr ⟨hcount, Nat.lt_of_lt_of_le h (Nat.le_add_right _ _)⟩

/-- A chunk keeps to the limits, or is one line that does not. -/
theorem documentChunk_cases (left : List Nat) :
    JobBounded ((documentChunk lines 0 0 left).map fun line => lines.getD line "")
      ∨ ∃ line ∈ left, documentChunk lines 0 0 left = [line]
          ∧ MAX_TOTAL_BYTES < (lines.getD line "").utf8ByteSize := by
  have hlength := @length_documentChunk_le lines _ 0 left (Nat.zero_le _)
  have hsegments : DOCUMENT_CHUNK_LINES ≤ MAX_SEGMENTS := by decide
  cases left with
  | nil => exact Or.inl ⟨Nat.zero_le _, Nat.zero_le _⟩
  | cons line left =>
      have hfirst : documentChunk lines 0 0 (line :: left)
          = line :: documentChunk lines 1 (lines.getD line "").utf8ByteSize left := by
        rw [documentChunk, if_neg (by simp [DOCUMENT_CHUNK_LINES]), Nat.zero_add, Nat.zero_add]
      by_cases hfits : (lines.getD line "").utf8ByteSize ≤ MAX_TOTAL_BYTES
      · refine Or.inl ⟨?_, ?_⟩
        · rw [List.length_map]
          omega
        · have := @bytes_documentChunk_le lines _ _ left Nat.one_ne_zero hfits
          rw [List.map_map, hfirst, List.map_cons, List.sum_cons]
          exact this
      · have hlt := Nat.lt_of_not_le hfits
        refine Or.inr ⟨line, List.mem_cons_self .., ?_, hlt⟩
        rw [hfirst, documentChunk_full left Nat.one_ne_zero hlt]

/-- The lines outside the chunk are as before. -/
theorem getD_setLines_of_notMem {chunk : List Nat} (translations : List Translation) {i : Nat}
    (hi : i ∉ chunk) : (setLines lines chunk translations).getD i "" = lines.getD i "" := by
  induction chunk generalizing lines translations with
  | nil => rfl
  | cons line chunk ih =>
      cases translations with
      | nil => rfl
      | cons translation translations =>
          obtain ⟨hne, hi⟩ := List.mem_cons.not.mp hi |> not_or.mp
          refine (@ih (lines.set line translation.text) translations hi).trans ?_
          rw [List.getD_eq_getElem?_getD, List.getElem?_set_ne (Ne.symm hne),
            List.getD_eq_getElem?_getD]

end Chunks

/-! ## What the futures submit -/

section Futures

variable {host : Host} {route : service.Route} {h : Asked} {entry : Nat} {segments : List String}
  {html : Bool} {priority : Priority}

/-- A job of the loop is a chunk of lines that are still as they were. -/
theorem asks_translateLines {wanted : List Nat} {steps done : Nat} {lines : List String}
    {pivot : Option String}
    (hask : (translateLines route wanted steps done lines pivot).Asks h
      (.submit entry segments html priority)) (hnodup : wanted.Nodup) :
    ∃ left lines', left ≠ [] ∧ left ⊆ wanted.drop done
      ∧ (∀ i ∈ left, lines'.getD i "" = lines.getD i "")
      ∧ segments = (documentChunk lines' 0 0 left).map fun i => lines'.getD i "" := by
  induction steps generalizing h done lines pivot with
  | zero => exact absurd hask Prog.asks_pure
  | succ steps ih =>
      unfold translateLines at hask
      split at hask
      · rename_i hmore
        rcases Prog.asks_bind.mp hask with
          hfirst | ⟨h₁, h₂, ⟨translations, pivot₁⟩, rfl, -, hrest⟩
        · obtain rfl := (only_run_translation h _ hfirst).2 _ _ _ _ rfl
          refine ⟨wanted.drop done, lines, ?_, List.Subset.refl _, fun _ _ => rfl, rfl⟩
          rw [Ne, List.drop_eq_nil_iff]
          omega
        dsimp only at hrest
        split at hrest
        · exact absurd hrest Prog.asks_throw
        rcases Prog.asks_ask_bind.mp hrest with ⟨-, heq⟩ | ⟨answer, h₃, rfl, hloop⟩
        · cases heq
        obtain ⟨left, lines', hne, hleft, hsame, hsegments⟩ := ih hloop
        -- what is left after the chunk is not in the chunk
        have hsplit := @documentChunk_append_drop lines wanted done
        have hdisjoint : ∀ i ∈ left, i ∉ documentChunk lines 0 0 (wanted.drop done) := by
          intro i hi hchunk
          have hnodup' := hsplit ▸ hnodup.sublist (List.drop_sublist done wanted)
          exact List.disjoint_of_nodup_append hnodup' hchunk (hleft hi)
        refine ⟨left, lines', hne, fun i hi => ?_, fun i hi => ?_, hsegments⟩
        · rw [← hsplit]
          exact List.mem_append_right _ (hleft hi)
        · exact (hsame i hi).trans (getD_setLines_of_notMem _ (hdisjoint i hi))
      · exact absurd hask Prog.asks_pure

/-- The operation submits a job. -/
def Op.isJob : Op → Bool
  | .submit _ _ _ _ => true
  | _ => false

theorem only_install_pair {P : Op → Prop} {source target : String}
    (h : P (.install_pair source target)) : (install_pair source target).Only P :=
  Prog.only_ask_bind h fun _ => Prog.only_done

/-- What `prepare_pair` asks for. -/
def Op.prepares (source target : String) (allow_pivot : Bool) : Op → Prop
  | .start | .config | .stores | .emit_progress _ _ | .install_pair _ _ | .pivot _ | .drop _ => True
  | .ensure_loaded source' target' allow_pivot' _ =>
      (source', target') = (source, target) ∧ allow_pivot' = allow_pivot
  | _ => False

theorem Op.prepares.isJob {source target : String} {allow_pivot : Bool} {op : Op}
    (h : op.prepares source target allow_pivot) : op.isJob = false := by
  cases op <;> first | rfl | exact h.elim

section Prepare

variable {source target : String} {allow_pivot : Bool}

theorem only_installLegs (legs : List Key) :
    (installLegs legs).Only (Op.prepares source target allow_pivot) := by
  induction legs with
  | nil => exact Prog.only_pure
  | cons leg legs ih =>
      refine Prog.only_ask_bind trivial fun stores => ?_
      split
      · exact Prog.Only.bind (only_install_pair trivial) fun _ => ih
      · exact ih

theorem only_installMissing :
    (installMissing source target allow_pivot).Only (Op.prepares source target allow_pivot) := by
  refine Prog.only_ask_bind trivial fun stores => ?_
  split
  · exact Prog.only_pure
  · refine Prog.Only.bind (Prog.only_ask_bind trivial fun config => ?_) fun _ =>
      Prog.only_ask_bind trivial fun _ => only_installLegs _
    split
    · exact Prog.only_pure
    · exact Prog.only_throw

theorem only_prepare_pair :
    (prepare_pair source target allow_pivot).Only (Op.prepares source target allow_pivot) := by
  refine Prog.only_ask_bind trivial fun _ => only_installMissing.bind fun _ =>
    Prog.only_ask_bind trivial fun _ => Prog.Only.bind ?_ fun _ => Prog.only_ask_bind trivial fun _ =>
      Prog.only_ask_bind trivial fun _ => Prog.only_ask_bind trivial fun _ => Prog.only_pure
  exact Prog.only_ask_bind trivial fun _ => Prog.only_ask_bind ⟨rfl, rfl⟩ fun _ => Prog.only_done

end Prepare

theorem only_installPair (source target : String) :
    (installPair source target).Only fun op => op.isJob = false :=
  Prog.only_ask_bind rfl fun _ => Prog.Only.bind (only_install_pair rfl) fun _ => Prog.only_pure

theorem only_checkForUpdates : checkForUpdates.Only fun op => op.isJob = false :=
  Prog.only_ask_bind rfl fun _ => Prog.Only.bind
    (Prog.only_ask_bind rfl fun _ => Prog.only_done) fun _ =>
      Prog.only_ask_bind rfl fun _ => Prog.only_pure

/-- The job is one line of the document that the request read, and that line
is longer than the limit. -/
def OverlongLine (host : Host) (method : Method) (h : Asked) (segments : List String) : Prop :=
  ∃ route text line, method = .translate_fd route ∧ text ∈ reads h ∧ line ∈ wantedLines host text
    ∧ segments = [line] ∧ MAX_TOTAL_BYTES < line.utf8ByteSize

theorem asks_translate_fd
    (hask : (translate_fd host route).Asks h (.submit entry segments html priority)) :
    segments ≠ [] ∧ (JobBounded segments ∨ OverlongLine host (.translate_fd route) h segments) := by
  rcases Prog.asks_ask_bind.mp hask with ⟨-, heq⟩ | ⟨start, h₀, rfl, hask₀⟩
  · cases heq
  rcases Prog.asks_bind.mp hask₀ with hread | ⟨h₁, h₂, text, rfl, hread, hask₁⟩
  · rcases Prog.asks_ask_bind.mp hread with ⟨-, heq⟩ | ⟨_, _, -, hend⟩
    · cases heq
    · exact absurd hend Prog.asks_done
  obtain rfl := runs_read.mp hread
  rcases Prog.asks_bind.mp hask₁ with hloop | ⟨_, h₃, ⟨lines', pivot⟩, rfl, -, hwrite⟩
  · obtain ⟨left, lines', hne, hleft, hsame, rfl⟩ :=
      asks_translateLines hloop (List.nodup_range.filter _)
    refine ⟨by simpa using documentChunk_ne_nil hne, ?_⟩
    rcases @documentChunk_cases lines' left with hbounded | ⟨i, hi, hchunk, hlong⟩
    · exact Or.inl hbounded
    · rw [hchunk, List.map_singleton, hsame i hi]
      rw [hsame i hi] at hlong
      have hwanted : i ∈ wantedPlaces host (documentLines text) := List.mem_of_mem_drop (hleft hi)
      refine Or.inr ⟨route, text, _, rfl, ?_, ?_, rfl, hlong⟩
      · exact List.mem_cons_self ..
      · rw [wantedLines, ← wantedPlaces_lines]
        exact List.mem_map_of_mem hwanted
  · rcases Prog.asks_bind.mp hwrite with hwrite | ⟨_, _, _, -, -, hend⟩
    · rcases Prog.asks_ask_bind.mp hwrite with ⟨-, heq⟩ | ⟨_, _, -, hend⟩
      · cases heq
      · exact absurd hend Prog.asks_done
    · exact absurd hend Prog.asks_pure

theorem asks_translate {segments₀ : List String} {want_sentences : Bool}
    (hask : (translate route segments₀ want_sentences).Asks h
      (.submit entry segments html priority)) : segments = segments₀ := by
  rcases Prog.asks_ask_bind.mp hask with ⟨-, heq⟩ | ⟨start, h₀, rfl, hask₀⟩
  · cases heq
  rcases Prog.asks_bind.mp hask₀ with hjob | ⟨_, _, _, -, -, hend⟩
  · exact (only_run_translation _ _ hjob).2 _ _ _ _ rfl
  · exact absurd hend Prog.asks_pure

/-- What `translate` checks up front. -/
theorem Method.check_translate {config : Config} {disk : Disk} {sender token : String}
    {want_sentences : Bool}
    (hcheck : (Method.translate route segments want_sentences).check host config disk sender token
      = .ok ()) : segments ≠ [] ∧ JobBounded segments := by
  simp only [Method.check] at hcheck
  cases hlangs : check_langs host route.source route.target with
  | error e =>
      rw [hlangs] at hcheck
      cases hcheck
  | ok _ =>
      rw [hlangs] at hcheck
      simp only [Bind.bind, Except.bind] at hcheck
      split at hcheck
      · cases hcheck
      · rename_i hne
        split at hcheck
        · cases hcheck
        · rename_i hlength
          split at hcheck
          · cases hcheck
          · rename_i hbytes
            exact ⟨by simpa using hne, Nat.le_of_not_lt hlength, Nat.le_of_not_lt hbytes⟩

/-- A job of any request. -/
theorem Method.asks_submit {method : Method} {prog : Async Results} {config : Config}
    {disk : Disk} {sender token : String}
    (hcheck : method.check host config disk sender token = .ok ())
    (hfuture : method.future host = some prog)
    (hask : prog.Asks h (.submit entry segments html priority)) :
    segments ≠ [] ∧ (JobBounded segments ∨ OverlongLine host method h segments) := by
  have hno : ∀ {prog : Async Results}, (prog.Only fun op => op.isJob = false) →
      ¬ prog.Asks h (.submit entry segments html priority) :=
    fun honly hask => Bool.noConfusion (honly h _ hask)
  cases method with
  | translate route segments₀ want_sentences =>
      cases hfuture
      obtain rfl := asks_translate hask
      obtain ⟨hne, hbounded⟩ := Method.check_translate hcheck
      exact ⟨hne, Or.inl hbounded⟩
  | translate_fd route =>
      cases hfuture
      exact asks_translate_fd hask
  | prepare_pair source target allow_pivot =>
      cases hfuture
      exact absurd hask (hno (only_prepare_pair.mono fun _ h => h.isJob))
  | install_pair source target =>
      cases hfuture
      exact absurd hask (hno (only_installPair source target))
  | check_for_updates =>
      cases hfuture
      exact absurd hask (hno only_checkForUpdates)
  | quick | version | cancel => cases hfuture

/-- A job in the history of a request. -/
theorem Work.Ran.submission {work : Work} {job : Submission} (hran : work.Ran host h)
    (hjob : job ∈ submissions h) :
    job.segments ≠ [] ∧ (JobBounded job.segments ∨ OverlongLine host work.method h job.segments) := by
  obtain ⟨config, disk, sender, token, hcheck⟩ := hran.checked
  obtain ⟨prog, hfuture, hpath⟩ := hran.path
  obtain ⟨html, priority, hmem⟩ := mem_of_mem_submissions hjob
  obtain ⟨h₁, h₂, rfl, hask⟩ := hpath.asks_of_mem hmem
  obtain ⟨hne, hbounded | ⟨route, text, line, hmethod, htext, hlong⟩⟩ :=
    Method.asks_submit hcheck hfuture hask
  · exact ⟨hne, Or.inl hbounded⟩
  · refine ⟨hne, Or.inr ⟨route, text, line, hmethod, ?_, hlong⟩⟩
    rw [reads_append]
    exact List.mem_append_left _ htext

end Futures

/-! ## What the engine is called with -/

/-- The jobs held, and those at the engine, are cut from accepted ones. -/
structure Cut (s : Scheduler) : Prop where
  held : ∀ job ∈ s.toHandOver, ∃ job₀ ∈ s.accepted,
    job.remaining <:+ job₀.remaining ∧ job.cancelled = job₀.cancelled
  called : ∀ job chunk, .called job chunk ∈ s.log → ∃ job₀ ∈ s.accepted,
    chunk.Sublist job₀.remaining ∧ job.cancelled = job₀.cancelled

section Calls

variable {translate : Bool → List String → List Translation} {flags : Nat → Bool}
  {s s' : Scheduler}

theorem Cut.extend (hc : Cut s) (hacc : s.accepted ⊆ s'.accepted)
    (hheld : ∀ job ∈ s'.toHandOver, job ∈ s.toHandOver ∨ ∃ job₀ ∈ s'.accepted,
      job.remaining <:+ job₀.remaining ∧ job.cancelled = job₀.cancelled)
    (hcalled : ∀ job chunk, .called job chunk ∈ s'.log → .called job chunk ∈ s.log
      ∨ ∃ job₀ ∈ s'.accepted, chunk.Sublist job₀.remaining ∧ job.cancelled = job₀.cancelled) :
    Cut s' where
  held := by
    intro job hjob
    rcases hheld job hjob with hold | hnew
    · obtain ⟨job₀, hmem, hcut⟩ := hc.held job hold
      exact ⟨job₀, hacc hmem, hcut⟩
    · exact hnew
  called := by
    intro job chunk hjob
    rcases hcalled job chunk hjob with hold | hnew
    · obtain ⟨job₀, hmem, hcut⟩ := hc.called job chunk hold
      exact ⟨job₀, hacc hmem, hcut⟩
    · exact hnew

theorem QueuedJob.drained_suffix (job : QueuedJob) : job.drained.remaining <:+ job.remaining :=
  ⟨job.chunk, job.chunk_append_drained⟩

theorem QueuedJob.chunk_sublist (job : QueuedJob) : job.chunk.Sublist job.remaining := by
  conv_rhs => rw [← job.chunk_append_drained]
  exact List.sublist_append_left ..

theorem cut_step (h : s.Transition translate flags s') (hc : Cut s) : Cut s' := by
  have hmoved : s'.accepted = s.accepted → s'.toHandOver ⊆ s.toHandOver →
      (∀ job chunk, .called job chunk ∈ s'.log → .called job chunk ∈ s.log) → Cut s' :=
    fun hacc hheld hcalled => hc.extend (hacc ▸ List.Subset.refl _)
      (fun _ hjob => Or.inl (hheld hjob)) fun _ _ hjob => Or.inl (hcalled _ _ hjob)
  cases h with
  | @accept job hopen hdone hreply =>
      refine hc.extend (List.subset_cons_self ..) (fun job' hjob => ?_) (fun job' chunk hjob => ?_)
      · simp only [Scheduler.toHandOver] at hjob
        rcases List.mem_append.mp hjob with hpc | hq
        · exact Or.inl (List.mem_append_left _ hpc)
        · rcases List.mem_cons.mp ((QueueInner.pushBack_perm _ job).mem_iff.mp hq) with rfl | hold
          · exact Or.inr ⟨job', List.mem_cons_self .., List.suffix_refl _, rfl⟩
          · exact Or.inl (List.mem_append_right _ hold)
      · rcases List.mem_cons.mp hjob with heq | hold
        · cases heq
        · exact Or.inl hold
  | refuse | close => exact hmoved rfl (List.Subset.refl _) (by simp [Scheduler.close])
  | permit => exact hmoved rfl (List.Subset.refl _) (by simp)
  | wake _ hpc | leave hpc | await hpc | consume hpc | park hpc | resume hpc | skip hpc
  | check hpc | finish hpc | stop hpc | completed hpc | failed hpc | leftover hpc =>
      refine hmoved rfl ?_ (by simp)
      simp [Scheduler.toHandOver, hpc, Pc.toHandOver]
  | @answer reply result leftovers hpc =>
      refine hmoved rfl ?_ (by simp)
      cases leftovers <;> simp [Scheduler.toHandOver, hpc, Pc.toHandOver]
  | @take job inner hpc hpop =>
      refine hmoved rfl ?_ (by simp)
      simp only [Scheduler.toHandOver, hpc, Pc.toHandOver, QueueInner.popFront_append hpop]
      exact List.Subset.refl _
  | @requeue job hpc =>
      refine hmoved rfl ?_ (fun _ _ hjob => hjob)
      intro job' hmem
      simp only [Scheduler.toHandOver, hpc, Pc.toHandOver, List.nil_append, List.mem_append,
        List.mem_cons, List.not_mem_nil, or_false] at hmem ⊢
      tauto
  | @drain hpc =>
      refine hmoved rfl ?_ (fun _ _ hjob => hjob)
      simp [Scheduler.toHandOver, Pc.toHandOver]
  | @call job hpc =>
      obtain ⟨job₀, hmem, hsuffix, hflag⟩ :=
        hc.held job (by simp [Scheduler.toHandOver, hpc, Pc.toHandOver])
      refine hc.extend (List.Subset.refl _) (fun job' hjob => ?_) (fun job' chunk hjob => ?_)
      · rcases List.mem_append.mp hjob with htaken | hq
        · obtain rfl : job' = job.drained := by
            simp only [Pc.toHandOver] at htaken
            split at htaken
            · cases htaken
            · exact List.mem_singleton.mp htaken
          exact Or.inr ⟨job₀, hmem, job.drained_suffix.trans hsuffix, by simpa using hflag⟩
        · exact Or.inl (List.mem_append_right _ hq)
      · rcases List.mem_cons.mp hjob with heq | hold
        · cases heq
          exact Or.inr ⟨job₀, hmem, job.chunk_sublist.trans hsuffix.sublist, hflag⟩
        · exact Or.inl hold
  | @progressed job chunk hpc hrest =>
      obtain ⟨job₀, hmem, hcut⟩ :=
        hc.held job (by simp [Scheduler.toHandOver, hpc, Pc.toHandOver, hrest])
      refine hc.extend (List.Subset.refl _) (fun job' hjob => ?_) (fun job' chunk hjob => ?_)
      · rcases List.mem_append.mp hjob with htaken | hq
        · obtain rfl := List.mem_singleton.mp htaken
          exact Or.inr ⟨job₀, hmem, hcut⟩
        · exact Or.inl (List.mem_append_right _ hq)
      · rcases List.mem_cons.mp hjob with heq | hold
        · cases heq
        · exact Or.inl hold

end Calls

/-! ## Whole runs -/

section Runs

variable {host : Host} {ok : Daemon → DaemonEvent → Prop} {config : Config} {d : Daemon}

theorem cut_init : Cut Scheduler.init where
  held := by simp [Scheduler.init, Scheduler.toHandOver, Pc.toHandOver]
  called := by simp [Scheduler.init]

theorem cut_of_reach
    (hreach : Machine.Reach (Daemon.step host) ok (Daemon.init config host) d) {k : Nat}
    {entry : PairEntry} (hentry : d.workers.heap[k]? = some entry) : Cut entry.scheduler := by
  refine hreach.invariant (I := fun d => ∀ (k : Nat) (entry : PairEntry),
    d.workers.heap[k]? = some entry → Cut entry.scheduler) ?_ ?_ k entry hentry
  · simp [Daemon.init, Workers.init]
  · intro d e d' _ _ hs ih k entry' hentry'
    rcases (Daemon.step_cases hs).2.workers with hw | ⟨event, hw, -⟩
    · exact ih k entry' (hw ▸ hentry')
    · rcases Workers.heap_cases hw hentry' with
        ⟨entry, hentry, hev⟩ | ⟨-, _, _, _, _, _, _, _, -, rfl⟩
      · rcases hev.transition with hsame | htr
        · exact hsame ▸ ih k entry hentry
        · exact cut_step htr (ih k entry hentry)
      · exact cut_init

/-- Every job that reaches `PairEntry::submit`, and every call of an engine
for an interactive job, is within the limits. -/
structure Daemon.JobsBounded (d : Daemon) : Prop where
  submitted : ∀ (id : Nat) (work : Work) (entry : Nat) (segments : List String) (html : Bool)
    (priority : Priority) (next : Option Nat → Async Results), d.works[id]? = some work →
    work.prog = .op (.submit entry segments html priority) next → JobBounded segments
  called : ∀ (k : Nat) (entry : PairEntry) (job : QueuedJob) (chunk : List String),
    d.workers.heap[k]? = some entry → .called job chunk ∈ entry.scheduler.log →
    job.priority = .interactive → JobBounded chunk

/-- The same, but for a single line of a document of `TranslateFd` that is
longer than `MAX_TOTAL_BYTES` on its own. -/
structure Daemon.JobsLimited (host : Host) (d : Daemon) : Prop where
  submitted : ∀ (id : Nat) (work : Work) (entry : Nat) (segments : List String) (html : Bool)
    (priority : Priority) (next : Option Nat → Async Results), d.works[id]? = some work →
    work.prog = .op (.submit entry segments html priority) next →
    JobBounded segments ∨ ∃ h, work.Ran host h ∧ OverlongLine host work.method h segments
  called : ∀ (k : Nat) (entry : PairEntry) (job : QueuedJob) (chunk : List String),
    d.workers.heap[k]? = some entry → .called job chunk ∈ entry.scheduler.log →
    JobBounded chunk ∨ ∃ work h, d.works[job.cancelled]? = some work ∧ work.Ran host h
      ∧ OverlongLine host work.method h chunk

/-- A part of a job. -/
theorem OverlongLine.sublist {method : Method} {h : Asked} {segments chunk : List String}
    (hlong : OverlongLine host method h segments) (hsub : chunk.Sublist segments) :
    JobBounded chunk ∨ OverlongLine host method h chunk := by
  obtain ⟨route, text, line, hmethod, htext, hline, rfl, hbytes⟩ := hlong
  rcases List.sublist_singleton.mp hsub with rfl | rfl
  · exact Or.inl ⟨Nat.zero_le _, Nat.zero_le _⟩
  · exact Or.inr ⟨route, text, line, hmethod, htext, hline, rfl, hbytes⟩

/-- **The jobs are bounded**, but for a line longer than the limit. -/
theorem jobs_limited
    (hreach : Machine.Reach (Daemon.step host) Machine.anyStep (Daemon.init config host) d) :
    d.JobsLimited host where
  submitted := by
    intro id work entry segments html priority next hwork hprog
    obtain ⟨h, hran, -⟩ := backs_of_reach hreach hwork
    obtain ⟨config, disk, sender, token, hcheck⟩ := hran.checked
    obtain ⟨prog, hfuture, hpath⟩ := hran.path
    rw [hprog] at hpath
    exact (Method.asks_submit hcheck hfuture ⟨next, hpath⟩).2.imp_right fun hlong =>
      ⟨h, hran, hlong⟩
  called := by
    intro k entry job chunk hentry hcalled
    obtain ⟨job₀, hjob₀, hsub, hflag⟩ := (cut_of_reach hreach hentry).called job chunk hcalled
    obtain ⟨work, hwork⟩ := works_of_accepted hreach hentry hjob₀
    obtain ⟨h, hran, hbacks⟩ := backs_of_reach hreach hwork
    rcases (hran.submission (hbacks.accepted k entry job₀ hentry hjob₀ rfl)).2 with
      hbounded | hlong
    · exact Or.inl (hbounded.sublist hsub)
    · exact (hlong.sublist hsub).imp_right fun hlong' =>
        ⟨work, h, by rw [hflag, hwork], hran, hlong'⟩

end Runs

/-- A batch job of 17 segments, one more than the engine is given at once. -/
def batchOf17 : List DaemonEvent :=
  [.store (diskOf [("bg", "de")]),
    .receive ":1.7" "t"
      (.translate ⟨"bg", "de", false, false, .batch⟩ (List.replicate 17 "a") false),
    .touch 0, .handle 0, .requests (.register 0), .requests (.at 0 none), .work 0 .proceed,
    .work 0 .proceed, .work 0 (.ensure (diskOf [("bg", "de")]))]
    ++ loadRoute 0 ++ [.work 0 .proceed] ++ List.replicate 3 (.workers (.scheduler 0 .proceed))
    ++ [.workers (.scheduler 0 (.engine none))]
    ++ List.replicate 4 (.workers (.scheduler 0 .proceed))
    ++ [.workers (.scheduler 0 (.engine none))]

/-- The job goes to the engine in two parts. -/
theorem jobs_limited_two_parts :
    ∃ d, Machine.Reach (Daemon.step echoHost) Machine.anyStep (Daemon.init .default echoHost) d
      ∧ d.workers.handed 0 0 = [["a"], List.replicate 16 "a"] ∧ d.JobsLimited echoHost := by
  obtain ⟨d, hreach, hd⟩ := Machine.exists_reach_of_run (Daemon.step echoHost) Machine.anyStep
    (Daemon.init .default echoHost) batchOf17
    (fun d : Daemon => decide (d.workers.handed 0 0 = [["a"], List.replicate 16 "a"]))
    (by decide +kernel)
  exact ⟨d, hreach, of_decide_eq_true hd, jobs_limited hreach⟩

/-! ## A long line -/

/-- A line of `n` letters. -/
def letters (n : Nat) : String := String.ofList (List.replicate n 'a')

theorem utf8ByteSize_letters (n : Nat) : (letters n).utf8ByteSize = n := by
  induction n with
  | zero => rfl
  | succ n ih =>
      have hsplit : letters (n + 1) = letters n ++ String.ofList ['a'] := by
        rw [letters, List.replicate_succ']
        exact String.ofList_append
      have hone : (String.ofList ['a']).utf8ByteSize = 1 := rfl
      rw [hsplit, String.utf8ByteSize_append, ih, hone]

theorem documentLines_letters (n : Nat) : documentLines (letters n) = [letters n] := by
  have hnot : '\n' ∉ List.replicate n 'a' := by simp [List.mem_replicate]
  rw [documentLines, letters, String.toList_ofList, List.splitOn_eq_singleton hnot]
  rfl

theorem wantedPlaces_letters (n : Nat) : wantedPlaces echoHost [letters (n + 1)] = [0] := by
  have hwants : echoHost.wants (letters (n + 1)) = true := by
    rw [Host.wants, letters, String.toList_ofList, List.replicate_succ, List.any_cons]
    rfl
  simp [wantedPlaces, hwants]

/-- Bulgarian to English, at once. -/
def routeBgEn : service.Route := ⟨"bg", "en", false, false, .interactive⟩

/-- A client sends a document, up to the reading of it. -/
def documentBgEn : List DaemonEvent :=
  [.store (diskOf [("bg", "en")]), .receive ":1.7" "t" (.translate_fd routeBgEn), .touch 0,
    .handle 0, .requests (.register 0), .requests (.at 0 none), .work 0 .proceed]

def beforeRead : Daemon :=
  (Machine.run (Daemon.step echoHost) Machine.anyStep (Daemon.init .default echoHost)
    documentBgEn).getD (Daemon.init .default echoHost)

/-- The document has been read, as the lines, of which those at the places
of `wanted` are to be translated. -/
def afterRead (wanted : List Nat) (lines : List String) : Daemon :=
  { beforeRead with
    works := [⟨.translate_fd routeBgEn, [], do
      let (lines, pivot) ← translateLines routeBgEn wanted wanted.length 0 lines none
      (ask (.write_document ("\n".intercalate lines)) >>= ofResult)
      pure ([(result_key.LINES, .u32 (wanted.length % 2 ^ 32))] ++ pivotResult pivot)⟩] }

def Work.submitting (work : Work) : Option (List String) :=
  match work.prog with
  | .op (.submit _ segments _ _) _ => some segments
  | _ => none

/-- A document of one line is submitted as one job, whatever the length of
the line. -/
theorem reach_submit {text : String} (hlines : documentLines text = [text])
    (hwanted : wantedPlaces echoHost [text] = [0]) :
    ∃ d, Machine.Reach (Daemon.step echoHost) Machine.anyStep (Daemon.init .default echoHost) d
      ∧ (d.works[0]?.bind Work.submitting) = some [text] := by
  have hbefore : Machine.run (Daemon.step echoHost) Machine.anyStep
      (Daemon.init .default echoHost) documentBgEn = some beforeRead := rfl
  have hread : beforeRead.step echoHost (.work 0 (.read (.ok text)))
      = some (afterRead (wantedPlaces echoHost (documentLines text)) (documentLines text)) := rfl
  rw [hlines, hwanted] at hread
  have hafter : ((Machine.run (Daemon.step echoHost) Machine.anyStep (afterRead [0] [text])
      [.work 0 .proceed, .work 0 (.ensure (diskOf [("bg", "en")])),
        .work 0 (.loaded (.ok 0))]).bind fun d => d.works[0]?.bind Work.submitting)
      = some [text] := rfl
  obtain ⟨d, hrun, hsubmit⟩ := Option.bind_eq_some_iff.mp hafter
  exact ⟨d, ((Machine.Reach.of_run hbefore).trans (Machine.Reach.one trivial hread)).trans
    (Machine.Reach.of_run hrun), hsubmit⟩

/-- A document that is one line of 1 MiB and a byte, which `read_document`
accepts: the line is one job. -/
theorem jobs_not_bounded :
    ∃ d, Machine.Reach (Daemon.step echoHost) Machine.anyStep (Daemon.init .default echoHost) d
      ∧ read_document (.ok (letters (MAX_TOTAL_BYTES + 1)).toUTF8) MAX_DOCUMENT_BYTES
        = .ok (letters (MAX_TOTAL_BYTES + 1))
      ∧ (d.works[0]?.bind Work.submitting) = some [letters (MAX_TOTAL_BYTES + 1)]
      ∧ ¬ d.JobsBounded := by
  obtain ⟨d, hreach, hsubmit⟩ := reach_submit (documentLines_letters (MAX_TOTAL_BYTES + 1))
    (wantedPlaces_letters MAX_TOTAL_BYTES)
  have haccepted : (letters (MAX_TOTAL_BYTES + 1)).utf8ByteSize ≤ MAX_DOCUMENT_BYTES := by
    rw [utf8ByteSize_letters]
    decide
  refine ⟨d, hreach, read_document_utf8 haccepted, hsubmit, fun hbounded => ?_⟩
  obtain ⟨work, hwork, hsubmit⟩ := Option.bind_eq_some_iff.mp hsubmit
  unfold Work.submitting at hsubmit
  split at hsubmit
  · rename_i entry segments html priority next hprog
    obtain rfl := Option.some.inj hsubmit
    have hbytes := (hbounded.submitted 0 work entry _ html priority next hwork hprog).bytes
    rw [List.map_singleton, List.sum_singleton, utf8ByteSize_letters] at hbytes
    exact absurd hbytes (by simp)
  · cases hsubmit

end Dragomand
